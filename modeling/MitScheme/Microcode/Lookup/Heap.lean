import Mathlib.Data.List.Perm.Basic

/-!
The objects `lookup.c` works on. A reference list is an alist from names to lists of references; what the microcode
searches is the first entry of a name.
-/

namespace MitScheme.Microcode.Lookup

open List
open Function (update)

abbrev Symbol := Nat
abbrev Block := Nat
abbrev TrapId := Nat
abbrev CacheId := Nat
abbrev ReferencesId := Nat

abbrev SlotId := Block × Nat

/-- An environment object. The parent of a frame never changes, so that a chain of frames is a term. -/
inductive Env where
  | null
  | global
  | procedure (id : Nat) (parent : Env)
  deriving DecidableEq, Repr

def Env.environmentP : Env → Bool
  | .null => false
  | _ => true

def Env.procedureP : Env → Bool
  | .procedure _ _ => true
  | _ => false

def Env.rooted : Env → Bool
  | .null => false
  | .global => true
  | .procedure _ parent => parent.rooted

/-- A location that holds the value of a variable. -/
inductive Cell where
  | argument (frame : Env) (index : Nat)
  | binding (pair : Nat)
  | global (symbol : Symbol)
  deriving DecidableEq, Repr

/-- What a value cell or a cache can hold. `externalUnassigned` is the form in which programs see an unassigned value. -/
inductive Obj where
  | datum (n : Nat)
  | externalUnassigned
  | unassigned
  | unbound
  | expensive
  | macroTrap (transformer : Nat)
  | compilerCached (trap : TrapId)
  deriving DecidableEq, Repr

inductive TrapKind where
  | nonTrap
  | unassigned
  | unbound
  | expensive
  | macroTrap
  | compilerCached
  deriving DecidableEq, Repr

def getTrapKind : Obj → TrapKind
  | .datum _ => .nonTrap
  | .externalUnassigned => .nonTrap
  | .unassigned => .unassigned
  | .unbound => .unbound
  | .expensive => .expensive
  | .macroTrap _ => .macroTrap
  | .compilerCached _ => .compilerCached

def mapToUnassigned (value : Obj) : Obj :=
  if value = .externalUnassigned then .unassigned else value

def mapFromUnassigned (value : Obj) : Obj :=
  if value = .unassigned then .externalUnassigned else value

inductive ReferenceKind where
  | lookup
  | assignment
  | operator
  deriving DecidableEq, Repr

def ReferenceKind.all : List ReferenceKind := [.lookup, .assignment, .operator]

theorem ReferenceKind.mem_all (kind : ReferenceKind) : kind ∈ ReferenceKind.all := by
  cases kind <;> simp [ReferenceKind.all]

/-- A weak pair of a block and an offset; the block is `none` once it is `GC_RECLAIMED`. -/
structure Reference where
  block : Option Block
  offset : Nat
  deriving DecidableEq, Repr

abbrev Prefs := List Reference

abbrev Palist := List (Symbol × Prefs)

/-- A clone is a cache too: its value is `expensive`, its `clone` points back, and it shares the references object. -/
structure Cache where
  value : Obj
  clone : Option CacheId
  references : ReferencesId
  deriving DecidableEq, Repr

/-- What a linkage slot holds: the name to link, a cache, or the link that `make_uuo_link` built. -/
inductive Slot where
  | symbol (name : Symbol)
  | cache (cache : CacheId)
  | uuoLink (value : Obj) (cache : CacheId)
  deriving DecidableEq, Repr

/-- The bindings in use, each a symbol with the pair that holds its value, and the number of those that there is room
for. -/
structure Extension where
  bindings : List (Symbol × Nat)
  capacity : Nat
  fits : bindings.length ≤ capacity
  roomy : 0 < capacity

/-- What no operation changes: the parameters of every frame's lambda, and the environment of every compiled block. -/
structure Program where
  parameters : Env → List Symbol
  blockEnvironment : Block → Env

structure Heap where
  value : Cell → Obj
  extension : Env → Option Extension
  trapCache : TrapId → CacheId
  cache : CacheId → Cache
  references : ReferencesId → ReferenceKind → Palist
  slot : SlotId → Slot
  free : Nat

namespace Heap

def setValue (h : Heap) (cell : Cell) (value : Obj) : Heap :=
  { h with value := update h.value cell value }

def setExtension (h : Heap) (frame : Env) (extension : Extension) : Heap :=
  { h with extension := update h.extension frame (some extension) }

def setTrapCache (h : Heap) (trap : TrapId) (cache : CacheId) : Heap :=
  { h with trapCache := update h.trapCache trap cache }

def setCache (h : Heap) (cache : CacheId) (contents : Cache) : Heap :=
  { h with cache := update h.cache cache contents }

def setCacheValue (h : Heap) (cache : CacheId) (value : Obj) : Heap :=
  h.setCache cache { h.cache cache with value := value }

def setCacheClone (h : Heap) (cache : CacheId) (clone : Option CacheId) : Heap :=
  h.setCache cache { h.cache cache with clone := clone }

def cacheReferences (h : Heap) (cache : CacheId) (kind : ReferenceKind) : Palist :=
  h.references (h.cache cache).references kind

def setReferences (h : Heap) (id : ReferencesId) (kind : ReferenceKind) (palist : Palist) : Heap :=
  let lists := update (h.references id) kind palist
  { h with references := update h.references id lists }

def setCacheReferences (h : Heap) (cache : CacheId) (kind : ReferenceKind) (palist : Palist) : Heap :=
  h.setReferences (h.cache cache).references kind palist

def setSlot (h : Heap) (slot : SlotId) (contents : Slot) : Heap :=
  { h with slot := update h.slot slot contents }

@[simp] theorem setValue_value_self (h : Heap) (cell : Cell) (value : Obj) :
    (h.setValue cell value).value cell = value := Function.update_self _ _ _

theorem setValue_value_ne (h : Heap) {cell other : Cell} (value : Obj) (away : other ≠ cell) :
    (h.setValue cell value).value other = h.value other := Function.update_of_ne away _ _

end Heap

def liveSlots (prefs : Prefs) : List SlotId :=
  prefs.filterMap fun reference => reference.block.map fun block => (block, reference.offset)

/-- The live references of a list, with their names, in the order of a walk. -/
def entries (palist : Palist) : List (Symbol × SlotId) :=
  palist.flatMap fun entry => (liveSlots entry.2).map fun slot => (entry.1, slot)

/-- What `WALK_REFERENCES` leaves behind: reclaimed references are dropped, and names that
have no reference left. -/
def pruneReferences (palist : Palist) : Palist :=
  (palist.map fun entry => (entry.1, entry.2.filter fun reference => reference.block.isSome)).filter
    fun entry => entry.2 ≠ []

def findReferencesNamed : Palist → Symbol → Option Prefs
  | [], _ => none
  | (name, prefs) :: rest, symbol =>
    if name = symbol then some prefs else findReferencesNamed rest symbol

/-- A store through the location that `findReferencesNamed` returns. -/
def setReferencesNamed : Palist → Symbol → Prefs → Palist
  | [], _, _ => []
  | (name, prefs) :: rest, symbol, new =>
    if name = symbol then (name, new) :: rest
    else (name, prefs) :: setReferencesNamed rest symbol new

/-- The first reclaimed reference is reused; without one the list gets a new last element. -/
def reuseReference : Prefs → Reference → Prefs
  | [], reference => [reference]
  | first :: rest, reference =>
    if first.block = none then reference :: rest else first :: reuseReference rest reference

def referenceTo (slot : SlotId) : Reference where
  block := some slot.1
  offset := slot.2

def addReference (palist : Palist) (symbol : Symbol) (slot : SlotId) : Palist :=
  match findReferencesNamed palist symbol with
  | some prefs =>
    setReferencesNamed palist symbol (reuseReference prefs (referenceTo slot))
  | none => (symbol, [referenceTo slot]) :: palist

/-- `move_ref_pair_p`, on the environment of the reference's block. -/
def moveRefPairP (descendant ancestor : Env) : Bool :=
  match descendant with
  | .procedure id parent =>
    if Env.procedure id parent = ancestor then true else moveRefPairP parent ancestor
  | _ => descendant = ancestor

def splitPrefs (leaves : Block → Bool) : Prefs → Prefs × List SlotId
  | [] => ([], [])
  | { block := none, .. } :: rest => splitPrefs leaves rest
  | { block := some block, offset } :: rest =>
    let (stay, leave) := splitPrefs leaves rest
    if leaves block then (stay, (block, offset) :: leave)
    else ({ block := some block, offset } :: stay, leave)

/-- The references that move are pushed one by one on the destination, whose entry for the
name is made when the first one arrives. -/
def pushReferences (palist : Palist) (symbol : Symbol) (moved : List SlotId) : Palist :=
  match moved with
  | [] => palist
  | _ :: _ =>
    match findReferencesNamed palist symbol with
    | some prefs => setReferencesNamed palist symbol (moved.reverse.map referenceTo ++ prefs)
    | none => (symbol, moved.reverse.map referenceTo) :: palist

/-- The garbage collector reclaims a block: the weak pairs that refer to it lose it. -/
def reclaimReferences (block : Block) (palist : Palist) : Palist :=
  palist.map fun entry => (entry.1, entry.2.map fun reference =>
    if reference.block = some block then { reference with block := none } else reference)

@[simp] theorem liveSlots_nil : liveSlots [] = [] := rfl

@[simp] theorem liveSlots_append (a b : Prefs) : liveSlots (a ++ b) = liveSlots a ++ liveSlots b :=
  filterMap_append

@[simp] theorem liveSlots_some (block : Block) (offset : Nat) (rest : Prefs) :
    liveSlots ({ block := some block, offset } :: rest) = (block, offset) :: liveSlots rest := rfl

@[simp] theorem liveSlots_none (offset : Nat) (rest : Prefs) :
    liveSlots ({ block := none, offset } :: rest) = liveSlots rest := rfl

@[simp] theorem liveSlots_referenceTo (slots : List SlotId) : liveSlots (slots.map referenceTo) = slots := by
  induction slots with
  | nil => rfl
  | cons slot rest ih => simp [referenceTo, ih]

def named (symbol : Symbol) (slots : List SlotId) : List (Symbol × SlotId) :=
  slots.map fun slot => (symbol, slot)

@[simp] theorem mem_named {symbol name : Symbol} {slots : List SlotId} {slot : SlotId} :
    (name, slot) ∈ named symbol slots ↔ name = symbol ∧ slot ∈ slots := by
  constructor
  · intro member
    obtain ⟨_, present, same⟩ := mem_map.mp member
    cases same
    exact ⟨rfl, present⟩
  · rintro ⟨rfl, present⟩
    exact mem_map_of_mem present

@[simp] theorem named_append (symbol : Symbol) (a b : List SlotId) :
    named symbol (a ++ b) = named symbol a ++ named symbol b := map_append

@[simp] theorem map_snd_named (symbol : Symbol) (slots : List SlotId) : (named symbol slots).map Prod.snd = slots := by
  simp [named, Function.comp_def]

@[simp] theorem entries_nil : entries [] = [] := rfl

@[simp] theorem entries_cons (name : Symbol) (prefs : Prefs) (rest : Palist) :
    entries ((name, prefs) :: rest) = named name (liveSlots prefs) ++ entries rest := rfl

@[simp] theorem entries_append (a b : Palist) : entries (a ++ b) = entries a ++ entries b :=
  flatMap_append

variable {palist : Palist} {symbol : Symbol}

theorem ne_nil_of_mem_entries {entry : Symbol × SlotId} (member : entry ∈ entries palist) : palist ≠ [] := by
  rintro rfl
  simp at member

theorem liveSlots_filter_isSome (prefs : Prefs) :
    liveSlots (prefs.filter fun reference => reference.block.isSome) = liveSlots prefs := by
  induction prefs with
  | nil => rfl
  | cons first rest ih => obtain ⟨_ | block, offset⟩ := first <;> simp [ih]

@[simp] theorem entries_pruneReferences (palist : Palist) : entries (pruneReferences palist) = entries palist := by
  induction palist with
  | nil => rfl
  | cons entry rest ih =>
    obtain ⟨name, prefs⟩ := entry
    have same := liveSlots_filter_isSome prefs
    by_cases empty : prefs.filter (fun reference => reference.block.isSome) = []
    · simpa [pruneReferences, empty, ← same, named] using ih
    · simpa [pruneReferences, empty, same] using ih

theorem entries_reclaimReferences (block : Block) (palist : Palist) :
    entries (reclaimReferences block palist) = (entries palist).filter fun entry => entry.2.1 ≠ block := by
  have slots : ∀ prefs : Prefs, liveSlots (prefs.map fun reference =>
      if reference.block = some block then { reference with block := none } else reference) =
        (liveSlots prefs).filter fun slot => slot.1 ≠ block := by
    intro prefs
    induction prefs with
    | nil => rfl
    | cons first rest ih =>
      obtain ⟨_ | b, offset⟩ := first
      · simpa using ih
      · by_cases same : b = block <;> simp_all
  induction palist with
  | nil => rfl
  | cons entry rest ih =>
    obtain ⟨name, prefs⟩ := entry
    change named name _ ++ entries (reclaimReferences block rest) = _
    rw [ih, slots, entries_cons, filter_append, named, named, filter_map]
    rfl

theorem pruneReferences_ne_nil (h : pruneReferences palist ≠ []) : palist ≠ [] := by
  rintro rfl
  exact h rfl

/-- The live references in the first entry of a name: the ones a search by name sees. -/
def firstNamed (palist : Palist) (symbol : Symbol) : List SlotId :=
  match findReferencesNamed palist symbol with
  | some prefs => liveSlots prefs
  | none => []

theorem setReferencesNamed_ne_nil {new : Prefs} : setReferencesNamed palist symbol new ≠ [] ↔ palist ≠ [] := by
  cases palist with
  | nil => simp [setReferencesNamed]
  | cons entry rest => simp only [setReferencesNamed]; split <;> simp

theorem entries_setReferencesNamed {old : Prefs} (new : Prefs)
    (found : findReferencesNamed palist symbol = some old) :
    (entries (setReferencesNamed palist symbol new) ++ named symbol (liveSlots old)).Perm
      (entries palist ++ named symbol (liveSlots new)) := by
  induction palist with
  | nil => simp [findReferencesNamed] at found
  | cons entry rest ih =>
    obtain ⟨name, prefs⟩ := entry
    simp only [findReferencesNamed] at found
    split at found
    · rename_i same
      subst same
      obtain rfl := Option.some.inj found
      simp only [setReferencesNamed, if_true, entries_cons, append_assoc]
      refine perm_append_comm.trans ?_
      rw [← append_assoc (named name (liveSlots prefs))]
      exact perm_append_comm.append_right _
    · rename_i other
      simp only [setReferencesNamed, if_neg other, entries_cons, append_assoc]
      exact (ih found).append_left _

theorem entries_setReferencesNamed_add {old new : Prefs} {added : List SlotId}
    (found : findReferencesNamed palist symbol = some old) (perm : (liveSlots new).Perm (added ++ liveSlots old)) :
    (entries (setReferencesNamed palist symbol new)).Perm (named symbol added ++ entries palist) := by
  have stored := entries_setReferencesNamed new found
  have grown : (entries palist ++ named symbol (liveSlots new)).Perm
      (named symbol added ++ entries palist ++ named symbol (liveSlots old)) := by
    refine ((perm.map fun slot => (symbol, slot)).append_left _).trans ?_
    change (entries palist ++ named symbol (added ++ liveSlots old)).Perm _
    rw [named_append, ← append_assoc]
    exact perm_append_comm.append_right _
  exact (perm_append_right_iff _).mp (stored.trans grown)

theorem entries_setReferencesNamed_remove {old new : Prefs} {removed : List SlotId}
    (found : findReferencesNamed palist symbol = some old) (perm : (liveSlots old).Perm (removed ++ liveSlots new)) :
    (entries palist).Perm (named symbol removed ++ entries (setReferencesNamed palist symbol new)) := by
  have stored := entries_setReferencesNamed new found
  have shrunk : (entries (setReferencesNamed palist symbol new) ++ named symbol (liveSlots old)).Perm
      (named symbol removed ++ entries (setReferencesNamed palist symbol new) ++
        named symbol (liveSlots new)) := by
    refine ((perm.map fun slot => (symbol, slot)).append_left _).trans ?_
    change (entries _ ++ named symbol (removed ++ liveSlots new)).Perm _
    rw [named_append, ← append_assoc]
    exact perm_append_comm.append_right _
  exact (perm_append_right_iff _).mp (stored.symm.trans shrunk)

theorem liveSlots_reuseReference (prefs : Prefs) (slot : SlotId) :
    (liveSlots (reuseReference prefs (referenceTo slot))).Perm ([slot] ++ liveSlots prefs) := by
  induction prefs with
  | nil => simp [reuseReference, referenceTo]
  | cons first rest ih =>
    obtain ⟨_ | block, offset⟩ := first
    · simp [reuseReference, referenceTo]
    · exact (ih.cons _).trans (by simpa using .swap _ _ _)

theorem entries_addReference (palist : Palist) (symbol : Symbol) (slot : SlotId) :
    (entries (addReference palist symbol slot)).Perm ((symbol, slot) :: entries palist) := by
  unfold addReference
  split
  · rename_i prefs found
    exact entries_setReferencesNamed_add found (liveSlots_reuseReference prefs slot)
  · exact .refl _

theorem liveSlots_splitPrefs (leaves : Block → Bool) (prefs : Prefs) :
    liveSlots (splitPrefs leaves prefs).1 = (liveSlots prefs).filter fun slot => !leaves slot.1 := by
  induction prefs with
  | nil => rfl
  | cons first rest ih =>
    obtain ⟨_ | block, offset⟩ := first
    · simpa [splitPrefs] using ih
    · simp only [splitPrefs]
      split <;> rename_i leaving <;> simp [leaving, ih]

theorem splitPrefs_snd (leaves : Block → Bool) (prefs : Prefs) :
    (splitPrefs leaves prefs).2 = (liveSlots prefs).filter fun slot => leaves slot.1 := by
  induction prefs with
  | nil => rfl
  | cons first rest ih =>
    obtain ⟨_ | block, offset⟩ := first
    · simpa [splitPrefs] using ih
    · simp only [splitPrefs]
      split <;> rename_i leaving <;> simp [leaving, ih]

theorem splitPrefs_perm (leaves : Block → Bool) (prefs : Prefs) :
    (liveSlots prefs).Perm ((splitPrefs leaves prefs).2 ++ liveSlots (splitPrefs leaves prefs).1) := by
  rw [liveSlots_splitPrefs, splitPrefs_snd]
  exact (filter_append_perm _ _).symm

theorem entries_pushReferences (palist : Palist) (symbol : Symbol) (moved : List SlotId) :
    (entries (pushReferences palist symbol moved)).Perm (named symbol moved ++ entries palist) := by
  unfold pushReferences
  split
  · simp [named]
  · split
    · rename_i prefs found
      refine entries_setReferencesNamed_add found ?_
      rw [liveSlots_append, liveSlots_referenceTo]
      exact (reverse_perm _).append_right _
    · rw [entries_cons, liveSlots_referenceTo]
      exact ((reverse_perm _).map _).append_right _

end MitScheme.Microcode.Lookup
