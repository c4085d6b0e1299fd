import MitScheme.Microcode.Lookup.Consistency
import Mathlib.Data.List.Nodup

namespace MitScheme.Microcode.Lookup

open List

/-- References leave a list of `source` for the list of the same kind of `target`, and their
slots are written for `target`. -/
structure Relocated (h h' : Heap) (source target : CacheId) (kind : ReferenceKind)
    (moved : List (Symbol × SlotId)) : Prop where
  value : h'.value = h.value
  extension : h'.extension = h.extension
  trapCache : h'.trapCache = h.trapCache
  cache : h'.cache = h.cache
  free : h'.free = h.free
  left : (entries (h.cacheReferences source kind)).Perm
    (moved ++ entries (h'.cacheReferences source kind))
  arrived : (entries (h'.cacheReferences target kind)).Perm
    (moved ++ entries (h.cacheReferences target kind))
  others : ∀ {c k}, Real h c → ¬(k = kind ∧ (c = source ∨ c = target)) →
    h'.cacheReferences c k = h.cacheReferences c k
  nonempty : h'.cacheReferences source kind ≠ [] → h.cacheReferences source kind ≠ []
  slots : ∀ x, h'.slot x = if x ∈ moved.map Prod.snd then installed h target kind else h.slot x

def RecordedAfter (h : Heap) (source target : CacheId) (kind : ReferenceKind) (moved : Symbol → SlotId → Prop)
    (c : CacheId) (k : ReferenceKind) (name : Symbol) (slot : SlotId) : Prop :=
  Recorded h c k name slot ∧ ¬(c = source ∧ k = kind ∧ moved name slot) ∨
    c = target ∧ k = kind ∧ moved name slot

theorem Store.name_unique {h : Heap} (store : Store h) {c : CacheId} {kind : ReferenceKind}
    (real : Real h c) {name name' : Symbol} {slot : SlotId} (here : Recorded h c kind name slot)
    (there : Recorded h c kind name' slot) : name = name' :=
  congrArg Prod.fst (inj_on_of_nodup_map (store.nodup kind real) here there rfl)

section
variable {h h' : Heap} {source target : CacheId} {kind : ReferenceKind}
  {moved : List (Symbol × SlotId)}

section
variable (move : Relocated h h' source target kind moved)
include move

theorem Relocated.real (c : CacheId) : Real h' c ↔ Real h c := by
  rw [Real, move.cache, Real]

theorem Relocated.recorded_of_moved {name : Symbol}
    {slot : SlotId} (member : (name, slot) ∈ moved) : Recorded h source kind name slot :=
  move.left.mem_iff.mpr (mem_append_left _ member)

theorem Relocated.not_mem_rest (store : Store h) (real : Real h source) {name : Symbol} {slot : SlotId}
    (member : (name, slot) ∈ moved) : ¬Recorded h' source kind name slot := by
  have nodup : (moved ++ entries (h'.cacheReferences source kind)).Nodup :=
    move.left.nodup_iff.mp (.of_map Prod.snd (store.nodup kind real))
  exact fun rest => (nodup_append.mp nodup).2.2 _ member _ rest rfl

theorem Relocated.recorded_iff (store : Store h) (realSource : Real h source) (other : source ≠ target) {c : CacheId}
    (real : Real h c) (k : ReferenceKind) (name : Symbol) (slot : SlotId) : Recorded h' c k name slot ↔
    RecordedAfter h source target kind (fun name slot => (name, slot) ∈ moved) c k name slot := by
  rw [RecordedAfter]
  by_cases here : k = kind ∧ (c = source ∨ c = target)
  · obtain ⟨rfl, rfl | rfl⟩ := here
    · have kept : Recorded h' c k name slot → (name, slot) ∉ moved :=
        fun rest member => move.not_mem_rest store realSource member rest
      have before : Recorded h c k name slot ↔ (name, slot) ∈ moved ∨ Recorded h' c k name slot :=
        move.left.mem_iff.trans mem_append
      grind
    · have after : Recorded h' c k name slot ↔ (name, slot) ∈ moved ∨ Recorded h c k name slot :=
        move.arrived.mem_iff.trans mem_append
      grind
  · have same : Recorded h' c k name slot ↔ Recorded h c k name slot := by
      rw [Recorded, move.others real here, Recorded]
    grind

end

theorem Relocated.store (move : Relocated h h' source target kind moved) (store : Store h)
    (realSource : Real h source) (realTarget : Real h target) (other : source ≠ target) : Store h' := by
  have reals := move.real
  have recorded := fun {c} (real : Real h c) => move.recorded_iff store realSource other real
  constructor
  · intro c r
    rw [move.cache, move.free]
    exact store.allocated ((reals c).mp r)
  · intro c₁ c₂ r₁ r₂ same
    rw [move.cache] at same
    exact store.owner ((reals c₁).mp r₁) ((reals c₂).mp r₂) same
  · intro cell t read
    rw [move.value] at read
    rw [move.trapCache, move.free, reals]
    exact store.trap read
  · intro c k r read
    rw [move.cache] at read ⊢
    rw [move.free]
    exact store.clone ((reals c).mp r) read
  · intro c k r
    have r := (reals c).mp r
    by_cases here : k = kind ∧ (c = source ∨ c = target)
    · obtain ⟨rfl, rfl | rfl⟩ := here
      · have before := (move.left.map Prod.snd).nodup_iff.mp (store.nodup k r)
        rw [map_append] at before
        exact (nodup_append.mp before).2.1
      · refine (move.arrived.map Prod.snd).nodup_iff.mpr ?_
        have before := (move.left.map Prod.snd).nodup_iff.mp (store.nodup k realSource)
        rw [map_append] at before ⊢
        refine nodup_append.mpr ⟨(nodup_append.mp before).1, store.nodup k r, ?_⟩
        rintro x source _ target rfl
        obtain ⟨⟨_, _⟩, member, rfl⟩ := mem_map.mp source
        obtain ⟨⟨_, _⟩, there, rfl⟩ := mem_map.mp target
        exact other (store.disjoint realSource r (move.recorded_of_moved member) there).1
    · rw [move.others r here]
      exact store.nodup k r
  · intro c₁ c₂ k₁ k₂ name₁ name₂ slot r₁ r₂ m₁ m₂
    have r₁ := (reals c₁).mp r₁
    have r₂ := (reals c₂).mp r₂
    -- a slot that moved was recorded at the source, under one name only
    have clash : ∀ {c k name name'}, Real h c → Recorded h c k name slot →
        (name', slot) ∈ moved → c = source ∧ k = kind ∧ (name, slot) ∈ moved := by
      intro c k name name' r before member
      have there := move.recorded_of_moved member
      obtain ⟨rfl, rfl⟩ := store.disjoint r realSource before there
      obtain rfl := store.name_unique r before there
      exact ⟨rfl, rfl, member⟩
    rcases (recorded r₁ ..).mp m₁ with ⟨b₁, stay₁⟩ | ⟨rfl, rfl, moved₁⟩
    · rcases (recorded r₂ ..).mp m₂ with ⟨b₂, stay₂⟩ | ⟨rfl, rfl, moved₂⟩
      · exact store.disjoint r₁ r₂ b₁ b₂
      · exact absurd (clash r₁ b₁ moved₂) stay₁
    · rcases (recorded r₂ ..).mp m₂ with ⟨b₂, stay₂⟩ | ⟨rfl, rfl, moved₂⟩
      · exact absurd (clash r₂ b₂ moved₁) stay₂
      · exact ⟨rfl, rfl⟩

theorem Relocated.slot_of_not_moved (move : Relocated h h' source target kind moved) (store : Store h)
    (realSource : Real h source) {c : CacheId} {k : ReferenceKind} {name : Symbol} {slot : SlotId}
    (real : Real h c) (before : Recorded h c k name slot)
    (stay : ¬(c = source ∧ k = kind ∧ (name, slot) ∈ moved)) : h'.slot slot = h.slot slot := by
  rw [move.slots, if_neg]
  intro written
  obtain ⟨⟨name', _⟩, member, rfl⟩ := mem_map.mp written
  have there := move.recorded_of_moved member
  obtain ⟨rfl, rfl⟩ := store.disjoint real realSource before there
  obtain rfl := store.name_unique real before there
  exact stay ⟨rfl, rfl, member⟩

theorem Consistent.relocate {d : Debt} (inv : Consistent d h) (move : Relocated h h' source target kind moved)
    (realSource : Real h source) (realTarget : Real h target) (other : source ≠ target) :
    Consistent (d.waiting target) h' := by
  refine { move.store inv.toStore realSource realTarget other with holds := ?_, ready := ?_ }
  · intro c k name slot r recorded done
    have r := (move.real c).mp r
    rcases (move.recorded_iff inv.toStore realSource other r ..).mp recorded with
      ⟨before, stay⟩ | ⟨rfl, rfl, member⟩
    · exact holds_congr (move.slot_of_not_moved inv.toStore realSource r before stay)
        (by rw [move.cache]) (fun _ => id) (inv.holds r before done)
    · refine holds_of_installed ?_
      rw [move.slots, if_pos (mem_map_of_mem member)]
      exact (installed_congr (by rw [move.cache]) k).symm
  · intro c r done
    have r := (move.real c).mp r
    have before := inv.ready r fun waits => done (.inl waits)
    have nonempty : ∀ k, h'.cacheReferences c k ≠ [] → h.cacheReferences c k ≠ [] := by
      intro k filled
      by_cases here : k = kind ∧ (c = source ∨ c = target)
      · obtain ⟨rfl, rfl | same⟩ := here
        · exact move.nonempty filled
        · exact absurd (.inr same) done
      · rwa [move.others r here] at filled
    intro assignments operators
    rw [move.cache]
    exact before (nonempty _ assignments) (nonempty _ operators)

end

/-- The effect of a move, also when both caches are the same one. -/
structure Moved (h h' : Heap) (source target : CacheId) (kind : ReferenceKind)
    (moved : Symbol → SlotId → Prop) : Prop where
  value : h'.value = h.value
  extension : h'.extension = h.extension
  trapCache : h'.trapCache = h.trapCache
  cache : h'.cache = h.cache
  free : h'.free = h.free
  recorded : ∀ {c}, Real h c → ∀ k name slot, Recorded h' c k name slot ↔
    RecordedAfter h source target kind moved c k name slot
  others : ∀ c {k}, k ≠ kind → h'.cacheReferences c k = h.cacheReferences c k

theorem Moved.real {h h' : Heap} {source target : CacheId} {kind : ReferenceKind} {moved : Symbol → SlotId → Prop}
    (move : Moved h h' source target kind moved) (c : CacheId) : Real h' c ↔ Real h c := by
  rw [Real, move.cache, Real]

theorem recordedAfter_self {h : Heap} {c₀ : CacheId} {kind : ReferenceKind} {moved : Symbol → SlotId → Prop}
    (within : ∀ name slot, moved name slot → Recorded h c₀ kind name slot) (c : CacheId) (k : ReferenceKind)
    (name : Symbol) (slot : SlotId) : RecordedAfter h c₀ c₀ kind moved c k name slot ↔ Recorded h c k name slot := by
  constructor
  · rintro (⟨before, _⟩ | ⟨rfl, rfl, member⟩)
    · exact before
    · exact within name slot member
  · intro before
    by_cases member : c = c₀ ∧ k = kind ∧ moved name slot
    · exact .inr member
    · exact .inl ⟨before, member⟩

theorem setTwoLists {h : Heap} {a b : CacheId}
    (distinct : (h.cache a).references ≠ (h.cache b).references) (kind : ReferenceKind) (A B : Palist) :
    let h' := (h.setCacheReferences a kind A).setCacheReferences b kind B
    h'.cacheReferences a kind = A ∧ h'.cacheReferences b kind = B ∧
      ∀ c k, ¬(k = kind ∧ ((h.cache c).references = (h.cache a).references ∨
        (h.cache c).references = (h.cache b).references)) → h'.cacheReferences c k = h.cacheReferences c k := by
  have cache : (h.setCacheReferences a kind A).cache = h.cache := rfl
  refine ⟨?_, ?_, fun c k other => ?_⟩ <;>
    simp only [setCacheReferences_cacheReferences, cache]
  · simp [distinct]
  · simp
  · grind

section
variable (P : Program)

/-- The references that `move_ref_pairs` takes: live, in the first entry of the name, and of a
block under the environment. -/
def Passing (h : Heap) (source : CacheId) (kind : ReferenceKind) (environment : Env) (symbol name : Symbol)
    (slot : SlotId) : Prop :=
  name = symbol ∧ slot ∈ firstNamed (h.cacheReferences source kind) symbol ∧ movable P environment slot.1

variable {symbol : Symbol} {slot : SlotId} {h : Heap} {source : CacheId} {kind : ReferenceKind} {environment : Env}
  {d : Debt}

theorem mem_entries_of_firstNamed {palist : Palist}
    (member : slot ∈ firstNamed palist symbol) : (symbol, slot) ∈ entries palist := by
  induction palist with
  | nil => simp [firstNamed, findReferencesNamed] at member
  | cons entry rest ih =>
    obtain ⟨name, prefs⟩ := entry
    rw [entries_cons, mem_append]
    by_cases same : name = symbol
    · subst same
      simp only [firstNamed, findReferencesNamed, if_true] at member
      exact .inl (mem_named.mpr ⟨rfl, member⟩)
    · simp only [firstNamed, findReferencesNamed, if_neg same] at member
      exact .inr (ih member)

theorem Passing.recorded {symbol name : Symbol} (passing : Passing P h source kind environment symbol name slot) :
    Recorded h source kind name slot := by
  obtain ⟨rfl, member, _⟩ := passing
  exact mem_entries_of_firstNamed member

theorem mem_named_moved {symbol name : Symbol} {prefs : Prefs}
    (found : findReferencesNamed (h.cacheReferences source kind) symbol = some prefs) :
    (name, slot) ∈ named symbol (splitPrefs (movable P environment) prefs).2 ↔
    Passing P h source kind environment symbol name slot := by
  rw [mem_named, splitPrefs_snd, mem_filter, Passing, firstNamed, found]

theorem relocated_moveRefPairs (store : Store h) {source target : CacheId}
    (realSource : Real h source) (realTarget : Real h target) (kind : ReferenceKind)
    {prefs stay : Prefs} {moved : List SlotId}
    (distinct : (h.cache source).references ≠ (h.cache target).references)
    (found : findReferencesNamed (h.cacheReferences source kind) symbol = some prefs)
    (split : (liveSlots prefs).Perm (moved ++ liveSlots stay)) :
    Relocated h
      (installAll ((h.setCacheReferences source kind
          (setReferencesNamed (h.cacheReferences source kind) symbol stay)).setCacheReferences target kind
            (pushReferences (h.cacheReferences target kind) symbol moved)) target kind moved)
      source target kind (named symbol moved) := by
  obtain ⟨atSource, atTarget, elsewhere⟩ := setTwoLists distinct kind
    (setReferencesNamed (h.cacheReferences source kind) symbol stay)
    (pushReferences (h.cacheReferences target kind) symbol moved)
  rw [installAll_eq]
  exact {
    value := rfl
    extension := rfl
    trapCache := rfl
    cache := rfl
    free := rfl
    left := (entries_setReferencesNamed_remove found split).trans 
      (.of_eq (congrArg (fun palist => named symbol moved ++ entries palist) atSource.symm))
    arrived := (Perm.of_eq (congrArg entries atTarget)).trans (entries_pushReferences _ _ _)
    others := fun {c k} real other => elsewhere c k fun clash =>
      other ⟨clash.1, clash.2.imp (store.owner real realSource) (store.owner real realTarget)⟩
    nonempty := fun filled => setReferencesNamed_ne_nil.mp (atSource ▸ filled)
    slots := fun x => by rw [map_snd_named]; rfl }

theorem Relocated.moved {h h' : Heap} {source target : CacheId} {kind : ReferenceKind}
    {moved : List (Symbol × SlotId)} {passing : Symbol → SlotId → Prop}
    (move : Relocated h h' source target kind moved) (store : Store h) (realSource : Real h source)
    (other : source ≠ target) (same : ∀ name slot, (name, slot) ∈ moved ↔ passing name slot)
    (others : ∀ c {k}, k ≠ kind → h'.cacheReferences c k = h.cacheReferences c k) :
    Moved h h' source target kind passing where
  value := move.value
  extension := move.extension
  trapCache := move.trapCache
  cache := move.cache
  free := move.free
  recorded real k name slot := by
    rw [move.recorded_iff store realSource other real]
    simp [same]
  others := others

theorem Consistent.moveWithin {h h' : Heap} (inv : Consistent d h)
    (real : Real h source) {prefs new : Prefs}
    (moved : List SlotId) (found : findReferencesNamed (h.cacheReferences source kind) symbol = some prefs)
    (perm : (liveSlots prefs).Perm (liveSlots new)) (within : ∀ slot ∈ moved, slot ∈ liveSlots prefs)
    (ran : h' = installAll (h.setCacheReferences source kind
      (setReferencesNamed (h.cacheReferences source kind) symbol new)) source kind moved) :
    Consistent d h' ∧ Moved h h' source source kind
      fun name slot => name = symbol ∧ slot ∈ moved := by
  rw [installAll_eq] at ran
  have stored : ∀ c k, h'.cacheReferences c k =
      if (h.cache c).references = (h.cache source).references ∧ k = kind then
        setReferencesNamed (h.cacheReferences source kind) symbol new
      else h.cacheReferences c k := by
    intro c k
    rw [← setCacheReferences_cacheReferences, ran]
    rfl
  have removed : (liveSlots prefs).Perm ([] ++ liveSlots new) := perm
  have lists : ∀ c k, (entries (h'.cacheReferences c k)).Perm (entries (h.cacheReferences c k)) := by
    intro c k
    rw [stored]
    split
    · rename_i same
      rw [Heap.cacheReferences.eq_def h c k, same.1, same.2]
      exact (entries_setReferencesNamed_remove found removed).symm
    · exact .refl _
  have nonempty : ∀ c k, h'.cacheReferences c k ≠ [] → h.cacheReferences c k ≠ [] := by
    intro c k filled
    rw [stored] at filled
    split at filled
    · rename_i same
      rw [Heap.cacheReferences.eq_def h c k, same.1, same.2]
      exact setReferencesNamed_ne_nil.mp filled
    · exact filled
  have within' : ∀ name slot, name = symbol ∧ slot ∈ moved → Recorded h source kind name slot := by
    rintro name slot ⟨rfl, member⟩
    refine mem_entries_of_firstNamed ?_
    rw [firstNamed, found]
    exact within slot member
  constructor
  · subst ran
    refine inv.thin rfl rfl rfl rfl (fun c k _ => (lists c k).subperm) (fun c k _ => nonempty c k) ?_
      (fun _ => id)
    · intro c k name slot r recorded done
      have before := (lists c k).mem_iff.mp recorded
      by_cases here : slot ∈ moved
      · obtain ⟨rfl, rfl⟩ := inv.disjoint r real before (within' symbol slot ⟨rfl, here⟩)
        exact .inl (if_pos here)
      · exact .inr ⟨if_neg here, done, fun _ => id⟩
  · exact {
      value := by rw [ran]; rfl
      extension := by rw [ran]; rfl
      trapCache := by rw [ran]; rfl
      cache := by rw [ran]; rfl
      free := by rw [ran]; rfl
      recorded := fun {c} _ k name slot =>
        (lists c k).mem_iff.trans (recordedAfter_self within' c k name slot).symm
      others := fun c {k} other => (stored c k).trans (if_neg fun same => other same.2) }

theorem moveRefPairs_consistent {h h' : Heap} (inv : Consistent d h) {source target : CacheId}
    (realSource : Real h source) (realTarget : Real h target)
    (ran : moveRefPairs P h source target kind environment symbol = some h') : Consistent (d.waiting target) h' ∧
    Moved h h' source target kind (Passing P h source kind environment symbol) := by
  have weaker : ∀ {h''}, Consistent d h'' → Consistent (d.waiting target) h'' :=
    fun inv => inv.weaken (fun _ => id) (fun _ => .inl) fun _ => id
  rw [moveRefPairs] at ran
  split at ran
  · -- the name has no entry
    rename_i missing
    obtain rfl := Option.some.inj ran
    have nothing : ∀ name slot, ¬Passing P h source kind environment symbol name slot := by
      rintro name slot ⟨_, member, _⟩
      simp [firstNamed, missing] at member
    refine ⟨weaker inv, ⟨rfl, rfl, rfl, rfl, rfl, fun real k name slot => ?_, fun _ _ _ => rfl⟩⟩
    simp [RecordedAfter, nothing]
  · rename_i prefs found
    have perm := splitPrefs_perm (movable P environment) prefs
    have named_iff : ∀ name slot, name = symbol ∧ slot ∈ (splitPrefs (movable P environment) prefs).2 ↔
        Passing P h source kind environment symbol name slot := fun name slot =>
      mem_named.symm.trans (mem_named_moved P found)
    simp only at ran
    split at ran
    · -- both caches are the same one
      rename_i same
      obtain rfl := inv.owner realSource realTarget same
      have transfer : ∀ {moved : List SlotId}, (∀ slot, slot ∈ moved ↔
          slot ∈ (splitPrefs (movable P environment) prefs).2) →
          Moved h h' source source kind (fun name slot => name = symbol ∧ slot ∈ moved) →
          Moved h h' source source kind (Passing P h source kind environment symbol) := by
        intro moved members move
        have same : (fun name slot => name = symbol ∧ slot ∈ moved) =
            Passing P h source kind environment symbol := by
          funext name slot
          rw [members]
          exact propext (named_iff name slot)
        exact same ▸ move
      split at ran
      · split at ran
        · cases ran
        · have kept : (liveSlots prefs).Perm
              (liveSlots ((splitPrefs (movable P environment) prefs).2.reverse.map referenceTo ++
                (splitPrefs (movable P environment) prefs).1)) := by
            rw [liveSlots_append, liveSlots_referenceTo]
            exact perm.trans ((reverse_perm _).symm.append_right _)
          obtain ⟨after, move⟩ := inv.moveWithin realSource _ found kept
            (fun slot member => perm.mem_iff.mpr (mem_append_left _ member)) (Option.some.inj ran).symm
          exact ⟨weaker after, transfer (fun _ => .rfl) move⟩
      · rename_i dead
        have none_moved : (splitPrefs (movable P environment) prefs).2 = [] := by
          rw [splitPrefs_snd, dead, filter_nil]
        rw [none_moved] at perm
        obtain ⟨after, move⟩ := inv.moveWithin realSource [] found perm nofun
          (Option.some.inj ran).symm
        exact ⟨weaker after, transfer (by simp [none_moved]) move⟩
    · rename_i distinct
      have other : source ≠ target := fun same => distinct (by rw [same])
      have commute : (h.setCacheReferences source kind (setReferencesNamed (h.cacheReferences source kind) symbol
          (splitPrefs (movable P environment) prefs).1)).cacheReferences target kind =
          h.cacheReferences target kind := by
        rw [setCacheReferences_cacheReferences, if_neg fun same => distinct same.1.symm]
      rw [commute] at ran
      have move := relocated_moveRefPairs inv.toStore realSource realTarget kind distinct found perm
      rw [Option.some.inj ran] at move
      refine ⟨inv.relocate move realSource realTarget other,
        move.moved inv.toStore realSource other (fun name slot => mem_named_moved P found) ?_⟩
      intro c k otherKind
      rw [← Option.some.inj ran, installAll_cacheReferences]
      simp [setCacheReferences_cacheReferences, otherKind]

theorem relocated_moveAllReferences (store : Store h) {source target : CacheId} (realSource : Real h source)
    (realTarget : Real h target) (other : source ≠ target) (kind : ReferenceKind) :
    Relocated h (moveAllReferences h source target kind) source target kind (entries (h.cacheReferences source kind)) := by
  have distinct : (h.cache target).references ≠ (h.cache source).references :=
    fun same => other (store.owner realSource realTarget same.symm)
  obtain ⟨atTarget, atSource, elsewhere⟩ := setTwoLists distinct kind
    (h.cacheReferences target kind ++ pruneReferences (h.cacheReferences source kind)) []
  have ran : moveAllReferences h source target kind =
      { (h.setCacheReferences target kind (h.cacheReferences target kind ++
          pruneReferences (h.cacheReferences source kind))).setCacheReferences source kind [] with
        slot := fun x =>
          if x ∈ (entries (h.cacheReferences source kind)).map .snd then installed h target kind
          else h.slot x } := by
    simp only [moveAllReferences, installAll_eq]
    rfl
  rw [ran]
  exact {
    value := rfl
    extension := rfl
    trapCache := rfl
    cache := rfl
    free := rfl
    left := .of_eq (by
      refine (append_nil _).symm.trans ?_
      exact congrArg (fun palist => entries (h.cacheReferences source kind) ++ entries palist) atSource.symm)
    arrived := by
      refine (Perm.of_eq (congrArg entries atTarget)).trans ?_
      rw [entries_append, entries_pruneReferences]
      exact perm_append_comm
    others := fun {c k} real other => elsewhere c k fun clash =>
      other ⟨clash.1, clash.2.symm.imp (store.owner real realSource) (store.owner real realTarget)⟩
    nonempty := absurd atSource
    slots := fun x => rfl }

theorem deleteRefPairs_consistent (inv : Consistent d h) (source : CacheId) (kind : ReferenceKind) (environment : Env)
    (symbol : Symbol) : Consistent d (deleteRefPairs P h source kind environment symbol) := by
  rw [deleteRefPairs]
  split
  · exact inv
  · rename_i prefs found
    have lists : ∀ c k, (entries ((h.setCacheReferences source kind (setReferencesNamed
        (h.cacheReferences source kind) symbol (splitPrefs (movable P environment) prefs).1)).cacheReferences
          c k)).Subperm (entries (h.cacheReferences c k)) := by
      intro c k
      rw [setCacheReferences_cacheReferences]
      split
      · rename_i same
        rw [Heap.cacheReferences.eq_def h c k, same.1, same.2]
        have perm := entries_setReferencesNamed_remove found (splitPrefs_perm (movable P environment) prefs)
        exact (sublist_append_right _ _).subperm.trans perm.symm.subperm
      · exact .refl _
    refine inv.thin rfl rfl rfl rfl (fun c k _ => lists c k) ?_ ?_ (fun _ => id)
    · intro c k _ filled
      rw [setCacheReferences_cacheReferences] at filled
      split at filled
      · rename_i same
        rw [Heap.cacheReferences.eq_def h c k, same.1, same.2]
        exact setReferencesNamed_ne_nil.mp filled
      · exact filled
    · intro c k name slot _ _ done
      exact .inr ⟨rfl, done, fun _ => id⟩

end

end MitScheme.Microcode.Lookup
