import MitScheme.Microcode.Lookup.Cache

/-!
The invariant that ties the reference lists to the contents of the linkage slots, and what an
operation that is under way may still owe to it.
-/

namespace MitScheme.Microcode.Lookup

open Heap

/-- A cache that a variable can have. The value of a clone, and of storage that is not
allocated, is `expensive`. -/
def Real (h : Heap) (cache : CacheId) : Prop := (h.cache cache).value ≠ .expensive

/-- The reference of `slot` under `name` is in a list of the cache, and its block is alive. -/
def Recorded (h : Heap) (cache : CacheId) (kind : ReferenceKind) (name : Symbol) (slot : SlotId) : Prop :=
  (name, slot) ∈ entries (h.cacheReferences cache kind)

instance (h : Heap) (cache : CacheId) : Decidable (Real h cache) := inferInstanceAs (Decidable (_ ≠ _))

instance (h : Heap) (cache : CacheId) (kind : ReferenceKind) (name : Symbol) (slot : SlotId) :
    Decidable (Recorded h cache kind name slot) := inferInstanceAs (Decidable (_ ∈ _))

/-- Traps lead to real caches, every references object has one real cache, a clone points back, and no slot is recorded
twice. -/
structure Store (h : Heap) : Prop where
  allocated : ∀ {c}, Real h c → c < h.free ∧ (h.cache c).references < h.free
  owner : ∀ {c c'}, Real h c → Real h c' → (h.cache c).references = (h.cache c').references → c = c'
  trap : ∀ {cell t}, h.value cell = .compilerCached t → t < h.free ∧ Real h (h.trapCache t)
  clone : ∀ {c k}, Real h c → (h.cache c).clone = some k →
    k < h.free ∧ (h.cache k).value = .expensive ∧ (h.cache k).clone = some c
  nodup : ∀ {c} (kind), Real h c → ((entries (h.cacheReferences c kind)).map Prod.snd).Nodup
  disjoint : ∀ {c c' kind kind' name name' slot}, Real h c → Real h c' →
    Recorded h c kind name slot → Recorded h c' kind' name' slot → c = c' ∧ kind = kind'

/-- Caches whose operator links may be older than their value, caches that wait for `update_clone`, and slots that are not
written yet. -/
structure Debt where
  stale : CacheId → Prop
  unready : CacheId → Prop
  pending : SlotId → Prop

/-- One more cache waits for `update_clone`. -/
def Debt.waiting (d : Debt) (c : CacheId) : Debt :=
  { d with unready := fun c' => d.unready c' ∨ c' = c }

variable {d : Debt} {c : CacheId} {h : Heap} {kind : ReferenceKind} {slot : SlotId} {value : Obj}

theorem Debt.paid (c' : CacheId) (done : ¬d.unready c') : c' = c ∨ ¬(d.waiting c).unready c' := by
  by_cases same : c' = c
  · exact .inl same
  · exact .inr fun waits => waits.elim done same

def Holds (d : Debt) (h : Heap) (cache : CacheId) (slot : SlotId) : ReferenceKind → Prop
  | .lookup => h.slot slot = .cache cache
  | .assignment => h.slot slot = .cache (assignmentCache h cache)
  | .operator => ∃ value, h.slot slot = .uuoLink value cache ∧ (¬d.stale cache → value = (h.cache cache).value)

/-- The clone is there when the cache has assignment and operator references. -/
def CloneReady (h : Heap) (cache : CacheId) : Prop :=
  h.cacheReferences cache .assignment ≠ [] → h.cacheReferences cache .operator ≠ [] →
    (h.cache cache).clone.isSome

structure Consistent (d : Debt) (h : Heap) : Prop extends Store h where
  holds : ∀ {c kind name slot}, Real h c → Recorded h c kind name slot → ¬d.pending slot →
    Holds d h c slot kind
  ready : ∀ {c}, Real h c → ¬d.unready c → CloneReady h c

theorem holds_of_installed (same : h.slot slot = installed h c kind) : Holds d h c slot kind := by
  cases kind with
  | lookup => exact same
  | assignment => exact same
  | operator => exact ⟨_, same, fun _ => rfl⟩

variable {d d' : Debt}

theorem holds_congr {h h' : Heap} (slots : h'.slot slot = h.slot slot) (caches : h'.cache c = h.cache c)
    (stale : kind = .operator → ¬d'.stale c → ¬d.stale c) (held : Holds d h c slot kind) : Holds d' h' c slot kind := by
  cases kind with
  | lookup => exact slots.trans held
  | assignment =>
    have same : assignmentCache h' c = assignmentCache h c := by simp [assignmentCache, caches]
    exact slots.trans (held.trans (congrArg Slot.cache same.symm))
  | operator =>
    obtain ⟨value, link, fresh⟩ := held
    exact ⟨value, slots.trans link, fun now => caches ▸ fresh (stale rfl now)⟩

theorem Consistent.weaken (inv : Consistent d h) (stale : ∀ c, d.stale c → d'.stale c)
    (unready : ∀ c, d.unready c → d'.unready c) (pending : ∀ x, d.pending x → d'.pending x) : Consistent d' h where
  toStore := inv.toStore
  holds real recorded done :=
    holds_congr rfl rfl (fun _ now before => now (stale _ before))
      (inv.holds real recorded fun before => done (pending _ before))
  ready real done := inv.ready real fun before => done (unready _ before)

theorem Store.setValue (store : Store h) (cell : Cell)
    (cached : ∀ t, value = .compilerCached t → t < h.free ∧ Real h (h.trapCache t)) :
    Store (h.setValue cell value) where
  allocated := store.allocated
  owner := store.owner
  trap := by
    intro other t read
    simp only [Heap.setValue, Function.update_apply] at read
    split at read
    · exact cached t read
    · exact store.trap read
  clone := store.clone
  nodup := store.nodup
  disjoint := store.disjoint

theorem Consistent.setValue (inv : Consistent d h) (cell : Cell)
    (cached : ∀ t, value = .compilerCached t → t < h.free ∧ Real h (h.trapCache t)) :
    Consistent d (h.setValue cell value) :=
  { inv.toStore.setValue cell cached with holds := inv.holds, ready := inv.ready }

theorem Consistent.setExtension (inv : Consistent d h) (frame : Env)
    (extension : Extension) : Consistent d (h.setExtension frame extension) :=
  { inv with }

theorem Consistent.setTrapCache (inv : Consistent d h) (t : TrapId)
    (real : Real h c) : Consistent d (h.setTrapCache t c) :=
  { inv with
    trap := by
      intro cell t' read
      obtain ⟨bound, target⟩ := inv.trap read
      refine ⟨bound, ?_⟩
      simp only [Heap.setTrapCache, Function.update_apply]
      split
      · exact real
      · exact target }

theorem Consistent.bump (inv : Consistent d h) : Consistent d { h with free := h.free + 1 } :=
  { inv with
    allocated := fun real =>
      ⟨Nat.lt_succ_of_lt (inv.allocated real).1, Nat.lt_succ_of_lt (inv.allocated real).2⟩
    trap := fun read => ⟨Nat.lt_succ_of_lt (inv.trap read).1, (inv.trap read).2⟩
    clone := fun real read =>
      ⟨Nat.lt_succ_of_lt (inv.toStore.clone real read).1, (inv.toStore.clone real read).2⟩ }

theorem setCacheValue_cache (h : Heap) (c : CacheId) (value : Obj) (c' : CacheId) : (h.setCacheValue c value).cache c' =
    if c' = c then { h.cache c with value := value } else h.cache c' := by
  simp [setCacheValue, setCache, Function.update_apply]

theorem setCacheValue_references (h : Heap) (c : CacheId) (value : Obj) (c' : CacheId) (kind : ReferenceKind) :
    (h.setCacheValue c value).cacheReferences c' kind = h.cacheReferences c' kind := by
  simp only [cacheReferences, setCacheValue_cache]
  split
  · rename_i same; subst same; rfl
  · rfl

theorem real_setCacheValue (real : Real h c)
    (cheap : value ≠ .expensive) (c' : CacheId) : Real (h.setCacheValue c value) c' ↔ Real h c' := by
  simp only [Real, setCacheValue_cache]
  split
  · rename_i same; subst same; exact ⟨fun _ => real, fun _ => cheap⟩
  · exact .rfl

theorem Consistent.setCacheValue (inv : Consistent d h) (real : Real h c) (cheap : value ≠ .expensive)
    (links : ∀ name slot, Recorded h c .operator name slot → ¬d'.stale c → value = (h.cache c).value)
    (stale : ∀ c', ¬d'.stale c' → ¬d.stale c') (unready : ∀ c', ¬d'.unready c' → ¬d.unready c')
    (pending : d'.pending = d.pending) : Consistent d' (h.setCacheValue c value) := by
  have reals := real_setCacheValue real cheap
  have lists := setCacheValue_references h c value
  have fields : ∀ c', ((h.setCacheValue c value).cache c').references = (h.cache c').references ∧
      ((h.setCacheValue c value).cache c').clone = (h.cache c').clone := by
    intro c'
    rw [setCacheValue_cache]
    split
    · rename_i same; subst same; exact ⟨rfl, rfl⟩
    · exact ⟨rfl, rfl⟩
  have kept : ∀ c', c' ≠ c → (h.setCacheValue c value).cache c' = h.cache c' := by
    intro c' other
    rw [setCacheValue_cache, if_neg other]
  constructor
  · constructor
    · intro c' r
      rw [(fields c').1]
      exact inv.allocated ((reals c').mp r)
    · intro c₁ c₂ r₁ r₂ same
      rw [(fields c₁).1, (fields c₂).1] at same
      exact inv.owner ((reals c₁).mp r₁) ((reals c₂).mp r₂) same
    · intro cell t read
      exact ⟨(inv.trap read).1, (reals _).mpr (inv.trap read).2⟩
    · intro c' k r read
      rw [(fields c').2] at read
      obtain ⟨bound, clone, back⟩ := inv.toStore.clone ((reals c').mp r) read
      have other : k ≠ c := by rintro rfl; exact real clone
      exact ⟨bound, by rw [kept k other]; exact clone, by rw [kept k other]; exact back⟩
    · intro c' kind r
      rw [lists]
      exact inv.nodup kind ((reals c').mp r)
    · intro c₁ c₂ kind₁ kind₂ name₁ name₂ slot r₁ r₂ m₁ m₂
      simp only [Recorded, lists] at m₁ m₂
      exact inv.disjoint ((reals c₁).mp r₁) ((reals c₂).mp r₂) m₁ m₂
  · intro c' kind name slot r recorded done
    simp only [Recorded, lists] at recorded
    have held := inv.holds ((reals c').mp r) recorded (pending ▸ done)
    by_cases same : c' = c
    · subst same
      cases kind with
      | lookup => exact held
      | assignment => exact held.trans (by simp [assignmentCache, (fields c').2])
      | operator =>
        obtain ⟨old, link, fresh⟩ := held
        refine ⟨old, link, fun now => ?_⟩
        rw [fresh (stale c' now), setCacheValue_cache, if_pos rfl]
        exact (links name slot recorded now).symm
    · exact holds_congr (h := h) rfl (kept c' same) (fun _ => stale c') held
  · intro c' r done
    have before := inv.ready ((reals c').mp r) (unready c' done)
    simpa [CloneReady, lists, (fields c').2] using before

theorem Consistent.thin {h h' : Heap} (inv : Consistent d h)
    (value : h'.value = h.value) (trapCache : h'.trapCache = h.trapCache)
    (cache : h'.cache = h.cache) (free : h'.free = h.free)
    (lists : ∀ c kind, Real h c →
      (entries (h'.cacheReferences c kind)).Subperm (entries (h.cacheReferences c kind)))
    (nonempty : ∀ c kind, Real h c → h'.cacheReferences c kind ≠ [] → h.cacheReferences c kind ≠ [])
    (slots : ∀ {c kind name slot}, Real h c → Recorded h' c kind name slot → ¬d'.pending slot →
      h'.slot slot = installed h c kind ∨
        h'.slot slot = h.slot slot ∧ ¬d.pending slot ∧
          (kind = .operator → ¬d'.stale c → ¬d.stale c))
    (unready : ∀ c, ¬d'.unready c → ¬d.unready c) : Consistent d' h' := by
  have reals : ∀ c, Real h' c ↔ Real h c := fun c => by simp [Real, cache]
  have subset : ∀ {c kind name slot}, Real h c → Recorded h' c kind name slot →
      Recorded h c kind name slot := fun real recorded => (lists _ _ real).subset recorded
  constructor
  · constructor
    · intro c r
      rw [cache, free]
      exact inv.allocated ((reals c).mp r)
    · intro c₁ c₂ r₁ r₂ same
      rw [cache] at same
      exact inv.owner ((reals c₁).mp r₁) ((reals c₂).mp r₂) same
    · intro cell t read
      rw [value] at read
      rw [trapCache, free, reals]
      exact inv.trap read
    · intro c k r read
      rw [cache] at read ⊢
      rw [free]
      exact inv.toStore.clone ((reals c).mp r) read
    · intro c kind r
      have r := (reals c).mp r
      obtain ⟨kept, perm, sub⟩ := lists c kind r
      exact (perm.map .snd).nodup_iff.mp ((inv.nodup kind r).sublist (sub.map Prod.snd))
    · intro c₁ c₂ kind₁ kind₂ name₁ name₂ slot r₁ r₂ m₁ m₂
      have r₁ := (reals c₁).mp r₁
      have r₂ := (reals c₂).mp r₂
      exact inv.disjoint r₁ r₂ (subset r₁ m₁) (subset r₂ m₂)
  · intro c kind name slot r recorded done
    have r := (reals c).mp r
    rcases slots r recorded done with written | ⟨kept, before, stale⟩
    · exact holds_of_installed (written.trans (installed_congr (by rw [cache]) kind).symm)
    · exact holds_congr kept (by rw [cache]) stale (inv.holds r (subset r recorded) before)
  · intro c r done filled operators
    have r := (reals c).mp r
    rw [cache]
    exact inv.ready r (unready c done) (nonempty c _ r filled) (nonempty c _ r operators)

theorem setCacheReferences_cacheReferences (h : Heap) (c : CacheId) (kind : ReferenceKind) (palist : Palist)
    (c' : CacheId) (kind' : ReferenceKind) : (h.setCacheReferences c kind palist).cacheReferences c' kind' =
    if (h.cache c').references = (h.cache c).references ∧ kind' = kind then palist else h.cacheReferences c' kind' := by
  simp only [setCacheReferences, setReferences, cacheReferences, Function.update_apply]
  by_cases same : (h.cache c').references = (h.cache c).references
  · by_cases kinds : kind' = kind <;> simp [same, kinds]
  · simp [same]

theorem Store.setCacheReferences_of_real (store : Store h) {c c' : CacheId} (real : Real h c) (real' : Real h c')
    (kind kind' : ReferenceKind) (palist : Palist) : (h.setCacheReferences c kind palist).cacheReferences c' kind' =
    if c' = c ∧ kind' = kind then palist else h.cacheReferences c' kind' := by
  rw [setCacheReferences_cacheReferences]
  have same : (h.cache c').references = (h.cache c).references ↔ c' = c :=
    ⟨store.owner real' real, fun same => by rw [same]⟩
  simp [same]

def recloned (h : Heap) (c : CacheId) (clone : Option CacheId) : Heap :=
  updateAssignmentReferences (h.setCacheClone c clone) c

theorem setCacheClone_cache (h : Heap) (c : CacheId) (clone : Option CacheId) (c' : CacheId) :
    (h.setCacheClone c clone).cache c' = if c' = c then { h.cache c with clone := clone } else h.cache c' := by
  simp [setCacheClone, setCache, Function.update_apply]

theorem setCacheClone_fields (h : Heap) (c : CacheId) (clone : Option CacheId) (c' : CacheId) :
    ((h.setCacheClone c clone).cache c').value = (h.cache c').value ∧
      ((h.setCacheClone c clone).cache c').references = (h.cache c').references := by
  rw [setCacheClone_cache]
  split
  · rename_i same; subst same; exact ⟨rfl, rfl⟩
  · exact ⟨rfl, rfl⟩

theorem setCacheClone_references (h : Heap) (c : CacheId) (clone : Option CacheId) (c' : CacheId)
    (kind : ReferenceKind) : (h.setCacheClone c clone).cacheReferences c' kind = h.cacheReferences c' kind := by
  simp only [cacheReferences, (setCacheClone_fields h c clone c').2]
  rfl

theorem Store.setCacheClone (store : Store h) {clone : Option CacheId} (real : Real h c)
    (valid : ∀ k, clone = some k → k < h.free ∧ (h.cache k).value = .expensive ∧ (h.cache k).clone = some c) :
    Store (h.setCacheClone c clone) := by
  have fields := setCacheClone_fields h c clone
  have lists := setCacheClone_references h c clone
  have reals : ∀ c', Real (h.setCacheClone c clone) c' ↔ Real h c' := fun c' => by
    simp [Real, (fields c').1]
  have back : ∀ {k c'}, (h.cache k).value = .expensive → (h.cache k).clone = some c' →
      ((h.setCacheClone c clone).cache k).value = .expensive ∧
        ((h.setCacheClone c clone).cache k).clone = some c' := by
    intro k c' cheap read
    have other : k ≠ c := by rintro rfl; exact real cheap
    rw [setCacheClone_cache, if_neg other]
    exact ⟨cheap, read⟩
  constructor
  · intro c' r
    rw [(fields c').2]
    exact store.allocated ((reals c').mp r)
  · intro c₁ c₂ r₁ r₂ same
    rw [(fields c₁).2, (fields c₂).2] at same
    exact store.owner ((reals c₁).mp r₁) ((reals c₂).mp r₂) same
  · intro cell t read
    exact ⟨(store.trap read).1, (reals _).mpr (store.trap read).2⟩
  · intro c' k r read
    rw [setCacheClone_cache] at read
    split at read
    · rename_i same
      subst same
      obtain ⟨bound, cheap, pointer⟩ := valid k read
      exact ⟨bound, back cheap pointer⟩
    · obtain ⟨bound, cheap, pointer⟩ := store.clone ((reals c').mp r) read
      exact ⟨bound, back cheap pointer⟩
  · intro c' kind r
    rw [lists]
    exact store.nodup kind ((reals c').mp r)
  · intro c₁ c₂ kind₁ kind₂ name₁ name₂ slot r₁ r₂ m₁ m₂
    simp only [Recorded, lists] at m₁ m₂
    exact store.disjoint ((reals c₁).mp r₁) ((reals c₂).mp r₂) m₁ m₂

def walked (h : Heap) (c : CacheId) (kind : ReferenceKind) : Heap :=
  h.setCacheReferences c kind (pruneReferences (h.cacheReferences c kind))

theorem walked_entries (h : Heap) (c : CacheId) (kind : ReferenceKind) (c' : CacheId) (kind' : ReferenceKind) :
    entries ((walked h c kind).cacheReferences c' kind') = entries (h.cacheReferences c' kind') := by
  rw [walked, setCacheReferences_cacheReferences]
  split
  · rename_i same
    rw [entries_pruneReferences, cacheReferences, cacheReferences, same.1, same.2]
  · rfl

theorem walked_ne_nil {c' : CacheId} {kind' : ReferenceKind}
    (filled : (walked h c kind).cacheReferences c' kind' ≠ []) : h.cacheReferences c' kind' ≠ [] := by
  rw [walked, setCacheReferences_cacheReferences] at filled
  split at filled
  · rename_i same
    rw [cacheReferences, same.1, same.2]
    exact pruneReferences_ne_nil filled
  · exact filled

theorem mem_slots {palist : Palist} : slot ∈ (entries palist).map Prod.snd ↔ ∃ name, (name, slot) ∈ entries palist := by
  simp

theorem Consistent.walk {h h' : Heap} (inv : Consistent d h) (kind : ReferenceKind) (real : Real h c)
    (walk : h' = { walked h c kind with
      slot := fun slot =>
        if slot ∈ (entries (h.cacheReferences c kind)).map Prod.snd then installed h c kind
        else h.slot slot })
    (pending : ∀ x, d.pending x → d'.pending x ∨ ∃ name, Recorded h c kind name x)
    (stale : ∀ c', d.stale c' → d'.stale c' ∨ (c' = c ∧ kind = .operator))
    (unready : ∀ c', ¬d'.unready c' → ¬d.unready c') : Consistent d' h' := by
  subst walk
  have lists : ∀ c' kind', entries ((walked h c kind).cacheReferences c' kind') =
      entries (h.cacheReferences c' kind') := walked_entries h c kind
  have nonempty : ∀ c' kind', (walked h c kind).cacheReferences c' kind' ≠ [] →
      h.cacheReferences c' kind' ≠ [] := fun _ _ => walked_ne_nil
  refine inv.thin rfl rfl rfl rfl ?_ ?_ ?_ unready
  · intro c' kind' _
    exact (lists c' kind').symm ▸ List.Subperm.refl _
  · intro c' kind' _
    exact nonempty c' kind'
  · intro c' kind' name slot r recorded done
    have before : Recorded h c' kind' name slot := by
      rw [Recorded, ← lists c' kind']
      exact recorded
    have owned : (∃ name, Recorded h c kind name slot) → c' = c ∧ kind' = kind :=
      fun ⟨_, here⟩ => inv.disjoint r real before here
    by_cases here : slot ∈ (entries (h.cacheReferences c kind)).map .snd
    · obtain ⟨rfl, rfl⟩ := owned (mem_slots.mp here)
      exact .inl (if_pos here)
    · have absent : ¬∃ name, Recorded h c kind name slot := fun there => here (mem_slots.mpr there)
      refine .inr ⟨if_neg here, fun waits => ?_, fun operator now old => ?_⟩
      · exact (pending slot waits).elim done absent
      · rcases stale c' old with old | ⟨rfl, rfl⟩
        · exact now old
        · exact absent ⟨name, operator ▸ before⟩

/-- What an operation leaves alone that only rewrites slots, prunes lists and makes clones. -/
structure Unmoved (h h' : Heap) : Prop where
  value : h'.value = h.value
  extension : h'.extension = h.extension
  trapCache : h'.trapCache = h.trapCache
  free : h.free ≤ h'.free
  real : ∀ c, Real h' c ↔ Real h c
  contents : ∀ {c}, Real h c → (h'.cache c).value = (h.cache c).value ∧
    (h'.cache c).references = (h.cache c).references
  entries : ∀ {c} kind, Real h c →
    (entries (h'.cacheReferences c kind)).Perm (entries (h.cacheReferences c kind))

theorem Unmoved.refl (h : Heap) : Unmoved h h where
  value := rfl
  extension := rfl
  trapCache := rfl
  free := Nat.le_refl _
  real _ := .rfl
  contents _ := ⟨rfl, rfl⟩
  entries _ _ := .refl _

theorem Unmoved.trans {h₁ h₂ h₃ : Heap} (a : Unmoved h₁ h₂) (b : Unmoved h₂ h₃) : Unmoved h₁ h₃ where
  value := b.value.trans a.value
  extension := b.extension.trans a.extension
  trapCache := b.trapCache.trans a.trapCache
  free := Nat.le_trans a.free b.free
  real c := (b.real c).trans (a.real c)
  contents real :=
    have real' := (a.real _).mpr real
    ⟨(b.contents real').1.trans (a.contents real).1, (b.contents real').2.trans (a.contents real).2⟩
  entries kind real := (b.entries kind ((a.real _).mpr real)).trans (a.entries kind real)

variable {c : CacheId} {h : Heap}

theorem Unmoved.recorded {h h' : Heap} (same : Unmoved h h') (real : Real h c) (kind : ReferenceKind) (name : Symbol)
    (slot : SlotId) : Recorded h' c kind name slot ↔ Recorded h c kind name slot :=
  (same.entries kind real).mem_iff

theorem countReferences_consistent (inv : Consistent d h) (c : CacheId) :
    Consistent d (countReferences h c) ∧ Unmoved h (countReferences h c) := by
  have lists : ∀ c' kind, entries ((countReferences h c).cacheReferences c' kind) =
      entries (h.cacheReferences c' kind) := walked_entries h c .operator
  refine ⟨inv.thin rfl rfl rfl rfl (fun c' kind _ => ?_) (fun _ _ _ => @walked_ne_nil _ _ .operator _ _) ?_ fun _ => id, ?_⟩
  · rw [lists]
  · intro c' kind name slot _ _ done
    exact .inr ⟨rfl, done, fun _ => id⟩
  · exact {
      value := rfl
      extension := rfl
      trapCache := rfl
      free := Nat.le_refl _
      real := fun _ => .rfl
      contents := fun _ => ⟨rfl, rfl⟩
      entries := fun kind _ => .of_eq (lists _ kind) }

theorem countReferences_cache (h : Heap) (c : CacheId) : (countReferences h c).cache = h.cache := rfl

/-- A cache's value and its reference lists are stored apart, so the order does not matter. -/
theorem countReferences_setCacheValue (h : Heap) (c : CacheId) (value : Obj) :
    (countReferences h c).setCacheValue c value = countReferences (h.setCacheValue c value) c := by
  simp [countReferences, setCacheValue, setCache, setCacheReferences, setReferences,
    cacheReferences]

theorem makeCache_cache (h : Heap) (value : Obj) (clone : Option CacheId) (references : ReferencesId) (c : CacheId) :
    (makeCache h value clone references).2.cache c = if c =
    h.free then { value, clone, references } else h.cache c := by
  simp [makeCache, setCache, Function.update_apply]

theorem Store.ne_free (store : Store h) (real : Real h c) : c ≠ h.free :=
  Nat.ne_of_lt (store.allocated real).1

theorem Store.makeClone (store : Store h) (c : CacheId) :
    Store (makeCache h .expensive (some c) (h.cache c).references).2 ∧
      Unmoved h (makeCache h .expensive (some c) (h.cache c).references).2 := by
  generalize made : (makeCache h .expensive (some c) (h.cache c).references).2 = h'
  have cache : ∀ c', c' ≠ h.free → h'.cache c' = h.cache c' := by
    intro c' other
    rw [← made, makeCache_cache, if_neg other]
  have new : (h'.cache h.free).value = .expensive := by rw [← made, makeCache_cache, if_pos rfl]
  have free : h'.free = h.free + 1 := by rw [← made]; rfl
  have value : h'.value = h.value := by rw [← made]; rfl
  have trapCache : h'.trapCache = h.trapCache := by rw [← made]; rfl
  have extension : h'.extension = h.extension := by rw [← made]; rfl
  have references : h'.references = h.references := by rw [← made]; rfl
  have reals : ∀ c', Real h' c' ↔ Real h c' := by
    intro c'
    by_cases other : c' = h.free
    · subst other
      exact ⟨absurd new, fun r => absurd rfl (store.ne_free r)⟩
    · rw [Real, cache c' other, Real]
  have lists : ∀ c' kind, Real h c' → h'.cacheReferences c' kind = h.cacheReferences c' kind := by
    intro c' kind r
    rw [cacheReferences, cache c' (store.ne_free r), references, cacheReferences]
  have unmoved : Unmoved h h' := {
    value, extension, trapCache
    free := by omega
    real := reals
    contents := fun r => by rw [cache _ (store.ne_free r)]; exact ⟨rfl, rfl⟩
    entries := fun kind r => by rw [lists _ kind r] }
  refine ⟨?_, unmoved⟩
  constructor
  · intro c' r
    have r := (reals c').mp r
    rw [cache c' (store.ne_free r), free]
    exact ⟨Nat.lt_succ_of_lt (store.allocated r).1, Nat.lt_succ_of_lt (store.allocated r).2⟩
  · intro c₁ c₂ r₁ r₂ same
    have r₁ := (reals c₁).mp r₁
    have r₂ := (reals c₂).mp r₂
    rw [cache c₁ (store.ne_free r₁), cache c₂ (store.ne_free r₂)] at same
    exact store.owner r₁ r₂ same
  · intro cell t read
    rw [value] at read
    obtain ⟨bound, target⟩ := store.trap read
    rw [trapCache, free]
    exact ⟨Nat.lt_succ_of_lt bound, (reals _).mpr target⟩
  · intro c' k r read
    have r := (reals c').mp r
    rw [cache c' (store.ne_free r)] at read
    obtain ⟨bound, cheap, back⟩ := store.clone r read
    rw [cache k (Nat.ne_of_lt bound), free]
    exact ⟨Nat.lt_succ_of_lt bound, cheap, back⟩
  · intro c' kind r
    have r := (reals c').mp r
    rw [lists c' kind r]
    exact store.nodup kind r
  · intro c₁ c₂ kind₁ kind₂ name₁ name₂ slot r₁ r₂ m₁ m₂
    have r₁ := (reals c₁).mp r₁
    have r₂ := (reals c₂).mp r₂
    exact store.disjoint r₁ r₂ ((unmoved.recorded r₁ ..).mp m₁) ((unmoved.recorded r₂ ..).mp m₂)

theorem Consistent.makeClone {d : Debt} (inv : Consistent d h) (c : CacheId) :
    Consistent d (makeCache h .expensive (some c) (h.cache c).references).2 := by
  obtain ⟨store, unmoved⟩ := inv.toStore.makeClone c
  have cache : ∀ {c'}, Real h c' →
      (makeCache h .expensive (some c) (h.cache c).references).2.cache c' = h.cache c' := by
    intro c' r
    rw [makeCache_cache, if_neg (inv.ne_free r)]
  refine { store with holds := ?_, ready := ?_ }
  · intro c' kind name slot r recorded done
    have r := (unmoved.real c').mp r
    exact holds_congr (h := h) rfl (cache r) (fun _ => id) (inv.holds r ((unmoved.recorded r ..).mp recorded) done)
  · intro c' r done
    have r := (unmoved.real c').mp r
    have before := inv.ready r done
    have lists : ∀ kind, (makeCache h .expensive (some c) (h.cache c).references).2.cacheReferences c' kind =
        h.cacheReferences c' kind := by
      intro kind
      rw [cacheReferences, cache r]
      rfl
    simpa [CloneReady, lists, cache r] using before

theorem unmoved_recloned (h : Heap) (c : CacheId) (clone : Option CacheId) : Unmoved h (recloned h c clone) := by
  have fields := setCacheClone_fields h c clone
  rw [recloned, updateAssignmentReferences_eq]
  exact {
    value := rfl
    extension := rfl
    trapCache := rfl
    free := Nat.le_refl _
    real := fun c' => by
      change ((h.setCacheClone c clone).cache c').value ≠ _ ↔ _
      rw [(fields c').1, Real]
    contents := fun {c'} _ => fields c'
    entries := fun {c'} kind _ =>
      .of_eq ((walked_entries (h.setCacheClone c clone) c .assignment c' kind).trans
        (by rw [setCacheClone_references])) }

theorem recloned_consistent {d : Debt} (inv : Consistent d h) (clone : Option CacheId) (real : Real h c)
    (valid : ∀ k, clone = some k → k < h.free ∧ (h.cache k).value = .expensive ∧ (h.cache k).clone = some c) :
    Consistent (d.waiting c) (recloned h c clone) := by
  have fields := setCacheClone_fields h c clone
  have lists := setCacheClone_references h c clone
  have reals : ∀ c', Real (h.setCacheClone c clone) c' ↔ Real h c' := fun c' => by
    simp [Real, (fields c').1]
  have kept : ∀ c', c' ≠ c → (h.setCacheClone c clone).cache c' = h.cache c' := by
    intro c' other
    rw [setCacheClone_cache, if_neg other]
  have recorded_iff : ∀ c' kind name slot,
      Recorded (h.setCacheClone c clone) c' kind name slot ↔ Recorded h c' kind name slot := by
    intro c' kind name slot
    rw [Recorded, lists, Recorded]
  let mid : Debt := {
    stale := d.stale
    unready := fun c' => d.unready c' ∨ c' = c
    pending := fun slot => d.pending slot ∨ ∃ name, Recorded h c .assignment name slot }
  have invMid : Consistent mid (h.setCacheClone c clone) := by
    refine { inv.toStore.setCacheClone real valid with holds := ?_, ready := ?_ }
    · intro c' kind name slot r recorded done
      have recorded := (recorded_iff ..).mp recorded
      have held := inv.holds ((reals c').mp r) recorded fun before => done (.inl before)
      by_cases same : c' = c
      · rw [same] at recorded held ⊢
        cases kind with
        | lookup => exact held
        | assignment => exact absurd (.inr ⟨name, recorded⟩) done
        | operator =>
          obtain ⟨value, link, fresh⟩ := held
          exact ⟨value, link, fun now => (fresh now).trans (fields c).1.symm⟩
      · exact holds_congr (h := h) rfl (kept c' same) (fun _ => id) held
    · intro c' r done
      have other : c' ≠ c := fun same => done (.inr same)
      have before := inv.ready ((reals c').mp r) fun waits => done (.inl waits)
      simpa [CloneReady, lists, kept c' other] using before
  rw [recloned, updateAssignmentReferences_eq]
  refine invMid.walk .assignment ((reals c).mpr real) rfl ?_ (fun _ => .inl) (fun _ => id)
  rintro x (before | ⟨name, here⟩)
  · exact .inl before
  · exact .inr ⟨name, (recorded_iff ..).mpr here⟩

theorem cloneReady_recloned {clone : Option CacheId}
    (ready : h.cacheReferences c .assignment ≠ [] → h.cacheReferences c .operator ≠ [] → clone.isSome) :
    CloneReady (recloned h c clone) c := by
  have cache : ((recloned h c clone).cache c).clone = clone := by
    rw [recloned, updateAssignmentReferences_eq]
    simp [setCacheClone_cache]
  have nonempty : ∀ kind, (recloned h c clone).cacheReferences c kind ≠ [] → h.cacheReferences c kind ≠ [] := by
    intro kind filled
    rw [recloned, updateAssignmentReferences_eq] at filled
    have walk : (walked (h.setCacheClone c clone) c .assignment).cacheReferences c kind ≠ [] := filled
    have before := walked_ne_nil walk
    rwa [setCacheClone_references] at before
  intro assignments operators
  rw [cache]
  exact ready (nonempty _ assignments) (nonempty _ operators)

theorem Consistent.settle (inv : Consistent d h) (ready : CloneReady h c) (stale : d'.stale = d.stale)
    (pending : d'.pending = d.pending) (unready : ∀ c', ¬d'.unready c' → c' = c ∨ ¬d.unready c') : Consistent d' h where
  toStore := inv.toStore
  holds real recorded done :=
    holds_congr rfl rfl (fun _ now => stale ▸ now) (inv.holds real recorded (pending ▸ done))
  ready real done :=
    (unready _ done).elim (fun same => same ▸ ready) fun before => inv.ready real before

theorem updateClone_consistent {d e : Debt} (inv : Consistent d h) (real : Real h c) (stale : e.stale = d.stale)
    (pending : e.pending = d.pending) (unready : ∀ c', ¬e.unready c' → c' = c ∨ ¬d.unready c') :
    Consistent e (updateClone h c) ∧ Unmoved h (updateClone h c) := by
  have paid : ∀ c', ¬e.unready c' → c' = c ∨ ¬(d.unready c' ∨ c' = c) := by
    intro c' done
    rcases unready c' done with same | before
    · exact .inl same
    · by_cases same : c' = c
      · exact .inl same
      · exact .inr fun waits => waits.elim before same
  rw [updateClone]
  split
  · split
    · -- a clone is made
      have made := inv.makeClone c
      have unmoved := (inv.toStore.makeClone c).2
      have valid : ∀ k, some h.free = some k →
          k < h.free + 1 ∧
            ((makeCache h .expensive (some c) (h.cache c).references).2.cache k).value = .expensive ∧
            ((makeCache h .expensive (some c) (h.cache c).references).2.cache k).clone = some c := by
        rintro k ⟨⟩
        rw [makeCache_cache, if_pos rfl]
        exact ⟨Nat.lt_succ_self _, rfl, rfl⟩
      exact ⟨(recloned_consistent made _ ((unmoved.real c).mpr real) valid).settle
        (cloneReady_recloned fun _ _ => rfl) stale pending paid,
        unmoved.trans (unmoved_recloned _ c _)⟩
    · rename_i k present
      refine ⟨inv.settle (c := c) (fun _ _ => ?_) stale pending unready, .refl h⟩
      rw [present]
      rfl
  · rename_i neither
    split
    · refine ⟨inv.settle (c := c) (fun assignments operators => ?_) stale pending unready, .refl h⟩
      exact absurd ⟨assignments, operators⟩ neither
    · -- the clone is dropped
      exact ⟨(recloned_consistent inv none real nofun).settle
        (cloneReady_recloned fun assignments operators => absurd ⟨assignments, operators⟩ neither)
        stale pending paid, unmoved_recloned h c none⟩

end MitScheme.Microcode.Lookup
