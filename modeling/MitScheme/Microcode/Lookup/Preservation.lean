import MitScheme.Microcode.Lookup.Moving

namespace MitScheme.Microcode.Lookup

open Nat
open Function (update update_of_ne update_self)

def effectiveValue (h : Heap) (cell : Cell) : Obj :=
  match h.value cell with
  | .compilerCached trap => (h.cache (h.trapCache trap)).value
  | value => value

variable {h : Heap} {cell : Cell} {c : CacheId} {d : Debt}

theorem cellCache_eq_some : cellCache h cell = some c ↔ ∃ t, h.value cell = .compilerCached t ∧ h.trapCache t = c := by
  unfold cellCache
  split <;> simp_all

theorem effectiveValue_of_cached (cached : cellCache h cell = some c) : effectiveValue h cell = (h.cache c).value := by
  obtain ⟨t, read, rfl⟩ := cellCache_eq_some.mp cached
  simp [effectiveValue, read]

theorem effectiveValue_of_not_cached (uncached : cellCache h cell = none) : effectiveValue h cell = h.value cell := by
  unfold effectiveValue
  split
  · rename_i t read
    simp [cellCache, read] at uncached
  · rfl

theorem Store.real_of_cellCache (store : Store h) (cached : cellCache h cell = some c) : Real h c := by
  obtain ⟨t, read, rfl⟩ := cellCache_eq_some.mp cached
  exact (store.trap read).2

structure Guaranteed (h h' : Heap) (cell : Cell) (c : CacheId) : Prop where
  cached : cellCache h' cell = some c
  kept : ∀ {c'}, Real h c' → h'.cache c' = h.cache c' ∧
    ∀ kind, h'.cacheReferences c' kind = h.cacheReferences c' kind
  origin : ∀ {c'}, Real h' c' → Real h c' ∨ c' = c ∧ ∀ kind, h'.cacheReferences c kind = []
  elsewhere : ∀ {cell'}, cell' ≠ cell → h'.value cell' = h.value cell'
  caches : ∀ {cell' c'}, cellCache h cell' = some c' → cellCache h' cell' = some c'
  effective : ∀ cell', effectiveValue h' cell' = effectiveValue h cell'
  extension : h'.extension = h.extension
  slot : h'.slot = h.slot
  free : h.free ≤ h'.free

theorem Guaranteed.refl (cached : cellCache h cell = some c) : Guaranteed h h cell c where
  cached := cached
  kept _ := ⟨rfl, fun _ => rfl⟩
  origin := .inl
  elsewhere _ := rfl
  caches := id
  effective _ := rfl
  extension := rfl
  slot := rfl
  free := Nat.le_refl _

theorem guaranteeCache_of_cached (cached : cellCache h cell = some c) : guaranteeCache h cell = h := by
  obtain ⟨t, read, _⟩ := cellCache_eq_some.mp cached
  simp [guaranteeCache, read, getTrapKind]

def withNewCache (h : Heap) (cell : Cell) : Heap :=
  { h with
    value := update h.value cell (.compilerCached (h.free + 2))
    trapCache := update h.trapCache (h.free + 2) (h.free + 1)
    cache := update h.cache (h.free + 1)
      { value := h.value cell, clone := none, references := h.free }
    references := update h.references h.free fun _ => []
    free := h.free + 3 }

theorem guaranteeCache_of_not_cached (uncached : cellCache h cell = none) :
    guaranteeCache h cell = withNewCache h cell := by
  unfold guaranteeCache
  split
  · rename_i kind
    cases read : h.value cell <;> simp [read, getTrapKind] at kind
    simp [cellCache, read] at uncached
  · rfl

section
variable {h : Heap} {cell : Cell}

theorem withNewCache_cache {c : CacheId} (old : c < h.free) : (withNewCache h cell).cache c = h.cache c :=
  update_of_ne (Nat.ne_of_lt (lt_succ_of_lt old)) _ _

theorem withNewCache_new : (withNewCache h cell).cache (h.free + 1) =
    { value := h.value cell, clone := none, references := h.free } :=
  update_self _ _ _

theorem withNewCache_references {r : ReferencesId} (old : r < h.free) :
    (withNewCache h cell).references r = h.references r :=
  update_of_ne (Nat.ne_of_lt old) _ _

theorem withNewCache_newReferences (kind : ReferenceKind) :
    (withNewCache h cell).cacheReferences (h.free + 1) kind = [] := by
  rw [Heap.cacheReferences]
  simp [withNewCache]

theorem withNewCache_trapCache {t : TrapId} (old : t < h.free) : (withNewCache h cell).trapCache t = h.trapCache t :=
  update_of_ne (Nat.ne_of_lt (lt_succ_of_lt (lt_succ_of_lt old))) _ _

theorem withNewCache_value_self : (withNewCache h cell).value cell = .compilerCached (h.free + 2) :=
  update_self _ _ _

theorem withNewCache_value {cell' : Cell} (other : cell' ≠ cell) : (withNewCache h cell).value cell' = h.value cell' :=
  update_of_ne other _ _

theorem cellCache_withNewCache : cellCache (withNewCache h cell) cell = some (h.free + 1) :=
  cellCache_eq_some.mpr ⟨_, withNewCache_value_self, update_self _ _ _⟩

theorem Store.kept_withNewCache (store : Store h) (cell : Cell) {c : CacheId} (real : Real h c) :
    (withNewCache h cell).cache c = h.cache c ∧
      ∀ kind, (withNewCache h cell).cacheReferences c kind = h.cacheReferences c kind := by
  obtain ⟨old, oldReferences⟩ := store.allocated real
  refine ⟨withNewCache_cache old, fun kind => ?_⟩
  rw [Heap.cacheReferences, withNewCache_cache old, withNewCache_references oldReferences, Heap.cacheReferences]

theorem origin_withNewCache {c : CacheId} (real : Real (withNewCache h cell) c) : Real h c ∨ c = h.free + 1 := by
  by_cases new : c = h.free + 1
  · exact .inr new
  · have same : (withNewCache h cell).cache c = h.cache c := update_of_ne new _ _
    rw [Real, same] at real
    exact .inl real

theorem Store.guaranteed_withNewCache (store : Store h) (uncached : cellCache h cell = none) :
    Guaranteed h (withNewCache h cell) cell (h.free + 1) where
  cached := cellCache_withNewCache
  kept := store.kept_withNewCache cell
  origin real := (origin_withNewCache real).imp_right fun new =>
    ⟨new, withNewCache_newReferences⟩
  elsewhere := withNewCache_value
  caches {cell' c'} cached := by
    have other : cell' ≠ cell := by rintro rfl; simp [uncached] at cached
    obtain ⟨t, read, rfl⟩ := cellCache_eq_some.mp cached
    exact cellCache_eq_some.mpr
      ⟨t, (withNewCache_value other).trans read, withNewCache_trapCache (store.trap read).1⟩
  effective cell' := by
    by_cases other : cell' = cell
    · subst other
      rw [effectiveValue_of_cached cellCache_withNewCache, withNewCache_new, effectiveValue_of_not_cached uncached]
    · unfold effectiveValue
      rw [withNewCache_value other]
      split
      · rename_i t read
        obtain ⟨old, real⟩ := store.trap read
        rw [withNewCache_trapCache old, (store.kept_withNewCache cell real).1]
      · rfl
  extension := rfl
  slot := rfl
  free := le_add_right _ _

theorem withNewCache_store (store : Store h) (cheap : h.value cell ≠ .expensive) : Store (withNewCache h cell) := by
  have kept := fun {c} => store.kept_withNewCache (c := c) cell
  have origin : ∀ {c}, Real (withNewCache h cell) c → Real h c ∨ c = h.free + 1 :=
    origin_withNewCache
  have later : ∀ {n}, n < h.free → n < (withNewCache h cell).free := fun old =>
    Nat.lt_of_lt_of_le old (le_add_right _ 3)
  have old_real : ∀ {c}, Real h c → Real (withNewCache h cell) c := by
    intro c real
    rw [Real, (kept real).1]
    exact real
  have no_records : ∀ {kind name slot}, ¬Recorded (withNewCache h cell) (h.free + 1) kind name slot := by
    intro kind name slot recorded
    rw [Recorded, withNewCache_newReferences] at recorded
    cases recorded
  constructor
  · intro c real
    rcases origin real with real | rfl
    · rw [(kept real).1]
      exact ⟨later (store.allocated real).1, later (store.allocated real).2⟩
    · rw [withNewCache_new]
      exact ⟨lt_succ_of_lt (lt_succ_self _), Nat.lt_add_of_pos_right (succ_pos 2)⟩
  · intro c₁ c₂ r₁ r₂ same
    rcases origin r₁ with r₁ | rfl <;> rcases origin r₂ with r₂ | rfl
    · rw [(kept r₁).1, (kept r₂).1] at same
      exact store.owner r₁ r₂ same
    · rw [(kept r₁).1, withNewCache_new] at same
      exact absurd same (Nat.ne_of_lt (store.allocated r₁).2)
    · rw [(kept r₂).1, withNewCache_new] at same
      exact absurd same.symm (Nat.ne_of_lt (store.allocated r₂).2)
    · rfl
  · intro cell' t read
    by_cases other : cell' = cell
    · subst other
      rw [withNewCache_value_self] at read
      cases read
      refine ⟨lt_succ_self _, ?_⟩
      have target : (withNewCache h cell').trapCache (h.free + 2) = h.free + 1 :=
        update_self _ _ _
      rw [target, Real, withNewCache_new]
      exact cheap
    · rw [withNewCache_value other] at read
      obtain ⟨old, real⟩ := store.trap read
      rw [withNewCache_trapCache old]
      exact ⟨later old, old_real real⟩
  · intro c k real read
    rcases origin real with real | rfl
    · rw [(kept real).1] at read
      obtain ⟨old, cheap, back⟩ := store.clone real read
      rw [withNewCache_cache old]
      exact ⟨later old, cheap, back⟩
    · rw [withNewCache_new] at read
      cases read
  · intro c kind real
    rcases origin real with real | rfl
    · rw [(kept real).2]
      exact store.nodup kind real
    · rw [withNewCache_newReferences]
      exact List.nodup_nil
  · intro c₁ c₂ k₁ k₂ name₁ name₂ slot r₁ r₂ m₁ m₂
    rcases origin r₁ with r₁ | rfl
    · rcases origin r₂ with r₂ | rfl
      · rw [Recorded, (kept r₁).2] at m₁
        rw [Recorded, (kept r₂).2] at m₂
        exact store.disjoint r₁ r₂ m₁ m₂
      · exact absurd m₂ no_records
    · exact absurd m₁ no_records

theorem withNewCache_consistent {d : Debt} (inv : Consistent d h) (cheap : h.value cell ≠ .expensive) :
    Consistent d (withNewCache h cell) := by
  refine { withNewCache_store inv.toStore cheap with holds := ?_, ready := ?_ }
  · intro c kind name slot real recorded done
    rcases origin_withNewCache real with real | rfl
    · obtain ⟨same, lists⟩ := inv.toStore.kept_withNewCache cell real
      rw [Recorded, lists] at recorded
      exact holds_congr (h := h) rfl same (fun _ => id) (inv.holds real recorded done)
    · rw [Recorded, withNewCache_newReferences] at recorded
      cases recorded
  · intro c real done
    rcases origin_withNewCache real with real | rfl
    · obtain ⟨same, lists⟩ := inv.toStore.kept_withNewCache cell real
      simpa [CloneReady, same, lists] using inv.ready real done
    · exact absurd (withNewCache_newReferences _)

end

theorem guaranteeCache_consistent (inv : Consistent d h) (cheap : h.value cell ≠ .expensive) :
    Consistent d (guaranteeCache h cell) ∧ ∃ c, Guaranteed h (guaranteeCache h cell) cell c := by
  cases cached : cellCache h cell with
  | none =>
    rw [guaranteeCache_of_not_cached cached]
    exact ⟨withNewCache_consistent inv cheap, _, inv.toStore.guaranteed_withNewCache cached⟩
  | some c =>
    rw [guaranteeCache_of_cached cached]
    exact ⟨inv, c, .refl cached⟩

theorem updateUuoLinks_eq (h : Heap) (c : CacheId) (value : Obj) :
    let m := updateClone (countReferences (h.setCacheValue c value) c) c
    updateUuoLinks h c value = { walked m c .operator with
      slot := fun slot =>
        if slot ∈ (entries (m.cacheReferences c .operator)).map Prod.snd then installed m c .operator
        else m.slot slot } := by
  simp only [updateUuoLinks, countReferences_setCacheValue, installAll_eq]
  rfl

theorem updateUuoLinks_consistent (inv : Consistent d h) (real : Real h c) {value : Obj} (cheap : value ≠ .expensive) :
    Consistent d (updateUuoLinks h c value) ∧ Unmoved (h.setCacheValue c value) (updateUuoLinks h c value) := by
  let mid : Debt := { d with stale := fun c' => d.stale c' ∨ c' = c }
  have set : Consistent mid (h.setCacheValue c value) :=
    inv.setCacheValue real cheap (fun _ _ _ now => absurd (.inr rfl) now)
      (fun c' now old => now (.inl old)) (fun _ => id) rfl
  have real' : Real (h.setCacheValue c value) c := (real_setCacheValue real cheap c).mpr real
  obtain ⟨counted, thinned⟩ := countReferences_consistent set c
  obtain ⟨cloned, reclonings⟩ := updateClone_consistent counted (e := mid) real' rfl rfl fun _ => .inr
  have unmoved := thinned.trans reclonings
  rw [updateUuoLinks_eq]
  refine ⟨cloned.walk .operator ((unmoved.real c).mpr real') rfl (fun _ => .inl) ?_ fun _ => id, unmoved.trans ?_⟩
  · rintro c' (old | rfl)
    · exact .inl old
    · exact .inr ⟨rfl, rfl⟩
  · exact {
      value := rfl
      extension := rfl
      trapCache := rfl
      free := Nat.le_refl _
      real := fun _ => .rfl
      contents := fun _ => ⟨rfl, rfl⟩
      entries := fun {c'} kind _ =>
        .of_eq (walked_entries (updateClone (countReferences (h.setCacheValue c value) c) c) c .operator c' kind) }

/-- References of the three kinds pass from one cache to another; `passing` selects them in the
heap before the moves. -/
structure Transferred (h h' : Heap) (source target : CacheId)
    (passing : ReferenceKind → Symbol → SlotId → Prop) : Prop where
  value : h'.value = h.value
  extension : h'.extension = h.extension
  trapCache : h'.trapCache = h.trapCache
  free : h.free ≤ h'.free
  real : ∀ c, Real h' c ↔ Real h c
  contents : ∀ {c}, Real h c → (h'.cache c).value = (h.cache c).value
  recorded : ∀ {c}, Real h c → ∀ kind name slot, Recorded h' c kind name slot ↔
    Recorded h c kind name slot ∧ ¬(c = source ∧ passing kind name slot) ∨
      c = target ∧ passing kind name slot

theorem Transferred.unmoved {h h' h'' : Heap} {source target : CacheId}
    {passing : ReferenceKind → Symbol → SlotId → Prop} (moves : Transferred h h' source target passing)
    (same : Unmoved h' h'') : Transferred h h'' source target passing where
  value := same.value.trans moves.value
  extension := same.extension.trans moves.extension
  trapCache := same.trapCache.trans moves.trapCache
  free := Nat.le_trans moves.free same.free
  real c := (same.real c).trans (moves.real c)
  contents r := (same.contents ((moves.real _).mpr r)).1.trans (moves.contents r)
  recorded r kind name slot :=
    (same.recorded ((moves.real _).mpr r) kind name slot).trans (moves.recorded r kind name slot)

theorem Moved.three {h h₁ h₂ h₃ : Heap} {source target : CacheId} {passing : ReferenceKind → Symbol → SlotId → Prop}
    (lookups : Moved h h₁ source target .lookup (passing .lookup))
    (assignments : Moved h₁ h₂ source target .assignment (passing .assignment))
    (operators : Moved h₂ h₃ source target .operator (passing .operator)) : Transferred h h₃ source target passing where
  value := operators.value.trans (assignments.value.trans lookups.value)
  extension := operators.extension.trans (assignments.extension.trans lookups.extension)
  trapCache := operators.trapCache.trans (assignments.trapCache.trans lookups.trapCache)
  free := Nat.le_of_eq (lookups.free.symm.trans (assignments.free.symm.trans operators.free.symm))
  real c := (operators.real c).trans ((assignments.real c).trans (lookups.real c))
  contents _ := by rw [operators.cache, assignments.cache, lookups.cache]
  recorded {c} r kind name slot := by
    have r₁ := (lookups.real c).mpr r
    rw [operators.recorded ((assignments.real c).mpr r₁), RecordedAfter, assignments.recorded r₁, RecordedAfter,
      lookups.recorded r, RecordedAfter]
    cases kind <;> simp

section
variable (P : Program)

variable {h h' : Heap} {source : CacheId} {d : Debt} {environment : Env} {symbol : Symbol}

theorem Passing.congr {kind : ReferenceKind} (lists : h'.cacheReferences source kind = h.cacheReferences source kind)
    (environment : Env) (symbol : Symbol) : Passing P h' source kind environment symbol =
    Passing P h source kind environment symbol := by
  funext name slot
  rw [Passing, lists, Passing]

theorem moveThree_consistent {h h₁ h₂ h₃ : Heap} (inv : Consistent d h) {source target : CacheId}
    (realSource : Real h source) (realTarget : Real h target)
    (lookups : moveRefPairs P h source target .lookup environment symbol = some h₁)
    (assignments : moveRefPairs P h₁ source target .assignment environment symbol = some h₂)
    (operators : moveRefPairs P h₂ source target .operator environment symbol = some h₃) :
    Consistent (d.waiting target) h₃ ∧ Transferred h h₃ source target (Passing P h source · environment symbol) := by
  obtain ⟨inv₁, move₁⟩ := moveRefPairs_consistent P inv realSource realTarget lookups
  have source₁ := (move₁.real source).mpr realSource
  have target₁ := (move₁.real target).mpr realTarget
  obtain ⟨inv₂, move₂⟩ := moveRefPairs_consistent P inv₁ source₁ target₁ assignments
  have source₂ := (move₂.real source).mpr source₁
  have target₂ := (move₂.real target).mpr target₁
  obtain ⟨inv₃, move₃⟩ := moveRefPairs_consistent P inv₂ source₂ target₂ operators
  have assignmentList := move₁.others source (k := .assignment) nofun
  have operatorList := (move₂.others source (k := .operator) nofun).trans (move₁.others source nofun)
  rw [Passing.congr P assignmentList] at move₂
  rw [Passing.congr P operatorList] at move₃
  exact ⟨inv₃.weaken (fun _ => id) (fun c waits => by simpa [Debt.waiting, or_assoc, or_self] using waits) (fun _ => id),
    Moved.three move₁ move₂ move₃⟩

theorem updateCacheReferences_some_consistent (inv : Consistent d h)
    (realSource : Real h source) {cell : Cell} (cheap : h.value cell ≠ .expensive)
    (ran : updateCacheReferences P h source (some cell) environment symbol = some h') :
    Consistent d h' ∧ ∃ target h₀, Guaranteed h h₀ cell target ∧ Real h₀ target ∧
      Transferred h₀ h' source target (Passing P h₀ source · environment symbol) := by
  obtain ⟨inv₀, target, guaranteed⟩ := guaranteeCache_consistent inv cheap
  have real₀ : Real (guaranteeCache h cell) source := by
    rw [Real, (guaranteed.kept realSource).1]
    exact realSource
  have realTarget := inv₀.toStore.real_of_cellCache guaranteed.cached
  simp only [updateCacheReferences, guaranteed.cached, Option.bind_eq_bind, Option.bind_eq_some_iff] at ran
  obtain ⟨h₁, lookups, h₂, assignments, h₃, operators, last⟩ := ran
  obtain ⟨inv₃, transferred⟩ := moveThree_consistent P inv₀ real₀ realTarget lookups assignments operators
  obtain ⟨inv₄, unmoved₄⟩ := updateClone_consistent inv₃ (e := d) ((transferred.real target).mpr realTarget) rfl rfl
    Debt.paid
  obtain ⟨inv₅, unmoved₅⟩ := updateClone_consistent inv₄ (e := d)
    ((unmoved₄.real source).mpr ((transferred.real source).mpr real₀)) rfl rfl (fun _ => .inr)
  obtain rfl := Option.some.inj last
  exact ⟨inv₅, target, _, guaranteed, realTarget, transferred.unmoved (unmoved₄.trans unmoved₅)⟩

theorem updateCacheReferences_none_consistent (inv : Consistent d h) (realSource : Real h source)
    (ran : updateCacheReferences P h source none environment symbol = some h') : Consistent d h' ∧ h'.value =
    h.value := by
  obtain rfl := Option.some.inj ran
  have lookups := deleteRefPairs_consistent P inv source .lookup environment symbol
  have assignments := deleteRefPairs_consistent P lookups source .assignment environment symbol
  have operators := deleteRefPairs_consistent P assignments source .operator environment symbol
  have same : ∀ h₀ kind, (deleteRefPairs P h₀ source kind environment symbol).cache = h₀.cache ∧
      (deleteRefPairs P h₀ source kind environment symbol).value = h₀.value := by
    intro h₀ kind
    rw [deleteRefPairs]
    split <;> exact ⟨rfl, rfl⟩
  have real : Real (deleteRefPairs P (deleteRefPairs P (deleteRefPairs P h source .lookup environment symbol)
      source .assignment environment symbol) source .operator environment symbol) source := by
    rw [Real, (same _ _).1, (same _ _).1, (same _ _).1]
    exact realSource
  obtain ⟨inv', unmoved⟩ := updateClone_consistent operators (e := d) real rfl rfl fun _ => .inr
  exact ⟨inv', by rw [unmoved.value, (same _ _).2, (same _ _).2, (same _ _).2]⟩

end

theorem recorded_addReference (store : Store h) {c c' : CacheId} (real : Real h c)
    (real' : Real h c') (kind k : ReferenceKind) (symbol name : Symbol) (slot x : SlotId) :
    Recorded (h.setCacheReferences c kind (addReference (h.cacheReferences c kind) symbol slot)) c' k name x ↔
      Recorded h c' k name x ∨ c' = c ∧ k = kind ∧ name = symbol ∧ x = slot := by
  rw [Recorded, store.setCacheReferences_of_real real real']
  split
  · rename_i here
    obtain ⟨rfl, rfl⟩ := here
    rw [(entries_addReference _ _ _).mem_iff, List.mem_cons, Prod.mk.injEq]
    simp only [true_and]
    exact or_comm
  · rename_i elsewhere
    exact ⟨.inl, fun known => known.elim id fun new => absurd ⟨new.1, new.2.1⟩ elsewhere⟩

theorem Consistent.record {d : Debt} {h : Heap} (inv : Consistent d h) {c : CacheId} (real : Real h c)
    (kind : ReferenceKind) (symbol : Symbol) {slot : SlotId}
    (fresh : ∀ {c' k name}, Real h c' → ¬Recorded h c' k name slot) :
    Consistent
      { d with unready := fun c' => d.unready c' ∨ c' = c, pending := fun x => d.pending x ∨ x = slot }
      (h.setCacheReferences c kind (addReference (h.cacheReferences c kind) symbol slot)) := by
  have recorded := fun {c'} (real' : Real h c') k =>
    recorded_addReference inv.toStore real real' kind k symbol
  have lists := fun {c'} (real' : Real h c') =>
    fun k => inv.toStore.setCacheReferences_of_real real real' kind k
      (addReference (h.cacheReferences c kind) symbol slot)
  constructor
  · constructor
    · exact inv.allocated
    · exact inv.owner
    · exact inv.trap
    · exact inv.toStore.clone
    · intro c' k r
      rw [lists r]
      split
      · rename_i here
        obtain ⟨rfl, rfl⟩ := here
        refine (((entries_addReference _ symbol slot).map Prod.snd).nodup_iff).mpr ?_
        refine List.nodup_cons.mpr ⟨fun member => ?_, inv.nodup k r⟩
        obtain ⟨name, here⟩ := mem_slots.mp member
        exact fresh r here
      · exact inv.nodup k r
    · intro c₁ c₂ k₁ k₂ name₁ name₂ x r₁ r₂ m₁ m₂
      rcases (recorded r₁ ..).mp m₁ with before₁ | ⟨same₁, kind₁, _, new₁⟩
      · rcases (recorded r₂ ..).mp m₂ with before₂ | ⟨_, _, _, new₂⟩
        · exact inv.disjoint r₁ r₂ before₁ before₂
        · exact absurd (new₂ ▸ before₁) (fresh r₁)
      · rcases (recorded r₂ ..).mp m₂ with before₂ | ⟨same₂, kind₂, _, _⟩
        · exact absurd (new₁ ▸ before₂) (fresh r₂)
        · exact ⟨same₁.trans same₂.symm, kind₁.trans kind₂.symm⟩
  · intro c' k name x r known done
    rcases (recorded r ..).mp known with before | ⟨_, _, _, rfl⟩
    · exact holds_congr (h := h) rfl rfl (fun _ => id) (inv.holds r before fun waits => done (.inl waits))
    · exact absurd (.inr rfl) done
  · intro c' r done
    have before := inv.ready r fun waits => done (.inl waits)
    have other : ∀ k, ¬(c' = c ∧ k = kind) := fun k here => done (.inr here.1)
    simp only [CloneReady, lists r, other, if_false]
    exact before

theorem Consistent.install {d d' : Debt} (inv : Consistent d h) (real : Real h c) {kind : ReferenceKind} {name : Symbol}
    {slot : SlotId} (here : Recorded h c kind name slot) (stale : d'.stale = d.stale) (unready : d'.unready = d.unready)
    (pending : ∀ x, ¬d'.pending x → ¬d.pending x ∨ x = slot) : Consistent d' (installCache h c kind slot) := by
  rw [installCache_eq]
  refine inv.thin rfl rfl rfl rfl (fun _ _ _ => List.Subperm.refl _) (fun _ _ _ => id) ?_
    (fun c' done => unready ▸ done)
  intro c' k name' x r recorded done
  by_cases same : x = slot
  · subst same
    obtain ⟨rfl, rfl⟩ := inv.disjoint r real recorded here
    exact .inl (update_self _ _ _)
  · refine .inr ⟨update_of_ne same _ _, (pending x done).elim id fun h => absurd h same, ?_⟩
    exact fun _ now => stale ▸ now

theorem Consistent.not_recorded_of_symbol (inv : Consistent d h) {slot : SlotId}
    (settled : ¬d.pending slot) {name : Symbol} (read : h.slot slot = .symbol name)
    {kind : ReferenceKind} {name' : Symbol} (real : Real h c) : ¬Recorded h c kind name' slot := by
  intro recorded
  have held := inv.holds real recorded settled
  cases kind <;> simp [Holds, read] at held

end MitScheme.Microcode.Lookup
