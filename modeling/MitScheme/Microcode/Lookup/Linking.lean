import MitScheme.Microcode.Lookup.Operations

namespace MitScheme.Microcode.Lookup

open Function (update update_of_ne update_self)

section
variable {d : Debt} {h : Heap}

theorem moveAllReferences_consistent (inv : Consistent d h) {source target : CacheId} (realSource : Real h source)
    (realTarget : Real h target) (other : source ≠ target) (kind : ReferenceKind) :
    Consistent (d.waiting target) (moveAllReferences h source target kind) ∧
    Moved h (moveAllReferences h source target kind) source target kind (Recorded h source kind) := by
  have move := relocated_moveAllReferences inv.toStore realSource realTarget other kind
  refine ⟨inv.relocate move realSource realTarget other,
    move.moved inv.toStore realSource other (fun _ _ => .rfl) fun c k otherKind => ?_⟩
  simp [moveAllReferences, setCacheReferences_cacheReferences, installAll_cacheReferences, otherKind]

theorem mergeCaches_consistent (inv : Consistent d h) {source target : CacheId} (realSource : Real h source)
    (realTarget : Real h target) (other : source ≠ target) :
    let merged := moveAllReferences (moveAllReferences (moveAllReferences h source target .lookup)
      source target .assignment) source target .operator
    Consistent d (updateClone (updateClone merged source) target) ∧
      Transferred h (updateClone (updateClone merged source) target) source target (Recorded h source) := by
  intro merged
  obtain ⟨inv₁, move₁⟩ := moveAllReferences_consistent inv realSource realTarget other .lookup
  have source₁ := (move₁.real source).mpr realSource
  have target₁ := (move₁.real target).mpr realTarget
  obtain ⟨inv₂, move₂⟩ := moveAllReferences_consistent inv₁ source₁ target₁ other .assignment
  have source₂ := (move₂.real source).mpr source₁
  have target₂ := (move₂.real target).mpr target₁
  obtain ⟨inv₃, move₃⟩ := moveAllReferences_consistent inv₂ source₂ target₂ other .operator
  have source₃ := (move₃.real source).mpr source₂
  have target₃ := (move₃.real target).mpr target₂
  have list : ∀ {h₀ h₁} (kind : ReferenceKind), h₁.cacheReferences source kind = h₀.cacheReferences source kind →
      Recorded h₁ source kind = Recorded h₀ source kind := by
    intro h₀ h₁ kind same
    funext name slot
    rw [Recorded, same, Recorded]
  rw [list .assignment (move₁.others source (by decide))] at move₂
  rw [list .operator ((move₂.others source (k := .operator) (by decide)).trans (move₁.others source (by decide)))] at move₃
  obtain ⟨inv₄, unmoved₄⟩ := updateClone_consistent inv₃
    (e := d.waiting target) source₃ rfl rfl
    (fun c done => .inr (fun waits => done (by simpa [Debt.waiting, or_assoc, or_self] using waits)))
  obtain ⟨inv₅, unmoved₅⟩ := updateClone_consistent inv₄ (e := d) ((unmoved₄.real target).mpr target₃) rfl rfl
    Debt.paid
  exact ⟨inv₅, (Moved.three move₁ move₂ move₃).unmoved (unmoved₄.trans unmoved₅)⟩

/-- The source cell holds the target's trap, and its own old trap leads to the target's cache too. -/
structure Merged (h h' : Heap) (source target : Cell) (trap : TrapId) (c : CacheId) : Prop where
  value : h'.value = update h.value source (h.value target)
  trapCache : h'.trapCache = update h.trapCache trap c
  extension : h'.extension = h.extension
  free : h.free ≤ h'.free
  real : ∀ c', Real h' c' ↔ Real h c'
  contents : ∀ {c'}, Real h c' →
    (h'.cache c').value = if c' = c then (h.cache (h.trapCache trap)).value else (h.cache c').value
  recorded : ∀ {c'}, Real h c' → ∀ kind name slot, Recorded h' c' kind name slot ↔
    Recorded h c' kind name slot ∧ c' ≠ h.trapCache trap ∨
      c' = c ∧ Recorded h (h.trapCache trap) kind name slot

variable {trap : TrapId} {c : CacheId} {target source : Cell}

theorem Merged.caches {h' : Heap} {source target : Cell} (merged : Merged h h' source target trap c)
    (readSource : h.value source = .compilerCached trap) {cell : Cell} {c' : CacheId} (away : c' ≠ h.trapCache trap)
    (cached : cellCache h cell = some c') : cellCache h' cell = some c' := by
  obtain ⟨s, read, rfl⟩ := cellCache_eq_some.mp cached
  have here : cell ≠ source := by
    rintro rfl
    cases readSource.symm.trans read
    exact away rfl
  refine cellCache_eq_some.mpr ⟨s, ?_, ?_⟩
  · rw [merged.value, update_of_ne here, read]
  · rw [merged.trapCache, update_of_ne fun same => away (by rw [same])]

theorem Merged.redirected {h' : Heap} {source target : Cell}
    (merged : Merged h h' source target trap c) (readSource : h.value source = .compilerCached trap)
    (cached : cellCache h target = some c) (other : h.trapCache trap ≠ c) {cell : Cell}
    (same : h.value cell = h.value source) : cellCache h' cell = some c := by
  obtain ⟨t, read, rfl⟩ := cellCache_eq_some.mp cached
  by_cases here : cell = source
  · refine cellCache_eq_some.mpr ⟨t, ?_, ?_⟩
    · rw [here, merged.value, update_self, read]
    · rw [merged.trapCache, update_of_ne]
      rintro rfl
      exact other rfl
  · refine cellCache_eq_some.mpr ⟨trap, ?_, ?_⟩
    · rw [merged.value, update_of_ne here, same, readSource]
    · rw [merged.trapCache, update_self]

theorem linkToCache_merged (inv : Consistent d h) (clean : Clean h) (cached : cellCache h target = some c)
    (readSource : h.value source = .compilerCached trap) (other : h.trapCache trap ≠ c)
    (relinked : Relinked d h c (h.cache (h.trapCache trap)).value) : Consistent d (linkToCache h target source c) ∧
    Clean (linkToCache h target source c) ∧ Merged h (linkToCache h target source c) source target trap c := by
  have real := inv.toStore.real_of_cellCache cached
  obtain ⟨t, read, _⟩ := cellCache_eq_some.mp cached
  have realSource := (inv.trap readSource).2
  have set : Consistent d (h.setCacheValue c (h.cache (h.trapCache trap)).value) :=
    inv.setCacheValue real realSource relinked (fun _ => id) (fun _ => id) rfl
  have reals : ∀ c', Real (h.setCacheValue c (h.cache (h.trapCache trap)).value) c' ↔ Real h c' :=
    real_setCacheValue real realSource
  obtain ⟨counted, thinned⟩ := countReferences_consistent set c
  have thinReals := fun c' => (thinned.real c').trans (reals c')
  obtain ⟨inv', merged⟩ := mergeCaches_consistent counted ((thinReals _).mpr realSource) ((thinReals _).mpr real) other
  simp only [linkToCache, readSource, other, if_false, countReferences_cache, countReferences_setCacheValue]
  generalize updateClone (updateClone (moveAllReferences (moveAllReferences (moveAllReferences
    (countReferences (h.setCacheValue c (h.cache (h.trapCache trap)).value) c) (h.trapCache trap) c .lookup)
      (h.trapCache trap) c .assignment) (h.trapCache trap) c .operator) (h.trapCache trap)) c = m at inv' merged ⊢
  have value : m.value = h.value := merged.value.trans thinned.value
  have redirected := inv'.setTrapCache trap ((merged.real c).mpr ((thinReals c).mpr real))
  have cheap : m.value target ≠ .expensive := by rw [value, read]; nofun
  refine ⟨redirected.setValue source fun t' => redirected.trap,
    .setValue (h := m.setTrapCache trap c) (clean.congr value) source cheap, ?_⟩
  exact {
    value := by
      change update m.value source (m.value target) = _
      rw [value]
    trapCache := by
      change update m.trapCache trap c = _
      rw [merged.trapCache, thinned.trapCache]
      rfl
    extension := merged.extension.trans thinned.extension
    free := Nat.le_trans thinned.free merged.free
    real := fun c' => (merged.real c').trans (thinReals c')
    contents := fun {c'} r => by
      change (m.cache c').value = _
      rw [merged.contents ((thinReals c').mpr r), (thinned.contents ((reals c').mpr r)).1, setCacheValue_cache]
      split <;> rfl
    recorded := fun {c'} r kind name slot => by
      refine (merged.recorded ((thinReals c').mpr r) kind name slot).trans ?_
      rw [thinned.recorded ((reals c').mpr r), thinned.recorded ((reals _).mpr realSource)]
      simp only [recorded_setCacheValue]
      constructor
      · rintro (⟨before, stays⟩ | arrived)
        · refine .inl ⟨before, fun same => stays ⟨same, same ▸ before⟩⟩
        · exact .inr arrived
      · rintro (⟨before, away⟩ | arrived)
        · exact .inl ⟨before, fun gone => away gone.1⟩
        · exact .inr arrived }

theorem linkToCache_of_not_cached (uncached : cellCache h source = none) :
    linkToCache h target source c = (h.setCacheValue c (h.value source)).setValue source (h.value target) := by
  unfold linkToCache
  split
  · rename_i t read
    simp [cellCache, read] at uncached
  · rfl

theorem linkToCache_of_same (cached : cellCache h source = some c) : linkToCache h target source c = h := by
  obtain ⟨t, read, rfl⟩ := cellCache_eq_some.mp cached
  simp [linkToCache, read]

theorem linkToCache_consistent (inv : Consistent d h) (clean : Clean h) (cached : cellCache h target = some c)
    (relinked : cellCache h source ≠ some c → Relinked d h c (effectiveValue h source)) :
    Consistent d (linkToCache h target source c) ∧ Clean (linkToCache h target source c) := by
  cases cachedSource : cellCache h source with
  | none =>
    obtain ⟨t, read, _⟩ := cellCache_eq_some.mp cached
    have value := relinked (by rw [cachedSource]; nofun)
    rw [effectiveValue_of_not_cached cachedSource] at value
    have set : Consistent d (h.setCacheValue c (h.value source)) :=
      inv.setCacheValue (inv.toStore.real_of_cellCache cached) (clean source) value (fun _ => id) (fun _ => id) rfl
    have cleaned : Clean (h.setCacheValue c (h.value source)) := clean
    rw [linkToCache_of_not_cached cachedSource]
    exact ⟨set.setValue source fun t' => set.trap, cleaned.setValue source (by rw [read]; nofun)⟩
  | some cs =>
    by_cases same : cs = c
    · rw [linkToCache_of_same (same ▸ cachedSource)]
      exact ⟨inv, clean⟩
    · have value := relinked (by rw [cachedSource]; simpa using same)
      rw [effectiveValue_of_cached cachedSource] at value
      obtain ⟨trap, read, rfl⟩ := cellCache_eq_some.mp cachedSource
      obtain ⟨inv', clean', _⟩ := linkToCache_merged inv clean cached read same value
      exact ⟨inv', clean'⟩

theorem linkVariables_consistent (P : Program) (inv : Consistent d h) (clean : Clean h)
    {targetEnvironment sourceEnvironment : Env} {targetSymbol sourceSymbol : Symbol}
    (relinked : ∀ target source c,
      scanFrame P h targetEnvironment targetSymbol true = some target → cellCache h target = some c →
      (findBindingCell P h sourceEnvironment sourceSymbol).1 = some source → cellCache h source ≠ some c →
        getTrapKind (h.value source) ≠ .unbound → target ≠ source →
        Relinked d h c (effectiveValue h source))
    {result : Result} (ran : linkVariables P h targetEnvironment targetSymbol sourceEnvironment sourceSymbol =
      some result) :
    Consistent d result.heap ∧ Clean result.heap := by
  unfold linkVariables at ran
  split at ran
  · split at ran
    · obtain rfl := Option.some.inj ran
      exact ⟨inv, clean⟩
    · rename_i source found
      split at ran
      · obtain rfl := Option.some.inj ran
        exact ⟨inv, clean⟩
      · rename_i bound
        dsimp only at ran
        split at ran
        · obtain rfl := Option.some.inj ran
          exact ⟨inv, clean⟩
        · rename_i other
          split at ran
          · rename_i target c scanned cached
            rw [scanned] at cached other
            obtain rfl := Option.some.inj ran
            exact linkToCache_consistent inv clean cached fun fresh =>
              relinked target source c scanned cached found fresh bound fun same => other (by rw [same])
          · obtain ⟨inv', c, guaranteed⟩ := guaranteeCache_consistent inv (clean source)
            obtain ⟨t, read, _⟩ := cellCache_eq_some.mp guaranteed.cached
            refine defineVariable_consistent P inv' (guaranteed.clean clean) _ _ (by rw [read]; nofun) ?_ ran
            intro t' stored
            rw [read] at stored
            exact inv'.trap (read.trans stored)
  · obtain rfl := Option.some.inj ran
    exact ⟨inv, clean⟩

theorem bindingCellOrNew_consistent (P : Program) (inv : Consistent d h) (clean : Clean h) (environment : Env)
    (symbol : Symbol) : Consistent d (bindingCellOrNew P h environment symbol).2 ∧
    Clean (bindingCellOrNew P h environment symbol).2 ∧ (bindingCellOrNew P h environment symbol).2.slot = h.slot := by
  unfold bindingCellOrNew
  split
  · exact ⟨inv, clean, rfl⟩
  · rename_i frame found
    have grown := inv.setExtension frame (guaranteeExtensionSpace (h.extension frame)).toExtension
    have unbound : Obj.unbound ≠ .expensive := nofun
    obtain ⟨extended, cleaned⟩ := extendEnvironment_consistent grown clean frame
      (guaranteeExtensionSpace (h.extension frame)) symbol unbound nofun
    exact ⟨extended, cleaned, rfl⟩

theorem addCacheReference_spec (P : Program) {stale : CacheId → Prop} (inv : Consistent (.links stale) h)
    (clean : Clean h) (environment : Env) (symbol : Symbol) {slot : SlotId} (kind : ReferenceKind)
    {name : Symbol} (read : h.slot slot = .symbol name) :
    let h' := (addCacheReference P h environment symbol slot kind).heap
    Consistent (.links stale) h' ∧ Clean h' ∧ ∃ c h₀,
      Guaranteed (bindingCellOrNew P h environment symbol).2 h₀ (bindingCellOrNew P h environment symbol).1 c ∧
        h'.value = h₀.value ∧ h'.extension = h₀.extension ∧ h'.trapCache = h₀.trapCache ∧
        h₀.free ≤ h'.free ∧ (∀ c', Real h' c' ↔ Real h₀ c') ∧
        (∀ {c'}, Real h₀ c' → (h'.cache c').value = (h₀.cache c').value) ∧
        ∀ {c'}, Real h₀ c' → ∀ k name' x, Recorded h' c' k name' x ↔
          Recorded h₀ c' k name' x ∨ c' = c ∧ k = kind ∧ name' = symbol ∧ x = slot := by
  obtain ⟨inv₀, clean₀, slots⟩ := bindingCellOrNew_consistent P inv clean environment symbol
  obtain ⟨inv₁, c, guaranteed⟩ := guaranteeCache_consistent inv₀ (clean₀ (bindingCellOrNew P h environment symbol).1)
  have real := inv₁.toStore.real_of_cellCache guaranteed.cached
  have read₁ : (guaranteeCache (bindingCellOrNew P h environment symbol).2
      (bindingCellOrNew P h environment symbol).1).slot slot = .symbol name := by
    rw [guaranteed.slot, slots, read]
  have fresh : ∀ {c' k name'}, Real _ c' → ¬Recorded _ c' k name' slot :=
    inv₁.not_recorded_of_symbol (fun waits => waits) read₁
  have noted := inv₁.record real kind symbol fresh
  obtain ⟨inv₂, unmoved⟩ := updateClone_consistent noted
    (e := { Debt.links stale with pending := fun x => False ∨ x = slot }) real rfl rfl
    (fun c' _ => Debt.paid c' id)
  have recorded := fun {c'} (r : Real _ c') k name' x =>
    (unmoved.recorded r k name' x).trans (recorded_addReference inv₁.toStore real r kind k symbol name' slot x)
  have installed : Consistent (.links stale) (installCache _ c kind slot) := inv₂.install ((unmoved.real c).mpr real)
    ((recorded real kind symbol slot).mpr (.inr ⟨rfl, rfl, rfl, rfl⟩)) rfl rfl
    (fun x _ => (em (x = slot)).symm.imp_left fun other waits => waits.elim id other)
  simp only [addCacheReference, guaranteed.cached]
  refine ⟨installed, ?_, c, _, guaranteed, ?_⟩
  · refine (guaranteed.clean clean₀).congr ?_
    simp only [succeed, installCache_eq]
    exact unmoved.value
  · simp only [succeed, installCache_eq]
    exact ⟨unmoved.value, unmoved.extension, unmoved.trapCache, unmoved.free, unmoved.real,
      fun r => (unmoved.contents r).1, recorded⟩

theorem reclaimBlock_consistent (inv : Consistent d h) (block : Block) :
    Consistent d (reclaimBlock h block) ∧ ∀ c kind name slot,
      Recorded (reclaimBlock h block) c kind name slot ↔ Recorded h c kind name slot ∧ slot.1 ≠ block := by
  have lists : ∀ c kind, entries ((reclaimBlock h block).cacheReferences c kind) =
      (entries (h.cacheReferences c kind)).filter fun entry => entry.2.1 ≠ block :=
    fun c kind => entries_reclaimReferences block (h.cacheReferences c kind)
  constructor
  · refine inv.thin rfl rfl rfl rfl ?_ (fun c kind _ filled empty => ?_) ?_ fun _ => id
    · intro c kind _
      rw [lists]
      exact List.filter_sublist.subperm
    · apply filled
      change List.map _ (h.cacheReferences c kind) = []
      rw [empty, List.map_nil]
    · exact fun _ _ done => .inr ⟨rfl, done, fun _ => id⟩
  · intro c kind name slot
    rw [Recorded, lists, Recorded]
    simp

end

end MitScheme.Microcode.Lookup
