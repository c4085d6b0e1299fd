import MitScheme.Microcode.Lookup.Scoping
import MitScheme.Microcode.Lookup.Resolution

/-!
Two variables are one location when they share a cell or a cache. Links join locations, and keep
those joined before as long as a merge of two caches finds no other trap of the source's cache.
-/

namespace MitScheme.Microcode.Lookup

open Library List

def assignable (value : Obj) : Bool :=
  match getTrapKind value with
  | .nonTrap => true
  | .unassigned => true
  | _ => false

def Joined (h : Heap) (a b : Cell) : Prop :=
  a = b ∨ ∃ c, cellCache h a = some c ∧ cellCache h b = some c

theorem Joined.refl (h : Heap) (a : Cell) : Joined h a a := .inl rfl

theorem Joined.symm {h : Heap} {a b : Cell} (joined : Joined h a b) : Joined h b a :=
  joined.imp .symm fun ⟨c, left, right⟩ => ⟨c, right, left⟩

theorem Joined.trans {h : Heap} {a b c : Cell} (first : Joined h a b) (second : Joined h b c) : Joined h a c := by
  rcases first with rfl | ⟨x, a_x, b_x⟩
  · exact second
  · rcases second with rfl | ⟨y, b_y, c_y⟩
    · exact .inr ⟨x, a_x, b_x⟩
    · cases b_x.symm.trans b_y
      exact .inr ⟨x, a_x, c_y⟩

theorem Joined.effectiveValue {h : Heap} {a b : Cell} (joined : Joined h a b) :
    effectiveValue h a = effectiveValue h b := by
  rcases joined with rfl | ⟨c, a_c, b_c⟩
  · rfl
  · rw [effectiveValue_of_cached a_c, effectiveValue_of_cached b_c]

section
variable {h : Heap}

variable {value : Obj} {c : CacheId} {cell target source : Cell}

theorem assignable_mapToUnassigned (nonTrap : getTrapKind value = .nonTrap) : assignable (mapToUnassigned value) := by
  cases value <;> first | rfl | cases nonTrap

theorem storable_of_nonTrap (nonTrap : getTrapKind value = .nonTrap) : value.storable := by
  cases value <;> first | rfl | cases nonTrap

theorem assignVariableCache_effect {d : Debt} (inv : Consistent d h) (real : Real h c)
    (settable : assignable (h.cache c).value) (cheap : value ≠ .expensive) (force : Bool) :
    (assignVariableCache h c value force).code = .primDone ∧
      ∀ {c'}, Real h c' → ((assignVariableCache h c value force).heap.cache c').value =
        if c' = c then mapToUnassigned value else (h.cache c').value := by
  have cheap := mapToUnassigned_ne_expensive cheap
  obtain ⟨_, unmoved⟩ := updateUuoLinks_consistent inv real cheap
  have reals := real_setCacheValue real cheap
  have values : ∀ c', ((h.setCacheValue c (mapToUnassigned value)).cache c').value =
      if c' = c then mapToUnassigned value else (h.cache c').value := by
    intro c'
    rw [setCacheValue_cache]
    split <;> rfl
  have branch : assignVariableCache h c value force =
      if h.cacheReferences c .operator ≠ [] then
        succeed (updateUuoLinks h c (mapToUnassigned value)) (mapFromUnassigned (h.cache c).value)
      else succeed (h.setCacheValue c (mapToUnassigned value)) (mapFromUnassigned (h.cache c).value) := by
    unfold assignVariableCache
    unfold assignable at settable
    dsimp only
    split <;> simp_all
  rw [branch]
  split
  · exact ⟨rfl, fun r => (unmoved.contents ((reals _).mpr r)).1.trans (values _)⟩
  · exact ⟨rfl, fun _ => values _⟩

theorem cellCache_setValue_ne {cell other : Cell} (value : Obj) (distinct : other ≠ cell) :
    cellCache (h.setValue cell value) other = cellCache h other := by
  simp [cellCache, Heap.setValue, distinct]

theorem assignVariableEnd_of_not_cached (uncached : cellCache h cell = none) (settable : assignable (h.value cell))
    (value : Obj) (force : Bool) : assignVariableEnd h cell value force =
    succeed (h.setValue cell (mapToUnassigned value)) (mapFromUnassigned (h.value cell)) := by
  unfold assignVariableEnd
  unfold assignable at settable
  cases old : h.value cell with
  | datum | externalUnassigned | unassigned => rfl
  | compilerCached t => simp [cellCache, old] at uncached
  | _ => simp [old, getTrapKind] at settable

theorem assignVariableEnd_effect {P : Program} (wf : WellFormed P h)
    (settable : assignable (effectiveValue h cell)) (nonTrap : getTrapKind value = .nonTrap)
    (force : Bool) :
    let result := assignVariableEnd h cell value force
    result.code = .primDone ∧ WellFormed P result.heap ∧
      (∀ other, cellCache result.heap other = cellCache h other) ∧
      result.heap.extension = h.extension ∧
      (∀ other, Joined h cell other → effectiveValue result.heap other = mapToUnassigned value) ∧
      ∀ other, ¬Joined h cell other → effectiveValue result.heap other = effectiveValue h other := by
  intro result
  have storable := storable_of_nonTrap nonTrap
  obtain ⟨inv', clean'⟩ := assignVariableEnd_consistent wf.consistent wf.clean cell
    (ne_expensive_of_storable storable) (storable_uncached storable) force
  cases cached : cellCache h cell with
  | some c =>
    obtain ⟨t, read, rfl⟩ := cellCache_eq_some.mp cached
    rw [effectiveValue_of_cached cached] at settable
    have real := (wf.consistent.trap read).2
    obtain ⟨code, contents⟩ := assignVariableCache_effect
      wf.consistent real settable (ne_expensive_of_storable storable) force
    obtain ⟨value', traps, extension, free, _, _⟩ := revalued_assignVariableCache
      wf.consistent real (ne_expensive_of_storable storable) force
    have same : result = assignVariableCache h (h.trapCache t) value force := by
      simp [result, assignVariableEnd, read]
    rw [← same] at code value' traps extension free contents
    have caches : ∀ other, cellCache result.heap other = cellCache h other := by
      intro other
      simp [cellCache, value', traps]
    refine ⟨code, ⟨inv', clean', wf.tidy.congr (frameBindings_congr extension) free⟩, caches, extension,
      fun other joined => ?_, fun other apart => ?_⟩
    · have cachedOther : cellCache h other = some (h.trapCache t) := by
        rcases joined with rfl | ⟨c, left, right⟩
        · exact cached
        · cases cached.symm.trans left
          exact right
      rw [effectiveValue_of_cached ((caches other).trans cachedOther), contents real, if_pos rfl]
    · cases cachedOther : cellCache h other with
      | none =>
        rw [effectiveValue_of_not_cached ((caches other).trans cachedOther), value',
          effectiveValue_of_not_cached cachedOther]
      | some c =>
        rw [effectiveValue_of_cached ((caches other).trans cachedOther),
          contents (wf.consistent.toStore.real_of_cellCache cachedOther),
          if_neg fun same : c = h.trapCache t => apart (.inr ⟨c, by rw [cached, same], cachedOther⟩),
          effectiveValue_of_cached cachedOther]
  | none =>
    rw [effectiveValue_of_not_cached cached] at settable
    have same : assignVariableEnd h cell value force =
        succeed (h.setValue cell (mapToUnassigned value)) (mapFromUnassigned (h.value cell)) :=
      assignVariableEnd_of_not_cached cached settable value force
    have stored : cellCache (h.setValue cell (mapToUnassigned value)) cell = none := by
      unfold cellCache
      split
      · rename_i t read
        simp only [Heap.setValue, Function.update_self] at read
        exact absurd read (mapToUnassigned_ne_cached storable t)
      · rfl
    have caches : ∀ other, cellCache (h.setValue cell (mapToUnassigned value)) other = cellCache h other := by
      intro other
      by_cases here : other = cell
      · rw [here, stored, cached]
      · exact cellCache_setValue_ne _ here
    rw [same] at inv' clean'
    simp only [result, same]
    refine ⟨rfl, ⟨inv', clean', wf.tidy.setValue _ _⟩, caches, rfl, fun other joined => ?_, fun other apart => ?_⟩
    · have here : other = cell := by
        rcases joined with rfl | ⟨c, left, _⟩
        · rfl
        · cases cached.symm.trans left
      rw [here]
      change effectiveValue (h.setValue cell (mapToUnassigned value)) cell = _
      rw [effectiveValue_of_not_cached stored, Heap.setValue_value_self]
    · have away : other ≠ cell := fun here => apart (.inl here.symm)
      simp [effectiveValue, Heap.setValue, away, succeed]

/-- What a link between two variables does to locations. -/
structure Linked (h h' : Heap) (target source : Cell) (among : Cell → Prop) : Prop where
  extension : h'.extension = h.extension
  free : h.free ≤ h'.free
  joined : ∀ {a b}, among a → among b → Joined h a b → Joined h' a b
  linked : Joined h' target source
  values : ∀ {a}, among a → effectiveValue h' a = effectiveValue h source ∨ effectiveValue h' a = effectiveValue h a

theorem linked_of_same (among : Cell → Prop) (joined : Joined h target source) : Linked h h target source among where
  extension := rfl
  free := Nat.le_refl _
  joined _ _ := id
  linked := joined
  values _ := .inr rfl

/-- Two caches are merged. All cells of the source's cache among those that matter hold the
trap of the source. -/
theorem linked_of_merged {d : Debt} (inv : Consistent d h) {h' : Heap} {among : Cell → Prop} {trap : TrapId}
    (merged : Merged h h' source target trap c) (cached : cellCache h target = some c)
    (readSource : h.value source = .compilerCached trap) (other : h.trapCache trap ≠ c)
    (undivided : ∀ a, among a → cellCache h a = some (h.trapCache trap) → h.value a = h.value source) :
    Linked h h' target source among := by
  have cachedSource : cellCache h source = some (h.trapCache trap) := cellCache_eq_some.mpr ⟨trap, readSource, rfl⟩
  -- the source's cache is renamed to the target's, in the cells that matter
  have renamed : ∀ {a}, among a → cellCache h a = some (h.trapCache trap) → cellCache h' a = some c :=
    fun {a} member in_source => merged.redirected readSource cached other (undivided a member in_source)
  have kept : ∀ {a c'}, c' ≠ h.trapCache trap → cellCache h a = some c' → cellCache h' a = some c' :=
    merged.caches readSource
  have source' : cellCache h' source = some c := merged.redirected readSource cached other rfl
  have real := inv.toStore.real_of_cellCache cached
  refine {
    extension := merged.extension
    free := merged.free
    joined := fun {a b} member member' joined => ?_
    linked := .inr ⟨_, kept other.symm cached, source'⟩
    values := fun {a} member => ?_ }
  · rcases joined with rfl | ⟨c', a_c, b_c⟩
    · exact .refl h' a
    · by_cases in_source : c' = h.trapCache trap
      · subst in_source
        exact .inr ⟨_, renamed member a_c, renamed member' b_c⟩
      · exact .inr ⟨c', kept in_source a_c, kept in_source b_c⟩
  · have target_value : (h'.cache c).value = effectiveValue h source := by
      rw [merged.contents real, if_pos rfl, effectiveValue_of_cached cachedSource]
    cases cached' : cellCache h a with
    | none =>
      have here : a ≠ source := by
        rintro rfl
        cases cachedSource.symm.trans cached'
      right
      unfold effectiveValue
      rw [merged.value, Function.update_of_ne here]
      split
      · rename_i s read'
        rw [cellCache, read'] at cached'
        cases cached'
      · rfl
    | some c' =>
      by_cases in_source : c' = h.trapCache trap
      · subst in_source
        rw [effectiveValue_of_cached (renamed member cached')]
        exact .inl target_value
      · rw [effectiveValue_of_cached (kept in_source cached')]
        by_cases in_target : c' = c
        · exact .inl (in_target ▸ target_value)
        · right
          rw [merged.contents (inv.toStore.real_of_cellCache cached'), if_neg in_target,
            effectiveValue_of_cached cached']

theorem linked_of_source_not_cached (among : Cell → Prop)
    (cached : cellCache h target = some c) (uncached : cellCache h source = none) :
    Linked h ((h.setCacheValue c (h.value source)).setValue source (h.value target)) target source among := by
  obtain ⟨t, read, rfl⟩ := cellCache_eq_some.mp cached
  generalize after : (h.setCacheValue (h.trapCache t) (h.value source)).setValue source (h.value target) = h'
  have away : target ≠ source := by rintro rfl; cases cached.symm.trans uncached
  have value : ∀ {a}, a ≠ source → h'.value a = h.value a := fun here => by
    rw [← after]
    exact Function.update_of_ne here _ _
  have source_value : h'.value source = h.value target := by
    rw [← after]
    exact Function.update_self _ _ _
  have traps : h'.trapCache = h.trapCache := by rw [← after]; rfl
  have caches : ∀ {a}, a ≠ source → cellCache h' a = cellCache h a := fun here => by
    simp [cellCache, value here, traps]
  have source' : cellCache h' source = some (h.trapCache t) :=
    cellCache_eq_some.mpr ⟨t, source_value.trans read, by rw [traps]⟩
  have contents : ∀ c', (h'.cache c').value = if c' = h.trapCache t then h.value source else (h.cache c').value := by
    intro c'
    rw [← after]
    change ((h.setCacheValue _ _).cache c').value = _
    rw [setCacheValue_cache]
    split <;> rfl
  have unshared : ∀ {a}, Joined h a source → a = source := by
    rintro a (same | ⟨_, _, cached'⟩)
    · exact same
    · cases uncached.symm.trans cached'
  exact {
    extension := by rw [← after]; rfl
    free := by rw [← after]; exact Nat.le_refl _
    joined := fun {a b} _ _ joined => by
      by_cases a_here : a = source
      · subst a_here
        rw [unshared joined.symm]
        exact .refl _ _
      · by_cases b_here : b = source
        · subst b_here
          exact absurd (unshared joined) a_here
        · rcases joined with rfl | ⟨c', a_c, b_c⟩
          · exact .refl _ a
          · exact .inr ⟨c', (caches a_here).trans a_c, (caches b_here).trans b_c⟩
    linked := .inr ⟨_, (caches away).trans cached, source'⟩
    values := fun {a} _ => by
      rw [effectiveValue_of_not_cached uncached]
      cases cached' : cellCache h' a with
      | none =>
        have here : a ≠ source := by rintro rfl; cases source'.symm.trans cached'
        rw [effectiveValue_of_not_cached cached', value here,
          effectiveValue_of_not_cached ((caches here).symm.trans cached')]
        exact .inr rfl
      | some c' =>
        rw [effectiveValue_of_cached cached', contents]
        split
        · exact .inl rfl
        · rename_i different
          have here : a ≠ source := by
            rintro rfl
            exact different (Option.some.inj (cached'.symm.trans source'))
          rw [effectiveValue_of_cached ((caches here).symm.trans cached')]
          exact .inr rfl }

theorem linked_of_target_not_cached (among : Cell → Prop) {h₁ : Heap}
    (uncached : cellCache h target = none) (away : target ≠ source) (guaranteed : Guaranteed h h₁ source c) :
    Linked h (h₁.setValue target (h₁.value source)) target source among := by
  obtain ⟨t, read, rfl⟩ := cellCache_eq_some.mp guaranteed.cached
  have caches : ∀ {a}, a ≠ target → cellCache (h₁.setValue target (h₁.value source)) a = cellCache h₁ a :=
    cellCache_setValue_ne _
  have target' : cellCache (h₁.setValue target (h₁.value source)) target = some (h₁.trapCache t) :=
    cellCache_eq_some.mpr ⟨t, by rw [Heap.setValue_value_self, read], rfl⟩
  have values : ∀ {a}, a ≠ target →
      effectiveValue (h₁.setValue target (h₁.value source)) a = effectiveValue h a := by
    intro a here
    rw [← guaranteed.effective a]
    simp [effectiveValue, Heap.setValue, here]
  have unshared : ∀ {a}, Joined h a target → a = target := by
    rintro a (same | ⟨_, _, cached'⟩)
    · exact same
    · cases uncached.symm.trans cached'
  exact {
    extension := guaranteed.extension
    free := guaranteed.free
    joined := fun {a b} _ _ joined => by
      by_cases a_here : a = target
      · subst a_here
        rw [unshared joined.symm]
        exact .refl _ _
      · by_cases b_here : b = target
        · subst b_here
          exact absurd (unshared joined) a_here
        · rcases joined with rfl | ⟨c', a_c, b_c⟩
          · exact .refl _ a
          · exact .inr ⟨c', (caches a_here).trans (guaranteed.caches a_c),
              (caches b_here).trans (guaranteed.caches b_c)⟩
    linked := .inr ⟨_, target', (caches away.symm).trans guaranteed.cached⟩
    values := fun {a} _ => by
      by_cases here : a = target
      · left
        rw [here, effectiveValue_of_cached target', ← guaranteed.effective source,
          effectiveValue_of_cached guaranteed.cached]
        rfl
      · exact .inr (values here) }

variable {P : Program}

theorem environmentP_of_scanFrame {environment : Env} {symbol : Symbol} {findUnbound : Bool}
    (found : scanFrame P h environment symbol findUnbound = some cell) : environment.environmentP := by
  cases environment <;> first | rfl | cases found

theorem ne_unbound_of_assignable (settable : assignable (effectiveValue h cell)) : h.value cell ≠ .unbound := by
  intro unbound
  simp [effectiveValue, unbound, assignable, getTrapKind] at settable

theorem findBindingCell_of_own (tidy : Tidy P h) {environment : Env} {symbol : Symbol}
    (own : scanFrame P h environment symbol true = some cell) (settable : assignable (effectiveValue h cell)) :
    findBindingCell P h environment symbol = (some cell, environment) := by
  refine findBindingCell_of_scanFrame ?_
  rw [scanFrame_visible tidy]
  have bound := ne_unbound_of_assignable settable
  cases cell <;> simp_all [visible]

theorem linkVariables_linked (wf : WellFormed P h) {targetEnvironment sourceEnvironment : Env}
    {targetSymbol sourceSymbol : Symbol}
    (ownTarget : scanFrame P h targetEnvironment targetSymbol true = some target)
    (ownSource : scanFrame P h sourceEnvironment sourceSymbol true = some source)
    (setTarget : assignable (effectiveValue h target)) (setSource : assignable (effectiveValue h source))
    (among : Cell → Prop)
    (undivided : ∀ c ∈ cellCache h target, ∀ c' ∈ cellCache h source, c' ≠ c →
      ∀ a, among a → cellCache h a = some c' → h.value a = h.value source) :
    ∃ h', linkVariables P h targetEnvironment targetSymbol sourceEnvironment sourceSymbol =
      some (succeed h' none) ∧ WellFormed P h' ∧ Linked h h' target source among := by
  have kept : ∀ {result}, linkVariables P h targetEnvironment targetSymbol sourceEnvironment sourceSymbol =
      some result → Consistent (.links fun _ => True) result.heap ∧ Clean result.heap := linkVariables_consistent P wf.consistent wf.clean
      (harmless_of_stale P (fun _ => trivial) h (.link targetEnvironment targetSymbol sourceEnvironment sourceSymbol))
  have finish : ∀ {h' : Heap}, linkVariables P h targetEnvironment targetSymbol sourceEnvironment sourceSymbol =
      some (succeed h' none) → Linked h h' target source among → ∃ h', linkVariables P h targetEnvironment
        targetSymbol sourceEnvironment sourceSymbol = some (succeed h' none) ∧ WellFormed P h' ∧
          Linked h h' target source among := fun ran linked =>
    ⟨_, ran, ⟨(kept ran).1, (kept ran).2, wf.tidy.congr (frameBindings_congr linked.extension) linked.free⟩, linked⟩
  have proper : targetEnvironment.environmentP ∧ sourceEnvironment.environmentP :=
    ⟨environmentP_of_scanFrame ownTarget, environmentP_of_scanFrame ownSource⟩
  have bound : getTrapKind (h.value source) ≠ .unbound := by
    have := ne_unbound_of_assignable setSource
    cases value : h.value source <;> simp_all [getTrapKind]
  have found : (findBindingCell P h sourceEnvironment sourceSymbol).1 = some source := by
    rw [findBindingCell_of_own wf.tidy ownSource setSource]
  unfold linkVariables at finish ⊢
  rw [if_pos proper, found] at finish ⊢
  simp only [if_neg bound, ownTarget] at finish ⊢
  by_cases same : target = source
  · subst same
    rw [if_pos rfl] at finish ⊢
    exact finish rfl (linked_of_same among (.refl h target))
  · rw [if_neg (by simpa using same)] at finish ⊢
    cases cached : cellCache h target with
    | some c =>
      simp only [Option.bind_some, cached] at finish ⊢
      refine finish rfl ?_
      cases cachedSource : cellCache h source with
      | none =>
        rw [linkToCache_of_not_cached cachedSource]
        exact linked_of_source_not_cached among cached cachedSource
      | some c' =>
        by_cases shared : c' = c
        · rw [linkToCache_of_same (shared ▸ cachedSource)]
          exact linked_of_same among (.inr ⟨c, cached, shared ▸ cachedSource⟩)
        · obtain ⟨trap, read, rfl⟩ := cellCache_eq_some.mp cachedSource
          have relinked : Relinked (.links fun _ => True) h c (h.cache (h.trapCache trap)).value :=
            fun _ _ _ fresh => absurd trivial fresh
          obtain ⟨_, _, merged⟩ := linkToCache_merged wf.consistent wf.clean cached read shared relinked
          exact linked_of_merged wf.consistent merged cached read shared
            (undivided c cached _ cachedSource shared)
    | none =>
      simp only [Option.bind_some, cached] at finish ⊢
      obtain ⟨inv', c, guaranteed⟩ := guaranteeCache_consistent wf.consistent (wf.clean source)
      have linked := linked_of_target_not_cached among cached same guaranteed
      obtain ⟨t, read, _⟩ := cellCache_eq_some.mp guaranteed.cached
      have own : scanFrame P (guaranteeCache h source) targetEnvironment targetSymbol true = some target :=
        (scanFrame_of_extension guaranteed.extension _ _).trans ownTarget
      have value := guaranteed.elsewhere same
      have uncached : cellCache (guaranteeCache h source) target = none := by
        unfold cellCache at cached ⊢
        cases old : h.value target <;> simp_all
      rw [effectiveValue_of_not_cached cached, ← value] at setTarget
      have stored : mapToUnassigned ((guaranteeCache h source).value source) = (guaranteeCache h source).value source := by
        rw [read]
        rfl
      have defined : defineVariable P (guaranteeCache h source) targetEnvironment targetSymbol
          ((guaranteeCache h source).value source) =
            some (succeed ((guaranteeCache h source).setValue target ((guaranteeCache h source).value source)) none) := by
        rw [defineVariable_of_cell _ own, assignVariableEnd_of_not_cached uncached setTarget, stored]
        rfl
      rw [defined] at finish ⊢
      exact finish rfl linked

end

section
variable (P : Program) (vars : List (Env × Symbol))

/-- An assignment of one of the variables, or a link between two of them. -/
def concerns : Call → Prop
  | .assign environment symbol value => (environment, symbol) ∈ vars ∧ getTrapKind value = .nonTrap
  | .link targetEnvironment targetSymbol sourceEnvironment sourceSymbol =>
    (targetEnvironment, targetSymbol) ∈ vars ∧ (sourceEnvironment, sourceSymbol) ∈ vars
  | _ => False

instance : (call : Call) → Decidable (concerns vars call)
  | .assign .. => inferInstanceAs (Decidable (_ ∧ _))
  | .link .. => inferInstanceAs (Decidable (_ ∧ _))
  | .define .. => inferInstanceAs (Decidable False)
  | .unbind .. => inferInstanceAs (Decidable False)
  | .cache .. => inferInstanceAs (Decidable False)
  | .globalOperator .. => inferInstanceAs (Decidable False)
  | .reclaim _ => inferInstanceAs (Decidable False)

/-- When a link merges two caches, every variable of the source's cache holds the source's trap, the only one
redirected. -/
def undivided (h : Heap) : Call → Prop
  | .link targetEnvironment targetSymbol sourceEnvironment sourceSymbol =>
    ∀ target ∈ scanFrame P h targetEnvironment targetSymbol true,
      ∀ source ∈ scanFrame P h sourceEnvironment sourceSymbol true,
        ∀ c ∈ cellCache h target, ∀ c' ∈ cellCache h source, c' ≠ c →
          ∀ v ∈ vars, ∀ a ∈ scanFrame P h v.1 v.2 true,
            cellCache h a = some c' → h.value a = h.value source
  | _ => True

instance (h : Heap) : (call : Call) → Decidable (undivided P vars h call)
  | .link .. => by unfold undivided; infer_instance
  | .assign .. => inferInstanceAs (Decidable True)
  | .define .. => inferInstanceAs (Decidable True)
  | .unbind .. => inferInstanceAs (Decidable True)
  | .cache .. => inferInstanceAs (Decidable True)
  | .globalOperator .. => inferInstanceAs (Decidable True)
  | .reclaim _ => inferInstanceAs (Decidable True)

def AllBound (h : Heap) : Prop :=
  ∀ v ∈ vars, ∃ cell, scanFrame P h v.1 v.2 true = some cell ∧ assignable (effectiveValue h cell)

def LinkIn (calls : List Call) (v w : Env × Symbol) : Prop := Call.link v.1 v.2 w.1 w.2 ∈ calls

def SameLocation (h : Heap) (v w : Env × Symbol) : Prop :=
  ∃ a b, scanFrame P h v.1 v.2 true = some a ∧ scanFrame P h w.1 w.2 true = some b ∧ Joined h a b

/-- The invariant of runs: everything is still bound, and every link still joins. -/
structure Aliased (past : List Call) (h : Heap) : Prop where
  wellFormed : WellFormed P h
  allBound : AllBound P vars h
  concerned : ∀ call ∈ past, concerns vars call
  joined : ∀ {v w}, LinkIn past v w → SameLocation P h v w

variable {P vars}

variable {h h' : Heap} {v w : Env × Symbol} {past : List Call}

theorem AllBound.of_values (bound : AllBound P vars h) (extension : h'.extension = h.extension)
    (values : ∀ v ∈ vars, ∀ a, scanFrame P h v.1 v.2 true = some a → assignable (effectiveValue h a) →
      assignable (effectiveValue h' a)) : AllBound P vars h' := by
  intro v member
  obtain ⟨a, own, settable⟩ := bound v member
  exact ⟨a, (scanFrame_of_extension extension _ _).trans own, values v member a own settable⟩

theorem SameLocation.of_joined (same : SameLocation P h v w)
    (extension : h'.extension = h.extension)
    (joined : ∀ a b, scanFrame P h v.1 v.2 true = some a → scanFrame P h w.1 w.2 true = some b →
      Joined h a b → Joined h' a b) : SameLocation P h' v w := by
  obtain ⟨a, b, own, own', before⟩ := same
  exact ⟨a, b, (scanFrame_of_extension extension _ _).trans own, (scanFrame_of_extension extension _ _).trans own',
    joined a b own own' before⟩

theorem Aliased.step_assign {h : Heap} (aliased : Aliased P vars past h) {environment : Env} {symbol : Symbol}
    {value : Obj} (met : concerns vars (.assign environment symbol value)) :
    Aliased P vars (past ++ [.assign environment symbol value]) (assignVariable P h environment symbol value).heap := by
  obtain ⟨cell, own, settable⟩ := aliased.allBound _ met.1
  obtain ⟨_, wf, caches, extension, seen, unseen⟩ :=
    assignVariableEnd_effect aliased.wellFormed settable met.2 false
  have found := findBindingCell_of_own aliased.wellFormed.tidy own settable
  rw [assignVariable, found]
  refine ⟨wf, aliased.allBound.of_values extension fun v _ a _ settable' => ?_, fun call member => ?_,
    fun {v w} linked => ?_⟩
  · by_cases joined : Joined h cell a
    · rw [seen a joined]
      exact assignable_mapToUnassigned met.2
    · rw [unseen a joined]
      exact settable'
  · rcases mem_append.mp member with member | member
    · exact aliased.concerned call member
    · rw [mem_singleton.mp member]
      exact met
  · have earlier : LinkIn past v w := by
      rcases List.mem_append.mp linked with member | member
      · exact member
      · cases mem_singleton.mp member
    refine (aliased.joined earlier).of_joined extension ?_
    rintro a b _ _ (rfl | ⟨c, a_c, b_c⟩)
    · exact .refl _ a
    · exact .inr ⟨c, (caches a).trans a_c, (caches b).trans b_c⟩

theorem Aliased.step_link (aliased : Aliased P vars past h)
    {targetEnvironment sourceEnvironment : Env} {targetSymbol sourceSymbol : Symbol}
    (met : concerns vars (.link targetEnvironment targetSymbol sourceEnvironment sourceSymbol))
    (whole : undivided P vars h (.link targetEnvironment targetSymbol sourceEnvironment sourceSymbol))
    (stepped : step P h (.link targetEnvironment targetSymbol sourceEnvironment sourceSymbol) = some h') :
    Aliased P vars (past ++ [.link targetEnvironment targetSymbol sourceEnvironment sourceSymbol]) h' := by
  obtain ⟨target, ownTarget, setTarget⟩ := aliased.allBound _ met.1
  obtain ⟨source, ownSource, setSource⟩ := aliased.allBound _ met.2
  obtain ⟨m, returned, wf, linked⟩ := linkVariables_linked aliased.wellFormed ownTarget ownSource setTarget setSource
    (fun a => ∃ v ∈ vars, scanFrame P h v.1 v.2 true = some a)
    (fun c cached c' cached' apart a ⟨v, member, own⟩ =>
      whole target ownTarget source ownSource c cached c' cached' apart v member a own)
  rw [step, returned] at stepped
  obtain rfl := Option.some.inj stepped
  refine ⟨wf, aliased.allBound.of_values linked.extension fun v member a own settable => ?_, fun call member => ?_,
    fun {v w} performed => ?_⟩
  · rcases linked.values ⟨v, member, own⟩ with same | same <;> change assignable (effectiveValue m a) <;> rw [same]
    · exact setSource
    · exact settable
  · rcases mem_append.mp member with member | member
    · exact aliased.concerned call member
    · rw [mem_singleton.mp member]
      exact met
  · rcases mem_append.mp performed with earlier | now
    · obtain ⟨v_in, w_in⟩ : v ∈ vars ∧ w ∈ vars := aliased.concerned _ earlier
      exact (aliased.joined earlier).of_joined linked.extension fun a b own own' =>
        linked.joined ⟨v, v_in, own⟩ ⟨w, w_in, own'⟩
    · cases mem_singleton.mp now
      exact ⟨target, source, (scanFrame_of_extension linked.extension _ _).trans ownTarget,
        (scanFrame_of_extension linked.extension _ _).trans ownSource, linked.linked⟩

theorem Aliased.step {call : Call} (aliased : Aliased P vars past h)
    (met : concerns vars call ∧ undivided P vars h call) (stepped : step P h call = some h') :
    Aliased P vars (past ++ [call]) h' := by
  cases call with
  | assign environment symbol value =>
    obtain rfl := Option.some.inj stepped
    exact aliased.step_assign met.1
  | link targetEnvironment targetSymbol sourceEnvironment sourceSymbol =>
    exact aliased.step_link met.1 met.2 stepped
  | _ => exact met.1.elim

theorem Aliased.sameLocation {h : Heap} (aliased : Aliased P vars past h)
    (member : v ∈ vars) (connected : Relation.EqvGen (LinkIn past) v w) : SameLocation P h v w := by
  have self : ∀ {v}, v ∈ vars → SameLocation P h v v := by
    intro v member
    obtain ⟨a, own, _⟩ := aliased.allBound v member
    exact ⟨a, a, own, own, .refl h a⟩
  have either : v = w ∨ SameLocation P h v w := by
    clear member
    induction connected with
    | rel v w linked => exact .inr (aliased.joined linked)
    | refl v => exact .inl rfl
    | symm v w _ ih =>
      exact ih.imp .symm fun ⟨a, b, own, own', joined⟩ => ⟨b, a, own', own, joined.symm⟩
    | trans u v w _ _ ih ih' =>
      rcases ih with rfl | ⟨a, b, own, own', joined⟩
      · exact ih'
      · rcases ih' with rfl | ⟨b', c, own'', own''', joined'⟩
        · exact .inr ⟨a, b, own, own', joined⟩
        · cases own'.symm.trans own''
          exact .inr ⟨a, c, own, own''', joined.trans joined'⟩
  rcases either with rfl | same
  · exact self member
  · exact same

theorem SameLocation.lookup {h : Heap} (wf : WellFormed P h) (bound : AllBound P vars h) (member : v ∈ vars)
    (member' : w ∈ vars) (same : SameLocation P h v w) : lookupVariable P h v.1 v.2 = lookupVariable P h w.1 w.2 := by
  obtain ⟨a, b, own, own', joined⟩ := same
  have reached : ∀ {v a}, v ∈ vars → scanFrame P h v.1 v.2 true = some a →
      lookupVariable P h v.1 v.2 = lookupValue (effectiveValue h a) := by
    intro v a member own
    obtain ⟨a', own', settable⟩ := bound v member
    cases own.symm.trans own'
    exact lookupVariable_of_cell (environmentP_of_scanFrame own)
      (by rw [findBindingCell_of_own wf.tidy own settable])
  rw [reached member own, reached member' own', joined.effectiveValue]

variable (P)

/-- Variables connected by links read alike, and what is assigned to one is read from the other,
in every run whose links find the location of their source undivided. -/
theorem linked_variables_aliased {h₀ h : Heap} {calls : List Call} (start : WellFormed P h₀)
    (bound : AllBound P vars h₀)
    (ran : run (step P) (fun h call => concerns vars call ∧ undivided P vars h call) h₀ calls = some h)
    {v w : Env × Symbol} (member : v ∈ vars) (member' : w ∈ vars) (connected : Relation.EqvGen (LinkIn calls) v w) :
    lookupVariable P h v.1 v.2 = lookupVariable P h w.1 w.2 ∧ ∀ value, getTrapKind value =
    .nonTrap → (assignVariable P h v.1 v.2 value).code = .primDone ∧
    lookupVariable P (assignVariable P h v.1 v.2 value).heap w.1 w.2 = lookupValue (mapToUnassigned value) := by
  have aliased : Aliased P vars ([] ++ calls) h :=
    run_history (Aliased P vars) .step ⟨start, bound, nofun, nofun⟩ ran
  have same := aliased.sameLocation member connected
  refine ⟨same.lookup aliased.wellFormed aliased.allBound member member', fun value nonTrap => ?_⟩
  obtain ⟨a, own, settable⟩ := aliased.allBound v member
  obtain ⟨code, _, _, _, seen, _⟩ := assignVariableEnd_effect aliased.wellFormed settable nonTrap false
  have found := findBindingCell_of_own aliased.wellFormed.tidy own settable
  have assigned : assignVariable P h v.1 v.2 value = assignVariableEnd h a value false := by
    rw [assignVariable, found]
  have met : concerns vars (.assign v.1 v.2 value) := ⟨member, nonTrap⟩
  have after := aliased.step_assign met
  have connected' : Relation.EqvGen (LinkIn (calls ++ [.assign v.1 v.2 value])) v w :=
    connected.mono fun _ _ linked => mem_append_left _ linked
  have read := (after.sameLocation member connected').lookup after.wellFormed after.allBound member member'
  refine ⟨by rw [assigned]; exact code, ?_⟩
  rw [← read]
  obtain ⟨a', own', settable'⟩ := after.allBound v member
  have same_cell : a' = a := by
    have extension : (assignVariable P h v.1 v.2 value).heap.extension = h.extension := by
      rw [assigned]
      exact (assignVariableEnd_effect aliased.wellFormed settable nonTrap false).2.2.2.1
    exact Option.some.inj (own'.symm.trans ((scanFrame_of_extension extension _ _).trans own))
  rw [lookupVariable_of_cell (environmentP_of_scanFrame own')
    (by rw [findBindingCell_of_own after.wellFormed.tidy own' settable']), same_cell, assigned,
    seen a (.refl h a)]

end

theorem globalHeap_wellFormed : WellFormed procedureProgram globalHeap where
  consistent := globalHeap_initial.consistent _
  clean := globalHeap_initial.clean
  tidy := globalHeap_plain.toTidy

def parameterOf (id : Nat) : Env × Symbol := (.procedure id .global, 0)

def linkOf (target source : Nat) : Call :=
  .link (parameterOf target).1 (parameterOf target).2 (parameterOf source).1 (parameterOf source).2

theorem linked_variables_aliased_chain :
    ∃ h, run (step procedureProgram) (fun h call => concerns ((List.range 3).map parameterOf) call ∧
        undivided procedureProgram ((List.range 3).map parameterOf) h call) globalHeap
        [linkOf 1 0, linkOf 2 1, .assign (parameterOf 0).1 0 (.datum 9)] = some h ∧
      lookupVariable procedureProgram h (parameterOf 2).1 0 =
        lookupVariable procedureProgram h (parameterOf 0).1 0 := by
  obtain ⟨h, ran⟩ : ∃ h, run (step procedureProgram) (fun h call => concerns ((range 3).map parameterOf) call ∧
      undivided procedureProgram ((range 3).map parameterOf) h call) globalHeap
      [linkOf 1 0, linkOf 2 1, .assign (parameterOf 0).1 0 (.datum 9)] = some h :=
    Option.isSome_iff_exists.mp (by decide +kernel)
  have bound : AllBound procedureProgram ((range 3).map parameterOf) globalHeap := by
    intro v member
    obtain ⟨id, _, rfl⟩ := mem_map.mp member
    exact ⟨.argument (parameterOf id).1 0, rfl, rfl⟩
  have first : Relation.EqvGen (LinkIn [linkOf 1 0, linkOf 2 1, .assign (parameterOf 0).1 0 (.datum 9)])
      (parameterOf 2) (parameterOf 1) := .rel _ _ (mem_cons_of_mem _ mem_cons_self)
  have second : Relation.EqvGen (LinkIn [linkOf 1 0, linkOf 2 1, .assign (parameterOf 0).1 0 (.datum 9)])
      (parameterOf 1) (parameterOf 0) := .rel _ _ mem_cons_self
  exact ⟨h, ran, (linked_variables_aliased procedureProgram globalHeap_wellFormed bound ran (by decide) (by decide)
    (first.trans _ _ _ second)).1⟩

/-- Variables 0 and 1 hold one trap; linking 2 to 0 redirects it and gives 0 the trap of 2, and linking 3 to 0 redirects
the latter only. -/
theorem linked_variable_left_behind : ¬∀ (P : Program) (vars : List (Env × Symbol)) (h₀ h : Heap) (calls : List Call),
    WellFormed P h₀ → AllBound P vars h₀ → (vars.map Prod.fst).Nodup →
    run (step P) (fun _ call => concerns vars call) h₀ calls = some h → ∀ v ∈ vars, ∀ w ∈ vars,
    Relation.EqvGen (LinkIn calls) v w → lookupVariable P h v.1 v.2 = lookupVariable P h w.1 w.2 := by
  intro aliased
  let calls : List Call := [linkOf 1 0, linkOf 4 2, linkOf 5 3, linkOf 2 0, linkOf 3 0,
    .assign (parameterOf 0).1 0 (.datum 9)]
  obtain ⟨h, ran, differ⟩ : ∃ h ∈ run (step procedureProgram)
      (fun _ call => concerns ((range 6).map parameterOf) call) globalHeap calls,
      lookupVariable procedureProgram h (parameterOf 1).1 0 ≠
        lookupVariable procedureProgram h (parameterOf 0).1 0 := by decide +kernel
  have bound : AllBound procedureProgram ((range 6).map parameterOf) globalHeap := by
    intro v member
    obtain ⟨id, _, rfl⟩ := mem_map.mp member
    exact ⟨.argument (parameterOf id).1 0, rfl, rfl⟩
  exact differ (aliased _ _ _ h calls globalHeap_wellFormed bound (by decide) ran _ (by decide) _ (by decide)
    (.rel _ _ mem_cons_self))

end MitScheme.Microcode.Lookup
