import MitScheme.Microcode.Lookup.Preservation

namespace MitScheme.Microcode.Lookup

open Option

/-- No cell is `expensive`: only clones are. -/
def Clean (h : Heap) : Prop := ∀ cell, h.value cell ≠ .expensive

/-- A value that programs can store: neither of the two traps the microcode keeps to itself. -/
def Obj.storable : Obj → Bool
  | .expensive => false
  | .compilerCached _ => false
  | _ => true

def Debt.links (stale : CacheId → Prop) : Debt where
  stale := stale
  unready := fun _ => False
  pending := fun _ => False

def Relinked (d : Debt) (h : Heap) (c : CacheId) (value : Obj) : Prop :=
  ∀ name slot, Recorded h c .operator name slot → ¬d.stale c → value = (h.cache c).value

theorem mapToUnassigned_ne_expensive {value : Obj} (cheap : value ≠ .expensive) :
    mapToUnassigned value ≠ .expensive := by
  unfold mapToUnassigned
  split <;> simp [cheap]

theorem mapToUnassigned_ne_cached {value : Obj} (storable : value.storable) (t : TrapId) :
    mapToUnassigned value ≠ .compilerCached t := by
  unfold mapToUnassigned
  split
  · simp
  · rintro rfl
    cases storable

theorem ne_expensive_of_storable {value : Obj} (storable : value.storable) : value ≠ .expensive := by
  rintro rfl
  cases storable

theorem lookupVariable_of_cell {P : Program} {h : Heap} {environment : Env} {symbol : Symbol} {cell : Cell}
    (proper : environment.environmentP) (found : (findBindingCell P h environment symbol).1 = some cell) :
    lookupVariable P h environment symbol = lookupValue (effectiveValue h cell) := by
  simp only [lookupVariable, proper, if_true, found, effectiveValue]
  cases h.value cell <;> rfl

theorem Clean.setValue {h : Heap} (clean : Clean h) (cell : Cell) {value : Obj}
    (cheap : value ≠ .expensive) : Clean (h.setValue cell value) := by
  intro other
  simp only [Heap.setValue, Function.update_apply]
  split
  · exact cheap
  · exact clean other

theorem Clean.congr {h h' : Heap} (clean : Clean h) (value : h'.value = h.value) : Clean h' := by
  intro cell
  rw [value]
  exact clean cell

theorem Guaranteed.clean {h h' : Heap} {cell : Cell} {c : CacheId} (guaranteed : Guaranteed h h' cell c)
    (clean : Clean h) : Clean h' := by
  intro other
  by_cases here : other = cell
  · obtain ⟨t, read, _⟩ := cellCache_eq_some.mp guaranteed.cached
    rw [here, read]
    nofun
  · rw [guaranteed.elsewhere here]
    exact clean other

section
variable {d : Debt} {h : Heap}

theorem recorded_setCacheValue (c : CacheId) (value : Obj) (c' : CacheId) (kind : ReferenceKind) (name : Symbol)
    (slot : SlotId) : Recorded (h.setCacheValue c value) c' kind name slot ↔ Recorded h c' kind name slot := by
  rw [Recorded, setCacheValue_references, Recorded]

structure Revalued (h h' : Heap) : Prop where
  value : h'.value = h.value
  trapCache : h'.trapCache = h.trapCache
  extension : h'.extension = h.extension
  free : h.free ≤ h'.free
  real : ∀ c, Real h' c ↔ Real h c
  recorded : ∀ {c}, Real h c → ∀ kind name slot, Recorded h' c kind name slot ↔ Recorded h c kind name slot

theorem Revalued.refl (h : Heap) : Revalued h h where
  value := rfl
  trapCache := rfl
  extension := rfl
  free := Nat.le_refl _
  real _ := .rfl
  recorded _ _ _ _ := .rfl

variable {c : CacheId} {value : Obj} {environment : Env} {symbol : Symbol}

theorem revalued_setCacheValue (real : Real h c) (cheap : value ≠ .expensive) :
    Revalued h (h.setCacheValue c value) where
  value := rfl
  trapCache := rfl
  extension := rfl
  free := Nat.le_refl _
  real := real_setCacheValue real cheap
  recorded _ := recorded_setCacheValue c value _

section
variable (inv : Consistent d h)
include inv

theorem revalued_updateUuoLinks (real : Real h c)
    (cheap : value ≠ .expensive) : Revalued h (updateUuoLinks h c value) := by
  obtain ⟨_, unmoved⟩ := updateUuoLinks_consistent inv real cheap
  have reals := real_setCacheValue real cheap
  exact {
    value := unmoved.value
    trapCache := unmoved.trapCache
    extension := unmoved.extension
    free := unmoved.free
    real := fun c' => (unmoved.real c').trans (reals c')
    recorded := fun r kind name slot => (unmoved.recorded ((reals _).mpr r) kind name slot).trans
      (recorded_setCacheValue c value _ kind name slot) }

theorem revalued_assignVariableCache (real : Real h c)
    (cheap : value ≠ .expensive) (force : Bool) : Revalued h (assignVariableCache h c value force).heap := by
  have cheap := mapToUnassigned_ne_expensive cheap
  have relinked := revalued_updateUuoLinks inv real cheap
  have stored := revalued_setCacheValue real cheap
  unfold assignVariableCache
  dsimp only
  split <;> (try split) <;> (try split) <;>
    first | exact .refl h | exact relinked | exact stored

theorem assignVariableCache_consistent (clean : Clean h) (real : Real h c) (cheap : value ≠ .expensive) (force : Bool) :
    Consistent d (assignVariableCache h c value force).heap ∧ Clean (assignVariableCache h c value force).heap := by
  have cheap := mapToUnassigned_ne_expensive cheap
  obtain ⟨relinked, unmoved⟩ := updateUuoLinks_consistent inv real cheap
  have stored : Consistent d (h.setCacheValue c (mapToUnassigned value)) ∨
      h.cacheReferences c .operator ≠ [] := by
    by_cases operators : h.cacheReferences c .operator = []
    · refine .inl (inv.setCacheValue real cheap (fun name slot here => ?_) (fun _ => id) (fun _ => id) rfl)
      exact absurd operators (ne_nil_of_mem_entries here)
    · exact .inr operators
  unfold assignVariableCache
  dsimp only
  split <;> (try split) <;> (try split) <;>
    first
      | exact ⟨inv, clean⟩
      | exact ⟨relinked, clean.congr unmoved.value⟩
      | exact ⟨stored.resolve_right ‹_›, clean⟩

theorem assignVariableEnd_consistent (clean : Clean h) (cell : Cell) (cheap : value ≠ .expensive)
    (cached : ∀ t, mapToUnassigned value = .compilerCached t → t < h.free ∧ Real h (h.trapCache t)) (force : Bool) :
    Consistent d (assignVariableEnd h cell value force).heap ∧ Clean (assignVariableEnd h cell value force).heap := by
  have stored := inv.setValue cell cached
  have cleaned := clean.setValue cell (mapToUnassigned_ne_expensive cheap)
  unfold assignVariableEnd
  dsimp only
  split
  · rename_i t read
    exact assignVariableCache_consistent inv clean (inv.trap read).2 cheap force
  · split <;> (try split) <;> first | exact ⟨stored, cleaned⟩ | exact ⟨inv, clean⟩

theorem extendEnvironment_consistent (clean : Clean h) (frame : Env)
    (extension : SpaciousExtension) (symbol : Symbol) (cheap : value ≠ .expensive)
    (cached : ∀ t, mapToUnassigned value = .compilerCached t → t < h.free ∧ Real h (h.trapCache t)) :
    Consistent d (extendEnvironment h frame extension symbol value).2 ∧
      Clean (extendEnvironment h frame extension symbol value).2 := by
  have stored : Consistent d
      ({ h with free := h.free + 1 }.setValue (.binding h.free) (mapToUnassigned value)) :=
    inv.bump.setValue _ fun t read => ⟨Nat.lt_succ_of_lt (cached t read).1, (cached t read).2⟩
  have cleaned : Clean ({ h with free := h.free + 1 }.setValue (.binding h.free) (mapToUnassigned value)) :=
    .setValue (h := { h with free := h.free + 1 }) clean _ (mapToUnassigned_ne_expensive cheap)
  exact ⟨stored.setExtension frame _, cleaned⟩

theorem unbindVariable1_consistent (clean : Clean h) (cell : Cell) (frame : Env) (symbol : Symbol) :
    Consistent d (unbindVariable1 h cell frame symbol) ∧ Clean (unbindVariable1 h cell frame symbol) := by
  have stored : Consistent d (h.setValue cell .unbound) := inv.setValue cell nofun
  have cleaned : Clean (h.setValue cell .unbound) := clean.setValue cell nofun
  unfold unbindVariable1
  split
  · split
    · exact ⟨inv.setExtension _ _, clean⟩
    · exact ⟨stored, cleaned⟩
  · exact ⟨stored, cleaned⟩

end

variable (P : Program)

theorem bindingCache_eq_some {h : Heap} : bindingCache P h environment symbol = some c ↔
    ∃ cell, (findBindingCell P h environment symbol).1 = some cell ∧ cellCache h cell = some c := by
  unfold bindingCache
  split <;> simp_all

theorem Store.real_of_bindingCache (store : Store h)
    (bound : bindingCache P h environment symbol = some c) : Real h c := by
  obtain ⟨cell, _, cached⟩ := (bindingCache_eq_some P).mp bound
  exact store.real_of_cellCache cached

theorem defineVariable_consistent (inv : Consistent d h) (clean : Clean h) (environment : Env)
    (symbol : Symbol) (cheap : value ≠ .expensive)
    (cached : ∀ t, mapToUnassigned value = .compilerCached t → t < h.free ∧ Real h (h.trapCache t))
    {result : Result} (ran : defineVariable P h environment symbol value = some result) :
    Consistent d result.heap ∧ Clean result.heap := by
  unfold defineVariable at ran
  split at ran
  · obtain rfl := some.inj ran
    exact assignVariableEnd_consistent inv clean _ cheap cached true
  · rename_i id parent _
    dsimp only at ran
    have grown := inv.setExtension (.procedure id parent)
      (guaranteeExtensionSpace (h.extension (.procedure id parent))).toExtension
    obtain ⟨extended, cleaned⟩ := extendEnvironment_consistent grown clean (.procedure id parent)
      (guaranteeExtensionSpace (h.extension (.procedure id parent))) symbol cheap cached
    split at ran
    · obtain rfl := some.inj ran
      exact ⟨extended, cleaned⟩
    · rename_i c bound
      have real := grown.toStore.real_of_bindingCache P bound
      simp only [bind_eq_bind, bind_eq_some_iff, some.injEq] at ran
      obtain ⟨h', moved, rfl⟩ := ran
      obtain ⟨inv', target, h₀, guaranteed, _, transferred⟩ :=
        updateCacheReferences_some_consistent P extended real (cleaned _) moved
      exact ⟨inv', (guaranteed.clean cleaned).congr transferred.value⟩
  · obtain rfl := some.inj ran
    exact ⟨inv, clean⟩

theorem unbindCachedVariable_consistent (inv : Consistent d h) (clean : Clean h) {cell : Cell}
    (real : Real h c) {id : Nat} {parent : Env} {h' : Heap}
    (ran : unbindCachedVariable P h cell c id parent symbol = some h') : Consistent d h' ∧ Clean h' := by
  obtain ⟨unbound, cleaned⟩ := unbindVariable1_consistent inv clean cell (.procedure id parent) symbol
  have caches : (unbindVariable1 h cell (.procedure id parent) symbol).cache = h.cache := by
    unfold unbindVariable1
    split <;> (try split) <;> rfl
  have real : Real (unbindVariable1 h cell (.procedure id parent) symbol) c := by rwa [Real, caches]
  unfold unbindCachedVariable at ran
  cases shadowed : (findBindingCell P h parent symbol).1 with
  | some cell' =>
    rw [shadowed] at ran
    obtain ⟨inv', target, h₀, guaranteed, _, transferred⟩ :=
      updateCacheReferences_some_consistent P unbound real (cleaned _) ran
    exact ⟨inv', (guaranteed.clean cleaned).congr transferred.value⟩
  | none =>
    rw [shadowed] at ran
    obtain ⟨inv', value⟩ := updateCacheReferences_none_consistent P unbound real ran
    exact ⟨inv', cleaned.congr value⟩

theorem unbindVariable_consistent (inv : Consistent d h) (clean : Clean h)
    (relinked : ∀ cell c, (findBindingCell P h environment symbol).1 = some cell →
      cellCache h cell = some c → (∀ id parent, (findBindingCell P h environment symbol).2 ≠ .procedure id parent) →
        getTrapKind (h.cache c).value ≠ .unbound → Relinked d h c .unbound)
    {result : Result} (ran : unbindVariable P h environment symbol = some result) :
    Consistent d result.heap ∧ Clean result.heap := by
  unfold unbindVariable at ran
  split at ran
  · obtain rfl := some.inj ran
    exact ⟨inv, clean⟩
  · rename_i cell frame found
    rw [found] at relinked
    split at ran
    · rename_i t read
      have real := (inv.trap read).2
      have cached : cellCache h cell = some (h.trapCache t) := cellCache_eq_some.mpr ⟨t, read, rfl⟩
      have procedure : ∀ {id parent}, (do
          let h ← unbindCachedVariable P h cell (h.trapCache t) id parent symbol
          some (succeed h sharpT)) = some result →
          Consistent d result.heap ∧ Clean result.heap := by
        intro id parent ran
        simp only [bind_eq_bind, bind_eq_some_iff, some.injEq] at ran
        obtain ⟨h', moved, rfl⟩ := ran
        exact unbindCachedVariable_consistent P inv clean real moved
      have outermost : (∀ id parent, frame ≠ .procedure id parent) →
          getTrapKind (h.cache (h.trapCache t)).value ≠ .unbound →
          Consistent d (h.setCacheValue (h.trapCache t) .unbound) := fun other bound =>
        inv.setCacheValue real nofun (relinked cell _ rfl cached other bound) (fun _ => id) (fun _ => id) rfl
      dsimp only at ran
      split at ran <;> rename_i kind
      · obtain rfl := some.inj ran
        exact ⟨inv, clean⟩
      all_goals first
        | (obtain rfl := some.inj ran; exact ⟨inv, clean⟩)
        | (split at ran
           · exact procedure ran
           · rename_i other
             obtain rfl := some.inj ran
             exact ⟨outermost other (by simp [kind]), clean⟩)
    · obtain ⟨unbound, cleaned⟩ := unbindVariable1_consistent inv clean cell frame symbol
      split at ran <;> obtain rfl := some.inj ran <;>
        first | exact ⟨inv, clean⟩ | exact ⟨unbound, cleaned⟩

end

end MitScheme.Microcode.Lookup
