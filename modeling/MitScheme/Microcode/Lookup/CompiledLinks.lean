import MitScheme.Library.Run
import MitScheme.Microcode.Lookup.Linking

/-!
The calls of the interpreter, the linker and the garbage collector, in any order. Compiled assignments reach the clone of
a cache that compiled calls also use, and operator links are those of the current value where every write of a cache's
value is followed by `update_uuo_links`.
-/

namespace MitScheme.Microcode.Lookup

open Option

section
inductive Call where
  | assign (environment : Env) (symbol : Symbol) (value : Obj)
  | define (environment : Env) (symbol : Symbol) (value : Obj)
  | link (targetEnvironment : Env) (targetSymbol : Symbol) (sourceEnvironment : Env) (sourceSymbol : Symbol)
  | unbind (environment : Env) (symbol : Symbol)
  | cache (kind : ReferenceKind) (name : Symbol) (slot : SlotId)
  | globalOperator (name : Symbol) (slot : SlotId)
  | reclaim (block : Block)
  deriving DecidableEq, Repr

section
variable (P : Program)

/-- The heap after a call; `none` when the call does not return. -/
def step (h : Heap) : Call → Option Heap
  | .assign environment symbol value => some (assignVariable P h environment symbol value).heap
  | .define environment symbol value => (defineVariable P h environment symbol value).map Result.heap
  | .link targetEnvironment targetSymbol sourceEnvironment sourceSymbol =>
    (linkVariables P h targetEnvironment targetSymbol sourceEnvironment sourceSymbol).map Result.heap
  | .unbind environment symbol => (unbindVariable P h environment symbol).map Result.heap
  | .cache .lookup name slot => some (compilerCacheLookup P h name slot).heap
  | .cache .assignment name slot => some (compilerCacheAssignment P h name slot).heap
  | .cache .operator name slot => some (compilerCacheOperator P h name slot).heap
  | .globalOperator name slot => some (compilerCacheGlobalOperator P h name slot).heap
  | .reclaim block => some (reclaimBlock h block)

/-- Environments are environments, values are not the traps that only the microcode stores, and the linker finds the
name. -/
def legal (h : Heap) : Call → Prop
  | .assign environment _ value => environment.environmentP ∧ value.storable
  | .define environment _ value => environment.environmentP ∧ value.storable
  | .link targetEnvironment _ sourceEnvironment _ =>
    targetEnvironment.environmentP ∧ sourceEnvironment.environmentP
  | .unbind environment _ => environment.environmentP
  | .cache _ name slot => (P.blockEnvironment slot.1).environmentP ∧ h.slot slot = .symbol name
  | .globalOperator name slot => h.slot slot = .symbol name
  | .reclaim _ => True

instance (h : Heap) : (call : Call) → Decidable (legal P h call)
  | .assign .. => inferInstanceAs (Decidable (_ ∧ _))
  | .define .. => inferInstanceAs (Decidable (_ ∧ _))
  | .link .. => inferInstanceAs (Decidable (_ ∧ _))
  | .unbind .. => inferInstanceAs (Decidable (_ = true))
  | .cache .. => inferInstanceAs (Decidable (_ ∧ _))
  | .globalOperator .. => inferInstanceAs (Decidable (_ = _))
  | .reclaim _ => inferInstanceAs (Decidable True)

end

structure Initial (h : Heap) : Prop where
  uncached : ∀ cell, (h.value cell).storable
  unallocated : ∀ c, (h.cache c).value = .expensive

theorem Initial.consistent {h : Heap} (initial : Initial h) (d : Debt) : Consistent d h where
  allocated real := absurd (initial.unallocated _) real
  owner real := absurd (initial.unallocated _) real
  trap {cell t} read := by
    have storable := initial.uncached cell
    rw [read] at storable
    cases storable
  clone real := absurd (initial.unallocated _) real
  nodup _ real := absurd (initial.unallocated _) real
  disjoint real := absurd (initial.unallocated _) real
  holds real := absurd (initial.unallocated _) real
  ready real := absurd (initial.unallocated _) real

/-- The heap of the given values and slots in which nothing was ever allocated. -/
def Heap.bare (value : Cell → Obj) (slot : SlotId → Slot) : Heap where
  value := value
  extension := fun _ => none
  trapCache := fun _ => 0
  cache := fun _ => { value := .expensive, clone := none, references := 0 }
  references := fun _ _ => []
  slot := slot
  free := 0

theorem Heap.bare_initial {value : Cell → Obj} (storable : ∀ cell, (value cell).storable)
    (slot : SlotId → Slot) : Initial (Heap.bare value slot) where
  uncached := storable
  unallocated _ := rfl

theorem Initial.clean {h : Heap} (initial : Initial h) : Clean h :=
  fun cell => ne_expensive_of_storable (initial.uncached cell)

section
variable (P : Program)

/-- The writes of `SET_CACHE_VALUE` that are not followed by `update_uuo_links`. -/
def Harmless (d : Debt) (h : Heap) : Call → Prop
  | .unbind environment symbol => ∀ cell c, (findBindingCell P h environment symbol).1 = some cell →
      cellCache h cell = some c → (∀ id parent, (findBindingCell P h environment symbol).2 ≠ .procedure id parent) →
        getTrapKind (h.cache c).value ≠ .unbound → Relinked d h c .unbound
  | .link targetEnvironment targetSymbol sourceEnvironment sourceSymbol => ∀ target source c,
      scanFrame P h targetEnvironment targetSymbol true = some target → cellCache h target = some c →
      (findBindingCell P h sourceEnvironment sourceSymbol).1 = some source → cellCache h source ≠ some c →
        getTrapKind (h.value source) ≠ .unbound → target ≠ source →
        Relinked d h c (effectiveValue h source)
  | _ => True

theorem storable_uncached {h : Heap} {value : Obj} (storable : value.storable) (t : TrapId)
    (stored : mapToUnassigned value = .compilerCached t) : t < h.free ∧ Real h (h.trapCache t) :=
  absurd stored (mapToUnassigned_ne_cached storable t)

theorem step_consistent {stale : CacheId → Prop} {h h' : Heap} {call : Call} (inv : Consistent (.links stale) h)
    (clean : Clean h) (met : legal P h call) (harmless : Harmless P (.links stale) h call)
    (stepped : step P h call = some h') : Consistent (.links stale) h' ∧ Clean h' := by
  cases call with
  | assign environment symbol value =>
    obtain rfl := some.inj stepped
    unfold assignVariable
    split
    · exact ⟨inv, clean⟩
    · exact assignVariableEnd_consistent inv clean _ (ne_expensive_of_storable met.2) (storable_uncached met.2) false
  | define environment symbol value =>
    obtain ⟨result, ran, rfl⟩ := map_eq_some_iff.mp stepped
    exact defineVariable_consistent P inv clean environment symbol (ne_expensive_of_storable met.2)
      (storable_uncached met.2) ran
  | link targetEnvironment targetSymbol sourceEnvironment sourceSymbol =>
    obtain ⟨result, ran, rfl⟩ := map_eq_some_iff.mp stepped
    exact linkVariables_consistent P inv clean harmless ran
  | unbind environment symbol =>
    obtain ⟨result, ran, rfl⟩ := map_eq_some_iff.mp stepped
    exact unbindVariable_consistent P inv clean harmless ran
  | cache kind name slot =>
    have spec := addCacheReference_spec P inv clean (P.blockEnvironment slot.1) name kind met.2
    cases kind <;> obtain rfl := some.inj stepped <;> exact ⟨spec.1, spec.2.1⟩
  | globalOperator name slot =>
    obtain rfl := some.inj stepped
    have spec := addCacheReference_spec P inv clean .global name .operator met
    exact ⟨spec.1, spec.2.1⟩
  | reclaim block =>
    obtain rfl := some.inj stepped
    exact ⟨(reclaimBlock_consistent inv block).1, clean⟩

end

end

open Library

section
variable (P : Program)

theorem harmless_of_stale {stale : CacheId → Prop} (all : ∀ c, stale c) (h : Heap) (call : Call) :
    Harmless P (.links stale) h call := by
  have relinked : ∀ c value, Relinked (.links stale) h c value :=
    fun c _ _ _ _ fresh => absurd (all c) fresh
  cases call with
  | unbind => exact fun _ c _ _ _ _ => relinked c _
  | link => exact fun _ _ c _ _ _ _ _ _ => relinked c _
  | _ => trivial

/-- Every run keeps the lists, the slots and the clones in step, up to the values that operator
links were built from. -/
theorem run_consistent {h₀ h : Heap} {calls : List Call} (initial : Initial h₀)
    (ran : run (step P) (legal P) h₀ calls = some h) : Consistent (.links fun _ => True) h ∧ Clean h :=
  run_invariant (fun h => Consistent (.links fun _ => True) h ∧ Clean h)
    (fun inv met => step_consistent P inv.1 inv.2 met (harmless_of_stale P (fun _ => trivial) _ _))
    ⟨initial.consistent _, initial.clean⟩ ran

/-- A cache with live operator and assignment references has a clone, which the assignment slots hold; a slot that holds a
clone belongs to the cache that the clone points back to. -/
theorem compiled_assignment_traps {h₀ h : Heap} {calls : List Call} (initial : Initial h₀)
    (ran : run (step P) (legal P) h₀ calls = some h) :
    (∀ {c}, Real h c → (∃ name slot, Recorded h c .operator name slot) →
      (∃ name slot, Recorded h c .assignment name slot) →
        ∃ k, (h.cache c).clone = some k ∧ (h.cache k).value = .expensive ∧
          ∀ {name slot}, Recorded h c .assignment name slot → h.slot slot = .cache k) ∧
      ∀ {c kind name slot k}, Real h c → Recorded h c kind name slot → h.slot slot = .cache k →
        (h.cache k).value = .expensive → (h.cache k).clone = some c := by
  obtain ⟨inv, _⟩ := run_consistent P initial ran
  constructor
  · rintro c real ⟨_, _, operator⟩ ⟨_, _, assignment⟩
    have ready := inv.ready real id (ne_nil_of_mem_entries assignment) (ne_nil_of_mem_entries operator)
    obtain ⟨k, clone⟩ := isSome_iff_exists.mp ready
    refine ⟨k, clone, (inv.toStore.clone real clone).2.1, fun recorded => ?_⟩
    have held : h.slot _ = .cache (assignmentCache h c) := inv.holds real recorded id
    rw [held, assignmentCache, clone, getD_some]
  · intro c kind name slot k real recorded contents expensive
    have held := inv.holds real recorded id
    cases kind with
    | lookup =>
      rw [Holds, contents] at held
      cases held
      exact absurd expensive real
    | assignment =>
      rw [Holds, contents] at held
      cases held
      cases clone : (h.cache c).clone with
      | none =>
        rw [assignmentCache, clone] at expensive
        exact absurd expensive real
      | some k => simpa [assignmentCache, clone] using (inv.toStore.clone real clone).2.2
    | operator =>
      obtain ⟨value, link, _⟩ := held
      rw [contents] at link
      cases link

end

/-- Blocks evaluated in the global environment, whose slots all ask for the variable 0. -/
def globalProgram : Program where
  parameters := fun _ => []
  blockEnvironment := fun _ => .global

def globalHeap : Heap := Heap.bare (fun _ => .datum 5) fun _ => .symbol 0

theorem globalHeap_initial : Initial globalHeap := Heap.bare_initial (fun _ => rfl) _

theorem compiled_assignment_traps_global : ∃ h,
    run (step globalProgram) (legal globalProgram) globalHeap [.cache .operator 0 (0, 0), .cache .assignment 0 (0, 1)] =
    some h ∧ ∃ k, (h.cache 1).clone = some k ∧ (h.cache k).value = .expensive ∧ h.slot (0, 1) = .cache k := by
  obtain ⟨h, ran, real, operator, assignment⟩ : ∃ h ∈ run (step globalProgram) (legal globalProgram) globalHeap
      [.cache .operator 0 (0, 0), .cache .assignment 0 (0, 1)],
      Real h 1 ∧ Recorded h 1 .operator 0 (0, 0) ∧ Recorded h 1 .assignment 0 (0, 1) := by decide +kernel
  obtain ⟨k, clone, expensive, slots⟩ :=
    (compiled_assignment_traps globalProgram globalHeap_initial ran).1 real ⟨_, _, operator⟩ ⟨_, _, assignment⟩
  exact ⟨h, ran, k, clone, expensive, slots assignment⟩

section
variable (P : Program)

/-- The operator references of the cache, if it has any, keep their value. -/
def keepsOperators (h : Heap) (c : CacheId) (value : Obj) : Prop :=
  entries (h.cacheReferences c .operator) = [] ∨ value = (h.cache c).value

instance (h : Heap) (c : CacheId) (value : Obj) : Decidable (keepsOperators h c value) :=
  inferInstanceAs (Decidable (_ ∨ _))

/-- The two calls that store into a cache without `update_uuo_links` are harmless when the cache has no live operator
reference or its value stays the same. -/
def relinks (h : Heap) : Call → Prop
  | .unbind environment symbol =>
    (findBindingCell P h environment symbol).2.procedureP ∨
      ∀ cell ∈ (findBindingCell P h environment symbol).1, ∀ c ∈ cellCache h cell, keepsOperators h c .unbound
  | .link targetEnvironment targetSymbol sourceEnvironment sourceSymbol =>
    ∀ target ∈ scanFrame P h targetEnvironment targetSymbol true,
      ∀ source ∈ (findBindingCell P h sourceEnvironment sourceSymbol).1, ∀ c ∈ cellCache h target,
        h.value source = .unbound ∨ cellCache h source = some c ∨ keepsOperators h c (effectiveValue h source)
  | _ => True

instance (h : Heap) : (call : Call) → Decidable (relinks P h call)
  | .assign .. => inferInstanceAs (Decidable True)
  | .define .. => inferInstanceAs (Decidable True)
  | .link .. => by unfold relinks; infer_instance
  | .unbind .. => by unfold relinks; infer_instance
  | .cache .. => inferInstanceAs (Decidable True)
  | .globalOperator .. => inferInstanceAs (Decidable True)
  | .reclaim _ => inferInstanceAs (Decidable True)

theorem relinked_of_keepsOperators {d : Debt} {h : Heap} {c : CacheId} {value : Obj}
    (keeps : keepsOperators h c value) : Relinked d h c value := by
  intro name slot here _
  rcases keeps with empty | same
  · rw [Recorded, empty] at here
    cases here
  · exact same

theorem harmless_of_relinks {d : Debt} {h : Heap} {call : Call} (keeps : relinks P h call) : Harmless P d h call := by
  cases call with
  | unbind environment symbol =>
    intro cell c found cached outermost _
    rcases keeps with procedure | keeps
    · generalize (findBindingCell P h environment symbol).2 = frame at outermost procedure
      cases frame with
      | procedure id parent => exact absurd rfl (outermost id parent)
      | _ => cases procedure
    · exact relinked_of_keepsOperators (keeps cell found c cached)
  | link =>
    intro target source c scanned cached found fresh bound _
    rcases keeps target scanned source found c cached with unbound | same | keeps
    · exact absurd (by rw [unbound]; rfl) bound
    · exact absurd same fresh
    · exact relinked_of_keepsOperators keeps
  | _ => trivial

/-- In a run whose writes all keep or rebuild the operator links, every live operator reference
has a link that was made from the current value of its cache. -/
theorem operator_links_current {h₀ h : Heap} {calls : List Call} (initial : Initial h₀)
    (ran : run (step P) (fun h call => legal P h call ∧ relinks P h call) h₀ calls = some h) {c : CacheId}
    (real : Real h c) {name : Symbol} {slot : SlotId} (recorded : Recorded h c .operator name slot) :
    h.slot slot = .uuoLink (h.cache c).value c := by
  have inv : Consistent (.links fun _ => False) h ∧ Clean h :=
    run_invariant (fun h => Consistent (.links fun _ => False) h ∧ Clean h)
      (fun inv met => step_consistent P inv.1 inv.2 met.1 (harmless_of_relinks P met.2))
      ⟨initial.consistent _, initial.clean⟩ ran
  obtain ⟨value, link, fresh⟩ := inv.1.holds real recorded id
  rw [link, fresh id]

end

theorem operator_links_current_global :
    ∃ h, run (step globalProgram) (fun h call => legal globalProgram h call ∧ relinks globalProgram h call)
        globalHeap [.cache .operator 0 (0, 0), .assign .global 0 (.datum 6)] = some h ∧
      h.slot (0, 0) = .uuoLink (h.cache 1).value 1 := by
  obtain ⟨h, ran, real, operator⟩ : ∃ h ∈ run (step globalProgram)
      (fun h call => legal globalProgram h call ∧ relinks globalProgram h call)
      globalHeap [.cache .operator 0 (0, 0), .assign .global 0 (.datum 6)],
      Real h 1 ∧ Recorded h 1 .operator 0 (0, 0) := by decide +kernel
  exact ⟨h, ran, operator_links_current globalProgram globalHeap_initial ran real operator⟩

/-- `unbind_variable` of a global variable for which a call is compiled: the value of the cache
becomes `unbound`, the link still leads to the old procedure. -/
theorem operator_link_stale : ¬∀ (P : Program) (h₀ h : Heap) (calls : List Call), Initial h₀ →
    run (step P) (legal P) h₀ calls = some h → ∀ (c : CacheId) (name : Symbol) (slot : SlotId), Real h c →
    Recorded h c .operator name slot → h.slot slot = .uuoLink (h.cache c).value c := by
  intro current
  obtain ⟨h, ran, real, operator, stale⟩ : ∃ h ∈ run (step globalProgram) (legal globalProgram) globalHeap
      [.cache .operator 0 (0, 0), .unbind .global 0],
      Real h 1 ∧ Recorded h 1 .operator 0 (0, 0) ∧ h.slot (0, 0) ≠ .uuoLink (h.cache 1).value 1 := by
    decide +kernel
  exact stale (current globalProgram globalHeap h _ globalHeap_initial ran 1 0 (0, 0) real operator)

end MitScheme.Microcode.Lookup
