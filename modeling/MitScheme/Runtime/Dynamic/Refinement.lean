import MitScheme.Runtime.Dynamic.Bindings

/-!
Every run of a program agrees with the scopes that it would have without swapping, and a parameter
reads as its innermost binding. The converter of a forwarder is never found.
-/

namespace MitScheme.Runtime.Dynamic

open Library Library.Rerooting StateSpaces Option List

variable {V : Type} {s s' : State V} {a a' : Scopes V} {fresh : ℕ → List ℕ} {t : ℕ}

/-- Where a program is: in its own code, or in a `swap!` for a point that it moves to or that it makes. -/
inductive Phase (s : State V) (a : Scopes V) (fresh : ℕ → List ℕ) : Prop where
  | running (notSwapping : s.swapping = none) (idle : a.entering = none)
      (settled : Settled s.wind.store s.bindings s.temp a fresh) (installs : Installs Programs s.wind.stack)
  | moving {t : ℕ} (swapping : s.swapping = some t) (idle : a.entering = none)
      (settled : Settled s.wind.store (s.swap t).bindings (s.swap t).temp a fresh) (installs : Installs Programs s.wind.stack)
  | entering {t : ℕ} {rest : List (Frame Thunk)} (swapping : s.swapping = some t) (enters : a.entering = some t)
      (settled : Settled s.wind.store s.bindings s.temp a fresh)
      (top : s.wind.stack = .before globalSpace (s.wind.store.nearestPoint globalSpace) (.swap t) (.swap t) :: .caller :: rest)
      (installs : Installs Programs rest) (isNew : t < a.activations) (unused : ∀ n, key s.wind.store n ≠ some t)
      (waits : s.temp t = (t :: a.scope).flatMap fresh)

structure Inv (s : State V) (a : Scopes V) (fresh : ℕ → List ℕ) : Prop where
  agrees : Agrees s a fresh
  valid : Valid s.wind s.wind.stack
  captured : ∀ stack ∈ s.wind.captured, Installs Programs stack
  phase : Phase s a fresh

theorem Agrees.same (agrees : Agrees s a fresh) (metadata : s'.metadata = s.metadata)
    (metadataCount : s'.metadataCount = s.metadataCount) (cells : s'.cells = s.cells) (cellCount : s'.cellCount = s.cellCount)
    (activations : s'.activations = s.activations) (procedures : a'.procedures = a.procedures)
    (count : a'.metadataCount = a.metadataCount) (values : a'.values = a.values) (made : a'.activations = a.activations) :
    Agrees s' a' fresh := by
  have binds : s'.isBinding = s.isBinding := by
    funext m c
    rw [State.isBinding, cells]
    rfl
  refine ⟨?_, ?_, ?_, ?_, ?_, ?_, ?_, ?_⟩
  · rw [procedures, metadata]
    exact agrees.procedures
  · rw [count, metadataCount]
    exact agrees.metadataCount
  · rw [metadataCount, metadata]
    exact agrees.isMade
  · rw [values, metadata]
    exact agrees.outer
  · rw [made, activations]
    exact agrees.activations
  · rw [values, activations, binds, cells]
    exact agrees.frames
  · rw [activations, cellCount]
    exact agrees.made
  · rw [activations]
    exact agrees.apart

theorem arrive_values (a : Scopes V) (point : ℕ) : (a.arrive point).procedures = a.procedures ∧
    (a.arrive point).metadataCount = a.metadataCount ∧ (a.arrive point).values = a.values ∧
    (a.arrive point).activations = a.activations := by
  unfold Scopes.arrive
  split <;> exact ⟨rfl, rfl, rfl, rfl⟩

theorem idle_arrive (idle : a.entering = none) (point : ℕ) : (a.arrive point).entering = none := by
  unfold Scopes.arrive
  split
  · rfl
  · exact idle
  · exact idle

theorem installs_program {space oldRoot enter leave : ℕ} {stack : List (Frame Thunk)} (installs : Installs Programs stack) :
    Installs Programs (.before space oldRoot (.program enter) (.program leave) :: .caller :: stack) := by
  have called : Installs Programs (.caller :: stack) := by
    apply installs.cons
    rintro _ _ _ _ (same | same) <;> exact nomatch same
  apply called.cons
  rintro _ _ _ _ (same | same)
  · obtain ⟨rfl, rfl, rfl, rfl⟩ := Frame.before.inj same
    exact ⟨enter, leave, rfl, rfl⟩
  · exact nomatch same

theorem Settled.same {store : Store Thunk} {bindings : List ℕ} {temp : ℕ → List ℕ} (settled : Settled store bindings temp a fresh)
    (scope : a'.scope = a.scope) (scopes : a'.scopes = a.scopes) (activations : a'.activations = a.activations) :
    Settled store bindings temp a' fresh := by
  have envs : env a' fresh = env a fresh := by
    funext n
    rw [env, env, scopes]
  refine ⟨settled.tree, settled.isSpace, envs ▸ settled.swapped, ?_, ?_, ?_, ?_, settled.paired, settled.adjacent⟩
  · rw [scope, scopes]
    exact settled.here
  · rw [scopes]
    exact settled.visited
  · rw [scopes, activations]
    exact settled.active
  · rw [activations]
    exact settled.keys

section
variable (agrees : Agrees s a fresh) (valid : Valid s.wind s.wind.stack) (captured : ∀ stack ∈ s.wind.captured, Installs Programs stack)
  (settled : Settled s.wind.store s.bindings s.temp a fresh)
include agrees valid captured settled

theorem enter_inv (enters : a.entering = some t) {rest : List (Frame Thunk)}
    (top : s.wind.stack = .before globalSpace (s.wind.store.nearestPoint globalSpace) (.swap t) (.swap t) :: .caller :: rest)
    (installs : Installs Programs rest) (isNew : t < a.activations) (unused : ∀ n, key s.wind.store n ≠ some t)
    (waits : s.temp t = (t :: a.scope).flatMap fresh) (stepped : (s.swap t).windStep .returns = some s') :
    Inv s' (a.arrive (s'.wind.store.nearestPoint globalSpace)) fresh := by
  obtain ⟨wind, step, rfl⟩ := map_eq_some_iff.mp stepped
  have valid' := step_valid valid step
  change StateSpaces.step s.wind .returns = some wind at step
  rw [StateSpaces.step, top] at step
  dsimp only at step
  rw [entered, if_pos rfl] at step
  obtain rfl := some.inj step
  have arrives : a.arrive s.wind.store.size = { a with
      scope := t :: a.scope
      scopes := fun n => if n = s.wind.store.size then some (t :: a.scope) else a.scopes n
      entering := none } := by
    rw [Scopes.arrive, enters]
  have active : ∀ t' ∈ t :: a.scope, t' < a.activations :=
    forall_mem_cons.mpr ⟨isNew, settled.active _ _ settled.here⟩
  obtain ⟨procedures, count, values, made⟩ := arrive_values a s.wind.store.size
  refine ⟨agrees.same rfl rfl rfl rfl rfl procedures count values made, valid', captured, ?_⟩
  refine .running ?_ ?_ ?_ ?_
  · change State.swapped (s.wind.log.drop s.wind.log.length) = none
    rw [drop_length]
    rfl
  · change (a.arrive s.wind.store.size).entering = none
    rw [arrives]
  · change Settled _ _ _ (a.arrive s.wind.store.size) fresh
    rw [arrives]
    refine settled.added (.swap t) active ?_ ?_ (fun same => by cases same) rfl rfl fun _ => rfl
    · intro n t' same
      obtain rfl := some.inj same
      exact unused n
    · intro t' same
      obtain rfl := some.inj same
      exact ⟨isNew, waits⟩
  · have called : Installs Programs (.caller :: rest) := by
      apply installs.cons
      rintro _ _ _ _ (same | same) <;> cases same
    apply called.cons
    rintro _ _ _ _ (same | same) <;> cases same

variable (installs : Installs Programs s.wind.stack)
include installs

theorem windStep_inv (idle : a.entering = none) {event : StateSpaces.Event Thunk}
    (calls : ∀ space before after, event ≠ .execute space before after)
    (stepped : s.windStep event = some s') : Inv s' (a.arrive (s'.wind.store.nearestPoint globalSpace)) fresh := by
  obtain ⟨wind, step, rfl⟩ := map_eq_some_iff.mp stepped
  obtain ⟨entries, ⟨effect, log, installs'⟩, captured'⟩ := step_did valid installs captured step calls
  obtain ⟨procedures, count, values, made⟩ := arrive_values a (wind.store.nearestPoint globalSpace)
  refine ⟨agrees.same rfl rfl rfl rfl rfl procedures count values made, step_valid valid step, captured', ?_⟩
  have dropped : wind.log.drop s.wind.log.length = entries := by rw [log, drop_left]
  have called : ∀ swapping, State.swapped (wind.log.drop s.wind.log.length) = swapping → Settled wind.store (exchange swapping s.bindings s.temp).1
        (exchange swapping s.bindings s.temp).2 (a.arrive (wind.store.nearestPoint globalSpace)) fresh →
      Phase { s with
        wind := wind
        swapping := State.swapped (wind.log.drop s.wind.log.length) } (a.arrive (wind.store.nearestPoint globalSpace)) fresh := by
    intro swapping same settled'
    cases swapping with
    | none => exact .running same (idle_arrive idle _) settled' installs'
    | some t => exact .moving same (idle_arrive idle _) settled' installs'
  have silent : ∀ {entries : List (Entry Thunk)}, Quiet entries → State.swapped entries = none := by
    intro entries quiet
    unfold State.swapped
    split
    · exact absurd mem_cons_self (quiet _)
    · rfl
  rw [dropped] at called ⊢
  obtain ⟨store, stack, captured, log⟩ := wind
  cases effect with
  | still quiet =>
    apply called none (silent quiet)
    rw [arrive_known idle settled.here]
    exact settled
  | space => exact called none rfl (settled.made_space idle)
  | added isSpace allowed quiet => exact called none (silent quiet) (settled.added_program idle isSpace allowed)
  | @moved space q thunk isSpace near field =>
    have moved := settled.moved idle isSpace near field
    cases thunk with
    | swap activation => exact called (some activation) rfl moved
    | program => exact called none rfl moved

theorem execute_inv (idle : a.entering = none) {space enter leave : ℕ}
    (stepped : s.windStep (.execute space (.program enter) (.program leave)) = some s') :
    Inv s' (a.arrive (s'.wind.store.nearestPoint globalSpace)) fresh := by
  obtain ⟨wind, step, rfl⟩ := map_eq_some_iff.mp stepped
  have valid' := step_valid valid step
  obtain ⟨isSpace, same⟩ := ite_none_right_eq_some.mp step
  obtain rfl := some.inj same
  obtain ⟨procedures, count, values, made⟩ := arrive_values a (s.wind.store.nearestPoint globalSpace)
  refine ⟨agrees.same rfl rfl rfl rfl rfl procedures count values made, valid', captured, ?_⟩
  refine .running ?_ (idle_arrive idle _) ?_ (installs_program installs)
  · rw [drop_left]
  · rw [arrive_known idle settled.here]
    exact settled

theorem parameterize_inv {newBindings : List (Parameter V × V)} (running : s.swapping = none)
    (stepped : step s (.parameterize newBindings) = some s') (point : ℕ) :
    ∃ fresh', Inv s' (a.step (.parameterize newBindings) point) fresh' := by
  have current := settled.current agrees
  unfold step at stepped
  rw [running] at stepped
  obtain ⟨⟨made, temp⟩, created, stepped⟩ := bind_eq_some_iff.mp stepped
  obtain ⟨new, rfl, isMade, frame⟩ := createBindings_spec agrees current created
  have agrees' := isMade.parameterize agrees current frame point
  obtain ⟨only, -, -, -⟩ := isMade
  have wind := congrArg State.wind only
  have activations := congrArg State.activations only
  have bindings := congrArg State.bindings only
  have temps := congrArg State.temp only
  obtain ⟨wind', took, rfl⟩ := map_eq_some_iff.mp stepped
  rw [wind] at took
  have valid' := step_valid valid took
  obtain ⟨isSpace, same⟩ := ite_none_right_eq_some.mp took
  obtain rfl := some.inj same
  refine ⟨extended fresh made.activations new, agrees'.same rfl rfl rfl rfl rfl rfl rfl rfl rfl, valid', captured, ?_⟩
  have count : a.activations = made.activations := agrees.activations.trans activations.symm
  have old : ∀ n scope, a.scopes n = some scope → ∀ t ∈ scope, t < made.activations := by
    intro n scope known t member
    rw [← count]
    exact settled.active n scope known t member
  have envs : env (a.step (.parameterize newBindings) point) (extended fresh made.activations new) = env a fresh := by
    funext n
    unfold env
    change ((a.scopes n).getD []).flatMap _ = _
    cases known : a.scopes n with
    | none => rfl
    | some scope => exact flatMap_extended (old n scope known)
  refine @.entering _ _ _ _ made.activations s.wind.stack ?_ ?_ ?_ rfl installs ?_ ?_ ?_
  · rw [wind, drop_left]
  · exact congrArg some count
  · dsimp only
    refine ⟨settled.tree, settled.isSpace, ?_, settled.here, settled.visited, ?_, ?_, settled.paired, settled.adjacent⟩
    · rw [envs, bindings]
      refine ⟨settled.swapped.value, ?_, settled.swapped.same, settled.swapped.once⟩
      intro n p t isParent bound
      have isOld : t ≠ made.activations := count ▸ ne_of_lt (settled.keys n t bound).1
      rw [if_neg isOld, temps]
      exact settled.swapped.temps n p t isParent bound
    · intro n scope known t member
      exact Nat.lt_succ_of_lt (settled.active n scope known t member)
    · intro n t bound
      exact ⟨Nat.lt_succ_of_lt (settled.keys n t bound).1, (settled.keys n t bound).2⟩
  · exact Nat.lt_succ_of_le (count.symm.le)
  · intro n bound
    exact lt_irrefl _ (count ▸ (settled.keys n _ bound).1)
  · dsimp only
    rw [if_pos rfl, flatMap_cons, extended_new]
    congr 1
    rw [current.bindings]
    exact (flatMap_extended (old _ _ settled.here)).symm

theorem control_inv (idle : a.entering = none) {event : StateSpaces.Event Thunk} (allowed : ofProgram event = true)
    (stepped : s.windStep event = some s') :
    Inv s' (a.arrive (s'.wind.store.nearestPoint globalSpace)) fresh := by
  by_cases calls : ∃ space before after, event = .execute space before after
  · obtain ⟨space, before, after, rfl⟩ := calls
    cases before with
    | swap => exact nomatch allowed
    | program enter =>
      cases after with
      | swap => exact nomatch allowed
      | program leave => exact execute_inv agrees valid captured settled installs idle stepped
  · refine windStep_inv agrees valid captured settled installs idle ?_ stepped
    rintro space before after rfl
    exact calls ⟨space, before, after, rfl⟩

end

theorem step_inv (inv : Inv s a fresh) {event : Event V} (stepped : step s event = some s') :
    ∃ fresh', Inv s' (a.step event (s'.wind.store.nearestPoint globalSpace)) fresh' := by
  obtain ⟨agrees, valid, captured, phase⟩ := inv
  unfold step at stepped
  cases phase with
  | running running idle settled installs =>
    cases event with
    | makeParameter metadata =>
      rw [running] at stepped
      obtain rfl := some.inj stepped
      have agrees' := makeParameter_agrees agrees metadata (s.wind.store.nearestPoint globalSpace)
      exact ⟨fresh, agrees'.same rfl rfl rfl rfl rfl rfl rfl rfl rfl, valid, captured,
        .running rfl idle (settled.same rfl rfl rfl) installs⟩
    | parameterize newBindings => exact parameterize_inv agrees valid captured settled installs running stepped _
    | write parameter newValue =>
      rw [running] at stepped
      obtain ⟨wind, swapping, bindings, temp⟩ := write_kept stepped
      obtain ⟨scope, scopes, entering, activations⟩ := @scopes_write V a parameter newValue
        (s'.wind.store.nearestPoint globalSpace)
      obtain ⟨agrees', -⟩ := write_agrees agrees (settled.current agrees) stepped (s'.wind.store.nearestPoint globalSpace)
      refine ⟨fresh, agrees', wind ▸ valid, wind ▸ captured, ?_⟩
      have settled' := settled.same scope scopes activations
      rw [← wind, ← bindings, ← temp] at settled'
      exact .running (swapping.trans running) (entering.trans idle) settled' (wind ▸ installs)
    | control event =>
      rw [running] at stepped
      obtain ⟨allowed, stepped⟩ := ite_none_right_eq_some.mp stepped
      exact ⟨fresh, control_inv agrees valid captured settled installs idle allowed stepped⟩
    | swap =>
      rw [running] at stepped
      exact nomatch stepped
  | @moving t swapping idle settled installs =>
    rw [swapping] at stepped
    cases event with
    | swap =>
      have agrees' : Agrees (s.swap t) a fresh := agrees.same rfl rfl rfl rfl rfl rfl rfl rfl rfl
      refine ⟨fresh, windStep_inv agrees' valid captured settled installs idle ?_ stepped⟩
      intro space before after same
      exact nomatch same
    | _ => exact nomatch stepped
  | @entering t rest swapping enters settled top installs isNew unused waits =>
    rw [swapping] at stepped
    cases event with
    | swap => exact ⟨fresh, enter_inv agrees valid captured settled enters top installs isNew unused waits stepped⟩
    | _ => exact nomatch stepped

theorem inv_start : Inv (start : State V) Scopes.start fun _ => [] := by
  obtain ⟨tree, -⟩ := (tree_empty : Tree (emptyStore : Store Thunk)).makeStateSpace
  have unmade : ∀ n, (start : State V).wind.store.origin n = none := by
    intro n
    by_cases isNew : n = 0
    · exact congrArg StatePoint.origin (if_pos isNew)
    · exact congrArg StatePoint.origin (if_neg isNew)
  have orphan : ∀ n, parent (start : State V).wind.store n = none := by
    intro n
    rw [parent, unmade]
    rfl
  have keyless : ∀ n, key (start : State V).wind.store n = none := by
    intro n
    rw [key, unmade]
    rfl
  have never {p : ℕ → Prop} : ∀ n < 0, p n := fun n low => absurd low (Nat.not_lt_zero n)
  have nobody {α : Type} {p : α → Prop} : ∀ a ∈ ([] : List α), p a := fun a member => absurd member not_mem_nil
  refine ⟨⟨fun _ => rfl, rfl, never, fun _ => rfl, rfl, never, never, never⟩, ⟨tree, ⟨nobody, .nil⟩, nobody, ?_⟩, nobody, ?_⟩
  · intro requested nearest member
    exact absurd member not_mem_nil
  refine .running rfl rfl ⟨tree, Nat.zero_lt_one, ⟨rfl, ?_, ?_, ?_⟩, rfl, ?_, ?_, ?_, ?_, ?_⟩ ?_
  · intro n p t isParent
    cases (orphan n).symm.trans isParent
  · intro n p isParent
    cases (orphan n).symm.trans isParent
  · intro n n' t bound
    cases (keyless n).symm.trans bound
  · intro n
    have spaceOf : (start : State V).wind.store.spaceOf 0 = globalSpace := rfl
    have size : (start : State V).wind.store.size = 1 := rfl
    rw [size, Scopes.start]
    by_cases isFirst : n = 0
    · simp [isFirst, spaceOf]
    · simp [isFirst]
  · intro n scope known t member
    rw [Scopes.start] at known
    dsimp only at known
    split at known
    · obtain rfl := some.inj known
      cases member
    · cases known
  · intro n t bound
    cases (keyless n).symm.trans bound
  · intro n o made
    cases (unmade n).symm.trans made
  · intro n p isParent
    cases (orphan n).symm.trans isParent
  · intro f member
    exact absurd member not_mem_nil

def both (state : State V × Scopes V) (event : Event V) : Option (State V × Scopes V) :=
  (step state.1 event).map fun s => (s, state.2.step event (s.wind.store.nearestPoint globalSpace))

theorem both_inv {state state' : State V × Scopes V} {event : Event V} (inv : ∃ fresh, Inv state.1 state.2 fresh)
    (stepped : both state event = some state') : ∃ fresh, Inv state'.1 state'.2 fresh := by
  obtain ⟨fresh, inv⟩ := inv
  obtain ⟨s', took, rfl⟩ := map_eq_some_iff.mp stepped
  exact step_inv inv took

theorem step_scopes (inv : Inv s a fresh) {event : Event V} (stepped : step s event = some s') {n : ℕ} {scope : List ℕ}
    (known : a.scopes n = some scope) :
    (a.step event (s'.wind.store.nearestPoint globalSpace)).scopes n = some scope := by
  have arrives : (∀ t, a.entering = some t → a.scopes (s'.wind.store.nearestPoint globalSpace) = none) →
      (a.arrive (s'.wind.store.nearestPoint globalSpace)).scopes n = some scope := by
    intro isNew
    unfold Scopes.arrive
    split
    · rename_i enters
      have other : n ≠ s'.wind.store.nearestPoint globalSpace := by
        rintro rfl
        cases (isNew _ enters).symm.trans known
      exact (if_neg other).trans known
    · exact known
    · rename_i unknown
      have other : n ≠ s'.wind.store.nearestPoint globalSpace := by
        rintro rfl
        cases unknown.symm.trans known
      exact (if_neg other).trans known
  obtain ⟨agrees, valid, captured, phase⟩ := inv
  have entered : ∀ t, event = .swap → a.entering = some t →
      a.scopes (s'.wind.store.nearestPoint globalSpace) = none := by
    rintro t rfl enters
    unfold step at stepped
    cases phase with
    | running running idle => cases idle.symm.trans enters
    | moving swapping idle => cases idle.symm.trans enters
    | @entering t' rest swapping _ settled top =>
      rw [swapping] at stepped
      obtain ⟨wind, step, rfl⟩ := map_eq_some_iff.mp stepped
      change StateSpaces.step s.wind .returns = some wind at step
      rw [StateSpaces.step, top] at step
      dsimp only at step
      rw [StateSpaces.entered, if_pos rfl] at step
      obtain rfl := some.inj step
      exact settled.unvisited
  cases event with
  | makeParameter => exact known
  | parameterize => exact known
  | write parameter newValue =>
    obtain ⟨-, scopes, -⟩ := @scopes_write V a parameter newValue (s'.wind.store.nearestPoint globalSpace)
    rw [scopes]
    exact known
  | control event =>
    apply arrives
    intro t enters
    unfold step at stepped
    cases phase with
    | running running idle => cases idle.symm.trans enters
    | moving swapping idle => cases idle.symm.trans enters
    | entering swapping =>
      rw [swapping] at stepped
      cases stepped
  | swap => exact arrives fun t => entered t rfl

theorem scopes_of_run {events : List (Event V)} (inv : ∃ fresh, Inv s a fresh)
    (ran : run both (fun _ _ => True) (s, a) events = some (s', a')) :
    (∃ fresh, Inv s' a' fresh) ∧ ∀ n scope, a.scopes n = some scope → a'.scopes n = some scope := by
  refine run_invariant (fun state => (∃ fresh, Inv state.1 state.2 fresh) ∧
    ∀ n scope, a.scopes n = some scope → state.2.scopes n = some scope) ?_ ⟨inv, fun _ _ known => known⟩ ran
  intro state event state' kept _ stepped
  refine ⟨both_inv kept.1 stepped, ?_⟩
  obtain ⟨⟨fresh, inv⟩, scopes⟩ := kept
  obtain ⟨s', took, rfl⟩ := map_eq_some_iff.mp stepped
  intro n scope known
  exact step_scopes inv took (scopes n scope known)

theorem Phase.here (phase : Phase s a fresh) (running : s.swapping = none) :
    Settled s.wind.store s.bindings s.temp a fresh := by
  cases phase with
  | running _ _ settled => exact settled
  | moving swapping => exact nomatch running.symm.trans swapping
  | entering swapping => exact nomatch running.symm.trans swapping

def Parameter.isForwarder : Parameter V → Bool
  | .general _ => false
  | .forwarder _ _ _ => true

theorem parameterConverter_forwarder (fuel : ℕ) (parameter : Parameter V) (convertTo convertFrom : V → V) :
    s.parameterConverter fuel (.forwarder parameter convertTo convertFrom) = none := by
  induction fuel with
  | zero => rfl
  | succ fuel ih =>
    rw [State.parameterConverter, ih]
    rfl

theorem seen_isSome (agrees : Agrees s a fresh) (current : Current s a fresh) {m : ℕ} (isMade : m < s.metadataCount) :
    ∃ value, a.seen m = some value := by
  rw [← getValue_eq agrees current, State.getValue]
  obtain ⟨data, made⟩ := isSome_iff_exists.mp (agrees.isMade m isMade)
  cases found : s.binding m with
  | none =>
    rw [made]
    exact ⟨_, rfl⟩
  | some cell =>
    obtain ⟨value, pair⟩ := isBinding_iff.mp (find?_some found)
    dsimp only
    rw [pair]
    exact ⟨_, rfl⟩

/-- Whatever a program does, a parameter reads as its innermost binding through its forwarders, and a point keeps its
scope. The converter of a parameter is found only when it is not a forwarder. -/
theorem parameters_refine_scopes {events : List (Event V)}
    (ran : run both (fun _ _ => True) (start, Scopes.start) events = some (s, a)) :
    (s.swapping = none → (∀ p : Parameter V, p.base < s.metadataCount → ∃ procedures value,
      a.procedures p.base = some procedures ∧ a.seen p.base = some value ∧
      s.read p = some (p.convertsFrom (procedures.getter value))) ∧
      ∀ more s' a', run both (fun _ _ => True) (s, a) more = some (s', a') → s'.swapping = none →
        s'.wind.store.nearestPoint globalSpace = s.wind.store.nearestPoint globalSpace → a'.scope = a.scope) ∧
    ∀ p : Parameter V, p.base < s.metadataCount →
      ((∃ fuel converter, s.parameterConverter fuel p = some converter ∧ ∀ value, a.conversion p value = some (converter value)) ↔
        p.isForwarder = false) := by
  obtain ⟨⟨fresh, inv⟩, -⟩ := scopes_of_run ⟨_, inv_start⟩ ran
  have isMade : ∀ m < s.metadataCount, ∃ data, s.metadata m = some data ∧ a.procedures m = some data.toProcedures := by
    intro m inside
    obtain ⟨data, made⟩ := isSome_iff_exists.mp (inv.agrees.isMade m inside)
    refine ⟨data, made, ?_⟩
    rw [inv.agrees.procedures, made]
    rfl
  refine ⟨?_, ?_⟩
  · intro running
    have settled := inv.phase.here running
    have current := settled.current inv.agrees
    refine ⟨?_, ?_⟩
    · intro p inside
      obtain ⟨data, -, procedures⟩ := isMade p.base inside
      obtain ⟨value, seen⟩ := seen_isSome inv.agrees current inside
      refine ⟨data.toProcedures, value, procedures, seen, ?_⟩
      rw [read_eq inv.agrees current, Scopes.read, procedures, seen]
      rfl
    · intro more s' a' ran' running' same
      obtain ⟨⟨fresh', inv'⟩, scopes⟩ := scopes_of_run ⟨fresh, inv⟩ ran'
      have known := scopes _ _ settled.here
      have here := (inv'.phase.here running').here
      rw [same] at here
      exact some.inj (here.symm.trans known)
  · intro p inside
    cases p with
    | general m =>
      obtain ⟨data, made, procedures⟩ := isMade m inside
      refine ⟨fun _ => rfl, fun _ => ⟨1, data.converter, ?_, ?_⟩⟩
      · rw [State.parameterConverter, made]
        rfl
      · intro value
        rw [Scopes.conversion, Parameter.base, procedures]
        rfl
    | forwarder parameter convertTo convertFrom =>
      refine ⟨?_, fun same => by cases same⟩
      rintro ⟨fuel, converter, found, -⟩
      cases (parameterConverter_forwarder fuel parameter convertTo convertFrom).symm.trans found

def half : Parameter ℕ := .forwarder (.general 0) (2 * ·) (· / 2)

def reentry : List (Event ℕ) :=
  [.makeParameter (makeSettableParameter 1 none), .parameterize [(half, 5), (.general 0, 3)], .swap, .write half 9,
    .control .returns, .swap, .write (.general 0) 4, .control (.translate 1), .swap]

theorem parameters_refine_scopes_reentry : ∃ s a, run both (fun _ _ => True) (start, Scopes.start) reentry = some (s, a) ∧
    s.read half = some 9 ∧ s.read (.general 0) = some 18 ∧ a.values none 0 = some 4 ∧ ∃ procedures value,
      a.procedures half.base = some procedures ∧ a.seen half.base = some value ∧
      s.read half = some (half.convertsFrom (procedures.getter value)) := by
  have reads : (run both (fun _ _ => True) (start, .start) reentry).map (fun state =>
      [state.1.swapping, state.1.read half, state.1.read (.general 0), state.2.values none 0, some state.1.metadataCount]) =
      some [none, some 9, some 18, some 4, some 1] := by decide
  obtain ⟨⟨s, a⟩, ran, same⟩ := map_eq_some_iff.mp reads
  simp only [cons.injEq, and_true] at same
  obtain ⟨running, read, inner, global, count⟩ := same
  have isMade : half.base < s.metadataCount := by
    rw [some.inj count]
    exact Nat.zero_lt_one
  exact ⟨s, a, ran, read, inner, global, ((parameters_refine_scopes ran).1 running).1 half isMade⟩

theorem forwarder_has_no_converter : ∃ s a, run both (fun _ _ => True) (start, Scopes.start)
    [.makeParameter (makeSettableParameter 1 none)] = some (s, a) ∧ half.base < s.metadataCount ∧
    ¬∃ fuel converter, s.parameterConverter fuel half = some converter ∧ ∀ value, a.conversion half value = some (converter value) := by
  refine ⟨_, _, rfl, Nat.zero_lt_one, ?_⟩
  rintro ⟨fuel, converter, found, -⟩
  exact nomatch (parameterConverter_forwarder fuel (.general 0) (2 * ·) (· / 2)).symm.trans found

end MitScheme.Runtime.Dynamic
