import MitScheme.Library.Orders
import MitScheme.Sf.Expansion
import MitScheme.Sf.Soundness

/-!
An expression realizes a function of some operands when its evaluation goes through each of them exactly once, wherever
they return values that are accepted. The rules follow the constructors that the expanders use.
-/

namespace MitScheme.Sf

open Library (Outcome Evaluation)
open Library.Evaluation (ofOption result inSomeOrder inSomeOrder_one inSomeOrder_two inSomeOrder_pure Suited Gives RealizesPure)
open Expression List

namespace World

variable {w : World} {env : Env}

theorem applyPrimitive_unrecorded {p : Primitive} (notApply : p ≠ .apply) (known : ∀ number, p ≠ .other number)
    (vs : List Value) : w.unrecorded.applyPrimitive p vs = ofOption (w.answer p vs) := by
  rw [applyPrimitive_of_answer notApply known, World.trace, if_neg]
  · rfl
  · simp [unrecorded]

theorem evaluate_call_one (p : Primitive) (x : Expression) :
    w.evaluate (combination (constant (.primitive p)) [x]) env = w.evaluate x env >>= fun a => w.applyPrimitive p [a] := by
  change inSomeOrder w.pick 1 [w.evaluate x env] >>= _ = _
  rw [inSomeOrder_one]
  funext h
  rw [Library.Evaluation.bind_apply, Library.Evaluation.bind_apply, Library.Evaluation.bind_apply]
  cases w.evaluate x env h <;> rfl

theorem evaluate_call_two (p : Primitive) (x y : Expression) (h : History) :
    w.evaluate (combination (constant (.primitive p)) [x, y]) env h =
        (w.evaluate x env >>= fun a => w.evaluate y env >>= fun b => w.applyPrimitive p [a, b]) h ∨
      w.evaluate (combination (constant (.primitive p)) [x, y]) env h =
        (w.evaluate y env >>= fun b => w.evaluate x env >>= fun a => w.applyPrimitive p [a, b]) h := by
  change (inSomeOrder w.pick 2 [w.evaluate x env, w.evaluate y env] >>= _) h = _ ∨
    (inSomeOrder w.pick 2 [w.evaluate x env, w.evaluate y env] >>= _) h = _
  rcases inSomeOrder_two w.pick (w.evaluate x env) (w.evaluate y env) h with order | order
  · left
    rw [Library.Evaluation.bind_apply, order, Library.Evaluation.bind_apply, Library.Evaluation.bind_apply]
    cases w.evaluate x env h with
    | value a t =>
      simp only [Library.Evaluation.bind_apply]
      cases w.evaluate y env t <;> rfl
    | error t => rfl
    | diverges => rfl
  · right
    rw [Library.Evaluation.bind_apply, order, Library.Evaluation.bind_apply, Library.Evaluation.bind_apply]
    cases w.evaluate y env h with
    | value a t =>
      simp only [Library.Evaluation.bind_apply]
      cases w.evaluate x env t <;> rfl
    | error t => rfl
    | diverges => rfl

theorem evaluate_constant (c : Value) : w.evaluate (constant c) env = pure c := by rw [evaluate]

theorem evaluate_call_constant (p : Primitive) (x : Expression) (c : Value) :
    w.evaluate (combination (constant (.primitive p)) [x, constant c]) env =
      w.evaluate x env >>= fun a => w.applyPrimitive p [a, c] := by
  funext h
  rcases evaluate_call_two p x (constant c) h with order | order
  · have inner : (fun a => (pure c : Evaluation History Value) >>= fun b => w.applyPrimitive p [a, b]) = fun a =>
        w.applyPrimitive p [a, c] := funext fun a => Library.Evaluation.pure_bind _ _
    rw [order, evaluate_constant, inner]
  · have inner : ((pure c : Evaluation History Value) >>= fun b =>
        w.evaluate x env >>= fun a => w.applyPrimitive p [a, b]) =
          w.evaluate x env >>= fun a => w.applyPrimitive p [a, c] := Library.Evaluation.pure_bind _ _
    rw [order, evaluate_constant, inner]

theorem evaluations_constants {es : List Expression} {vs : List Value} (values : es.mapM constantValue = some vs) :
    w.evaluations es env = vs.map fun v => (pure v : Evaluation History Value) := by
  induction es generalizing vs with
  | nil =>
    cases values
    rfl
  | cons e es ih =>
    simp only [mapM_cons, Option.bind_eq_bind, Option.pure_def, Option.bind_eq_some_iff, Option.some.injEq] at values
    obtain ⟨v, first, vs', rest, rfl⟩ := values
    cases e <;> simp only [constantValue, Option.some.injEq, reduceCtorEq] at first
    subst first
    rw [evaluations, ih rest]
    rfl

theorem evaluate_pcall (p : Primitive) (es : List Expression) : w.unrecorded.evaluate (pcall w.toMachine p es) env =
    w.unrecorded.evaluate (combination (constant (.primitive p)) es) env := by
  unfold pcall
  split
  case h_2 => rfl
  case h_1 value folded =>
    unfold foldConstant at folded
    split at folded
    case isFalse => cases folded
    case isTrue operator =>
      obtain ⟨vs, values, answer⟩ := Option.bind_eq_some_iff.mp folded
      have count : vs.length = es.length := by
        rw [← evaluations_length (w := w) es env, evaluations_constants values, length_map]
      have notApply : p ≠ .apply := by
        rintro rfl
        simp [constantFoldingOperators] at operator
      have known : ∀ number, p ≠ .other number := by
        rintro number rfl
        simp [constantFoldingOperators] at operator
      rw [evaluate, evaluations_constants values, inSomeOrder_pure _ count]
      change pure value = w.unrecorded.applyPrimitive p vs
      rw [applyPrimitive_unrecorded notApply known, answer]
      rfl

def Answers : Primitive → Bool
  | .apply | .other _ => false
  | _ => true

theorem applyPrimitive_answers {p : Primitive} (answers : Answers p) (vs : List Value) :
    w.unrecorded.applyPrimitive p vs = ofOption (w.answer p vs) := by
  apply applyPrimitive_unrecorded
  · rintro rfl
    cases answers
  · rintro number rfl
    cases answers

/-- The evaluation of the expression goes through the operands, and returns what the function says of their values. -/
def Realized (w : World) (env : Env) (A : Value → Prop) (e : Expression) (es : List Expression)
    (f : List Value → Option Value) : Prop :=
  RealizesPure A (w.unrecorded.evaluate e env) (w.unrecorded.evaluations es env) f

def Returned (w : World) (env : Env) (A : Value → Prop) (e : Expression) (v : Value) : Prop :=
  Gives A (w.unrecorded.evaluate e env) v

variable {A : Value → Prop}

theorem realized_constant (v : Value) : Realized w env A (constant v) [] fun _ => some v := by
  exact .constant v

theorem realized_operand (x : Expression) : Realized w env A x [x] List.head? := .operand _

theorem returned_of_gives {es : List Expression} {vs : List Value}
    (gives : List.Forall₂ (Gives A) (w.unrecorded.evaluations es env) vs) : List.Forall₂ (Returned w env A) es vs := by
  rw [evaluations_eq, forall₂_map_left_iff] at gives
  exact gives

theorem evaluations_append (es es' : List Expression) :
    w.unrecorded.evaluations (es ++ es') env = w.unrecorded.evaluations es env ++ w.unrecorded.evaluations es' env := by
  simp [evaluations_eq]

namespace Realized

variable {x y e : Expression} {es es' : List Expression} {f f' g : List Value → Option Value}

theorem congr (realized : Realized w env A e es f) (same : ∀ vs, List.Forall₂ (Returned w env A) es vs → f vs = g vs) :
    Realized w env A e es g :=
  RealizesPure.congr realized fun vs gives => same vs (returned_of_gives gives)

theorem congr_none (realized : Realized w env A e [] f) (same : f [] = g []) : Realized w env A e [] g :=
  realized.congr fun _ returned => List.forall₂_nil_left_iff.mp returned ▸ same

theorem congr_one (realized : Realized w env A e [x] f) (same : ∀ u, Returned w env A x u → f [u] = g [u]) :
    Realized w env A e [x] g := by
  refine realized.congr fun vs returned => ?_
  cases returned with
  | cons first rest =>
    cases rest
    exact same _ first

theorem congr_two (realized : Realized w env A e [x, y] f)
    (same : ∀ u v, Returned w env A x u → Returned w env A y v → f [u, v] = g [u, v]) : Realized w env A e [x, y] g := by
  refine realized.congr fun vs returned => ?_
  cases returned with
  | cons first rest =>
    cases rest with
    | cons second rest =>
      cases rest
      exact same _ _ first second

theorem one (realized : Realized w env A x es f) {p : Primitive} (answers : Answers p) :
    Realized w env A (pcall w.toMachine p [x]) es fun vs => (f vs).bind fun a => w.answer p [a] := by
  have bound := RealizesPure.bind realized fun a => ofOption (w.answer p [a])
  simp only [Library.Evaluation.ofOption_bind] at bound
  rw [Realized, evaluate_pcall, evaluate_call_one]
  simp only [applyPrimitive_answers answers]
  exact bound

theorem both (realized : Realized w env A x es f) (realized' : Realized w env A y es' f') (k : Value → Value → Option Value)
    (either : ∀ h, Suited A (w.unrecorded.evaluations es env ++ w.unrecorded.evaluations es' env) h →
      w.unrecorded.evaluate e env h =
        (w.unrecorded.evaluate x env >>= fun a => w.unrecorded.evaluate y env >>= fun b => ofOption (k a b)) h ∨
      w.unrecorded.evaluate e env h =
        (w.unrecorded.evaluate y env >>= fun b => w.unrecorded.evaluate x env >>= fun a => ofOption (k a b)) h) :
    Realized w env A e (es ++ es') fun vs =>
      (f (vs.take es.length)).bind fun a => (f' (vs.drop es.length)).bind fun b => k a b := by
  have bound := RealizesPure.bind_both realized realized' (fun a b => ofOption (k a b)) either
  simp only [evaluations_length, Library.Evaluation.ofOption_bind] at bound
  rw [Realized, evaluations_append]
  exact bound

theorem two (realized : Realized w env A x es f) (realized' : Realized w env A y es' f') {p : Primitive}
    (answers : Answers p) :
    Realized w env A (pcall w.toMachine p [x, y]) (es ++ es') fun vs =>
      (f (vs.take es.length)).bind fun a => (f' (vs.drop es.length)).bind fun b => w.answer p [a, b] := by
  refine both realized realized' _ fun h _ => ?_
  rw [evaluate_pcall]
  simp only [← applyPrimitive_answers answers]
  exact evaluate_call_two p x y h

theorem ignore_right (realized : Realized w env A e es f) (c : Value) :
    Realized w env A e (es ++ [constant c]) fun vs => f (vs.take es.length) := by
  have operand : Realized w env A (constant c) [constant c] List.head? := realized_operand (constant c)
  have either : ∀ h, w.unrecorded.evaluate e env h =
      (w.unrecorded.evaluate e env >>= fun a => w.unrecorded.evaluate (constant c) env >>= fun _ => ofOption (some a)) h := by
    intro h
    exact (Library.Evaluation.bind_result _ h).symm
  refine (both realized operand (fun a _ => some a) fun h _ => .inl (either h)).congr fun vs returned => ?_
  have count := returned.length_eq
  rw [length_append, length_singleton] at count
  rw [head?_drop, getElem?_eq_getElem (by omega)]
  simp

theorem of_value (g : Value → Option Value)
    (same : ∀ h v h', A v → w.unrecorded.evaluate x env h = .value v h' → w.unrecorded.evaluate e env h = ofOption (g v) h') :
    Realized w env A e [x] fun vs => vs.head?.bind g := by
  intro h suited
  obtain ⟨v, h', value, accepted⟩ := suited.head
  refine ⟨[v], h', .single value, ?_⟩
  rw [same h v h' accepted value]
  exact .refl _

end Realized

section Bindings

variable {x : Expression} {name : Variable}

theorem lookup_bind (env : Env) (name : Variable) (v : Value) (h : History) :
    w.lookup (bind env name (some v) h) name h = some (some v) := by
  simp [lookup, sinceBound, bind]

theorem evaluate_binding (safe : Bool) (body : Expression) :
    w.evaluate (combination (procedure safe [name] [] none body) [x]) env =
      w.evaluate x env >>= fun v => now >>= fun h => w.evaluate body (bind env name (some v) h) := by
  change inSomeOrder w.pick 1 [w.evaluate x env] >>= _ = _
  rw [inSomeOrder_one]
  funext h
  rw [Library.Evaluation.bind_apply, Library.Evaluation.bind_apply, Library.Evaluation.bind_apply]
  cases w.evaluate x env h <;> rfl

theorem makeOperandBinding_eq {m : Machine} {makeBody : Expression → Expression}
    (refers : name ∈ (makeBody (reference name)).freeVariables) : makeOperandBinding m name x makeBody =
    some (combination (procedure true [name] [] none (makeBody (reference name))) [x]) := by
  simp [makeOperandBinding, combinationMake, partitionOperands, refers]

theorem realized_binding {m : Machine} {makeBody : Expression → Expression} {e : Expression}
    (refers : name ∈ (makeBody (reference name)).freeVariables)
    (expanded : makeOperandBinding m name x makeBody = some e) (g : Value → Option Value)
    (body : ∀ inner h v, w.unrecorded.lookup inner name h = some (some v) →
      w.unrecorded.evaluate (makeBody (reference name)) inner h = ofOption (g v) h) :
    Realized w env A e [x] fun vs => vs.head?.bind g := by
  rw [makeOperandBinding_eq refers, Option.some.injEq] at expanded
  subst expanded
  refine .of_value g fun h v h' _ value => ?_
  rw [evaluate_binding, Library.Evaluation.bind_of_value _ value]
  exact body _ h' v (lookup_bind env name v h')

end Bindings

section Sequences

variable {h t h' : History} {v : Value} {es : List Expression}

theorem sequence_nonempty (returns : w.evaluateSequence es env h = .value v h') : es ≠ [] := by
  rintro rfl
  cases returns

theorem sequence_append {es es' : List Expression} {a : Value} (first : w.evaluateSequence es env h = .value a t)
    (second : w.evaluateSequence es' env t = .value v h') : w.evaluateSequence (es ++ es') env h = .value v h' := by
  induction es generalizing h with
  | nil => cases first
  | cons e es ih =>
    obtain ⟨e', es'', rfl⟩ := exists_cons_of_ne_nil (sequence_nonempty second)
    cases es with
    | nil =>
      rw [evaluateSequence] at first
      rw [singleton_append, evaluateSequence, Library.Evaluation.bind_of_value _ first]
      · exact second
      · simp
    | cons e₂ es =>
      rw [evaluateSequence] at first
      · obtain ⟨b, u, left, right⟩ := Library.Evaluation.bind_value first
        rw [cons_append, evaluateSequence, Library.Evaluation.bind_of_value _ left]
        · exact ih right
        · simp
      · simp

theorem collectActions_value (e : Expression) : ∀ {env h v h'}, w.evaluate e env h = .value v h' →
    w.evaluateSequence (collectActions e) env h = .value v h' := by
  have atom : ∀ {e : Expression}, collectActions e = [e] → ∀ {env h v h'}, w.evaluate e env h = .value v h' →
      w.evaluateSequence (collectActions e) env h = .value v h' := by
    intro e single env h v h' value
    rw [single]
    exact value
  refine @Expression.rec
    (fun e => ∀ {env h v h'}, w.evaluate e env h = .value v h' →
      w.evaluateSequence (collectActions e) env h = .value v h')
    (fun es => ∀ {env h v h'}, w.evaluateSequence es env h = .value v h' →
      w.evaluateSequence (collectAll es) env h = .value v h')
    (fun _ => True) (fun _ => True)
    (fun _ _ _ => atom (by simp [collectActions])) (fun _ _ _ => atom (by simp [collectActions]))
    (fun _ _ _ _ => atom (by simp [collectActions])) (fun _ _ _ _ _ _ => atom (by simp [collectActions]))
    (fun _ => atom (by simp [collectActions])) (fun _ _ _ => atom (by simp [collectActions]))
    (fun _ _ => atom (by simp [collectActions])) (fun _ _ _ _ => atom (by simp [collectActions]))
    (fun _ _ => atom (by simp [collectActions])) (fun _ _ _ _ _ _ => atom (by simp [collectActions]))
    (fun _ _ => atom (by simp [collectActions])) (fun _ => atom (by simp [collectActions]))
    ?sequence (atom (by simp [collectActions])) ?nil ?cons trivial (fun _ _ _ _ => trivial) (fun _ _ _ => trivial) e
  case sequence =>
    intro actions ih env h v h' value
    rw [evaluate] at value
    exact ih value
  case nil =>
    intro env h v h' value
    cases value
  case cons =>
    intro e es ih ih' env h v h' value
    cases es with
    | nil =>
      rw [collectAll, collectAll, append_nil]
      exact ih value
    | cons e₂ es =>
      rw [evaluateSequence] at value
      · obtain ⟨a, t, left, right⟩ := Library.Evaluation.bind_value value
        exact sequence_append (ih left) (ih' right)
      · simp

section
variable (value : w.evaluateSequence es env h = .value v h')
include value

theorem collectAll_value : w.evaluateSequence (collectAll es) env h = .value v h' := by
  have nested : w.evaluate (.sequence es) env h = .value v h' := by
    exact value
  have flat := collectActions_value (.sequence es) nested
  exact flat

theorem filterActions_value : w.evaluateSequence (filterActions es) env h = .value v h' := by
  induction es generalizing h with
  | nil => cases value
  | cons e es ih =>
    have unfolded : filterActions (e :: es) = if e.effectFree then
        if (filterActions es).isEmpty then [e] else filterActions es else e :: filterActions es := rfl
    rw [unfolded]
    cases es with
    | nil =>
      have none : filterActions [] = [] := rfl
      rw [none]
      simpa [evaluateSequence] using value
    | cons e₂ es =>
      rw [evaluateSequence] at value
      · obtain ⟨a, t, left, right⟩ := Library.Evaluation.bind_value value
        have filtered := ih right
        have nonempty := sequence_nonempty filtered
        split
        case isTrue free =>
          rw [if_neg (by simpa using nonempty)]
          have still : h = t := by
            rcases (sound_all w e).1.effectFree free env h with ⟨b, same⟩ | error
            · rw [same] at left
              cases left
              rfl
            · rw [error] at left
              cases left
          rw [still]
          exact filtered
        case isFalse =>
          obtain ⟨e₃, es₃, shape⟩ := exists_cons_of_ne_nil nonempty
          rw [shape] at filtered ⊢
          rw [evaluateSequence, Library.Evaluation.bind_of_value _ left]
          · exact filtered
          · simp
      · simp

theorem sequenceMake_value : w.evaluate (sequenceMake es) env h = .value v h' := by
  have filtered := filterActions_value (collectAll_value value)
  unfold sequenceMake
  split
  case h_1 none =>
    rw [none] at filtered
    cases filtered
  case h_2 action single =>
    rw [single] at filtered
    exact filtered
  case h_3 =>
    rw [evaluate]
    exact filtered

end

end Sequences

end World

end MitScheme.Sf
