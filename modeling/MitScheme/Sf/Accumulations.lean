import MitScheme.Sf.Realization
import Mathlib.Algebra.BigOperators.Group.List.Basic

namespace MitScheme.Sf

open Library (Outcome Evaluation)
open Machine
open Library.Evaluation (ofOption Suited)
open Expression List Option

def IsNumber (v : Value) : Prop := ∃ q, v = .number q

def accumulate (k : Value → Value → Option Value) : List Value → Option Value
  | [] => none
  | [v] => some v
  | v :: v' :: vs => (accumulate k (v' :: vs)).bind (k v)

theorem accumulate_eq_foldlM {k : Value → Value → Option Value} {P : Value → Prop}
    (closed : ∀ a b c, P a → P b → k a b = some c → P c)
    (assoc : ∀ a b c, P a → P b → P c → ((k a b).bind fun r => k r c) = (k b c).bind fun r => k a r) :
    ∀ {a : Value} {vs : List Value}, P a → (∀ v ∈ vs, P v) → vs.foldlM k a = accumulate k (a :: vs)
  | a, [], _, _ => rfl
  | a, [b], _, _ => by simp [accumulate]
  | a, b :: c :: vs, first, rest => by
    have second : P b := rest b mem_cons_self
    have others : ∀ v ∈ c :: vs, P v := fun v among => rest v (mem_cons_of_mem _ among)
    have inner : ∀ r, k a b = some r → (c :: vs).foldlM k r = accumulate k (r :: c :: vs) := fun r result =>
      accumulate_eq_foldlM closed assoc (closed a b r first second result) others
    have tail : ∀ {vs : List Value} {r : Value}, (∀ v ∈ vs, P v) → accumulate k vs = some r → P r := by
      intro vs
      induction vs with
      | nil => intro r _ result; cases result
      | cons v vs ih =>
        intro r all result
        cases vs with
        | nil =>
          cases result
          exact all _ mem_cons_self
        | cons v' vs =>
          obtain ⟨r', result', last⟩ := bind_eq_some_iff.mp result
          exact closed v r' r (all v mem_cons_self)
            (ih (fun v among => all v (mem_cons_of_mem _ among)) result') last
    calc (b :: c :: vs).foldlM k a
        = (k a b).bind fun r => (c :: vs).foldlM k r := foldlM_cons
      _ = (k a b).bind fun r => (accumulate k (c :: vs)).bind (k r) := by
          cases result : k a b with
          | none => rfl
          | some r => exact inner r result
      _ = (accumulate k (c :: vs)).bind fun s => (k a b).bind fun r => k r s := by
          cases k a b with
          | none => cases accumulate k (c :: vs) <;> rfl
          | some r => rfl
      _ = (accumulate k (c :: vs)).bind fun s => (k b s).bind fun r => k a r := by
          cases result : accumulate k (c :: vs) with
          | none => rfl
          | some s => exact assoc a b s first second (tail others result)
      _ = accumulate k (a :: b :: c :: vs) := by rw [accumulate, accumulate, bind_assoc]

namespace Machine

variable (m : Machine)

@[simp] theorem answer_add (x y : ℚ) : m.answer .add [.number x, .number y] = some (.number (x + y)) := rfl

@[simp] theorem answer_subtract (x y : ℚ) : m.answer .subtract [.number x, .number y] = some (.number (x - y)) := rfl

@[simp] theorem answer_multiply (x y : ℚ) : m.answer .multiply [.number x, .number y] = some (.number (x * y)) := rfl

@[simp] theorem answer_divide (x y : ℚ) :
    m.answer .divide [.number x, .number y] = if y = 0 then none else some (.number (x / y)) := rfl

@[simp] theorem answer_increment (x : ℚ) : m.answer .increment [.number x] = some (.number (x + 1)) := rfl

@[simp] theorem answer_decrement (x : ℚ) : m.answer .decrement [.number x] = some (.number (x - 1)) := rfl

theorem isNumber_number (q : ℚ) : isNumber (.number q) := by
  simp only [isNumber, Value.typeCode]
  split_ifs <;> decide

/-- On numbers the primitive computes `f`, which is associative and commutative and has the identity `e`. -/
structure Accumulates (p : Primitive) (f : ℚ → ℚ → ℚ) (e : ℚ) : Prop where
  answers : ∀ x y, m.answer p [.number x, .number y] = some (.number (f x y))
  identity : ∀ q, f q e = q
  comm : ∀ x y, f x y = f y x
  assoc : ∀ x y z, f (f x y) z = f x (f y z)

theorem accumulates_add : m.Accumulates .add (· + ·) 0 := ⟨m.answer_add, add_zero, add_comm, add_assoc⟩

theorem accumulates_multiply : m.Accumulates .multiply (· * ·) 1 := ⟨m.answer_multiply, mul_one, mul_comm, mul_assoc⟩

variable {m} {p : Primitive} {f : ℚ → ℚ → ℚ} {e : ℚ} (accumulates : m.Accumulates p f e)
include accumulates

theorem Accumulates.accumulate {qs : List ℚ} (nonempty : qs ≠ []) :
    accumulate (fun a b => m.answer p [a, b]) (qs.map .number) = some (.number (qs.foldr f e)) := by
  induction qs with
  | nil => exact absurd rfl nonempty
  | cons q qs ih =>
    cases qs with
    | nil => simp [Sf.accumulate, accumulates.identity]
    | cons q' qs =>
      rw [map_cons, map_cons, Sf.accumulate, ← map_cons, ih (cons_ne_nil _ _)]
      exact accumulates.answers _ _

theorem Accumulates.reduce (qs : List ℚ) (initial : Value) (q : ℚ) :
    reduce (fun x y => m.answer p [x, y]) initial ((q :: qs).map .number) = some (.number ((q :: qs).foldr f e)) := by
  rw [map_cons, Machine.reduce]
  induction qs generalizing q with
  | nil => simp [accumulates.identity]
  | cons q' qs ih =>
    simp only [map_cons, foldlM_cons, accumulates.answers, bind_eq_bind, bind_some, ih, foldr_cons]
    rw [accumulates.comm q' q, accumulates.assoc]

theorem Accumulates.commutative (qs : List ℚ) :
    m.commutative p (.number e) (qs.map .number) = some (.number (qs.foldr f e)) := by
  rcases qs with _ | ⟨q, _ | ⟨q', qs⟩⟩
  · rfl
  · simp [Machine.commutative, isNumber_number, accumulates.identity]
  · exact accumulates.reduce (q' :: qs) (.number e) q

end Machine

namespace World

variable {w : World} {env : Env}

/-- The values of the function, where the operands return theirs, are numbers. -/
def Numeric (w : World) (env : Env) (A : Value → Prop) (es : List Expression) (f : List Value → Option Value) : Prop :=
  ∀ vs, List.Forall₂ (Returned w env A) es vs → ∀ v, f vs = some v → IsNumber v

variable {A : Value → Prop} {p : Primitive} {x y e : Expression} {es es' : List Expression}
variable {f f' : List Value → Option Value}

theorem realized_accumulation {N : List Expression → (List Value → Option Value) → Prop}
    {makeBinary : Expression → Expression → Expression} {k : Value → Value → Option Value}
    (binary : ∀ {x y es es' f f'}, N es f → N es' f' → Realized w env A x es f → Realized w env A y es' f' →
      Realized w env A (makeBinary x y) (es ++ es') fun vs =>
        (f (vs.take es.length)).bind fun a => (f' (vs.drop es.length)).bind fun b => k a b)
    (single : ∀ x, N [x] head?) (accumulated : ∀ es, N es (accumulate k)) :
    ∀ (first : Expression) (rest : List Expression),
      Realized w env A (accumulationLoop makeBinary first rest) (first :: rest) (accumulate k)
  | first, [] => (realized_operand first).congr_one fun u _ => rfl
  | first, next :: rest => by
    have realized := realized_accumulation binary single accumulated next rest
    refine (binary (single first) (accumulated _) (realized_operand first) realized).congr fun vs returned => ?_
    cases returned with
    | cons _ returned =>
      cases returned with
      | cons _ _ => simp [accumulate]

theorem ofOption_value {o : Option Value} {t h' : History} {v : Value}
    (returned : (ofOption o : Evaluation History Value) t = .value v h') : o = some v ∧ t = h' := by
  cases o with
  | none => cases returned
  | some a =>
    cases returned
    exact ⟨rfl, rfl⟩

theorem Realized.isNumber (realized : Realized w env A x es f) (numeric : Numeric w env A es f) {h h' : History} {v : Value}
    (suited : Suited A (w.unrecorded.evaluations es env) h) (value : w.unrecorded.evaluate x env h = .value v h') : IsNumber v := by
  obtain ⟨vs, t, ordered, agree⟩ := realized h suited
  rw [value] at agree
  rcases agree with same | ⟨_, _, error, _⟩
  · exact numeric vs (returned_of_gives (suited.gives ordered)) v (ofOption_value same.symm).1
  · cases error

theorem evaluate_pcall_one (answers : Answers p) (x : Expression) :
    w.unrecorded.evaluate (pcall w.toMachine p [x]) env =
      w.unrecorded.evaluate x env >>= fun a => ofOption (w.answer p [a]) := by
  rw [evaluate_pcall, evaluate_call_one]
  simp [applyPrimitive_answers answers]

/-- Where the values of the operand are numbers, one operation is as good as another that agrees with it on numbers. -/
theorem bind_numeric (realized : Realized w env A x es f) (numeric : Numeric w env A es f) {k k' : Value → Option Value}
    (same : ∀ q, k (.number q) = k' (.number q)) {h : History} (suited : Suited A (w.unrecorded.evaluations es env) h) :
    (w.unrecorded.evaluate x env >>= fun a => ofOption (k a)) h =
      (w.unrecorded.evaluate x env >>= fun a => ofOption (k' a)) h := by
  rw [Library.Evaluation.bind_apply, Library.Evaluation.bind_apply]
  cases value : w.unrecorded.evaluate x env h with
  | value a t =>
    obtain ⟨q, rfl⟩ := realized.isNumber numeric suited value
    exact congrArg (fun o => (ofOption o : Evaluation History Value) t) (same q)
  | error t => rfl
  | diverges => rfl

theorem constantEq_iff {c : Value} : constantEq e c ↔ e = constant c := by
  cases e <;> simp [constantEq, constantValue]

theorem realized_sum (numeric : Numeric w env A es f) (numeric' : Numeric w env A es' f')
    (realized : Realized w env A x es f) (realized' : Realized w env A y es' f') :
    Realized w env A (makeSum w.toMachine x y) (es ++ es') fun vs =>
      (f (vs.take es.length)).bind fun a => (f' (vs.drop es.length)).bind fun b => w.answer .add [a, b] := by
  unfold makeSum
  split
  case isTrue one =>
    rw [constantEq_iff] at one
    subst one
    refine realized.both realized' _ fun h suited => .inl ?_
    rw [evaluate_pcall_one rfl]
    exact bind_numeric realized' numeric' (fun q => by simp [add_comm]) suited.right
  case isFalse =>
    split
    case isTrue one =>
      rw [constantEq_iff] at one
      subst one
      refine realized.both realized' _ fun h suited => .inl ?_
      rw [evaluate_pcall_one rfl]
      exact bind_numeric realized numeric (fun q => by simp) suited.left
    case isFalse => exact realized.two realized' rfl

theorem numbers_of_returned {vs : List Value} (returned : List.Forall₂ (Returned w env IsNumber) es vs) :
    ∃ qs : List ℚ, vs = qs.map .number ∧ qs.length = es.length := by
  induction returned with
  | nil => exact ⟨[], rfl, rfl⟩
  | cons first _ ih =>
    obtain ⟨q, rfl⟩ := first.2
    obtain ⟨qs, rfl, count⟩ := ih
    exact ⟨q :: qs, rfl, by simp [count]⟩

theorem numeric_operand (x : Expression) : Numeric w env IsNumber [x] head? := by
  intro vs returned v value
  cases returned with
  | cons first _ =>
    cases value
    exact first.2

theorem numeric_accumulate {f : ℚ → ℚ → ℚ} {identity : ℚ} (accumulates : w.Accumulates p f identity) (es : List Expression) :
    Numeric w env IsNumber es (accumulate fun a b => w.answer p [a, b]) := by
  intro vs returned v value
  obtain ⟨qs, rfl, -⟩ := numbers_of_returned returned
  rcases eq_or_ne qs [] with rfl | nonempty
  · cases value
  · rw [accumulates.accumulate nonempty] at value
    exact ⟨_, (some.inj value).symm⟩

theorem rightAccumulation_cases {identity : Value} {makeBinary : Expression → Expression → Expression}
    (expanded : rightAccumulation identity makeBinary es = some e) : (es = [] ∧ e = constant identity) ∨ ∃ first rest,
    es = first :: rest ∧ e = accumulationLoop makeBinary first rest := by
  cases es with
  | nil => exact .inl ⟨rfl, (some.inj expanded).symm⟩
  | cons first rest =>
    simp only [rightAccumulation] at expanded
    split at expanded
    · exact .inr ⟨first, rest, rfl, (some.inj expanded).symm⟩
    · cases expanded

section Commutative

variable {identity : ℚ} {makeBinary : Expression → Expression → Expression} {combined : ℚ → ℚ → ℚ}

theorem realized_commutative
    (binary : ∀ {x y es es' f f'}, Numeric w env IsNumber es f → Numeric w env IsNumber es' f' → Realized w env IsNumber x es f →
      Realized w env IsNumber y es' f' → Realized w env IsNumber (makeBinary x y) (es ++ es') fun vs =>
        (f (vs.take es.length)).bind fun a => (f' (vs.drop es.length)).bind fun b => w.answer p [a, b])
    (accumulates : w.Accumulates p combined identity) (expanded : rightAccumulation (.number identity) makeBinary es = some e) :
    Realized w env IsNumber e es (w.commutative p (.number identity)) := by
  rcases rightAccumulation_cases expanded with ⟨rfl, rfl⟩ | ⟨first, rest, rfl, rfl⟩
  · exact (realized_constant _).congr_none rfl
  · refine (realized_accumulation binary numeric_operand (numeric_accumulate accumulates) first rest).congr fun vs returned => ?_
    obtain ⟨qs, rfl, count⟩ := numbers_of_returned returned
    have nonempty : qs ≠ [] := by
      rintro rfl
      simp at count
    rw [accumulates.accumulate nonempty]
    exact (accumulates.commutative qs).symm

theorem realized_add (expanded : addExpansion w.toMachine es = some e) : Realized w env IsNumber e es (w.procedure .add) :=
  realized_commutative realized_sum (accumulates_add _) expanded

theorem realized_multiply (expanded : multiplyExpansion w.toMachine es = some e) :
    Realized w env IsNumber e es (w.procedure .multiply) :=
  realized_commutative (fun _ _ realized realized' => realized.two realized' rfl) (accumulates_multiply _) expanded

end Commutative

section Inverses

variable {identity : ℚ} {inverseExpansion : List Expression → Option Expression}
variable {makeBinary : Expression → Expression → Expression} {p combine : Primitive} {invert : ℚ → Option ℚ}
variable {combined : ℚ → ℚ → ℚ}

theorem realized_inverse
    (inverse : ∀ {es e}, inverseExpansion es = some e →
      Realized w env IsNumber e es (w.commutative combine (.number identity)))
    (binary : ∀ {x y es'} {f' : List Value → Option Value}, Realized w env IsNumber y es' f' →
      Realized w env IsNumber (makeBinary x y) (x :: es') fun vs =>
        (vs.take 1).head?.bind fun a => (f' (vs.drop 1)).bind fun b => w.answer p [a, b])
    (neutral : ∀ q, w.answer p [.number q, .number identity] = some (.number q))
    (self : invert identity = some identity)
    (accumulates : w.Accumulates combine combined identity)
    (expanded : rightAccumulationInverse (.number identity) inverseExpansion makeBinary es = some e) :
    Realized w env IsNumber e es (w.nonCommutative p combine (.number identity) invert) := by
  rcases es with _ | ⟨x, _ | ⟨y, rest⟩⟩
  · cases expanded
  · -- A single operand is only expanded if it is the identity, which is its own inverse.
    simp only [rightAccumulationInverse] at expanded
    split at expanded
    case isFalse => cases expanded
    case isTrue same =>
      rw [constantEq_iff] at same
      cases expanded
      subst same
      refine ((realized_constant _).ignore_right _).congr_one fun u first => ?_
      obtain ⟨⟨h, h', value⟩, -⟩ := first
      cases value
      simp [nonCommutative, self]
  · obtain ⟨inverted, expanded', rfl⟩ := map_eq_some_iff.mp expanded
    have realized := inverse expanded'
    have both : Realized w env IsNumber (if constantEq inverted (.number identity) then x else makeBinary x inverted)
        (x :: y :: rest) fun vs => (vs.take 1).head?.bind fun a =>
          (w.commutative combine (.number identity) (vs.drop 1)).bind fun b => w.answer p [a, b] := by
      split
      case isTrue same =>
        rw [constantEq_iff] at same
        subst same
        refine (realized_operand x).both realized (fun a b => w.answer p [a, b]) fun h suited => .inl ?_
        have neutral' : ∀ q, some (.number q) = w.answer p [.number q, .number identity] := fun q => (neutral q).symm
        exact (Library.Evaluation.bind_result _ h).symm.trans
          (bind_numeric (realized_operand x) (numeric_operand x) neutral' suited.left)
      case isFalse => exact binary realized
    refine both.congr fun vs returned => ?_
    obtain ⟨qs, rfl, count⟩ := numbers_of_returned returned
    rcases qs with _ | ⟨q, _ | ⟨q', qs⟩⟩
    · simp at count
    · simp at count
    · have summed := accumulates.commutative (q' :: qs)
      have reduced := accumulates.reduce qs (.number identity) q'
      simp only [map_cons] at summed reduced
      simp [summed, nonCommutative, reduced]

theorem realized_subtract
    (expanded : rightAccumulationInverse (.number 0) (addExpansion w.toMachine) (makeDifference w.toMachine) es = some e) :
    Realized w env IsNumber e es (w.procedure .subtract) := by
  refine realized_inverse realized_add ?_ ?_ ?_ (accumulates_add _) expanded
  · intro x y es' f' realized'
    unfold makeDifference
    split
    case isTrue one =>
      rw [constantEq_iff] at one
      subst one
      refine (realized_operand x).both realized' _ fun h suited => .inl ?_
      rw [evaluate_pcall_one rfl]
      exact bind_numeric (realized_operand x) (numeric_operand x) (fun q => by simp) suited.left
    case isFalse => exact (realized_operand x).two realized' rfl
  · simp
  · simp

theorem realized_divide
    (expanded : rightAccumulationInverse (.number 1) (multiplyExpansion w.toMachine)
      (fun x y => pcall w.toMachine .divide [x, y]) es = some e) :
    Realized w env IsNumber e es (w.procedure .divide) := by
  refine realized_inverse realized_multiply ?_ ?_ ?_ (accumulates_multiply _) expanded
  · exact fun {x} _ _ _ realized' => (realized_operand x).two realized' rfl
  · simp
  · simp

end Inverses

section Bitwise

variable {p : Primitive} {f : ℤ → ℤ → ℤ}

/-- An operation on integers that signals an error on the other exact numbers. -/
def OnIntegers (m : Machine) (p : Primitive) (f : ℤ → ℤ → ℤ) : Prop :=
  ∀ q q', m.answer p [.number q, .number q'] =
    (Value.number q).integer?.bind fun x => (Value.number q').integer?.bind fun y => some (.number (f x y))

theorem realized_bitwise (answers : Answers p) (integers : OnIntegers w.toMachine p f)
    (assoc : ∀ x y z, f (f x y) z = f x (f y z)) {identity : Value}
    (expanded : rightAccumulation identity (fun x y => pcall w.toMachine p [x, y]) es = some e) :
    Realized w env IsNumber e es (w.associative p identity) := by
  rcases rightAccumulation_cases expanded with ⟨rfl, rfl⟩ | ⟨first, rest, rfl, rfl⟩
  · exact (realized_constant _).congr_none rfl
  · have realized := @realized_accumulation w env IsNumber (fun _ _ => True) _ _
      (fun _ _ realized realized' => realized.two realized' answers) (fun _ => trivial) (fun _ => trivial) first rest
    refine realized.congr fun vs returned => ?_
    obtain ⟨qs, rfl, count⟩ := numbers_of_returned returned
    rcases qs with _ | ⟨q, qs⟩
    · simp at count
    refine (@accumulate_eq_foldlM _ IsNumber ?closed ?assoc _ _ ⟨q, rfl⟩ ?numbers).symm
    case closed =>
      rintro _ _ c ⟨x, rfl⟩ ⟨y, rfl⟩ result
      rw [integers] at result
      obtain ⟨_, _, result⟩ := bind_eq_some_iff.mp result
      obtain ⟨_, _, result⟩ := bind_eq_some_iff.mp result
      exact ⟨_, (some.inj result).symm⟩
    case assoc =>
      rintro _ _ _ ⟨x, rfl⟩ ⟨y, rfl⟩ ⟨z, rfl⟩
      have integer : ∀ n : ℤ, (Value.number n).integer? = some n := fun n => by simp [Value.integer?]
      simp only [integers (x) (y), integers y z]
      cases first : (Value.number x).integer? <;> cases second : (Value.number y).integer? <;>
        cases third : (Value.number z).integer? <;> simp [integers _ _, integer, first, third, assoc]
    case numbers =>
      intro v among
      obtain ⟨r, _, rfl⟩ := mem_map.mp among
      exact ⟨r, rfl⟩

end Bitwise

end World

end MitScheme.Sf
