import MitScheme.Sf.Expanded

namespace MitScheme.Sf

open Library (Outcome Evaluation)
open Library.Evaluation (ofOption Suited Realizes RealizesAt Sequential InSomeOrder)
open Expression List

namespace World

/-- In whatever order the operands are evaluated from here, they return values that the operation is meant for. -/
def Suits (w : World) (env : Env) (h : History) (op : Integration) (es : List Expression) : Prop :=
  Suited op.Accepts (w.unrecorded.evaluations es env) h

/-- Each operand is evaluated exactly once, in some order, and then the procedure is called. -/
def Preserves (w : World) (env : Env) (h : History) (op : Integration) (es : List Expression) (e : Expression) : Prop :=
  RealizesAt h (w.unrecorded.evaluate e env) (w.unrecorded.evaluations es env) (w.unrecorded.callProcedure op)

variable {w : World} {env : Env} {h : History} {name : Variable} {op : Integration} {es : List Expression} {e : Expression}

theorem preserves_of_realized (realized : Realized w env op.Accepts e es (w.procedure op)) (suits : w.Suits env h op es)
    (notApply : op ≠ .apply) : w.Preserves env h op es e := by
  have same : w.unrecorded.callProcedure op = fun vs => ofOption (w.procedure op vs) := by
    funext vs
    rw [callProcedure, if_neg notApply]
    rfl
  rw [Preserves, same]
  exact realized h suits

theorem answer_andc1 (m : Machine) (q q' : ℚ) :
    m.answer .bitwiseAndc2 [.number q', .number q] = m.answer .bitwiseAndc1 [.number q, .number q'] := by
  change m.bitwise .bitwiseAndc2 (fun x y => some (x.ldiff y)) (.number q') (.number q) =
    m.bitwise .bitwiseAndc1 (fun x y => some (y.ldiff x)) (.number q) (.number q')
  simp only [Machine.bitwise]
  cases (Value.number q).integer? <;> cases (Value.number q').integer? <;> rfl

theorem realized_andc1 (expanded : bitwiseAndc1Expansion w.toMachine es = some e) :
    Realized w env IsNumber e es (w.procedure .bitwiseAndc1) := by
  rcases es with _ | ⟨x, _ | ⟨y, _ | ⟨z, rest⟩⟩⟩
  · cases expanded
  · cases expanded
  · cases expanded
    refine (realized_call_swapped rfl).congr fun vs returned => ?_
    obtain ⟨qs, rfl, count⟩ := numbers_of_returned returned
    obtain ⟨q, q', rfl⟩ := length_eq_two.mp count
    exact answer_andc1 w.toMachine q q'
  · cases expanded

variable {p : Primitive} {x y : ℤ} {n : ℕ}

theorem realized_primitive {A : Value → Prop} (known : p ∈ typePredicates)
    (expanded : primitiveExpansion w.toMachine p es = some e) : Realized w env A e es (w.answer p) := by
  have unary : Answers p ∧ p.arity = some 1 := by
    simp only [typePredicates, mem_cons, not_mem_nil, or_false] at known
    rcases known with rfl | rfl | rfl | rfl | rfl | rfl | rfl | rfl | rfl <;> exact ⟨rfl, rfl⟩
  unfold primitiveExpansion at expanded
  split at expanded
  case isFalse => cases expanded
  case isTrue valid =>
    cases expanded
    have count : es.length = 1 := by simpa [procedureArityValid, unary.2, eq_comm] using valid
    obtain ⟨x, rfl⟩ := length_eq_one_iff.mp count
    exact realized_call_one unary.1

theorem realized_fixnum_comparison {p p' : Primitive} (answers : Answers p)
    (same : ∀ a b : Value, a.fixnum?.isSome → b.fixnum?.isSome → w.answer p [a, b] = (w.test p' [a, b]).map .boolean)
    (few : es.length ≠ 3 ∧ es.length ≠ 4)
    (expanded : fxCompare w.toMachine p es = some e) :
    Realized w env FixnumOnly e es fun vs => (w.fixnumComparator p' false vs).map .boolean := by
  unfold fxCompare at expanded
  split at expanded
  · cases expanded
    exact realized_fxCompare answers same
  · exact absurd rfl few.1
  · exact absurd rfl few.2
  · cases expanded

theorem realized_fixnum_negation (answers : Answers p)
    (same : ∀ a b : Value, a.fixnum?.isSome → b.fixnum?.isSome → w.answer p [a, b] = (w.test p [a, b]).map .boolean)
    (few : es.length ≠ 3 ∧ es.length ≠ 4)
    (expanded : fxnotCompare w.toMachine p es = some e) :
    Realized w env FixnumOnly e es fun vs => (w.fixnumComparator p true vs).map .boolean := by
  unfold fxnotCompare at expanded
  split at expanded
  · cases expanded
    exact realized_fxnotCompare answers same
  · exact absurd rfl few.1
  · exact absurd rfl few.2
  · cases expanded

theorem onIntegers_bitwise (m : Machine) :
    OnIntegers m .bitwiseAnd Int.land ∧ OnIntegers m .bitwiseXor Int.xor ∧ OnIntegers m .bitwiseIor Int.lor ∧
      OnIntegers m .bitwiseEqv eqv := ⟨fun _ _ => rfl, fun _ _ => rfl, fun _ _ => rfl, fun _ _ => rfl⟩

theorem expansion_preserves (suits : w.Suits env h op es) (expanded : expand w.toMachine name op es = some e)
    (few : op.isFixnumComparison → es.length ≠ 3 ∧ es.length ≠ 4) : w.Preserves env h op es e := by
  cases op with
  | apply => exact realizes_apply expanded h suits
  | add => exact preserves_of_realized (realized_add expanded) suits (by simp)
  | multiply => exact preserves_of_realized (realized_multiply expanded) suits (by simp)
  | subtract => exact preserves_of_realized (realized_subtract expanded) suits (by simp)
  | divide => exact preserves_of_realized (realized_divide expanded) suits (by simp)
  | equal =>
    refine preserves_of_realized (realized_pairwise rfl rfl rfl ?_ ?_ (fun _ _ => rfl) expanded) suits (by simp)
    · intro q
      change some (.boolean (decide (q = 0))) = some (Value.boolean (decide (0 = q)))
      simp [eq_comm]
    · exact fun q => rfl
  | less =>
    exact preserves_of_realized
      (realized_pairwise rfl rfl rfl (fun _ => rfl) (fun _ => rfl) (fun _ _ => rfl) expanded) suits (by simp)
  | greater =>
    exact preserves_of_realized
      (realized_pairwise rfl rfl rfl (fun _ => rfl) (fun _ => rfl) (fun _ _ => rfl) expanded) suits (by simp)
  | bitwiseAnd =>
    exact preserves_of_realized (realized_bitwise rfl (onIntegers_bitwise _).1
      Library.IntegerBits.land_assoc expanded) suits (by simp)
  | bitwiseXor =>
    exact preserves_of_realized (realized_bitwise rfl (onIntegers_bitwise _).2.1
      Library.IntegerBits.xor_assoc expanded) suits (by simp)
  | bitwiseIor =>
    exact preserves_of_realized (realized_bitwise rfl (onIntegers_bitwise _).2.2.1
      Library.IntegerBits.lor_assoc expanded) suits (by simp)
  | bitwiseEqv =>
    exact preserves_of_realized (realized_bitwise rfl (onIntegers_bitwise _).2.2.2
      Library.IntegerBits.lnot_xor_assoc expanded) suits (by simp)
  | bitwiseAndc1 => exact preserves_of_realized (realized_andc1 expanded) suits (by simp)
  | arithmeticShift => exact preserves_of_realized (realized_shift expanded) suits (by simp)
  | expt => exact preserves_of_realized (realized_expt expanded) suits (by simp)
  | fxEqual =>
    exact preserves_of_realized (realized_fixnum_comparison rfl
      (fun _ _ => answer_isEq_fixnums _) (few rfl) expanded) suits (by simp)
  | fxLess =>
    exact preserves_of_realized (realized_fixnum_comparison rfl (fun _ _ _ _ => rfl) (few rfl) expanded) suits (by simp)
  | fxGreater =>
    exact preserves_of_realized (realized_fixnum_comparison rfl (fun _ _ _ _ => rfl) (few rfl) expanded) suits (by simp)
  | fxLessOrEqual =>
    exact preserves_of_realized (realized_fixnum_negation rfl (fun _ _ _ _ => rfl) (few rfl) expanded) suits (by simp)
  | fxGreaterOrEqual =>
    exact preserves_of_realized (realized_fixnum_negation rfl (fun _ _ _ _ => rfl) (few rfl) expanded) suits (by simp)
  | consStar => exact preserves_of_realized (realized_consStar expanded) suits (by simp)
  | list =>
    cases expanded
    exact preserves_of_realized (realized_list es) suits (by simp)
  | car =>
    exact preserves_of_realized (realized_selection rfl (fun _ => rfl) (by decide) (by decide) expanded) suits (by simp)
  | cdr =>
    exact preserves_of_realized (realized_selection rfl (fun _ => rfl) (by decide) (by decide) expanded) suits (by simp)
  | selector s => exact preserves_of_realized (realized_selector s expanded) suits (by simp)
  | isEq => exact preserves_of_realized (realized_isEq expanded) suits (by simp)
  | not => exact preserves_of_realized (realized_not expanded) suits (by simp)
  | isWeakPair => exact preserves_of_realized (realized_typeTest (by decide) expanded) suits (by simp)
  | isExactInteger => exact preserves_of_realized (realized_types (by decide) (by simp) expanded) suits (by simp)
  | isExactRational => exact preserves_of_realized (realized_types (by decide) (by simp; tauto) expanded) suits (by simp)
  | isComplex => exact preserves_of_realized (realized_types (by decide) (by simp; tauto) expanded) suits (by simp)
  | isSymbol => exact preserves_of_realized (realized_types (by decide) (by simp) expanded) suits (by simp)
  | isInternedSymbol => exact preserves_of_realized (realized_typeTest (by decide) expanded) suits (by simp)
  | isUninternedSymbol => exact preserves_of_realized (realized_typeTest (by decide) expanded) suits (by simp)
  | primitive p => exact preserves_of_realized (realized_primitive p.2 expanded) suits (by simp)

section Shortcuts

variable {h : History} {a b v : Value} {p : Primitive}

theorem pcall_constants (answers : Answers p) (answer : w.answer p [a, b] = some v) :
    w.unrecorded.evaluate (pcall w.toMachine p [constant a, constant b]) env h = .value v h := by
  have value (c : Value) : w.unrecorded.evaluate (constant c) env h = ofOption (some c) h :=
    congrFun (evaluate_constant c) h
  rw [pcall_two_at answers (value a) (value b), Option.bind_some, Option.bind_some, answer]
  rfl

theorem conditional_shortcut {truth : Bool} (answers : Answers p) (answer : w.answer p [a, b] = some (.boolean truth))
    (consequent alternative : Expression) :
    w.unrecorded.evaluate (conditional (pcall w.toMachine p [constant a, constant b]) consequent alternative) env h =
      w.unrecorded.evaluate (bif truth then consequent else alternative) env h := by
  rw [evaluate, Library.Evaluation.bind_of_value _ (pcall_constants answers answer)]
  cases truth <;> rfl

end Shortcuts

/-- A world where every call of an unknown procedure returns zero, and leaves its trace. -/
def tracing : World where
  sameAddress _ _ := false
  predicate _ _ := none
  arithmetic _ _ := none
  power _ _ := none
  pick _ _ := 0
  call _ _ _ := .returns (.number 0) []
  global _ := none
  access _ _ _ := none
  quotation _ := .null
  identity _ _ _ := 0
  records _ := false

def effect : Expression := combination (constant (.primitive (.other 0))) []

theorem evaluate_effect (env : Env) (h : History) :
    tracing.unrecorded.evaluate effect env h = .value (.number 0) (h ++ [.call (.primitive (.other 0)) []]) := rfl

theorem suits_of_each (each : ∀ x ∈ es, ∀ t, ∃ v t', w.unrecorded.evaluate x env t = .value v t' ∧ op.Accepts v) :
    w.Suits env h op es := by
  intro before m others t split _
  have among := split.mem_iff.mp (mem_append_right _ (mem_cons_self (a := m) (l := others)))
  rw [evaluations_eq] at among
  obtain ⟨x, member, rfl⟩ := mem_map.mp among
  exact each x member t

theorem not_preserved (fixnums : Value.isFixnum x ∧ Value.isFixnum y) (comparison : op.isFixnumComparison)
    (expanded : expand tracing.toMachine name op (constant (.number x) :: constant (.number y) :: List.replicate (n + 1) effect) =
      some e)
    (decided : tracing.unrecorded.evaluate e env [] = .value v []) :
    ¬ ∀ (w : World) (env : Env) (h : History) (es : List Expression) (e : Expression), es.length = n + 3 →
      w.Suits env h op es → expand w.toMachine name op es = some e → w.Preserves env h op es e := by
  intro preserves
  have fixnum : ∀ z : ℤ, Value.isFixnum z → op.Accepts (.number z) := by
    intro z small
    have known : (Value.number z).fixnum?.isSome := by simp [Value.fixnum?, Value.integer?, small]
    cases op <;> first | exact known | cases comparison
  have suits : tracing.Suits env [] op (constant (.number x) :: constant (.number y) :: replicate (n + 1) effect) := by
    refine suits_of_each fun e among h => ?_
    simp only [mem_cons, mem_replicate] at among
    rcases among with rfl | rfl | ⟨_, rfl⟩
    · exact ⟨_, h, rfl, fixnum x fixnums.1⟩
    · exact ⟨_, h, rfl, fixnum y fixnums.2⟩
    · exact ⟨_, _, evaluate_effect env h, fixnum 0 (by decide)⟩
  obtain ⟨vs, h', ordered, agree⟩ := preserves tracing env [] _ e (by simp) suits expanded
  rw [decided] at agree
  have notApply : op ≠ .apply := by
    rintro rfl
    cases comparison
  have unchanged : h' = [] := by
    rw [callProcedure, if_neg notApply] at agree
    rcases agree with same | ⟨_, _, error, _⟩
    · exact (ofOption_value same.symm).2
    · cases error
  have steps : ∀ m ∈ tracing.unrecorded.evaluations
      (constant (.number x) :: constant (.number y) :: replicate (n + 1) effect) env,
      ∀ h v t, m h = .value v t → h.length ≤ t.length := by
    intro m among h v t value
    rw [evaluations_eq] at among
    obtain ⟨e, member, rfl⟩ := mem_map.mp among
    simp only [mem_cons, mem_replicate] at member
    rcases member with rfl | rfl | ⟨_, rfl⟩
    · cases value
      exact le_rfl
    · cases value
      exact le_rfl
    · cases value
      simp
  have last : tracing.unrecorded.evaluate effect env ∈ tracing.unrecorded.evaluations
      (constant (.number x) :: constant (.number y) :: replicate (n + 1) effect) env := by
    rw [evaluations_eq]
    exact mem_map_of_mem (by simp)
  have grown := ordered.grows steps last fun h v t value => by
    cases value
    simp
  rw [unchanged] at grown
  exact absurd grown (lt_irrefl _)

theorem fixnum_skips (negated : Bool) (env : Env) (answers : Answers p) (few : n < 2)
    (answer : tracing.answer p [.number x, .number y] = some (.boolean negated)) :
    ∃ e, (bif negated then fxnotCompare else fxCompare) tracing.toMachine p
        (constant (.number x) :: constant (.number y) :: List.replicate (n + 1) effect) = some e ∧
      tracing.unrecorded.evaluate e env [] = .value (.boolean false) [] := by
  obtain rfl | rfl : n = 0 ∨ n = 1 := by omega
  all_goals cases negated
  all_goals
    refine ⟨_, rfl, ?_⟩
    rw [conditional_shortcut answers answer]
    rfl

theorem comparison_skips (env : Env) (name : Variable) (comparison : op.isFixnumComparison) (few : n < 2) :
    ∃ (x y : ℤ) (e : Expression), (Value.isFixnum x ∧ Value.isFixnum y) ∧
      expand tracing.toMachine name op (constant (.number x) :: constant (.number y) :: List.replicate (n + 1) effect) = some e ∧
      tracing.unrecorded.evaluate e env [] = .value (.boolean false) [] := by
  cases op with
  | fxEqual =>
    obtain ⟨e, expanded, decided⟩ := fixnum_skips false env (p := .isEq) (x := 0) (y := 1) rfl few (by decide)
    exact ⟨0, 1, e, by decide, expanded, decided⟩
  | fxLess =>
    obtain ⟨e, expanded, decided⟩ := fixnum_skips false env (p := .lessThanFixnum) (x := 1) (y := 0) rfl few (by decide)
    exact ⟨1, 0, e, by decide, expanded, decided⟩
  | fxGreater =>
    obtain ⟨e, expanded, decided⟩ := fixnum_skips false env (p := .greaterThanFixnum) (x := 0) (y := 1) rfl few (by decide)
    exact ⟨0, 1, e, by decide, expanded, decided⟩
  | fxLessOrEqual =>
    obtain ⟨e, expanded, decided⟩ := fixnum_skips true env (p := .greaterThanFixnum) (x := 1) (y := 0) rfl few (by decide)
    exact ⟨1, 0, e, by decide, expanded, decided⟩
  | fxGreaterOrEqual =>
    obtain ⟨e, expanded, decided⟩ := fixnum_skips true env (p := .lessThanFixnum) (x := 0) (y := 1) rfl few (by decide)
    exact ⟨0, 1, e, by decide, expanded, decided⟩
  | _ => cases comparison

/-- The expansions come to the same as the calls, but for the comparisons of three or four fixnums. -/
theorem integrations_preserve_iff (op : Integration) (n : ℕ) :
    (∀ (w : World) (env : Env) (h : History) (name : Variable) (es : List Expression) (e : Expression), es.length = n →
      w.Suits env h op es → expand w.toMachine name op es = some e → w.Preserves env h op es e) ↔
      ¬(op.isFixnumComparison ∧ (n = 3 ∨ n = 4)) := by
  constructor
  · rintro preserves ⟨comparison, count⟩
    obtain ⟨k, few, rfl⟩ : ∃ k < 2, n = k + 3 := ⟨n - 3, by omega, by omega⟩
    obtain ⟨x, y, e, fixnums, expanded, decided⟩ := comparison_skips (fun _ => none) 0 comparison few
    exact not_preserved fixnums comparison expanded decided fun w env h => preserves w env h 0
  · intro settled w env h name es e length suits expanded
    apply expansion_preserves suits expanded
    intro comparison
    rw [length]
    exact not_or.mp fun count => settled ⟨comparison, count⟩

theorem fxLess_not_preserved :
    let es := [constant (.number 0), constant (.number 2), constant (.number 1)]
    ∃ e, tracing.Suits (fun _ => none) [] .fxLess es ∧ expand tracing.toMachine 0 .fxLess es = some e ∧
      tracing.unrecorded.evaluate e (fun _ => none) [] = .value (.boolean true) [] ∧
      tracing.procedure .fxLess [.number 0, .number 2, .number 1] = some (.boolean false) ∧
      ¬tracing.Preserves (fun _ => none) [] .fxLess es e := by
  intro es
  have constants : ∀ x ∈ es, ∃ q : ℤ, x = constant (.number q) ∧ Value.isFixnum q := by
    intro x among
    simp only [es, mem_cons, not_mem_nil, or_false] at among
    rcases among with rfl | rfl | rfl
    · exact ⟨0, rfl, by decide⟩
    · exact ⟨2, rfl, by decide⟩
    · exact ⟨1, rfl, by decide⟩
  have differs : tracing.procedure .fxLess [.number 0, .number 2, .number 1] = some (.boolean false) := by decide
  have answer (q q' : ℤ) (less : tracing.answer .lessThanFixnum [.number q, .number q'] = some (.boolean true)) :
      tracing.unrecorded.evaluate (pcall tracing.toMachine .lessThanFixnum [constant (.number q), constant (.number q')])
        (fun _ => none) [] = .value (.boolean true) [] := pcall_constants rfl less
  have evaluated : ∃ e, expand tracing.toMachine 0 .fxLess es = some e ∧
      tracing.unrecorded.evaluate e (fun _ => none) [] = .value (.boolean true) [] := by
    refine ⟨_, rfl, ?_⟩
    exact answer 0 1 (by decide)
  obtain ⟨e, expanded, value⟩ := evaluated
  have suits : tracing.Suits (fun _ => none) [] .fxLess es := by
    refine suits_of_each fun x among t => ?_
    obtain ⟨q, rfl, small⟩ := constants x among
    exact ⟨_, t, rfl, by simp [Integration.Accepts, Value.fixnum?, Value.integer?, small]⟩
  refine ⟨e, suits, expanded, value, differs, fun preserves => ?_⟩
  obtain ⟨vs, h', ordered, agree⟩ := preserves
  have operands : tracing.unrecorded.evaluations es (fun _ => none) =
      [.number 0, .number 2, .number 1].map fun v => (pure v : Evaluation History Value) := evaluations_constants rfl
  have values : vs = [.number 0, .number 2, .number 1] := by
    have returned := suits.gives ordered
    rw [operands, forall₂_map_left_iff] at returned
    refine (forall₂_eq_eq_eq ▸ returned.imp fun v v' gives => ?_ : [.number 0, .number 2, .number 1] = vs).symm
    obtain ⟨⟨_, _, same⟩, -⟩ := gives
    cases same
    rfl
  have called : tracing.unrecorded.callProcedure .fxLess vs h' = .value (.boolean false) h' := by
    rw [callProcedure, values]
    exact congrArg (fun answer => ofOption answer h') differs
  rw [value, called] at agree
  rcases agree with same | ⟨_, _, error, _⟩
  · cases same
  · cases error

end World

end MitScheme.Sf
