import MitScheme.Library.IntegerBits
import MitScheme.Sf.Accumulations

namespace MitScheme.Sf

open Library (Outcome Evaluation)
open Value
open Machine
open Library.Evaluation (ofOption Returns Suited Realizes RealizesPure)
open Expression List Option

section Paths

theorem encodeOperations_append (operations : List Operation) (operation : Operation) :
    encodeOperations (operations ++ [operation]) = encodeOperations operations * 2 + operation.bit := by
  simp [encodeOperations]

theorem encodeOperations_bound (operations : List Operation) : operations.length < encodeOperations operations := by
  induction operations using reverseRecOn with
  | nil => decide
  | append_singleton operations operation ih =>
    rw [encodeOperations_append, length_append, length_singleton]
    omega

theorem encodeOperations_cons (operation : Operation) (operations : List Operation) :
    encodeOperations operations ≤ encodeOperations (operation :: operations) := by
  induction operations using reverseRecOn with
  | nil => cases operation <;> decide
  | append_singleton operations last ih =>
    rw [← cons_append, encodeOperations_append, encodeOperations_append]
    omega

theorem performAll_append (operations : List Operation) (operation : Operation) (v : Value) :
    performAll (operations ++ [operation]) v = (operation.perform v).bind (performAll operations) := by
  rw [performAll, foldr_append]
  simp only [foldr_cons, foldr_nil, bind_some]
  cases operation.perform v with
  | none => induction operations with
    | nil => rfl
    | cons first operations ih => simp [ih]
  | some u => rfl

theorem followPath_encodeOperations (operations : List Operation) : ∀ (fuel : ℕ) (v : Value), operations.length ≤ fuel →
    followPath fuel (encodeOperations operations) v = performAll operations v := by
  induction operations using reverseRecOn with
  | nil =>
    intro fuel v _
    cases fuel <;> rfl
  | append_singleton operations operation ih =>
    intro fuel v enough
    rw [length_append, length_singleton] at enough
    obtain ⟨fuel, rfl⟩ : ∃ n, fuel = n + 1 := ⟨fuel - 1, by omega⟩
    have longer := encodeOperations_bound operations
    rw [performAll_append, encodeOperations_append, followPath]
    have bit : operation.bit ≤ 1 := by cases operation <;> decide
    have half : (encodeOperations operations * 2 + operation.bit) / 2 = encodeOperations operations := by omega
    have step : (if (encodeOperations operations * 2 + operation.bit) % 2 = 1 then v.car? else v.cdr?) =
        operation.perform v := by
      cases operation with
      | car =>
        rw [if_pos (by simp only [Operation.bit]; omega)]
        rfl
      | cdr =>
        rw [if_neg (by simp only [Operation.bit]; omega)]
        rfl
    rw [if_neg (by omega), half, step]
    exact congrArg (bind (operation.perform v)) (funext fun u => ih fuel u (by omega))

theorem generalCarCdr_encodeOperations (operations : List Operation) (v : Value) :
    generalCarCdr v (encodeOperations operations) = performAll operations v :=
  followPath_encodeOperations operations _ v (encodeOperations_bound operations).le

theorem decodeLoop_encode : ∀ (fuel code : ℕ) (result : List Operation), 0 < code → code ≤ fuel →
    ∃ operations, decodeLoop fuel code result = operations ++ result ∧ encodeOperations operations = code
  | 0, code, _, positive, enough => by omega
  | fuel + 1, code, result, positive, enough => by
    rw [decodeLoop]
    split
    case isTrue one => exact ⟨[], rfl, one.symm⟩
    case isFalse more =>
      obtain ⟨operations, shape, encoded⟩ := decodeLoop_encode fuel (code / 2)
        ((if code % 2 = 0 then .cdr else .car) :: result) (by omega) (by omega)
      refine ⟨operations ++ [if code % 2 = 0 then .cdr else .car], by simp [shape], ?_⟩
      rw [encodeOperations_append, encoded]
      split_ifs with even
      · change code / 2 * 2 + 0 = code
        omega
      · change code / 2 * 2 + 1 = code
        omega

end Paths

namespace Machine

variable (m : Machine)

theorem answer_path {operations : List Operation} (small : encodeOperations operations < 2 ^ 64) (v : Value) :
    m.answer .generalCarCdr [v, .number (encodeOperations operations)] = performAll operations v := by
  have integer : (number ((encodeOperations operations : ℕ) : ℚ)).integer? = some (encodeOperations operations : ℤ) := by
    simp [integer?]
  have computed : m.answer .generalCarCdr [v, .number (encodeOperations operations)] =
      (number ((encodeOperations operations : ℕ) : ℚ)).integer?.bind fun n =>
        if 0 ≤ n ∧ n < 2 ^ 64 then generalCarCdr v n.toNat else none := rfl
  have inside : (0 : ℤ) ≤ encodeOperations operations ∧ (encodeOperations operations : ℤ) < 2 ^ 64 :=
    ⟨Int.natCast_nonneg _, by exact_mod_cast small⟩
  rw [computed, integer, bind_some, if_pos inside, Int.toNat_natCast, generalCarCdr_encodeOperations]

end Machine

namespace World

variable {w : World} {env : Env} {A : Value → Prop}

section Calls

variable {x y : Expression}

theorem realized_call_one {p : Primitive} (answers : Answers p) :
    Realized w env A (pcall w.toMachine p [x]) [x] (w.answer p) := by
  exact ((realized_operand x).one answers).congr_one fun u _ => rfl

theorem realized_call_two {p : Primitive} (answers : Answers p) :
    Realized w env A (pcall w.toMachine p [x, y]) [x, y] (w.answer p) := by
  exact ((realized_operand x).two (realized_operand y) answers).congr_two fun u v _ _ => rfl

theorem realized_call_swapped {p : Primitive} (answers : Answers p) :
    Realized w env A (pcall w.toMachine p [y, x]) [x, y] fun vs => w.answer p vs.reverse := by
  refine ((realized_operand x).both (realized_operand y) (fun a b => w.answer p [b, a]) fun h _ => ?_).congr_two fun u v _ _ => rfl
  rw [evaluate_pcall]
  simp only [← applyPrimitive_answers answers]
  exact (evaluate_call_two p y x h).symm

end Calls

section Comparisons

variable {p left right : Primitive} {es : List Expression} {e : Expression}

theorem realized_pairwise (answers : Answers p) (answersLeft : Answers left) (answersRight : Answers right)
    (leftZero : ∀ q, w.answer left [.number q] = w.answer p [.number 0, .number q])
    (rightZero : ∀ q, w.answer right [.number q] = w.answer p [.number q, .number 0])
    (compares : ∀ a b, w.answer p [a, b] = (w.test p [a, b]).map .boolean)
    (expanded : pairwiseTest w.toMachine p left right es = some e) :
    Realized w env IsNumber e es fun vs => (w.reduceComparator p vs).map .boolean := by
  rcases es with _ | ⟨x, _ | ⟨y, _ | ⟨z, rest⟩⟩⟩
  · cases expanded
  · cases expanded
  · have first : Realized w env IsNumber x [x] head? := realized_operand x
    have second : Realized w env IsNumber y [y] head? := realized_operand y
    have realized : Realized w env IsNumber e [x, y] fun vs =>
        (vs.take 1).head?.bind fun a => (vs.drop 1).head?.bind fun b => w.answer p [a, b] := by
      simp only [pairwiseTest, some.injEq] at expanded
      subst expanded
      split
      case isTrue zero =>
        rw [constantEq_iff] at zero
        subst zero
        refine first.both second _ fun h suited => .inl ?_
        rw [evaluate_pcall_one answersLeft]
        exact bind_numeric second (numeric_operand y) leftZero suited.right
      case isFalse =>
        split
        case isTrue zero =>
          rw [constantEq_iff] at zero
          subst zero
          refine first.both second _ fun h suited => .inl ?_
          rw [evaluate_pcall_one answersRight]
          exact bind_numeric first (numeric_operand x) rightZero suited.left
        case isFalse => exact first.two second answers
    refine realized.congr_two fun a b _ _ => ?_
    simp only [take_succ_cons, take_zero, head?_cons, bind_some, drop_succ_cons, drop_zero, compares, reduceComparator,
      compareLoop]
    cases w.test p [a, b] with
    | none => rfl
    | some answer => cases answer <;> rfl
  · cases expanded

end Comparisons

section Lists

variable {es : List Expression} {e : Expression}

theorem realized_list : ∀ es : List Expression,
    Realized w env A (listExpansion w.toMachine es) es fun vs => some (.ofList vs)
  | [] => (realized_constant .null).congr_none rfl
  | x :: es => by
    refine ((realized_operand x).two (realized_list es) rfl).congr fun vs returned => ?_
    cases returned with
    | cons _ _ => rfl

theorem realized_consStar : ∀ {es : List Expression} {e : Expression},
    consStarExpansion w.toMachine es = some e → Realized w env A e es consStar
  | [], _, expanded => by cases expanded
  | [x], _, expanded => by
    cases expanded
    exact (realized_operand x).congr_one fun u _ => rfl
  | x :: y :: es, _, expanded => by
    obtain ⟨tail, expanded', rfl⟩ := map_eq_some_iff.mp expanded
    refine ((realized_operand x).two (realized_consStar expanded') rfl).congr fun vs returned => ?_
    cases returned with
    | cons _ returned =>
      cases returned with
      | cons _ _ =>
        exact (map_eq_bind ..).symm

theorem realizes_apply (expanded : applyExpansion w.toMachine es = some e) :
    Realizes A (w.unrecorded.evaluate e env) (w.unrecorded.evaluations es env) w.unrecorded.applyList := by
  rcases es with _ | ⟨f, _ | ⟨argument, rest⟩⟩
  · cases expanded
  · cases expanded
  · have shape : ∃ arguments, consStarExpansion w.toMachine (argument :: rest) = some arguments ∧
        e = pcall w.toMachine .apply [f, arguments] := by
      cases rest with
      | nil => exact ⟨argument, rfl, (some.inj expanded).symm⟩
      | cons next rest =>
        obtain ⟨arguments, expanded', rfl⟩ := map_eq_some_iff.mp expanded
        exact ⟨arguments, expanded', rfl⟩
    obtain ⟨arguments, expanded', rfl⟩ := shape
    have first : RealizesPure A (w.unrecorded.evaluate f env) [w.unrecorded.evaluate f env] head? := realized_operand f
    have others : Realized w env A arguments (argument :: rest) consStar := realized_consStar expanded'
    have either : ∀ h, w.unrecorded.evaluate (pcall w.toMachine .apply [f, arguments]) env h =
          (w.unrecorded.evaluate f env >>= fun a => w.unrecorded.evaluate arguments env >>= fun b =>
            w.unrecorded.applyPrimitive .apply [a, b]) h ∨
        w.unrecorded.evaluate (pcall w.toMachine .apply [f, arguments]) env h =
          (w.unrecorded.evaluate arguments env >>= fun b => w.unrecorded.evaluate f env >>= fun a =>
            w.unrecorded.applyPrimitive .apply [a, b]) h := by
      intro h
      exact evaluate_call_two .apply f arguments h
    refine (first.bind_both others (fun a b => w.unrecorded.applyPrimitive .apply [a, b]) fun h _ => either h).congr fun vs returned => ?_
    cases returned with
    | @cons _ v _ _ _ returned =>
      cases returned with
      | @cons _ v' _ vs _ _ =>
        simp only [length_singleton, take_succ_cons, take_zero, head?_cons, drop_succ_cons, drop_zero, applyList]
        cases consStar (v' :: vs) with
        | none => rfl
        | some arguments =>
          change w.unrecorded.applyPrimitive .apply [v, arguments] = _
          rfl

end Lists

section Selections

variable {x e : Expression} {es : List Expression}

theorem evaluate_path (operations : List Operation) (small : encodeOperations operations < 2 ^ 64) (x : Expression) :
    w.unrecorded.evaluate (pcall w.toMachine .generalCarCdr [x, constant (.number (encodeOperations operations))]) env =
      w.unrecorded.evaluate x env >>= fun a => ofOption (performAll operations a) := by
  rw [evaluate_pcall, evaluate_call_constant]
  refine congrArg _ (funext fun a => ?_)
  rw [applyPrimitive_answers rfl, w.answer_path small]

theorem realized_path {operations : List Operation} (small : encodeOperations operations < 2 ^ 64) :
    Realized w env A (pcall w.toMachine .generalCarCdr [x, constant (.number (encodeOperations operations))]) [x]
      (onOne (performAll operations)) := by
  have same : ∀ h v h', A v → w.unrecorded.evaluate x env h = .value v h' →
      w.unrecorded.evaluate (pcall w.toMachine .generalCarCdr [x, constant (.number (encodeOperations operations))]) env h =
        ofOption (performAll operations v) h' := by
    intro h v h' _ value
    rw [evaluate_path operations small, Library.Evaluation.bind_of_value _ value]
  exact (Realized.of_value _ same).congr_one fun u _ => rfl

theorem selector_encoding (s : Selector) : s.encoding = encodeOperations s.operations ∧ s.encoding < 2 ^ 64 := by
  cases s <;> decide

theorem realized_selector (s : Selector) (expanded : generalCarCdrExpansion w.toMachine s.encoding es = some e) :
    Realized w env A e es (onOne (performAll s.operations)) := by
  obtain ⟨encoded, small⟩ := selector_encoding s
  rcases es with _ | ⟨x, _ | ⟨y, rest⟩⟩
  · cases expanded
  · cases expanded
    rw [encoded] at small ⊢
    exact realized_path small
  · cases expanded

theorem realized_composed {operand : Expression} {operations : List Operation} (operation : Operation)
    (inner : w.unrecorded.evaluate operand env =
      w.unrecorded.evaluate x env >>= fun a => ofOption (performAll operations a))
    (small : encodeOperations (operation :: operations) < 2 ^ 64) :
    Realized w env A (pcall w.toMachine .generalCarCdr [x, constant (.number (encodeOperations (operation :: operations)))])
      [operand] (onOne operation.perform) := by
  have same : ∀ h v h', A v → w.unrecorded.evaluate operand env h = .value v h' →
      w.unrecorded.evaluate (pcall w.toMachine .generalCarCdr
        [x, constant (.number (encodeOperations (operation :: operations)))]) env h = ofOption (operation.perform v) h' := by
    intro h v h' _ value
    rw [inner] at value
    obtain ⟨a, t, first, second⟩ := Library.Evaluation.bind_value value
    obtain ⟨performed, rfl⟩ := ofOption_value second
    rw [evaluate_path _ small, Library.Evaluation.bind_of_value _ first]
    have outer : performAll (operation :: operations) a = (performAll operations a).bind operation.perform := rfl
    rw [outer, performed, bind_some]
  exact (Realized.of_value _ same).congr_one fun u _ => rfl

theorem evaluate_selection {p : Primitive} {operation : Operation} (answers : Answers p)
    (performs : ∀ v, w.answer p [v] = operation.perform v) (x : Expression) :
    w.unrecorded.evaluate (combination (constant (.primitive p)) [x]) env =
      w.unrecorded.evaluate x env >>= fun a => ofOption (performAll [operation] a) := by
  rw [evaluate_call_one]
  refine congrArg _ (funext fun a => ?_)
  rw [applyPrimitive_answers answers, performs]
  rfl

theorem decodeGeneralCarCdr_spec {path : Value} {operations : List Operation}
    (decoded : decodeGeneralCarCdr path = some operations) : path = .number (encodeOperations operations) := by
  obtain ⟨n, fixnum, decoded⟩ := bind_eq_some_iff.mp decoded
  split at decoded
  case isFalse => cases decoded
  case isTrue positive =>
    obtain ⟨operations', shape, encoded⟩ := decodeLoop_encode n.toNat n.toNat [] (by omega) le_rfl
    rw [some.injEq, shape, append_nil] at decoded
    subst decoded
    have integer := (filter_eq_some_iff.mp fixnum).1
    cases path with
    | number q =>
      simp only [integer?] at integer
      split at integer
      case isFalse => cases integer
      case isTrue whole =>
        rw [encoded]
        congr 1
        rw [← Rat.coe_int_num_of_den_eq_one whole, some.inj integer]
        exact_mod_cast (Int.toNat_of_nonneg positive.le).symm
    | _ => cases integer

theorem realized_selection {p : Primitive} {operation : Operation} {afterCar afterCdr : ℕ} (answers : Answers p)
    (performs : ∀ v, w.answer p [v] = operation.perform v)
    (encodedCar : afterCar = encodeOperations [operation, .car]) (encodedCdr : afterCdr = encodeOperations [operation, .cdr])
    (expanded : selectorExpansion w.toMachine p operation afterCar afterCdr es = some e) :
    Realized w env A e es (onOne operation.perform) := by
  have small : ∀ inner, encodeOperations [operation, inner] < 2 ^ 64 := fun inner => by
    cases operation <;> cases inner <;> decide
  unfold selectorExpansion at expanded
  split at expanded
  case h_1 x =>
    cases expanded
    subst encodedCar
    exact realized_composed operation (evaluate_selection rfl (fun v => rfl) x) (small .car)
  case h_2 x =>
    cases expanded
    subst encodedCdr
    exact realized_composed operation (evaluate_selection rfl (fun v => rfl) x) (small .cdr)
  case h_3 x path =>
    obtain ⟨operations, decoded, expanded⟩ := bind_eq_some_iff.mp expanded
    obtain ⟨code, encoded, expanded⟩ := bind_eq_some_iff.mp expanded
    cases expanded
    unfold encodeGeneralCarCdr at encoded
    split at encoded
    case isFalse => cases encoded
    case isTrue fits =>
      cases encoded
      have below : encodeOperations (operation :: operations) < 2 ^ 64 := by
        simp only [isFixnum, Bool.and_eq_true, decide_eq_true_eq] at fits
        omega
      have less : encodeOperations operations < 2 ^ 64 := (encodeOperations_cons operation operations).trans_lt below
      refine realized_composed operation ?_ below
      rw [decodeGeneralCarCdr_spec decoded, ← evaluate_path operations less, evaluate_pcall]
  case h_4 x _ _ _ =>
    cases expanded
    exact (realized_call_one answers).congr_one fun u _ => performs u
  case h_5 => cases expanded

end Selections

section Booleans

variable {x y : Expression} {es : List Expression} {e : Expression}

theorem evaluate_pair_value {h t h' : History} {a v : Value} (first : w.evaluate x env h = .value a t)
    (second : w.evaluate y env t = .value v h') : w.evaluate (sequenceMake [x, y]) env h = .value v h' := by
  apply sequenceMake_value
  rw [evaluateSequence, Library.Evaluation.bind_of_value _ first]
  · exact second
  · simp

theorem realized_not (expanded : notExpansion w.toMachine es = some e) :
    Realized w env A e es (w.answer .not) := by
  rcases es with _ | ⟨x, _ | ⟨y, rest⟩⟩
  · cases expanded
  · have known : ∀ b : Bool, (Returns (w.unrecorded.evaluate x env) fun v => decide (v = .boolean false) = b) →
        Realized w env A (sequenceMake [x, constant (.boolean b)]) [x] (w.answer .not) := by
      intro b returns
      have same : ∀ h v h', A v → w.unrecorded.evaluate x env h = .value v h' →
          w.unrecorded.evaluate (sequenceMake [x, constant (.boolean b)]) env h = ofOption (w.answer .not [v]) h' := by
        intro h v h' _ value
        have negated : w.answer .not [v] = some (.boolean (decide (v = .boolean false))) := rfl
        rw [negated, returns h v h' value]
        apply evaluate_pair_value value
        rfl
      exact (Realized.of_value _ same).congr_one fun u _ => rfl
    have sound := (sound_all w.unrecorded x).1
    simp only [notExpansion, some.injEq] at expanded
    subst expanded
    split
    case isTrue always =>
      exact known true fun h v h' value => by simpa using sound.alwaysFalse always env h v h' value
    case isFalse =>
      split
      case isTrue never =>
        exact known false fun h v h' value => by simpa using sound.neverFalse never env h v h' value
      case isFalse => exact realized_call_one rfl
  · cases expanded

theorem isEq_false_left (m : Machine) (b : Value) : m.answer .isEq [.boolean false, b] = m.answer .not [b] := by
  change some (boolean (m.isEq (.boolean false) b)) = some (.boolean (decide (b = .boolean false)))
  simp [isEq, immediate, eq_comm]

theorem isEq_false_right (m : Machine) (a : Value) : m.answer .isEq [a, .boolean false] = m.answer .not [a] := by
  change some (boolean (m.isEq a (.boolean false))) = some (.boolean (decide (a = .boolean false)))
  simp [isEq, immediate]

theorem realized_isEq (expanded : eqExpansion w.toMachine es = some e) :
    Realized w env A e es (w.answer .isEq) := by
  rcases es with _ | ⟨x, _ | ⟨y, _ | ⟨z, rest⟩⟩⟩
  · cases expanded
  · cases expanded
  · have both : Realized w env A e [x, y] fun vs =>
        (vs.take 1).head?.bind fun a => (vs.drop 1).head?.bind fun b => w.answer .isEq [a, b] := by
      simp only [eqExpansion, some.injEq] at expanded
      subst expanded
      split
      case isTrue always =>
        refine (realized_operand x).both (realized_operand y) _ fun h suited => .inl ?_
        obtain ⟨a, t, first, -⟩ := suited.left.head
        obtain ⟨b, h', second, -⟩ := (suited.after (.single first)).head
        have isFalse := (sound_all w.unrecorded x).1.alwaysFalse always env h a t first
        subst isFalse
        rw [Library.Evaluation.bind_of_value _ first, Library.Evaluation.bind_of_value _ second, isEq_false_left]
        apply evaluate_pair_value first
        rw [evaluate_pcall_one rfl, Library.Evaluation.bind_of_value _ second]
        rfl
      case isFalse =>
        split
        case isTrue always =>
          refine (realized_operand x).both (realized_operand y) _ fun h suited => .inr ?_
          have swapped := suited.perm perm_append_comm
          obtain ⟨b, t, first, -⟩ := swapped.left.head
          obtain ⟨a, h', second, -⟩ := (swapped.after (.single first)).head
          have isFalse := (sound_all w.unrecorded y).1.alwaysFalse always env h b t first
          subst isFalse
          rw [Library.Evaluation.bind_of_value _ first, Library.Evaluation.bind_of_value _ second, isEq_false_right]
          apply evaluate_pair_value first
          rw [evaluate_pcall_one rfl, Library.Evaluation.bind_of_value _ second]
          rfl
        case isFalse => exact (realized_operand x).two (realized_operand y) rfl
    exact both.congr_two fun u v _ _ => rfl
  · cases expanded

end Booleans

section Operands

variable {x y : Expression} {name : Variable} {h : History} {v : Value}

theorem reference_at (bound : w.lookup env name h = some (some v)) :
    w.evaluate (reference name) env h = ofOption (some v) h := by
  change ofOption (w.lookup env name h).join h = _
  rw [bound]
  rfl

theorem pcall_two_at {p : Primitive} (answers : Answers p) {o o' : Option Value}
    (first : w.unrecorded.evaluate x env h = ofOption o h) (second : w.unrecorded.evaluate y env h = ofOption o' h) :
    w.unrecorded.evaluate (pcall w.toMachine p [x, y]) env h =
      ofOption (o.bind fun a => o'.bind fun b => w.answer p [a, b]) h := by
  rw [evaluate_pcall]
  have either := @evaluate_call_two w.unrecorded env p x y h
  simp only [applyPrimitive_answers answers] at either
  rcases either with order | order
  · rw [order, Library.Evaluation.bind_apply, first]
    cases o with
    | none => rfl
    | some a =>
      change (w.unrecorded.evaluate y env >>= fun b => ofOption (w.answer p [a, b])) h = _
      rw [Library.Evaluation.bind_apply, second]
      cases o' <;> rfl
  · rw [order, Library.Evaluation.bind_apply, second]
    cases o' with
    | none => cases o <;> rfl
    | some b =>
      change (w.unrecorded.evaluate x env >>= fun a => ofOption (w.answer p [a, b])) h = _
      rw [Library.Evaluation.bind_apply, first]
      cases o <;> rfl

theorem freeVariables_pcall_left {p : Primitive} (m : Machine) (among : name ∈ x.freeVariables)
    (unknown : x.constantValue = none) : name ∈ (pcall m p [x, y]).freeVariables := by
  have unfolded : pcall m p [x, y] = combination (constant (.primitive p)) [x, y] := by
    simp [pcall, foldConstant, unknown]
  rw [unfolded]
  simp [freeVariables, freeVariablesAll, among]

theorem freeVariables_pcall_right {p : Primitive} (m : Machine) (among : name ∈ y.freeVariables)
    (unknown : y.constantValue = none) : name ∈ (pcall m p [x, y]).freeVariables := by
  have unfolded : pcall m p [x, y] = combination (constant (.primitive p)) [x, y] := by
    simp only [pcall, foldConstant, mapM_cons, unknown]
    simp
  rw [unfolded]
  simp [freeVariables, freeVariablesAll, among]

end Operands

section Types

variable {x e : Expression} {es : List Expression} {name : Variable}

theorem answer_typeTest (m : Machine) {type : ℕ} (small : type < 64) (v : Value) :
    m.answer .isObjectType [.number type, v] = some (.boolean (v.typeCode = type)) := by
  have computed : m.answer .isObjectType [.number type, v] =
      ((number type).typeCode?.map fun code => decide (v.typeCode = code)).map .boolean := rfl
  have code : (number type).typeCode? = some type := by
    have bounds : (0 : ℤ) ≤ type ∧ (type : ℤ) < 64 := ⟨Int.natCast_nonneg _, by exact_mod_cast small⟩
    simp [typeCode?, integer?, bounds]
  rw [computed, code]
  rfl

theorem realized_typeTest {type : ℕ} (small : type < 64) (expanded : typeTestExpansion w.toMachine type es = some e) :
    Realized w env A e es (onOne (hasType [type])) := by
  rcases es with _ | ⟨x, _ | ⟨y, rest⟩⟩
  · cases expanded
  · cases expanded
    refine ((realized_constant (.number type)).two (realized_operand x) rfl).congr_one fun u _ => ?_
    simp [answer_typeTest _ small, onOne, hasType]
  · cases expanded

theorem disjunction_types {h : History} {v : Value} (bound : w.unrecorded.lookup env name h = some (some v)) :
    ∀ {type : ℕ} {types : List ℕ}, (∀ t ∈ type :: types, t < 64) →
      w.unrecorded.evaluate (makeDisjunction (makeTypeTest w.toMachine type (reference name))
        (types.map fun type => makeTypeTest w.toMachine type (reference name))) env h =
          ofOption (hasType (type :: types) v) h := by
  have test : ∀ {type : ℕ}, type < 64 → w.unrecorded.evaluate (makeTypeTest w.toMachine type (reference name)) env h =
      ofOption (some (.boolean (v.typeCode = type))) h := by
    intro type small
    have first : w.unrecorded.evaluate (constant (.number type)) env h = ofOption (some (.number type)) h := by
      rfl
    rw [makeTypeTest, pcall_two_at rfl first (reference_at bound), bind_some, bind_some, answer_typeTest _ small]
  intro type types small
  induction types generalizing type with
  | nil =>
    rw [map_nil, makeDisjunction, test (small type mem_cons_self)]
    simp [hasType]
  | cons next types ih =>
    have rest := @ih next fun t among => small t (mem_cons_of_mem type among)
    rw [map_cons, makeDisjunction, evaluate, Library.Evaluation.bind_apply, test (small type mem_cons_self)]
    by_cases same : v.typeCode = type
    · simp only [same, decide_true]
      change Outcome.value (boolean true) h = _
      simp [hasType, same, ofOption, Library.Evaluation.result]
    · simp only [same, decide_false]
      change w.unrecorded.evaluate _ env h = _
      rw [rest]
      simp [hasType, same]

theorem realized_types {type : ℕ} {types types' : List ℕ} (small : ∀ t ∈ type :: types, t < 64)
    (same : ∀ t, t ∈ type :: types ↔ t ∈ types') (expanded : typesTestExpansion w.toMachine name type types es = some e) :
    Realized w env A e es (onOne (hasType types')) := by
  rcases es with _ | ⟨x, _ | ⟨y, rest⟩⟩
  · cases expanded
  · have refers : name ∈ (makeDisjunction (makeTypeTest w.toMachine type (reference name))
        (types.map fun type => makeTypeTest w.toMachine type (reference name))).freeVariables := by
      have first : name ∈ (makeTypeTest w.toMachine type (reference name)).freeVariables :=
        freeVariables_pcall_right _ (by simp [freeVariables]) rfl
      cases types with
      | nil => exact first
      | cons next types =>
        exact Finset.mem_union_left _ first
    have bound : makeOperandBinding w.toMachine name x (fun operand => makeDisjunction (makeTypeTest w.toMachine type operand)
        (types.map fun type => makeTypeTest w.toMachine type operand)) = some e := expanded
    refine (realized_binding refers bound (hasType (type :: types))
      fun inner h v bound => disjunction_types bound small).congr_one fun u _ => ?_
    simp only [head?_cons, bind_some, onOne, hasType, some.injEq, boolean.injEq]
    exact decide_eq_decide.mpr (same _)
  · cases expanded

end Types

section Arithmetic

variable {x y e : Expression} {es : List Expression} {name : Variable}

theorem returned_constant {c v : Value} (returned : Returned w env A (constant c) v) : v = c := by
  obtain ⟨⟨h, h', value⟩, -⟩ := returned
  cases value
  rfl

theorem Realized.congr_constant {c : Value} {f g : List Value → Option Value} (realized : Realized w env A e [x, constant c] f)
    (same : ∀ u, Returned w env A x u → f [u, c] = g [u, c]) : Realized w env A e [x, constant c] g :=
  realized.congr_two fun u _ first second => returned_constant second ▸ same u first

theorem constantValue_some {v : Value} (known : x.constantValue = some v) : x = constant v := by
  cases x with
  | constant value =>
    cases known
    rfl
  | _ => cases known

theorem realized_shift (expanded : arithmeticShiftExpansion w.toMachine es = some e) :
    Realized w env A e es w.arithmeticShift := by
  rcases es with _ | ⟨x, _ | ⟨s, _ | ⟨y, rest⟩⟩⟩
  · cases expanded
  · cases expanded
  · obtain ⟨c, known, expanded⟩ := bind_eq_some_iff.mp expanded
    have constantly := constantValue_some known
    subst constantly
    cases c with
    | number shift =>
      cases expanded
      have shifted : ∀ p c, Answers p → Realized w env A (pcall w.toMachine p [x, constant c]) [x, constant (.number shift)]
          fun vs => vs.head?.bind fun a => w.answer p [a, c] := by
        intro p c answers
        refine (((realized_operand x).two (realized_constant c) answers).ignore_right (.number shift)).congr_two fun u v _ _ => ?_
        simp
      split
      case isTrue negative =>
        refine (shifted .shiftRight _ rfl).congr_constant fun u _ => ?_
        simp [arithmeticShift, negative]
      case isFalse positive =>
        refine (shifted .shiftLeft _ rfl).congr_constant fun u _ => ?_
        simp [arithmeticShift, positive]
    | _ => cases expanded
  · cases expanded

theorem realized_power {n : ℕ} {makeBody : Expression → Expression} (refers : name ∈ (makeBody (reference name)).freeVariables)
    (expanded : makeOperandBinding w.toMachine name x makeBody = some e)
    (body : ∀ inner h q, w.unrecorded.lookup inner name h = some (some (.number q)) →
      w.unrecorded.evaluate (makeBody (reference name)) inner h = ofOption (some (.number (q ^ n))) h) :
    Realized w env IsNumber e [x, constant (.number n)] w.expt := by
  rw [makeOperandBinding_eq refers, some.injEq] at expanded
  subst expanded
  have same : ∀ h v h', IsNumber v → w.unrecorded.evaluate x env h = .value v h' →
      w.unrecorded.evaluate (combination (procedure true [name] [] none (makeBody (reference name))) [x]) env h =
        ofOption (w.expt [v, .number n]) h' := by
    rintro h _ h' ⟨q, rfl⟩ value
    rw [evaluate_binding, Library.Evaluation.bind_of_value _ value]
    refine (body _ h' q (lookup_bind env name (.number q) h')).trans ?_
    simp [expt]
  exact ((Realized.of_value _ same).ignore_right (.number n)).congr_constant fun u _ => rfl

theorem realized_expt (expanded : exptExpansion w.toMachine name es = some e) :
    Realized w env IsNumber e es w.expt := by
  rcases es with _ | ⟨x, _ | ⟨c, _ | ⟨y, rest⟩⟩⟩
  · cases expanded
  · cases expanded
  · have unknown : (reference name).constantValue = none := rfl
    have itself : name ∈ (reference name).freeVariables := by simp [freeVariables]
    have square : ∀ inner h q, w.unrecorded.lookup inner name h = some (some (.number q)) →
        w.unrecorded.evaluate (pcall w.toMachine .multiply [reference name, reference name]) inner h =
          ofOption (some (.number (q * q))) h := by
      intro inner h q bound
      rw [pcall_two_at rfl (reference_at bound) (reference_at bound)]
      rfl
    simp only [exptExpansion] at expanded
    split_ifs at expanded with one two three four
    · rw [constantEq_iff] at one
      cases expanded
      subst one
      refine ((realized_operand _).ignore_right (.number 1)).congr_constant fun u first => ?_
      obtain ⟨q, rfl⟩ := first.2
      simp [expt]
    · rw [constantEq_iff] at two
      subst two
      refine @realized_power _ _ _ _ _ 2 _ (freeVariables_pcall_left _ itself unknown) expanded ?_
      intro inner h q bound
      rw [square inner h q bound, pow_two]
    · rw [constantEq_iff] at three
      subst three
      refine @realized_power _ _ _ _ _ 3 _ (freeVariables_pcall_left _ itself unknown) expanded ?_
      intro inner h q bound
      rw [pcall_two_at rfl (reference_at bound) (square inner h q bound), pow_three]
      rfl
    · rw [constantEq_iff] at four
      subst four
      refine @realized_power _ _ _ _ _ 4 _ (freeVariables_pcall_left _ ?_ ?_) expanded ?_
      · exact freeVariables_pcall_left _ itself unknown
      · rfl
      intro inner h q bound
      have fourth : q ^ 4 = (q * q) * (q * q) := by ring
      rw [pcall_two_at rfl (square inner h q bound) (square inner h q bound), fourth]
      rfl
  · cases expanded

end Arithmetic

section Fixnums

variable {p p' : Primitive} {es : List Expression} {e : Expression} {x y : Expression}

def FixnumOnly (v : Value) : Prop := v.fixnum?.isSome

theorem fixnum_cases {v : Value} (fixnum : v.fixnum?.isSome) :
    ∃ n : ℤ, v = .number n ∧ v.fixnum? = some n ∧ v.immediate := by
  obtain ⟨n, known⟩ := isSome_iff_exists.mp fixnum
  obtain ⟨integer, small⟩ := filter_eq_some_iff.mp known
  cases v with
  | number q =>
    simp only [integer?] at integer
    split at integer
    case isFalse => cases integer
    case isTrue whole =>
      cases integer
      refine ⟨q.num, by rw [Rat.coe_int_num_of_den_eq_one whole], known, ?_⟩
      simp [immediate, whole, small]
  | _ => cases integer

theorem answer_isEq_fixnums (m : Machine) {a b : Value} (first : a.fixnum?.isSome) (second : b.fixnum?.isSome) :
    m.answer .isEq [a, b] = (m.test .equalFixnum [a, b]).map .boolean := by
  obtain ⟨n, rfl, known, immediate⟩ := fixnum_cases first
  obtain ⟨n', rfl, known', _⟩ := fixnum_cases second
  change some (boolean (m.isEq _ _)) = (fixnumTest (· = ·) _ _).map .boolean
  simp [isEq, immediate, fixnumTest, known, known']

theorem realized_fixnums {x y : Expression} {f : List Value → Option Value}
    (realized : Realized w env FixnumOnly e [x, y] f) {g : List Value → Option Value}
    (same : ∀ a b : Value, a.fixnum?.isSome → b.fixnum?.isSome → f [a, b] = g [a, b]) :
    Realized w env FixnumOnly e [x, y] g := by
  exact realized.congr_two fun u v first second => same u v first.2 second.2

theorem realized_fxCompare (answers : Answers p)
    (same : ∀ a b : Value, a.fixnum?.isSome → b.fixnum?.isSome → w.answer p [a, b] = (w.test p' [a, b]).map .boolean) :
    Realized w env FixnumOnly (pcall w.toMachine p [x, y]) [x, y] fun vs => (w.fixnumComparator p' false vs).map .boolean := by
  refine realized_fixnums (realized_call_two answers) fun a b first second => ?_
  rw [same a b first second]
  simp only [fixnumComparator, compareLoop]
  cases w.test p' [a, b] with
  | none => rfl
  | some answer => cases answer <;> rfl

theorem realized_fxnotCompare (answers : Answers p)
    (same : ∀ a b : Value, a.fixnum?.isSome → b.fixnum?.isSome → w.answer p [a, b] = (w.test p [a, b]).map .boolean) :
    Realized w env FixnumOnly (pcall w.toMachine .not [pcall w.toMachine p [x, y]]) [x, y] fun vs =>
      (w.fixnumComparator p true vs).map .boolean := by
  refine realized_fixnums ((realized_call_two answers).one (rfl : Answers .not)) fun a b first second => ?_
  rw [same a b first second]
  simp only [fixnumComparator, compareLoop]
  cases w.test p [a, b] with
  | none => rfl
  | some answer => cases answer <;> rfl

end Fixnums

end World

end MitScheme.Sf
