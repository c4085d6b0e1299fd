import MitScheme.Runtime.Arithmetic.Numbers
import MitScheme.Runtime.Rationals.Canonical

namespace MitScheme.Runtime.Arithmetic

open Library Flonum

open Rationals (Rational)

namespace Flonum

variable {x : Flonum} {a : ℚ}

/-- `flonum-normalize`, on a finite flonum. -/
def normalize (x : Flonum) : Flonum × ℤ :=
  if x.word = 0 then (x, 0)
  else
    let e := Int.log 2 (binary64.magnitude x.word) + 1
    (ofMagnitude x.negative (binary64.magnitude x.word * 2 ^ (-e)), e)

/-- `flo:->integer`, the primitive `flonum-truncate->exact`. -/
def truncateToExact (x : Flonum) : Except Error ℤ :=
  if x.isFinite then
    .ok (if x.negative then -⌊binary64.magnitude x.word⌋ else ⌊binary64.magnitude x.word⌋)
  else .error (.wrongType 1 "flonum-truncate->exact")

/-- `flo:significand-digits-base-2`. -/
def significandDigits : ℤ := 53

/-- `flo:->rational`; it is `none` where a procedure that it calls signals an error. -/
def floToRational (x : Flonum) : Option Rational :=
  if x.isFinite then
    match (x.normalize.1.denormalize significandDigits).truncateToExact,
      (Rational.integer 2).expt (x.normalize.2 - significandDigits) with
    | .ok n, .ok power => some ((Rational.integer n).multiply power)
    | _, _ => none
  else none

/-- `flo:<=`. -/
def le (x y : Flonum) : Bool := x.lt y || x.eq y

theorem toRational_zero (zero : x.word = 0) : x.toRational = 0 := by
  unfold toRational
  rw [magnitude_eq_zero.mpr zero, neg_zero, ite_self]

theorem magnitude_digits (finite : x.isFinite = true) (nonzero : x.word ≠ 0) : ∃ n : ℕ, n < 2 ^ 53 ∧
    binary64.magnitude x.word = n * 2 ^ (Int.log 2 (binary64.magnitude x.word) + 1 - significandDigits) := by
  have holds := BinaryFormat.holds_word (of_decide_eq_true finite)
  obtain ⟨m, e, held⟩ : ∃ m e, binary64.Holds (binary64.magnitude x.word) m e := ⟨_, _, holds⟩
  have positive : 0 < binary64.magnitude x.word :=
    lt_of_le_of_ne (magnitude_nonneg _) (fun zero => nonzero (magnitude_eq_zero.mp zero.symm))
  have exponent := held.exponent positive
  obtain ⟨s, shift⟩ := Int.eq_ofNat_of_zero_le (by omega : 0 ≤ e - Int.log 2 (binary64.magnitude x.word))
  have value : binary64.magnitude x.word =
      ((m * 2 ^ s : ℕ) : ℚ) * 2 ^ (Int.log 2 (binary64.magnitude x.word) + 1 - significandDigits) := by
    rw [Nat.cast_mul, Nat.cast_pow, Nat.cast_ofNat, ← zpow_natCast, mul_assoc, ← two_zpow_add]
    refine held.value.trans ?_
    unfold BinaryFormat.scaled significandDigits
    congr 2
    have trailing : binary64.trailing = 52 := rfl
    omega
  refine ⟨m * 2 ^ s, ?_, value⟩
  have below := Int.lt_zpow_succ_log_self (R := ℚ) (b := 2) (by decide) (binary64.magnitude x.word)
  have scaled : ((m * 2 ^ s : ℕ) : ℚ) < 2 ^ (53 : ℤ) := by
    have digits : significandDigits = 53 := rfl
    rw [← digits, ← mul_lt_mul_iff_left₀ (two_zpow_pos (Int.log 2 (binary64.magnitude x.word) + 1 - significandDigits)), ← value,
      ← two_zpow_add, add_sub_cancel]
    exact below
  exact_mod_cast scaled

theorem normalize_spec (finite : x.isFinite = true) : ∃ n : ℤ, n.natAbs < flonumIntegerLimit ∧ x.toRational =
    n * 2 ^ (x.normalize.2 - significandDigits) ∧ x.normalize.1.Is (n * 2 ^ (-significandDigits)) := by
  by_cases zero : x.word = 0
  · refine ⟨0, by decide, ?_, ?_⟩
    · rw [toRational_zero zero, Int.cast_zero, zero_mul]
    · rw [Int.cast_zero, zero_mul, normalize, if_pos zero]
      exact ⟨finite, toRational_zero zero⟩
  · obtain ⟨n, short, value⟩ := magnitude_digits finite zero
    obtain ⟨e, exponent⟩ : ∃ e, e = Int.log 2 (binary64.magnitude x.word) + 1 := ⟨_, rfl⟩
    rw [← exponent] at value
    have parts : x.normalize = (ofMagnitude x.negative (binary64.magnitude x.word * 2 ^ (-e)), e) := by
      rw [normalize, if_neg zero, exponent]
    obtain ⟨m, bound, signed⟩ : ∃ m : ℤ, m.natAbs = n ∧ x.toRational = m * 2 ^ (e - significandDigits) := by
      unfold toRational
      cases x.negative with
      | false => exact ⟨n, Int.natAbs_natCast n, by exact value⟩
      | true =>
        refine ⟨-n, by rw [Int.natAbs_neg, Int.natAbs_natCast], ?_⟩
        rw [if_pos rfl, value, Int.cast_neg, Int.cast_natCast, neg_mul]
    have scaled : x.toRational * 2 ^ (-e) = m * 2 ^ (-significandDigits) := by
      rw [signed, mul_assoc, ← two_zpow_add]
      ring_nf
    have size : |x.toRational * 2 ^ (-e)| = n * 2 ^ (-significandDigits) := by
      rw [scaled, abs_mul, abs_of_pos (two_zpow_pos _), ← bound, Nat.cast_natAbs, Int.cast_abs]
    have fits : binary64.Fits |x.toRational * 2 ^ (-e)| := by
      rw [size]
      refine BinaryFormat.fits_of short (by decide) ?_
      have digits : (n : ℚ) < 2 ^ significandDigits := by
        have below : (n : ℚ) < 2 ^ (53 : ℤ) := by exact_mod_cast short
        exact below
      calc (n : ℚ) * 2 ^ (-significandDigits) < 2 ^ significandDigits * 2 ^ (-significandDigits) :=
            mul_lt_mul_of_pos_right digits (two_zpow_pos _)
        _ = 2 ^ (0 : ℤ) := by rw [← two_zpow_add, add_neg_cancel]
        _ < 2 ^ (binary64.emax + 1 : ℤ) := two_zpow_lt (by decide)
    rw [parts]
    refine ⟨m, by rw [bound]; exact short, signed, ?_⟩
    rw [← scaled]
    exact .scale ⟨finite, rfl⟩ fits

theorem Is.truncateToExact {n : ℤ} (is : x.Is n) : x.truncateToExact = .ok n := by
  unfold Flonum.truncateToExact
  rw [if_pos is.1, is.magnitude, ← Int.cast_abs, Int.floor_intCast]
  congr 1
  cases sign : x.negative with
  | false =>
    have nonneg : (0 : ℚ) ≤ n := is.nonneg sign
    exact abs_of_nonneg (by exact_mod_cast nonneg)
  | true =>
    have nonpos : (n : ℚ) ≤ 0 := is.nonpos sign
    rw [if_pos rfl, abs_of_nonpos (by exact_mod_cast nonpos), neg_neg]

theorem floToRational_represents (finite : x.isFinite = true) :
    ∃ r, x.floToRational = some r ∧ r.Represents x.toRational := by
  obtain ⟨n, short, value, significand⟩ := normalize_spec finite
  have whole : (n : ℚ) * 2 ^ (-significandDigits) * 2 ^ significandDigits = n := by
    rw [mul_assoc, ← two_zpow_add, neg_add_cancel, zpow_zero, mul_one]
  have integer : (x.normalize.1.denormalize significandDigits).Is n := by
    rw [← whole]
    refine significand.denormalize (toCInt_eq (by decide) (by decide)) ?_
    rw [whole]
    exact fits_of_short short
  obtain ⟨power, taken, represents⟩ :=
    @Rational.expt_represents (.integer 2) (x.normalize.2 - significandDigits) trivial (.inl (by decide))
  have product := @Rational.multiply_represents (.integer n) power trivial represents.1
  refine ⟨_, ?_, product.1, ?_⟩
  · unfold floToRational
    rw [if_pos finite, integer.truncateToExact, taken]
  · rw [product.2, represents.2, value]
    rfl

end Flonum

/-- A real is an exact rational or a flonum. -/
inductive RealNumber where
  | rational (r : Rational)
  | flonum (x : Flonum)
deriving DecidableEq

namespace RealNumber

/-- `flo=rat?`. -/
def floEqRat (x : Flonum) (y : Rational) : Option Bool :=
  if x.isFinite then x.floToRational.map fun r => r.equal y else some false

/-- `flo<rat?`. -/
def floLessRat (x : Flonum) (y : Rational) (ifNan : Bool) : Option Bool :=
  if x.isFinite then x.floToRational.map fun r => r.less y
  else if x.isNan then some ifNan
  else some (x.lt (zero false))

/-- `rat<flo?`. -/
def ratLessFlo (x : Rational) (y : Flonum) (ifNan : Bool) : Option Bool :=
  if y.isFinite then y.floToRational.map fun r => x.less r
  else if y.isNan then some ifNan
  else some ((zero false).lt y)

/-- `real:=`; as in the operations after it, `none` is an error. -/
def equal : RealNumber → RealNumber → Option Bool
  | flonum x, flonum y => some (x.eq y)
  | flonum x, rational y => floEqRat x y
  | rational x, flonum y => floEqRat y x
  | rational x, rational y => some (x.equal y)

/-- `real:<`. -/
def less : RealNumber → RealNumber → Option Bool
  | flonum x, flonum y => some (x.lt y)
  | flonum x, rational y => floLessRat x y false
  | rational x, flonum y => ratLessFlo x y false
  | rational x, rational y => some (x.less y)

/-- `rat:->inexact`. -/
def toInexact : Rational → Flonum
  | .integer n => intToInexact n
  | .ratnum n d => ratioToFlonum n d.toNat

/-- `real:max`. -/
def max : RealNumber → RealNumber → Option RealNumber
  | flonum x, flonum y =>
    some (flonum (if x.le y then y else if y.le x then x else if x.isNan then y else x))
  | flonum x, rational y => (floLessRat x y true).map fun less => flonum (if less then toInexact y else x)
  | rational x, flonum y => (ratLessFlo x y false).map fun less => flonum (if less then y else toInexact x)
  | rational x, rational y => some (rational (if x.less y then y else x))

/-- `real:min`. -/
def min : RealNumber → RealNumber → Option RealNumber
  | flonum x, flonum y =>
    some (flonum (if x.le y then x else if y.le x then y else if y.isNan then x else y))
  | flonum x, rational y => (floLessRat x y false).map fun less => flonum (if less then x else toInexact y)
  | rational x, flonum y => (ratLessFlo x y true).map fun less => flonum (if less then toInexact x else y)
  | rational x, rational y => some (rational (if x.less y then x else y))

def IsReal : RealNumber → Prop
  | rational r => r.Canonical
  | flonum x => x.isNan = false

def denoted : RealNumber → WithBot (WithTop ℚ)
  | rational r => ((r.value : WithTop ℚ) : WithBot (WithTop ℚ))
  | flonum x =>
    if x.isFinite then ((x.toRational : WithTop ℚ) : WithBot (WithTop ℚ))
    else if x.negative then ⊥ else ⊤

variable {x y z : RealNumber}

theorem isFinite_or_infinite {x : Flonum} (number : x.isNan = false) :
    x.isFinite = true ∨ x.isFinite = false ∧ x.isInfinite = true := by
  simp only [isNan, isFinite, Flonum.isInfinite, decide_eq_true_eq, decide_eq_false_iff_not] at *
  omega

theorem denoted_finite {x : Flonum} (finite : x.isFinite = true) : (flonum x).denoted = (x.toRational : WithTop ℚ) :=
  if_pos finite

theorem denoted_infinite {x : Flonum} (infinite : x.isFinite = false) :
    (flonum x).denoted = if x.negative then ⊥ else ⊤ := by
  refine if_neg ?_
  rw [infinite]
  exact Bool.false_ne_true

theorem coe_lt_top (q : ℚ) : ((q : WithTop ℚ) : WithBot (WithTop ℚ)) < ⊤ := WithBot.coe_lt_coe.mpr (WithTop.coe_lt_top q)

theorem bot_lt_coe (q : ℚ) : ⊥ < ((q : WithTop ℚ) : WithBot (WithTop ℚ)) := WithBot.bot_lt_coe _

theorem coe_lt_coe {p q : ℚ} : ((p : WithTop ℚ) : WithBot (WithTop ℚ)) < (q : WithTop ℚ) ↔ p < q := by
  rw [WithBot.coe_lt_coe, WithTop.coe_lt_coe]

theorem coe_eq_coe {p q : ℚ} : ((p : WithTop ℚ) : WithBot (WithTop ℚ)) = (q : WithTop ℚ) ↔ p = q := by
  rw [WithBot.coe_eq_coe, WithTop.coe_eq_coe]

theorem flonum_lt_iff {x y : Flonum} (hx : x.isNan = false) (hy : y.isNan = false) :
    x.lt y = true ↔ (flonum x).denoted < (flonum y).denoted := by
  rcases isFinite_or_infinite hx with finite | ⟨infinite, isInfinite⟩
  · rcases isFinite_or_infinite hy with finite' | ⟨infinite', isInfinite'⟩
    · rw [Flonum.Is.lt ⟨finite, rfl⟩ ⟨finite', rfl⟩, denoted_finite finite, denoted_finite finite', coe_lt_coe,
        decide_eq_true_iff]
    · rw [denoted_finite finite, denoted_infinite infinite']
      simp only [lt, hx, hy, isInfinite_of_finite finite, isInfinite', Bool.false_eq_true, if_false, if_true,
        or_self]
      cases y.negative with
      | false => simp [coe_lt_top]
      | true => simp
  · rw [denoted_infinite infinite]
    simp only [lt, hx, hy, isInfinite, Bool.false_eq_true, if_false, if_true, or_self]
    rcases isFinite_or_infinite hy with finite' | ⟨infinite', isInfinite'⟩
    · rw [denoted_finite finite', isInfinite_of_finite finite']
      cases x.negative with
      | false => simp
      | true => simp
    · rw [denoted_infinite infinite', isInfinite']
      cases x.negative <;> cases y.negative <;> simp

theorem flonum_eq_iff {x y : Flonum} (hx : x.isNan = false) (hy : y.isNan = false) :
    x.eq y = true ↔ (flonum x).denoted = (flonum y).denoted := by
  rcases isFinite_or_infinite hx with finite | ⟨infinite, isInfinite⟩
  · rcases isFinite_or_infinite hy with finite' | ⟨infinite', isInfinite'⟩
    · rw [Flonum.Is.eq ⟨finite, rfl⟩ ⟨finite', rfl⟩, denoted_finite finite, denoted_finite finite', coe_eq_coe,
        decide_eq_true_iff]
    · have different : x ≠ y := by
        intro same
        rw [same, infinite'] at finite
        cases finite
      rw [denoted_finite finite, denoted_infinite infinite']
      simp only [eq, hx, hy, isInfinite', different]
      cases y.negative with
      | false => simp
      | true => simp
  · rcases isFinite_or_infinite hy with finite' | ⟨infinite', isInfinite'⟩
    · have different : x ≠ y := by
        intro same
        rw [same, finite'] at infinite
        cases infinite
      rw [denoted_finite finite', denoted_infinite infinite]
      simp only [eq, hx, hy, isInfinite, different]
      cases x.negative with
      | false => simp
      | true => simp
    · have words : x.word = y.word := by
        rw [Flonum.isInfinite, decide_eq_true_iff] at isInfinite isInfinite'
        rw [isInfinite, isInfinite']
      have signs : x = y ↔ x.negative = y.negative := by
        obtain ⟨negative, word, bound⟩ := x
        obtain ⟨negative', word', bound'⟩ := y
        have same : word = word' := words
        subst same
        simp
      rw [denoted_infinite infinite, denoted_infinite infinite']
      simp only [eq, hx, hy, isInfinite, signs]
      cases x.negative <;> simp

theorem flonum_le_iff {x y : Flonum} (hx : x.isNan = false) (hy : y.isNan = false) :
    x.le y = true ↔ (flonum x).denoted ≤ (flonum y).denoted := by
  rw [le, Bool.or_eq_true, flonum_lt_iff hx hy, flonum_eq_iff hx hy, le_iff_lt_or_eq]

theorem bool_eq_decide {b : Bool} {p : Prop} [Decidable p] (same : b = true ↔ p) : b = decide p :=
  Bool.eq_iff_iff.mpr (same.trans decide_eq_true_iff.symm)

theorem floEqRat_eq {x : Flonum} {y : Rational} (hx : x.isNan = false) (hy : y.Canonical) :
    floEqRat x y = some (decide ((flonum x).denoted = (rational y).denoted)) := by
  unfold floEqRat
  rcases isFinite_or_infinite hx with finite | ⟨infinite, -⟩
  · obtain ⟨r, converted, represents⟩ := floToRational_represents finite
    rw [if_pos finite, converted, denoted_finite finite, ← represents.2]
    exact congrArg some (bool_eq_decide ((Rational.equal_iff represents.1 hy).trans coe_eq_coe.symm))
  · rw [infinite, denoted_infinite infinite]
    refine congrArg some (decide_eq_false ?_).symm
    cases x.negative with
    | false => exact (coe_lt_top y.value).ne'
    | true => exact (bot_lt_coe y.value).ne

theorem floLessRat_eq {x : Flonum} {y : Rational} (ifNan : Bool) (hx : x.isNan = false) (hy : y.Canonical) :
    floLessRat x y ifNan = some (decide ((flonum x).denoted < (rational y).denoted)) := by
  unfold floLessRat
  rcases isFinite_or_infinite hx with finite | ⟨infinite, isInfinite⟩
  · obtain ⟨r, converted, represents⟩ := floToRational_represents finite
    rw [if_pos finite, converted, denoted_finite finite, ← represents.2]
    exact congrArg some (bool_eq_decide ((Rational.less_iff represents.1 hy).trans coe_lt_coe.symm))
  · rw [infinite, hx]
    have zero := zero_is false
    refine congrArg some (bool_eq_decide ?_)
    rw [flonum_lt_iff hx (isNan_of_finite zero.1), denoted_infinite infinite]
    cases x.negative with
    | false => exact iff_of_false not_top_lt not_top_lt
    | true => exact iff_of_true (bot_lt_coe _) (bot_lt_coe _)

theorem ratLessFlo_eq {x : Rational} {y : Flonum} (ifNan : Bool) (hx : x.Canonical) (hy : y.isNan = false) :
    ratLessFlo x y ifNan = some (decide ((rational x).denoted < (flonum y).denoted)) := by
  unfold ratLessFlo
  rcases isFinite_or_infinite hy with finite | ⟨infinite, isInfinite⟩
  · obtain ⟨r, converted, represents⟩ := floToRational_represents finite
    rw [if_pos finite, converted, denoted_finite finite, ← represents.2]
    exact congrArg some (bool_eq_decide ((Rational.less_iff hx represents.1).trans coe_lt_coe.symm))
  · rw [infinite, hy]
    have zero := zero_is false
    refine congrArg some (bool_eq_decide ?_)
    rw [flonum_lt_iff (isNan_of_finite zero.1) hy, denoted_infinite infinite]
    cases y.negative with
    | false => exact iff_of_true (coe_lt_top _) (coe_lt_top _)
    | true => exact iff_of_false not_lt_bot not_lt_bot

theorem equal_eq (hx : x.IsReal) (hy : y.IsReal) : x.equal y = some (decide (x.denoted = y.denoted)) := by
  cases x with
  | rational q =>
    cases y with
    | rational r => exact congrArg some (bool_eq_decide ((Rational.equal_iff hx hy).trans coe_eq_coe.symm))
    | flonum y =>
      refine (floEqRat_eq hy hx).trans ?_
      rw [decide_eq_decide.mpr eq_comm]
  | flonum x =>
    cases y with
    | rational r => exact floEqRat_eq hx hy
    | flonum y => exact congrArg some (bool_eq_decide (flonum_eq_iff hx hy))

theorem less_eq (hx : x.IsReal) (hy : y.IsReal) : x.less y = some (decide (x.denoted < y.denoted)) := by
  cases x with
  | rational q =>
    cases y with
    | rational r => exact congrArg some (bool_eq_decide ((Rational.less_iff hx hy).trans coe_lt_coe.symm))
    | flonum y => exact ratLessFlo_eq false hx hy
  | flonum x =>
    cases y with
    | rational r => exact floLessRat_eq false hx hy
    | flonum y => exact congrArg some (bool_eq_decide (flonum_lt_iff hx hy))

def isInexact : RealNumber → Bool
  | rational _ => false
  | flonum _ => true

def inexact : RealNumber → RealNumber
  | rational r => flonum (toInexact r)
  | flonum x => flonum x

/-- The result is the operand with that value; it may be converted to inexact where one of the operands is so. -/
def Selects (x y : RealNumber) (value : WithBot (WithTop ℚ)) (result : Option RealNumber) : Prop :=
  ∃ w z, (w = x ∨ w = y) ∧ w.denoted = value ∧ result = some z ∧
    (z = w ∨ (x.isInexact = true ∨ y.isInexact = true) ∧ z = w.inexact)

variable {value : WithBot (WithTop ℚ)}

theorem selects_left (same : x.denoted = value) : Selects x y value (some x) :=
  ⟨x, x, .inl rfl, same, rfl, .inl rfl⟩

theorem selects_right (same : y.denoted = value) : Selects x y value (some y) :=
  ⟨y, y, .inr rfl, same, rfl, .inl rfl⟩

theorem selects_left_inexact (same : x.denoted = value) (mixed : x.isInexact = true ∨ y.isInexact = true) :
    Selects x y value (some x.inexact) :=
  ⟨x, x.inexact, .inl rfl, same, rfl, .inr ⟨mixed, rfl⟩⟩

theorem selects_right_inexact (same : y.denoted = value) (mixed : x.isInexact = true ∨ y.isInexact = true) :
    Selects x y value (some y.inexact) :=
  ⟨y, y.inexact, .inr rfl, same, rfl, .inr ⟨mixed, rfl⟩⟩

theorem extremes_select (hx : x.IsReal) (hy : y.IsReal) :
    Selects x y (Max.max x.denoted y.denoted) (x.max y) ∧ Selects x y (Min.min x.denoted y.denoted) (x.min y) := by
  cases x with
  | rational q =>
    cases y with
    | rational r =>
      simp only [max, min, Rational.less_iff hx hy]
      split
      · rename_i less
        have under := (coe_lt_coe.mpr less).le
        exact ⟨selects_right (max_eq_right under).symm, selects_left (min_eq_left under).symm⟩
      · rename_i more
        have past := not_lt.mp (mt coe_lt_coe.mp more)
        exact ⟨selects_left (max_eq_left past).symm, selects_right (min_eq_right past).symm⟩
    | flonum y =>
      simp only [max, min, ratLessFlo_eq _ hx hy, Option.map_some, decide_eq_true_iff]
      split
      · rename_i less
        exact ⟨selects_right (max_eq_right less.le).symm, selects_left_inexact (min_eq_left less.le).symm (.inr rfl)⟩
      · rename_i more
        have past := not_lt.mp more
        exact ⟨selects_left_inexact (max_eq_left past).symm (.inr rfl), selects_right (min_eq_right past).symm⟩
  | flonum x =>
    cases y with
    | rational r =>
      simp only [max, min, floLessRat_eq _ hx hy, Option.map_some, decide_eq_true_iff]
      split
      · rename_i less
        exact ⟨selects_right_inexact (max_eq_right less.le).symm (.inl rfl), selects_left (min_eq_left less.le).symm⟩
      · rename_i more
        have past := not_lt.mp more
        exact ⟨selects_left (max_eq_left past).symm, selects_right_inexact (min_eq_right past).symm (.inl rfl)⟩
    | flonum y =>
      simp only [max, min, flonum_le_iff hx hy, flonum_le_iff hy hx]
      split
      · rename_i under
        exact ⟨selects_right (max_eq_right under).symm, selects_left (min_eq_left under).symm⟩
      · rename_i more
        have under := (le_total _ _).resolve_left more
        rw [if_pos under, if_pos under]
        exact ⟨selects_left (max_eq_left under).symm, selects_right (min_eq_right under).symm⟩

theorem less_iff (hx : x.IsReal) (hy : y.IsReal) : x.less y = some true ↔ x.denoted < y.denoted := by
  rw [less_eq hx hy, Option.some_inj, decide_eq_true_iff]

theorem equal_iff (hx : x.IsReal) (hy : y.IsReal) : x.equal y = some true ↔ x.denoted = y.denoted := by
  rw [equal_eq hx hy, Option.some_inj, decide_eq_true_iff]

theorem trichotomous (hx : x.IsReal) (hy : y.IsReal) :
    (x.less y, x.equal y, y.less x) ∈
      [(some true, some false, some false), (some false, some true, some false), (some false, some false, some true)] := by
  rw [less_eq hx hy, equal_eq hx hy, less_eq hy hx]
  rcases lt_trichotomy x.denoted y.denoted with less | same | more
  · simp [less, less.ne, less.le]
  · simp [same]
  · simp [more, more.ne', more.le]

/-- The comparisons decide equality and order of the exact values, and the maximum and the minimum are operands. -/
theorem mixed_comparison (hx : x.IsReal) (hy : y.IsReal) (hz : z.IsReal) :
    x.equal y = some (decide (x.denoted = y.denoted)) ∧ x.less y = some (decide (x.denoted < y.denoted)) ∧
      (x.less y, x.equal y, y.less x) ∈
        [(some true, some false, some false), (some false, some true, some false), (some false, some false, some true)] ∧
      (x.less y = some true → y.less z = some true → x.less z = some true) ∧
      (x.equal y = some true → y.equal z = some true → x.equal z = some true) ∧
      Selects x y (Max.max x.denoted y.denoted) (x.max y) ∧ Selects x y (Min.min x.denoted y.denoted) (x.min y) := by
  refine ⟨equal_eq hx hy, less_eq hx hy, trichotomous hx hy, ?_, ?_, extremes_select hx hy⟩
  · rw [less_iff hx hy, less_iff hy hz, less_iff hx hz]
    exact lt_trans
  · rw [equal_iff hx hy, equal_iff hy hz, equal_iff hx hz]
    exact .trans

theorem mixed_comparison_limit :
    (flonum ⟨false, 0x4340000000000000, by decide⟩).less (rational (.integer (2 ^ 53 + 1))) = some true := by
  have number : isNan ⟨false, 0x4340000000000000, by decide⟩ = false := by decide
  have compared := (@mixed_comparison (flonum ⟨false, 0x4340000000000000, by decide⟩) (rational (.integer (2 ^ 53 + 1)))
    (rational (.integer 0)) number trivial trivial).2.1
  rw [compared, decide_eq_true]
  refine coe_lt_coe.mpr ?_
  have value : toRational ⟨false, 0x4340000000000000, by decide⟩ = 2 ^ 53 := by decide +kernel
  rw [value, Rational.integer_value]
  norm_num

end RealNumber

end MitScheme.Runtime.Arithmetic
