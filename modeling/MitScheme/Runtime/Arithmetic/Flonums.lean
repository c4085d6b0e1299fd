import MitScheme.Library.BinaryFormat
import MitScheme.Library.BitFields

/-!
A flonum is a word of the 64-bit binary interchange format. The operations round their exact
results to the nearest flonum.
-/

namespace MitScheme.Runtime.Arithmetic

open Library

inductive Error where
  | assertion (expression : String)
  | badRange (argument : ℕ) (primitive : String)
  | wrongType (argument : ℕ) (primitive : String)
  /-- A loop of the model used up its fuel. -/
  | unfinished
deriving DecidableEq, Repr

def binary64 : BinaryFormat := ⟨52, 1023, by decide⟩

structure Flonum where
  negative : Bool
  word : ℕ
  bound : word < 2 ^ 63
deriving DecidableEq

theorem infinity_binary64 : binary64.infinity = 0x7FF * 2 ^ 52 := rfl

theorem round_bound (q : ℚ) : binary64.round q < 2 ^ 63 := by
  have least : binary64.round q ≤ binary64.infinity := by
    unfold BinaryFormat.round
    split
    · exact Nat.zero_le _
    · exact min_le_right _ _
  rw [infinity_binary64] at least
  omega

namespace Flonum

variable {x y : Flonum} {a b : ℚ}

def isNan (x : Flonum) : Bool := binary64.infinity < x.word
def isInfinite (x : Flonum) : Bool := x.word = binary64.infinity
def isFinite (x : Flonum) : Bool := x.word < binary64.infinity

def zero (negative : Bool) : Flonum := ⟨negative, 0, by decide⟩
def infinite (negative : Bool) : Flonum := ⟨negative, binary64.infinity, by rw [infinity_binary64]; omega⟩

def makeNan (sign quiet : Bool) (payload : ℕ) : Except Error Flonum :=
  if small : payload < 2 ^ 51 then
    if quiet = false ∧ payload = 0 then .error (.badRange 3 "flonum-make-nan")
    else .ok ⟨sign, 0x7FF * 2 ^ 52 ||| quiet.toNat * 2 ^ 51 ||| payload, by
      apply Nat.or_lt_two_pow _ (by omega)
      apply Nat.or_lt_two_pow (by omega)
      have := quiet.toNat_lt
      omega⟩
  else .error (.badRange 3 "flonum-make-nan")

def nanQuiet (x : Flonum) : Except Error Bool :=
  if x.word &&& 0x7FF * 2 ^ 52 = 0x7FF * 2 ^ 52 then .ok (x.word &&& 2 ^ 51 ≠ 0)
  else .error (.badRange 1 "flonum-nan-quiet?")

def nanPayload (x : Flonum) : Except Error ℕ :=
  if x.word &&& 0x7FF * 2 ^ 52 = 0x7FF * 2 ^ 52 then .ok (x.word &&& (2 ^ 51 - 1))
  else .error (.badRange 1 "flonum-nan-payload")

/-- The conversion of an integer to the C type `int`, of 32 bits. -/
def toCInt (e : ℤ) : ℤ := (e + 2 ^ 31) % 2 ^ 32 - 2 ^ 31

def quieted (x : Flonum) : Flonum :=
  ⟨x.negative, x.word ||| 2 ^ 51, Nat.or_lt_two_pow x.bound (by decide)⟩

def invalid : Flonum := ⟨true, 0x7FF * 2 ^ 52 + 2 ^ 51, by decide⟩

/-- `flo:->rational`, on a finite flonum. -/
def toRational (x : Flonum) : ℚ := if x.negative then -binary64.magnitude x.word else binary64.magnitude x.word

def ofMagnitude (negative : Bool) (q : ℚ) : Flonum := ⟨negative, binary64.round q, round_bound q⟩

def ofRational (q : ℚ) : Flonum := ofMagnitude (q < 0) |q|

def negate (x : Flonum) : Flonum := { x with negative := !x.negative }
def abs (x : Flonum) : Flonum := { x with negative := false }

/-- `flo:*`. -/
def mul (x y : Flonum) : Flonum :=
  if x.isNan then x.quieted
  else if y.isNan then y.quieted
  else if x.isInfinite ∨ y.isInfinite then
    if x.word = 0 ∨ y.word = 0 then invalid else infinite (x.negative ^^ y.negative)
  else ofMagnitude (x.negative ^^ y.negative) (binary64.magnitude x.word * binary64.magnitude y.word)

/-- `flo:+`. -/
def add (x y : Flonum) : Flonum :=
  if x.isNan then x.quieted
  else if y.isNan then y.quieted
  else if x.isInfinite then
    if y.isInfinite ∧ x.negative ≠ y.negative then invalid else x
  else if y.isInfinite then y
  else if x.toRational + y.toRational = 0 then zero (x.negative && y.negative)
  else ofRational (x.toRational + y.toRational)

/-- `flo:/`. -/
def div (x y : Flonum) : Flonum :=
  if x.isNan then x.quieted
  else if y.isNan then y.quieted
  else if x.isInfinite then
    if y.isInfinite then invalid else infinite (x.negative ^^ y.negative)
  else if y.isInfinite then zero (x.negative ^^ y.negative)
  else if y.word = 0 then
    if x.word = 0 then invalid else infinite (x.negative ^^ y.negative)
  else ofMagnitude (x.negative ^^ y.negative) (binary64.magnitude x.word / binary64.magnitude y.word)

/-- `flo:=`. -/
def eq (x y : Flonum) : Bool :=
  if x.isNan ∨ y.isNan then false
  else if x.isInfinite ∨ y.isInfinite then x = y
  else x.toRational = y.toRational

/-- `flo:<`. -/
def lt (x y : Flonum) : Bool :=
  if x.isNan ∨ y.isNan then false
  else if x.isInfinite then x.negative && !(y.isInfinite && y.negative)
  else if y.isInfinite then !y.negative
  else x.toRational < y.toRational

/-- `flonum-denormalize`, on a finite flonum; the exponent is made an `int` first. -/
def denormalize (x : Flonum) (e : ℤ) : Flonum := ofMagnitude x.negative (binary64.magnitude x.word * 2 ^ toCInt e)

/-- `flonum-round->exact`. -/
def roundToExact (x : Flonum) : Except Error ℤ :=
  if x.isFinite then .ok (roundHalfEven x.toRational) else .error (.wrongType 1 "flonum-round->exact")

theorem isNan_of_finite (finite : x.isFinite = true) : x.isNan = false := by
  simp only [isFinite, isNan, decide_eq_true_eq, decide_eq_false_iff_not] at *
  omega

theorem isInfinite_of_finite (finite : x.isFinite = true) : x.isInfinite = false := by
  simp only [isFinite, isInfinite, decide_eq_true_eq, decide_eq_false_iff_not] at *
  omega

def Is (x : Flonum) (a : ℚ) : Prop := x.isFinite = true ∧ x.toRational = a

theorem magnitude_nonneg (word : ℕ) : 0 ≤ binary64.magnitude word := by
  unfold BinaryFormat.magnitude
  split
  · exact mul_nonneg (Nat.cast_nonneg _) (two_zpow_pos _).le
  · exact mul_nonneg (Nat.cast_nonneg _) (two_zpow_pos _).le

theorem Is.magnitude (is : x.Is a) : binary64.magnitude x.word = |a| := by
  rw [← is.2]
  unfold toRational
  split
  · rw [abs_neg, abs_of_nonneg (magnitude_nonneg _)]
  · rw [abs_of_nonneg (magnitude_nonneg _)]

theorem ofMagnitude_is {negative : Bool} (nonnegative : 0 ≤ a) (fits : binary64.Fits a) :
    (ofMagnitude negative a).Is (if negative then -a else a) := by
  obtain ⟨finite, same⟩ := fits.round nonnegative
  refine ⟨?_, ?_⟩
  · exact decide_eq_true finite
  · unfold toRational ofMagnitude
    rw [same]

theorem ofRational_is (fits : binary64.Fits |a|) : (ofRational a).Is a := by
  have is := @ofMagnitude_is |a| (a < 0) (abs_nonneg a) fits
  by_cases negative : a < 0
  · rw [if_pos (by simpa using negative), abs_of_neg negative, neg_neg] at is
    unfold ofRational
    rwa [abs_of_neg negative]
  · rw [if_neg (by simpa using negative), abs_of_nonneg (not_lt.mp negative)] at is
    unfold ofRational
    rwa [abs_of_nonneg (not_lt.mp negative)]

theorem magnitude_eq_zero {word : ℕ} : binary64.magnitude word = 0 ↔ word = 0 := by
  unfold BinaryFormat.magnitude
  split
  · rw [mul_eq_zero_iff_right (two_zpow_pos _).ne']
    exact Nat.cast_eq_zero
  · rw [mul_eq_zero_iff_right (two_zpow_pos _).ne', Nat.cast_eq_zero]
    omega

theorem signed_abs (negative : Bool) (nonneg : negative = false → 0 ≤ a) (nonpos : negative = true → a ≤ 0) :
    (if negative then -|a| else |a|) = a := by
  cases negative with
  | false => exact abs_of_nonneg (nonneg rfl)
  | true =>
    rw [if_pos rfl, abs_of_nonpos (nonpos rfl), neg_neg]

theorem Is.nonneg (is : x.Is a) (positive : x.negative = false) : 0 ≤ a := by
  rw [← is.2]
  unfold toRational
  rw [positive]
  exact magnitude_nonneg _

theorem Is.nonpos (is : x.Is a) (negative : x.negative = true) : a ≤ 0 := by
  rw [← is.2]
  unfold toRational
  rw [negative]
  exact neg_nonpos.mpr (magnitude_nonneg _)

theorem Is.nan (is : x.Is a) : x.isNan = false := isNan_of_finite is.1

theorem Is.infinite (is : x.Is a) : x.isInfinite = false := isInfinite_of_finite is.1

/-- A result whose sign is the exclusive or of the signs of the operands. -/
theorem Is.exclusive_or {c : ℚ} (hx : x.Is a) (hy : y.Is b) (fits : binary64.Fits |c|)
    (above : 0 ≤ a → 0 ≤ b → 0 ≤ c) (below : a ≤ 0 → b ≤ 0 → 0 ≤ c) (across : 0 ≤ a → b ≤ 0 → c ≤ 0)
    (across' : a ≤ 0 → 0 ≤ b → c ≤ 0) : (ofMagnitude (x.negative ^^ y.negative) |c|).Is c := by
  have exact_result := @ofMagnitude_is |c| (x.negative ^^ y.negative) (abs_nonneg _) fits
  rw [signed_abs] at exact_result
  · exact exact_result
  · intro same
    cases signx : x.negative <;> cases signy : y.negative <;> rw [signx, signy] at same
    · exact above (hx.nonneg signx) (hy.nonneg signy)
    · cases same
    · cases same
    · exact below (hx.nonpos signx) (hy.nonpos signy)
  · intro different
    cases signx : x.negative <;> cases signy : y.negative <;> rw [signx, signy] at different
    · cases different
    · exact across (hx.nonneg signx) (hy.nonpos signy)
    · exact across' (hx.nonpos signx) (hy.nonneg signy)
    · cases different

theorem Is.mul (hx : x.Is a) (hy : y.Is b) (fits : binary64.Fits |a * b|) : (x.mul y).Is (a * b) := by
  unfold Flonum.mul
  rw [hx.nan, hy.nan, hx.infinite, hy.infinite]
  simp only [Bool.false_eq_true, if_false, or_self, hx.magnitude, hy.magnitude, ← abs_mul]
  exact hx.exclusive_or hy fits mul_nonneg mul_nonneg_of_nonpos_of_nonpos mul_nonpos_of_nonneg_of_nonpos
    mul_nonpos_of_nonpos_of_nonneg

theorem zero_is (negative : Bool) : (zero negative).Is 0 := by
  have magnitude : binary64.magnitude 0 = 0 := magnitude_eq_zero.mpr rfl
  refine ⟨decide_eq_true (mul_pos (Nat.succ_pos _) (Nat.two_pow_pos _)), ?_⟩
  unfold toRational zero
  rw [magnitude]
  split
  · exact neg_zero
  · rfl

theorem Is.add (hx : x.Is a) (hy : y.Is b) (fits : binary64.Fits |a + b|) : (x.add y).Is (a + b) := by
  unfold Flonum.add
  rw [hx.nan, hy.nan, hx.infinite, hy.infinite, hx.2, hy.2]
  by_cases none : a + b = 0
  · rw [none]
    exact zero_is _
  · rw [if_neg none]
    exact ofRational_is fits

theorem Is.unique (is : x.Is a) (positive : x.negative = false) : x = ofMagnitude false a := by
  have word : x.word = binary64.round a := by
    have magnitude := is.magnitude
    rw [abs_of_nonneg (is.nonneg positive)] at magnitude
    rw [← magnitude, BinaryFormat.round_magnitude (of_decide_eq_true is.1)]
  obtain ⟨negative, word', bound⟩ := x
  subst positive word
  rfl

theorem Is.div (hx : x.Is a) (hy : y.Is b) (nonzero : b ≠ 0) (fits : binary64.Fits |a / b|) : (x.div y).Is (a / b) := by
  have divisor : y.word ≠ 0 := by
    intro none
    have magnitude := hy.magnitude
    rw [magnitude_eq_zero.mpr none] at magnitude
    exact nonzero (abs_eq_zero.mp magnitude.symm)
  unfold Flonum.div
  rw [hx.nan, hy.nan, hx.infinite, hy.infinite]
  simp only [Bool.false_eq_true, if_false, divisor, hx.magnitude, hy.magnitude, ← abs_div]
  exact hx.exclusive_or hy fits div_nonneg div_nonneg_of_nonpos div_nonpos_of_nonneg_of_nonpos div_nonpos_of_nonpos_of_nonneg

theorem toCInt_eq {e : ℤ} (lower : -2 ^ 31 ≤ e) (upper : e < 2 ^ 31) : toCInt e = e := by
  unfold toCInt
  omega

section
variable (hx : x.Is a)
include hx

theorem Is.scale {e : ℤ} (fits : binary64.Fits |a * 2 ^ e|) :
    (ofMagnitude x.negative (binary64.magnitude x.word * 2 ^ e)).Is (a * 2 ^ e) := by
  have exact_result := @ofMagnitude_is |a * 2 ^ e| x.negative (abs_nonneg _) fits
  rw [hx.magnitude, ← abs_of_pos (two_zpow_pos e), ← abs_mul, abs_of_pos (two_zpow_pos e)]
  rw [signed_abs] at exact_result
  · exact exact_result
  · intro positive
    exact mul_nonneg (hx.nonneg positive) (two_zpow_pos e).le
  · intro negative
    exact mul_nonpos_of_nonpos_of_nonneg (hx.nonpos negative) (two_zpow_pos e).le

theorem Is.denormalize {e : ℤ} (int : toCInt e = e) (fits : binary64.Fits |a * 2 ^ e|) :
    (x.denormalize e).Is (a * 2 ^ e) := by
  unfold Flonum.denormalize
  rw [int]
  exact hx.scale fits

theorem Is.abs : x.abs.Is |a| := by
  refine ⟨hx.1, ?_⟩
  rw [← hx.magnitude]
  rfl

theorem Is.negate : x.negate.Is (-a) := by
  refine ⟨hx.1, ?_⟩
  rw [← hx.2]
  unfold toRational Flonum.negate
  cases x.negative with
  | false => rfl
  | true => exact (neg_neg _).symm

theorem Is.eq (hy : y.Is b) : x.eq y = decide (a = b) := by
  unfold Flonum.eq
  rw [hx.nan, hy.nan, hx.infinite, hy.infinite, hx.2, hy.2]
  simp

theorem Is.lt (hy : y.Is b) : x.lt y = decide (a < b) := by
  unfold Flonum.lt
  rw [hx.nan, hy.nan, hx.infinite, hy.infinite, hx.2, hy.2]
  simp

theorem Is.roundToExact : x.roundToExact = .ok (roundHalfEven a) := by
  unfold Flonum.roundToExact
  rw [if_pos hx.1, hx.2]

end

end Flonum

end MitScheme.Runtime.Arithmetic
