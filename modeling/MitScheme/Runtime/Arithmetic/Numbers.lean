import MitScheme.Runtime.Arithmetic.Conversions

/-!
Exact rationals and flonums, and the operations that take both. A rational that meets a flonum is
converted, except in comparisons, which are exact.
-/

namespace MitScheme.Runtime.Arithmetic

open Library
open Nat (cast_mul size)

inductive Number where
  | exact (q : ℚ)
  | flonum (x : Flonum)
deriving DecidableEq

def integerLengthInBits (n : ℕ) : ℕ := size n

def scaleRatio (k : ℤ) (n d : ℕ) : ℕ × ℕ :=
  if k < 0 then (n * 2 ^ (-k).toNat, d) else (n, d * 2 ^ k.toNat)

def orderRatio (k : ℤ) (n d : ℕ) : ℕ × ℕ × ℤ :=
  if n < d then (n, d, k - 53) else (n, 2 * d, k + 1 - 53)

def flonumIntegerLimit : ℕ := 2 ^ 53

def roundRatio (n d : ℕ) (e : ℤ) : ℕ × ℤ :=
  let n := (roundHalfEven ((n * flonumIntegerLimit : ℕ) / d)).toNat
  if n = flonumIntegerLimit then (n / 2, e + 1) else (n, e)

/-- The significand and the exponent that `step4` puts together. -/
def scaledRatio (n d : ℕ) : ℕ × ℤ :=
  let k : ℤ := integerLengthInBits n - integerLengthInBits d
  let scaled := scaleRatio k n d
  let ordered := orderRatio k scaled.1 scaled.2
  roundRatio ordered.1 ordered.2.1 ordered.2.2

def positiveRatio (n d : ℕ) : Flonum :=
  let scaled := scaledRatio n d
  (intToInexact scaled.1).denormalize scaled.2

def slowMethod (n : ℤ) (d : ℕ) : Flonum :=
  if 0 < n then positiveRatio n.toNat d else (positiveRatio (-n).toNat d).negate

def ratioToFlonum (n : ℤ) (d : ℕ) : Flonum :=
  if n = 0 then Flonum.zero false
  else
    match integerToFlonum n, integerToFlonum d with
    | some x, some y => x.div y
    | _, _ => slowMethod n d

/-- `rat:->inexact`. -/
def ratToInexact (q : ℚ) : Flonum := if q.den = 1 then intToInexact q.num else ratioToFlonum q.num q.den

namespace Number

/-- `real:*`. -/
def mul : Number → Number → Number
  | .flonum x, .flonum y => .flonum (x.mul y)
  | .flonum x, .exact y =>
    if y = 0 then
      if x.isFinite then .exact y else if x.isNan then .flonum x else .flonum (x.mul (Flonum.zero false))
    else .flonum (x.mul (ratToInexact y))
  | .exact x, .flonum y =>
    if x = 0 then
      if y.isFinite then .exact x else if y.isNan then .flonum y else .flonum ((Flonum.zero false).mul y)
    else .flonum ((ratToInexact x).mul y)
  | .exact x, .exact y => .exact (x * y)

/-- `real:/`, on a divisor that is not an exact zero. -/
def div : Number → Number → Number
  | .flonum x, .flonum y => .flonum (x.div y)
  | .flonum x, .exact y => .flonum (x.div (ratToInexact y))
  | .exact x, .flonum y => if x = 0 ∧ y.isNan = false then .exact x else .flonum ((ratToInexact x).div y)
  | .exact x, .exact y => .exact (x / y)

/-- `real:=`. -/
def eq : Number → Number → Bool
  | .flonum x, .flonum y => x.eq y
  | .flonum x, .exact y => x.isFinite && x.toRational = y
  | .exact x, .flonum y => y.isFinite && y.toRational = x
  | .exact x, .exact y => x = y

/-- `real:<`. -/
def lt : Number → Number → Bool
  | .flonum x, .flonum y => x.lt y
  | .flonum x, .exact y =>
    if x.isFinite then x.toRational < y else if x.isNan then false else x.lt (Flonum.zero false)
  | .exact x, .flonum y =>
    if y.isFinite then x < y.toRational else if y.isNan then false else (Flonum.zero false).lt y
  | .exact x, .exact y => x < y

def isNan : Number → Bool
  | .flonum x => x.isNan
  | .exact _ => false

/-- `complex:<=`, which is not the comparison `>` of a NaN. -/
def le (x y : Number) : Bool := !x.isNan && !y.isNan && !y.lt x

/-- `real:abs`. -/
def abs : Number → Number
  | .flonum x => .flonum x.abs
  | .exact q => .exact |q|

/-- `round->exact`. -/
def roundToExact : Number → Except Error ℤ
  | .flonum x => x.roundToExact
  | .exact q => .ok (roundHalfEven q)

def Is : Number → ℚ → Prop
  | .exact q, a => q = a
  | .flonum x, a => x.Is a

end Number

theorem nat_size_bounds {n : ℕ} (positive : 0 < n) :
    (2 : ℚ) ^ ((size n : ℤ) - 1) ≤ n ∧ (n : ℚ) < 2 ^ (size n : ℤ) := by
  have some_bits : 0 < size n := Nat.size_pos.mpr positive
  have low : 2 ^ (size n - 1) ≤ n := Nat.lt_size.mp (by omega)
  have high : n < 2 ^ size n := Nat.lt_size_self n
  constructor
  · rw [show (size n : ℤ) - 1 = ((size n - 1 : ℕ) : ℤ) by omega]
    exact_mod_cast low
  · rw [zpow_natCast]
    exact_mod_cast high

theorem scaleRatio_spec {k : ℤ} {n d : ℕ} (positive : 0 < d) :
    ((scaleRatio k n d).1 : ℚ) / (scaleRatio k n d).2 = n / d / 2 ^ k ∧ 0 < (scaleRatio k n d).2 := by
  unfold scaleRatio
  split
  · refine ⟨?_, positive⟩
    have power : (2 : ℚ) ^ k * (2 ^ (-k).toNat : ℕ) = 1 := by
      rw [← two_zpow_natCast (by omega), ← two_zpow_add, add_neg_cancel, zpow_zero]
    have nonzero := (two_zpow_pos k).ne'
    rw [div_div, mul_comm (d : ℚ), ← div_div, cast_mul]
    congr 1
    rw [eq_div_iff nonzero, mul_assoc, mul_comm _ ((2 : ℚ) ^ k), power, mul_one]
  · refine ⟨?_, mul_pos positive (Nat.two_pow_pos _)⟩
    rw [cast_mul, ← two_zpow_natCast (by omega), div_div]

variable {k : ℤ} {n d : ℕ} {q : ℚ}

theorem orderRatio_spec (positive : 0 < d) (ratio : (n : ℚ) / d = q / 2 ^ k) (lower : (2 : ℚ) ^ (k - 1) ≤ q)
    (upper : q < 2 ^ (k + 1)) : (orderRatio k n d).2.2 =
    Int.log 2 q - 52 ∧ ((orderRatio k n d).1 : ℚ) / (orderRatio k n d).2.1 = q / 2 ^ ((orderRatio k n d).2.2 + 53) := by
  have divisor : (0 : ℚ) < d := by exact_mod_cast positive
  unfold orderRatio
  split
  · rename_i less
    have below : q < 2 ^ k := by
      have under : (n : ℚ) / d < 1 := (div_lt_one divisor).mpr (by exact_mod_cast less)
      rwa [ratio, div_lt_one (two_zpow_pos k)] at under
    rw [log_eq lower (by rwa [sub_add_cancel])]
    refine ⟨by dsimp only; omega, ?_⟩
    rw [ratio, sub_add_cancel]
  · rename_i more
    have above : 2 ^ k ≤ q := by
      have reached : 1 ≤ (n : ℚ) / d := (one_le_div divisor).mpr (by exact_mod_cast not_lt.mp more)
      rwa [ratio, one_le_div (two_zpow_pos k)] at reached
    rw [log_eq above upper]
    refine ⟨by dsimp only; omega, ?_⟩
    rw [sub_add_cancel, two_zpow_add, ← div_div, ← ratio]
    push_cast
    rw [div_div, mul_comm]

theorem flonumIntegerLimit_eq : (flonumIntegerLimit : ℚ) = 2 ^ (53 : ℤ) := by
  rfl

theorem roundRatio_eq (n d : ℕ) (e : ℤ) :
    roundRatio n d e = if (roundHalfEven ((n * flonumIntegerLimit : ℕ) / d)).toNat = flonumIntegerLimit then
      ((roundHalfEven ((n * flonumIntegerLimit : ℕ) / d)).toNat / 2, e + 1)
    else ((roundHalfEven ((n * flonumIntegerLimit : ℕ) / d)).toNat, e) := rfl

theorem roundRatio_spec {e : ℤ} (ratio : (n : ℚ) / d = q / 2 ^ (e + 53)) :
    ((roundRatio n d e).1 : ℚ) * 2 ^ (roundRatio n d e).2 = (roundHalfEven (q / 2 ^ e)).toNat * 2 ^ e := by
  have nonzero : (2 : ℚ) ^ (53 : ℤ) ≠ 0 := (two_zpow_pos 53).ne'
  have scaled : ((n * flonumIntegerLimit : ℕ) : ℚ) / d = q / 2 ^ e := by
    rw [cast_mul, mul_div_right_comm, ratio, two_zpow_add, ← div_div, flonumIntegerLimit_eq,
      div_mul_cancel₀ _ nonzero]
  rw [roundRatio_eq, scaled]
  by_cases full : (roundHalfEven (q / 2 ^ e)).toNat = flonumIntegerLimit
  · have even : flonumIntegerLimit / 2 * 2 = flonumIntegerLimit := by decide
    have halves : ((flonumIntegerLimit / 2 : ℕ) : ℚ) * 2 = flonumIntegerLimit := by exact_mod_cast even
    rw [if_pos full, full, two_zpow_add, zpow_one, mul_comm ((2 : ℚ) ^ e), ← mul_assoc, halves]
  · rw [if_neg full]

theorem scaledRatio_eq_roundRatio (n d : ℕ) (length : (integerLengthInBits n : ℤ) - integerLengthInBits d = k) :
    scaledRatio n d = roundRatio (orderRatio k (scaleRatio k n d).1 (scaleRatio k n d).2).1
      (orderRatio k (scaleRatio k n d).1 (scaleRatio k n d).2).2.1
      (orderRatio k (scaleRatio k n d).1 (scaleRatio k n d).2).2.2 := by
  subst length
  rfl

theorem length_bounds (hn : 0 < n) (hd : 0 < d) (length : (integerLengthInBits n : ℤ) - integerLengthInBits d = k) :
    (2 : ℚ) ^ (k - 1) ≤ n / d ∧ (n : ℚ) / d < 2 ^ (k + 1) := by
  obtain ⟨low_n, high_n⟩ := nat_size_bounds hn
  obtain ⟨low_d, high_d⟩ := nat_size_bounds hd
  have divisor : (0 : ℚ) < d := by exact_mod_cast hd
  unfold integerLengthInBits at length
  constructor
  · rw [le_div_iff₀ divisor]
    calc (2 : ℚ) ^ (k - 1) * d ≤ 2 ^ (k - 1) * 2 ^ (size d : ℤ) :=
          mul_le_mul_of_nonneg_left high_d.le (two_zpow_pos _).le
      _ = 2 ^ ((size n : ℤ) - 1) := by
        rw [← two_zpow_add, ← length]
        ring_nf
      _ ≤ n := low_n
  · rw [div_lt_iff₀ divisor]
    calc (n : ℚ) < 2 ^ (size n : ℤ) := high_n
      _ = 2 ^ (k + 1) * 2 ^ ((size d : ℤ) - 1) := by
        rw [← two_zpow_add, ← length]
        ring_nf
      _ ≤ 2 ^ (k + 1) * d := mul_le_mul_of_nonneg_left low_d (two_zpow_pos _).le

theorem scaledRatio_eq (hn : 0 < n) (hd : 0 < d) :
    ((scaledRatio n d).1 : ℚ) * 2 ^ (scaledRatio n d).2 =
      (roundHalfEven ((n : ℚ) / d / 2 ^ (Int.log 2 ((n : ℚ) / d) - 52))).toNat *
        2 ^ (Int.log 2 ((n : ℚ) / d) - 52) := by
  obtain ⟨k, length⟩ : ∃ k : ℤ, (integerLengthInBits n : ℤ) - integerLengthInBits d = k := ⟨_, rfl⟩
  obtain ⟨lower, upper⟩ := length_bounds hn hd length
  obtain ⟨ratio, positive⟩ := @scaleRatio_spec k n d hd
  obtain ⟨exponent, ratio'⟩ := orderRatio_spec positive ratio lower upper
  have rounded := roundRatio_spec ratio'
  rw [exponent] at rounded
  rw [scaledRatio_eq_roundRatio n d length, exponent]
  exact rounded

theorem scaledRatio_exponent (hn : 0 < n) (hd : 0 < d) :
    Int.log 2 ((n : ℚ) / d) - 52 ≤ (scaledRatio n d).2 ∧ (scaledRatio n d).2 ≤ Int.log 2 ((n : ℚ) / d) - 51 := by
  obtain ⟨k, length⟩ : ∃ k : ℤ, (integerLengthInBits n : ℤ) - integerLengthInBits d = k := ⟨_, rfl⟩
  obtain ⟨lower, upper⟩ := length_bounds hn hd length
  obtain ⟨ratio, positive⟩ := @scaleRatio_spec k n d hd
  obtain ⟨exponent, -⟩ := orderRatio_spec positive ratio lower upper
  rw [scaledRatio_eq_roundRatio n d length, roundRatio_eq]
  split <;> omega

theorem roundRatio_lt {e : ℤ} (less : n < d) : (roundRatio n d e).1 < flonumIntegerLimit := by
  have divisor : (0 : ℚ) < d := by exact_mod_cast (Nat.zero_le n).trans_lt less
  have under : ((n * flonumIntegerLimit : ℕ) : ℚ) / d ≤ ((flonumIntegerLimit : ℤ) : ℚ) := by
    rw [div_le_iff₀ divisor]
    exact_mod_cast (mul_comm _ _).trans_le (Nat.mul_le_mul_left _ less.le)
  have rounded := roundHalfEven_le under
  have positive : 0 < flonumIntegerLimit := by decide
  rw [roundRatio_eq]
  split
  · rename_i full
    rw [full]
    exact Nat.div_lt_self positive (by decide)
  · omega

theorem orderRatio_lt (half : n < 2 * d) : (orderRatio k n d).1 < (orderRatio k n d).2.1 := by
  unfold orderRatio
  split
  · assumption
  · exact half

theorem scaledRatio_lt (hn : 0 < n) (hd : 0 < d) : (scaledRatio n d).1 < flonumIntegerLimit := by
  obtain ⟨k, length⟩ : ∃ k : ℤ, (integerLengthInBits n : ℤ) - integerLengthInBits d = k := ⟨_, rfl⟩
  obtain ⟨-, upper⟩ := length_bounds hn hd length
  obtain ⟨ratio, positive⟩ := @scaleRatio_spec k n d hd
  have divisor : (0 : ℚ) < (scaleRatio k n d).2 := by exact_mod_cast positive
  have twice : ((scaleRatio k n d).1 : ℚ) < 2 * (scaleRatio k n d).2 := by
    rw [← div_lt_iff₀ divisor, ratio, div_lt_iff₀ (two_zpow_pos k), mul_comm, ← zpow_one (2 : ℚ), ← zpow_mul,
      ← two_zpow_add]
    simpa using upper
  rw [scaledRatio_eq_roundRatio n d length]
  exact roundRatio_lt (orderRatio_lt (by exact_mod_cast twice))

theorem fits_of_short {n : ℤ} (short : n.natAbs < flonumIntegerLimit) : binary64.Fits |(n : ℚ)| := by
  have fits := @BinaryFormat.fits_of binary64 n.natAbs 0 short (by decide) (by
    rw [zpow_zero, mul_one]
    have bound : ((n.natAbs : ℕ) : ℚ) < 2 ^ (53 : ℤ) := by exact_mod_cast short
    exact bound.trans (two_zpow_lt (by decide)))
  rwa [zpow_zero, mul_one, Nat.cast_natAbs, Int.cast_abs] at fits

theorem intToInexact_is {n : ℤ} (short : n.natAbs < flonumIntegerLimit) : (intToInexact n).Is n := by
  have fits := fits_of_short short
  rw [intToInexact_of_fits fits]
  exact Flonum.ofRational_is fits

theorem log_of_fits (positive : 0 < q) (fits : binary64.Fits q) : -1074 ≤ Int.log 2 q ∧ Int.log 2 q ≤ 1023 := by
  obtain ⟨m, e, holds⟩ := fits
  have lower : -1022 ≤ e := holds.lower
  have upper : e ≤ 1023 := holds.upper
  have trailing : (binary64.trailing : ℤ) = 52 := rfl
  have exponent := holds.exponent positive
  have nonzero : 0 < m := by
    rcases eq_zero_or_pos m with none | some
    · have zero : q = 0 := by rw [holds.value, BinaryFormat.scaled, none, Nat.cast_zero, zero_mul]
      exact absurd zero positive.ne'
    · exact some
  refine ⟨?_, by omega⟩
  rw [← Int.zpow_le_iff_le_log (by decide) positive]
  calc (2 : ℚ) ^ (-1074 : ℤ) ≤ 2 ^ (e - binary64.trailing) := two_zpow_le (by omega)
    _ ≤ m * 2 ^ (e - binary64.trailing) := le_mul_of_one_le_left (two_zpow_pos _).le (by exact_mod_cast nonzero)
    _ = q := holds.value.symm

theorem positiveRatio_eq (n d : ℕ) :
    positiveRatio n d = (intToInexact (scaledRatio n d).1).denormalize (scaledRatio n d).2 := rfl

theorem positiveRatio_is (hn : 0 < n) (hd : 0 < d) (fits : binary64.Fits ((n : ℚ) / d)) :
    (positiveRatio n d).Is ((n : ℚ) / d) := by
  have positive : (0 : ℚ) < (n : ℚ) / d := div_pos (by exact_mod_cast hn) (by exact_mod_cast hd)
  obtain ⟨m, e, holds⟩ := id fits
  have exponent := holds.exponent positive
  have digits : (n : ℚ) / d / 2 ^ (Int.log 2 ((n : ℚ) / d) - 52) =
      ((m * 2 ^ (e - Int.log 2 ((n : ℚ) / d)).toNat : ℕ) : ℚ) := by
    rw [div_eq_iff (two_zpow_pos _).ne', cast_mul, ← two_zpow_natCast (by omega), mul_assoc, ← two_zpow_add,
      sub_add_sub_cancel]
    exact holds.value
  have value : ((scaledRatio n d).1 : ℚ) * 2 ^ (scaledRatio n d).2 = n / d := by
    rw [scaledRatio_eq hn hd, digits, roundHalfEven_natCast, Int.toNat_natCast, ← digits,
      div_mul_cancel₀ _ (two_zpow_pos _).ne']
  have short : ((scaledRatio n d).1 : ℤ).natAbs < flonumIntegerLimit := by
    rw [Int.natAbs_natCast]
    exact scaledRatio_lt hn hd
  have significand := intToInexact_is short
  rw [Int.cast_natCast] at significand
  have int : Flonum.toCInt (scaledRatio n d).2 = (scaledRatio n d).2 := by
    obtain ⟨low, high⟩ := scaledRatio_exponent hn hd
    obtain ⟨lower, upper⟩ := log_of_fits positive fits
    exact Flonum.toCInt_eq (by omega) (by omega)
  rw [← value, ← abs_of_pos (positive.trans_eq value.symm)] at fits
  have result := significand.denormalize int fits
  rw [value] at result
  exact result

theorem slowMethod_is {n : ℤ} {d : ℕ} (nonzero : n ≠ 0) (hd : 0 < d) (fits : binary64.Fits |(n : ℚ) / d|) :
    (slowMethod n d).Is ((n : ℚ) / d) := by
  have divisor : (0 : ℚ) < d := by exact_mod_cast hd
  unfold slowMethod
  split
  · rename_i positive
    obtain ⟨m, rfl⟩ := Int.eq_ofNat_of_zero_le positive.le
    rw [Int.cast_natCast, abs_of_nonneg (div_nonneg (Nat.cast_nonneg _) divisor.le)] at fits
    exact positiveRatio_is (by omega) hd fits
  · obtain ⟨m, opposite⟩ := Int.eq_ofNat_of_zero_le (by omega : 0 ≤ -n)
    have same : (n : ℚ) = -(m : ℚ) := by
      rw [← Int.cast_natCast, ← opposite, Int.cast_neg, neg_neg]
    rw [same, neg_div, abs_neg, abs_of_nonneg (div_nonneg (Nat.cast_nonneg _) divisor.le)] at fits
    rw [same, neg_div, opposite]
    exact (positiveRatio_is (by omega) hd fits).negate

theorem ratToInexact_is {a : ℚ} (fits : binary64.Fits |a|) : (ratToInexact a).Is a := by
  have parts : (a.num : ℚ) / a.den = a := Rat.num_div_den a
  unfold ratToInexact
  split
  · rename_i integer
    have same : ((a.num : ℤ) : ℚ) = a := by rw [← parts, integer, Nat.cast_one, div_one, Rat.num_intCast]
    rw [intToInexact_of_fits (same ▸ fits), same]
    exact Flonum.ofRational_is fits
  · rename_i ratio
    have nonzero : a.num ≠ 0 := by
      intro none
      exact ratio (Rat.den_eq_one_iff a |>.mpr (by rw [← parts, none]; simp))
    unfold ratioToFlonum
    obtain ⟨short, short'⟩ := not_wraps_of_fits fits
    rw [if_neg nonzero]
    rw [← parts] at fits
    split
    · rename_i x y hx hy
      have quotient := (integerToFlonum_eq hx short).2.div (integerToFlonum_eq hy short').2 (by exact_mod_cast a.den_ne_zero)
        (by exact fits)
      rwa [Int.cast_natCast, parts] at quotient
    · have slow := slowMethod_is nonzero a.den_pos fits
      rwa [parts] at slow

namespace Number

variable {x y : Number} {a b : ℚ}

section
variable (hx : x.Is a)
include hx

theorem Is.mul (hy : y.Is b) (fits_a : binary64.Fits |a|) (fits_b : binary64.Fits |b|)
    (fits : binary64.Fits |a * b|) : (x.mul y).Is (a * b) := by
  cases x with
  | flonum x =>
    cases y with
    | flonum y => exact .mul hx hy fits
    | exact q =>
      have same : q = b := hy
      subst same
      simp only [Number.mul]
      split
      · rename_i none
        have finite : x.isFinite = true := hx.1
        rw [if_pos finite, none, mul_zero]
        exact rfl
      · exact .mul hx (ratToInexact_is fits_b) fits
  | exact q =>
    have same : q = a := hx
    subst same
    cases y with
    | flonum y =>
      simp only [Number.mul]
      split
      · rename_i none
        have finite : y.isFinite = true := hy.1
        rw [if_pos finite, none, zero_mul]
        exact rfl
      · exact .mul (ratToInexact_is fits_a) hy fits
    | exact r =>
      have same : r = b := hy
      subst same
      exact rfl

theorem Is.div (hy : y.Is b) (nonzero : b ≠ 0) (fits_a : binary64.Fits |a|) (fits_b : binary64.Fits |b|)
    (fits : binary64.Fits |a / b|) : (x.div y).Is (a / b) := by
  cases x with
  | flonum x =>
    cases y with
    | flonum y => exact .div hx hy nonzero fits
    | exact q =>
      have same : q = b := hy
      subst same
      exact .div hx (ratToInexact_is fits_b) nonzero fits
  | exact q =>
    have same : q = a := hx
    subst same
    cases y with
    | flonum y =>
      simp only [Number.div]
      split
      · rename_i none
        rw [none.1, zero_div]
        exact rfl
      · exact .div (ratToInexact_is fits_a) hy nonzero fits
    | exact r =>
      have same : r = b := hy
      subst same
      exact rfl

theorem Is.eq (hy : y.Is b) : x.eq y = decide (a = b) := by
  cases x with
  | flonum x =>
    cases y with
    | flonum y => exact Flonum.Is.eq hx hy
    | exact q =>
      have same : q = b := hy
      simp [Number.eq, hx.1, hx.2, same]
  | exact q =>
    have same : q = a := hx
    cases y with
    | flonum y =>
      simp only [Number.eq, hy.1, hy.2, same, Bool.true_and]
      exact decide_eq_decide.mpr eq_comm
    | exact r =>
      have same' : r = b := hy
      simp [Number.eq, same, same']

theorem Is.lt (hy : y.Is b) : x.lt y = decide (a < b) := by
  cases x with
  | flonum x =>
    cases y with
    | flonum y => exact Flonum.Is.lt hx hy
    | exact q =>
      have same : q = b := hy
      simp [Number.lt, hx.1, hx.2, same]
  | exact q =>
    have same : q = a := hx
    cases y with
    | flonum y => simp [Number.lt, hy.1, hy.2, same]
    | exact r =>
      have same' : r = b := hy
      simp [Number.lt, same, same']

theorem Is.isNan : x.isNan = false := by
  cases x with
  | flonum x => exact Flonum.isNan_of_finite hx.1
  | exact q => rfl

theorem Is.le (hy : y.Is b) : x.le y = decide (a ≤ b) := by
  unfold Number.le
  rw [hx.isNan, hy.isNan, hy.lt hx]
  simp [← decide_not]

theorem Is.abs : x.abs.Is |a| := by
  cases x with
  | flonum x => exact .abs hx
  | exact q =>
    have same : q = a := hx
    subst same
    exact rfl

theorem Is.roundToExact : x.roundToExact = .ok (roundHalfEven a) := by
  cases x with
  | flonum x => exact Flonum.Is.roundToExact hx
  | exact q =>
    have same : q = a := hx
    rw [Number.roundToExact, same]

end

theorem exact_is (q : ℚ) : (Number.exact q).Is q := rfl

end Number

end MitScheme.Runtime.Arithmetic
