import MitScheme.Library.DoubleRounding
import Mathlib.Data.Nat.Bitwise
import Mathlib.Data.Nat.Size

namespace MitScheme.Library

namespace BinaryFormat

def exponent (f : BinaryFormat) (q : ℚ) : ℤ := max (Int.log 2 q) f.emin

def significand (f : BinaryFormat) (q : ℚ) : ℕ := (roundHalfEven (q / 2 ^ (f.exponent q - f.trailing))).toNat

/-- The rational is below a power of two, that of a next exponent or the least one, and is rounded to it. -/
def Carries (f : BinaryFormat) (q : ℚ) : Prop :=
  (∃ e, f.emin ≤ e ∧ e ≤ f.emax ∧ 2 ^ (e + 1) - 2 ^ (e - f.trailing - 1) ≤ q ∧ q < 2 ^ (e + 1)) ∨
    2 ^ f.emin - 2 ^ (f.emin - f.trailing - 1) ≤ q ∧ q < 2 ^ f.emin

variable {f : BinaryFormat} {q : ℚ} {n : ℕ} {d e j : ℤ}

theorem exponent_of_normal (lower : 2 ^ e ≤ q) (upper : q < 2 ^ (e + 1)) (least : f.emin ≤ e) : f.exponent q = e := by
  unfold exponent
  rw [log_eq lower upper]
  exact max_eq_left least

theorem exponent_of_subnormal (positive : 0 < q) (below : q < 2 ^ f.emin) : f.exponent q = f.emin := by
  have log_lt : Int.log 2 q < f.emin := (Int.lt_zpow_iff_log_lt (by norm_num) positive).mp below
  exact max_eq_right log_lt.le

theorem exists_log (positive : 0 < q) : ∃ d : ℤ, (2 : ℚ) ^ d ≤ q ∧ q < 2 ^ (d + 1) :=
  ⟨Int.log 2 q, Int.zpow_log_le_self (by norm_num) positive, Int.lt_zpow_succ_log_self (by norm_num) q⟩

theorem two_pow_units (i : ℕ) : ((2 ^ i : ℕ) : ℚ) * 2 ^ (e - f.trailing) = 2 ^ (e + i - f.trailing) := by
  push_cast
  rw [← zpow_natCast, ← two_zpow_add]
  congr 1
  ring

theorem units_bounds (lower : 2 ^ e ≤ q) (upper : q < 2 ^ (e + 1)) :
    ((2 ^ f.trailing : ℕ) : ℚ) ≤ q / 2 ^ (e - f.trailing) ∧ q / 2 ^ (e - f.trailing) < (2 ^ (f.trailing + 1) : ℕ) := by
  have unit := two_zpow_pos (e - f.trailing)
  constructor
  · rw [le_div_iff₀ unit, two_pow_units]
    exact (two_zpow_le (by omega)).trans lower
  · rw [div_lt_iff₀ unit, two_pow_units]
    exact upper.trans_le (two_zpow_le (by omega))

theorem le_roundHalfEven_units (even : (n : ℤ) % 2 = 0) :
    n ≤ (roundHalfEven (q / 2 ^ j)).toNat ↔ n = 0 ∨ (n : ℚ) * 2 ^ j - 2 ^ (j - 1) ≤ q := by
  have unit := two_zpow_pos j
  have half : (2 : ℚ) ^ (j - 1) = 1 / 2 * 2 ^ j := by
    rw [zpow_sub_one₀ (by norm_num)]
    ring
  have reached := @le_roundHalfEven_iff (q / 2 ^ j) n even
  rw [le_div_iff₀ unit, sub_mul, ← half, Int.cast_natCast] at reached
  rw [← reached]
  omega

theorem even_two_pow (positive : n ≠ 0) : (((2 ^ n : ℕ) : ℕ) : ℤ) % 2 = 0 := by
  obtain ⟨m, rfl⟩ := Nat.exists_eq_succ_of_ne_zero positive
  rw [pow_succ]
  push_cast
  exact Int.mul_emod_left _ _

theorem significand_normal (lower : 2 ^ e ≤ q) (upper : q < 2 ^ (e + 1)) (least : f.emin ≤ e) :
    2 ^ f.trailing ≤ f.significand q ∧ f.significand q ≤ 2 ^ (f.trailing + 1) := by
  obtain ⟨some_digits, short⟩ := @units_bounds f q e lower upper
  have rounded : ((2 ^ f.trailing : ℕ) : ℤ) ≤ roundHalfEven (q / 2 ^ (e - f.trailing)) :=
    le_roundHalfEven (by exact_mod_cast some_digits)
  unfold significand
  rw [exponent_of_normal lower upper least]
  constructor
  · rw [Int.le_toNat ((Int.natCast_nonneg _).trans rounded)]
    exact rounded
  · rw [Int.toNat_le]
    exact roundHalfEven_le (by exact_mod_cast short.le)

theorem significand_subnormal (positive : 0 < q) (below : q < 2 ^ f.emin) : f.significand q ≤ 2 ^ f.trailing := by
  have short : q / 2 ^ (f.emin - f.trailing) ≤ ((2 ^ f.trailing : ℕ) : ℚ) := by
    rw [div_le_iff₀ (two_zpow_pos _), two_pow_units, add_sub_cancel_right]
    exact below.le
  unfold significand
  rw [exponent_of_subnormal positive below, Int.toNat_le]
  exact roundHalfEven_le (by exact_mod_cast short)

theorem half_significand_le (f : BinaryFormat) (nonneg : 0 ≤ q) :
    (f.significand q : ℚ) * 2 ^ (f.exponent q - f.trailing - 1) ≤ q := by
  have unit := two_zpow_pos (f.exponent q - f.trailing)
  have up := roundHalfEven_le_add_half (q / 2 ^ (f.exponent q - f.trailing))
  have cast := Int.toNat_eq_max (roundHalfEven (q / 2 ^ (f.exponent q - f.trailing)))
  rw [zpow_sub_one₀ (by norm_num), ← mul_assoc, ← le_div_iff₀ (by norm_num), ← le_div_iff₀ unit, div_inv_eq_mul,
    mul_div_right_comm]
  change ((f.significand q : ℕ) : ℤ) = _ at cast
  rcases eq_zero_or_pos (f.significand q) with none | some_digit
  · rw [none]
    exact mul_nonneg (div_nonneg nonneg unit.le) (by norm_num)
  · have same : ((f.significand q : ℕ) : ℤ) = roundHalfEven (q / 2 ^ (f.exponent q - f.trailing)) := by omega
    have same' : (f.significand q : ℚ) = roundHalfEven (q / 2 ^ (f.exponent q - f.trailing)) := by exact_mod_cast same
    have one : (1 : ℚ) ≤ f.significand q := by exact_mod_cast some_digit
    linarith

theorem carries_normal (lower : 2 ^ e ≤ q) (upper : q < 2 ^ (e + 1)) (least : f.emin ≤ e) (most : e ≤ f.emax) :
    f.Carries q ↔ f.significand q = 2 ^ (f.trailing + 1) := by
  have bound := (@significand_normal f q e lower upper least).2
  have reached := @le_roundHalfEven_units q (2 ^ (f.trailing + 1)) (e - f.trailing) (even_two_pow (Nat.succ_ne_zero _))
  have power : e + ((f.trailing + 1 : ℕ) : ℤ) - f.trailing = e + 1 := by omega
  rw [two_pow_units, power, or_iff_right (Nat.two_pow_pos _).ne'] at reached
  rw [← bound.ge_iff_eq]
  unfold significand
  rw [exponent_of_normal lower upper least, reached]
  constructor
  · rintro (⟨d, -, -, above, below⟩ | ⟨-, below⟩)
    · have first : e < d + 1 := two_zpow_lt_iff.mp (lower.trans_lt below)
      have second : d < e + 1 := by
        apply two_zpow_lt_iff.mp
        refine lt_of_le_of_lt ?_ upper
        have half : (2 : ℚ) ^ (d - f.trailing - 1) ≤ 2 ^ d := two_zpow_le (by omega)
        rw [two_zpow_add] at above
        linarith
      have same : d = e := by omega
      rwa [same] at above
    · have outside := two_zpow_lt_iff.mp (lower.trans_lt below)
      omega
  · intro above
    exact .inl ⟨e, least, most, above, upper⟩

theorem carries_subnormal (positive : 0 < q) (below : q < 2 ^ f.emin) (wide : f.trailing ≠ 0) :
    f.Carries q ↔ f.significand q = 2 ^ f.trailing := by
  have bound := @significand_subnormal f q positive below
  have reached := @le_roundHalfEven_units q (2 ^ f.trailing) (f.emin - f.trailing) (even_two_pow wide)
  rw [two_pow_units, add_sub_cancel_right, or_iff_right (Nat.two_pow_pos _).ne'] at reached
  rw [← bound.ge_iff_eq]
  unfold significand
  rw [exponent_of_subnormal positive below, reached]
  constructor
  · rintro (⟨d, least, -, above, -⟩ | ⟨above, -⟩)
    · have half : (2 : ℚ) ^ (d - f.trailing - 1) ≤ 2 ^ d := two_zpow_le (by omega)
      have normal : (2 : ℚ) ^ f.emin ≤ 2 ^ d := two_zpow_le least
      rw [two_zpow_add] at above
      linarith
    · exact above
  · intro above
    exact .inr ⟨above, below⟩

theorem not_carries_large (large : 2 ^ (f.emax + 1 : ℤ) ≤ q) : ¬f.Carries q := by
  have least : f.emin = 1 - f.emax := rfl
  rintro (⟨e, -, most, -, below⟩ | ⟨-, below⟩)
  · have outside := two_zpow_lt_iff.mp (large.trans_lt below)
    omega
  · have outside := two_zpow_lt_iff.mp (large.trans_lt below)
    omega

theorem not_carries_zero : ¬f.Carries 0 := by
  rintro (⟨e, -, -, above, -⟩ | ⟨above, -⟩)
  · have below : (2 : ℚ) ^ (e - f.trailing - 1) < 2 ^ (e + 1) := two_zpow_lt (by omega)
    linarith
  · have below : (2 : ℚ) ^ (f.emin - f.trailing - 1) < 2 ^ f.emin := two_zpow_lt (by omega)
    linarith

theorem Holds.significand (holds : f.Holds q n e) (positive : 0 < q) : f.significand q = n := by
  have exponent : f.exponent q = e := holds.exponent positive
  unfold BinaryFormat.significand
  rw [exponent, holds.value, scaled, mul_div_assoc, div_self (two_zpow_pos _).ne', mul_one, roundHalfEven_natCast,
    Int.toNat_natCast]

theorem not_fits_large (large : 2 ^ (f.emax + 1 : ℤ) ≤ q) : ¬f.Fits q := by
  rintro ⟨n, e, holds⟩
  have below := large.trans_lt (holds.value.trans_lt (scaled_lt holds.short))
  have outside := two_zpow_lt_iff.mp below
  have upper := holds.upper
  omega

theorem fits_iff_normal (lower : 2 ^ e ≤ q) (upper : q < 2 ^ (e + 1)) (least : f.emin ≤ e) (most : e ≤ f.emax)
    (short : f.significand q < 2 ^ (f.trailing + 1)) : f.Fits q ↔ q = f.scaled (f.significand q) e := by
  have positive : 0 < q := (two_zpow_pos e).trans_le lower
  have digits := (@significand_normal f q e lower upper least).1
  constructor
  · rintro ⟨n, d, holds⟩
    have exponent : d = e := by
      rw [← holds.exponent positive]
      exact exponent_of_normal lower upper least
    rw [holds.significand positive, ← exponent]
    exact holds.value
  · intro same
    exact ⟨_, e, same, short, least, most, .inr digits⟩

theorem fits_iff_subnormal (positive : 0 < q) (below : q < 2 ^ f.emin) (short : f.significand q < 2 ^ f.trailing) :
    f.Fits q ↔ q = f.scaled (f.significand q) f.emin := by
  have least : f.emin = 1 - f.emax := rfl
  have wide := f.wide
  constructor
  · rintro ⟨n, d, holds⟩
    have exponent : d = f.emin := by
      rw [← holds.exponent positive]
      exact exponent_of_subnormal positive below
    rw [holds.significand positive, ← exponent]
    exact holds.value
  · intro same
    exact ⟨_, f.emin, same, short.trans (Nat.pow_lt_pow_right (by decide) (Nat.lt_succ_self _)), le_rfl, by omega, .inl rfl⟩

theorem Fits.not_carries (fits : f.Fits q) (nonneg : 0 ≤ q) (wide : f.trailing ≠ 0) : ¬f.Carries q := by
  rcases nonneg.eq_or_lt with zero | positive
  · rw [← zero]
    exact not_carries_zero
  · obtain ⟨n, e, holds⟩ := fits
    have digits := holds.significand positive
    have short := holds.short
    rcases lt_or_ge q (2 ^ f.emin) with below | above
    · rw [carries_subnormal positive below wide, digits]
      rintro rfl
      have reached := @le_scaled f (2 ^ f.trailing) e le_rfl
      rw [← holds.value] at reached
      exact absurd ((two_zpow_le holds.lower).trans reached) (below.not_ge)
    · have upper : q < 2 ^ (e + 1) := holds.value.trans_lt (scaled_lt short)
      have lower : 2 ^ e ≤ q := by
        rcases holds.full with least | normal
        · rwa [least]
        · exact (le_scaled normal).trans_eq holds.value.symm
      rw [carries_normal lower upper holds.lower holds.upper, digits]
      exact short.ne

theorem Fits.scale (fits : f.Fits q) (lower : 0 ≤ j ∨ 2 ^ f.emin ≤ q * 2 ^ j) (upper : q * 2 ^ j < 2 ^ (f.emax + 1 : ℤ)) :
    f.Fits (q * 2 ^ j) := by
  obtain ⟨n, e, holds⟩ := fits
  have least := holds.lower
  have moved : q * 2 ^ j = n * 2 ^ (e + j - f.trailing) := by
    rw [holds.value, scaled_mul]
    rfl
  rw [moved] at lower upper ⊢
  refine fits_of holds.short ?_ upper
  rcases lower with up | normal
  · omega
  · have inside := two_zpow_lt_iff.mp (normal.trans_lt (@scaled_lt f n (e + j) holds.short))
    omega

end BinaryFormat

variable {n t k : ℕ}

/-- The guard bit is set, and so is some bit below it or the bit above it. -/
def roundsUp (n t : ℕ) : Bool := n.testBit t && (decide (n % 2 ^ t ≠ 0) || n.testBit (t + 1))

def nearestEven (n t : ℕ) : ℕ := n / 2 ^ (t + 1) + (roundsUp n t).toNat

theorem testBit_iff_half : n.testBit t = true ↔ 2 ^ t ≤ n % 2 ^ (t + 1) := by
  rw [Nat.testBit_eq_decide_div_mod_eq, decide_eq_true_eq, Nat.mod_pow_succ]
  constructor
  · intro one
    rw [one]
    omega
  · intro half
    by_contra other
    have zero : n / 2 ^ t % 2 = 0 := by omega
    rw [zero] at half
    omega

theorem testBit_succ_iff : n.testBit (t + 1) = true ↔ n / 2 ^ (t + 1) % 2 = 1 := by
  rw [Nat.testBit_eq_decide_div_mod_eq, decide_eq_true_eq]

theorem nearestEven_mul_le (n t : ℕ) : nearestEven n t * 2 ^ (t + 1) ≤ n + 2 ^ t := by
  have split := Nat.div_add_mod n (2 ^ (t + 1))
  unfold nearestEven
  rw [add_mul, mul_comm]
  cases up : roundsUp n t with
  | false =>
    rw [Bool.toNat_false]
    omega
  | true =>
    have guard := testBit_iff_half.mp (Bool.and_eq_true_iff.mp up).1
    rw [Bool.toNat_true]
    omega

theorem roundHalfEven_div_two_pow (n t : ℕ) : roundHalfEven ((n : ℚ) / 2 ^ (t + 1)) = nearestEven n t := by
  have positive : (0 : ℚ) < 2 ^ (t + 1) := by positivity
  have split := Nat.div_add_mod n (2 ^ (t + 1))
  have rest := Nat.mod_lt n (Nat.two_pow_pos (t + 1))
  generalize quotient : n / 2 ^ (t + 1) = q at split
  generalize remainder : n % 2 ^ (t + 1) = r at split rest
  have fraction : (n : ℚ) / 2 ^ (t + 1) - q = r / 2 ^ (t + 1) := by
    rw [← split]
    push_cast
    field_simp
    ring
  have floor : ⌊(n : ℚ) / 2 ^ (t + 1)⌋ = q := by
    rw [Int.floor_eq_iff]
    have nonneg : (0 : ℚ) ≤ r / 2 ^ (t + 1) := by positivity
    have small : (r : ℚ) / 2 ^ (t + 1) < 1 := by
      rw [div_lt_one positive]
      exact_mod_cast rest
    push_cast
    constructor <;> linarith
  have half : (1 : ℚ) / 2 = 2 ^ t / 2 ^ (t + 1) := by
    rw [pow_succ]
    field_simp
  have below : (r : ℚ) / 2 ^ (t + 1) < 1 / 2 ↔ r < 2 ^ t := by
    rw [half, div_lt_div_iff_of_pos_right positive]
    exact_mod_cast Iff.rfl
  have above : (1 : ℚ) / 2 < r / 2 ^ (t + 1) ↔ 2 ^ t < r := by
    rw [half, div_lt_div_iff_of_pos_right positive]
    exact_mod_cast Iff.rfl
  have guard : n.testBit t = true ↔ 2 ^ t ≤ r := by rw [testBit_iff_half, remainder]
  have odd : n.testBit (t + 1) = true ↔ q % 2 = 1 := by rw [testBit_succ_iff, quotient]
  have low : n % 2 ^ t = r % 2 ^ t := by
    rw [← remainder, Nat.mod_mod_of_dvd _ (pow_dvd_pow 2 (Nat.le_succ t))]
  have parity : (q : ℤ) % 2 = 0 ↔ ¬q % 2 = 1 := by omega
  have sticky : 2 ^ t ≤ r → (r % 2 ^ t ≠ 0 ↔ 2 ^ t < r) := by
    intro le
    have whole : r % 2 ^ t = r - 2 ^ t := by
      rw [Nat.mod_eq_sub_mod le, Nat.mod_eq_of_lt]
      omega
    omega
  unfold roundHalfEven nearestEven roundsUp
  rw [floor, Int.cast_natCast, fraction, quotient]
  simp only [below, above, parity, low]
  by_cases isBelow : r < 2 ^ t
  · have unset : n.testBit t = false := by
      rw [← Bool.not_eq_true, guard]
      omega
    simp [isBelow, unset]
  · have set : n.testBit t = true := guard.mpr (by omega)
    have sticky := sticky (by omega)
    rw [if_neg isBelow, set]
    by_cases isAbove : 2 ^ t < r
    · simp [isAbove, sticky.mpr isAbove]
    · have zero : r % 2 ^ t = 0 := by
        by_contra nonzero
        exact isAbove (sticky.mp nonzero)
      rw [if_neg isAbove, zero]
      by_cases isOdd : q % 2 = 1
      · simp [isOdd, odd.mpr isOdd]
      · have even : n.testBit (t + 1) = false := by
          rw [← Bool.not_eq_true, odd]
          exact isOdd
        simp [isOdd, even]

namespace BinaryFormat

variable {f : BinaryFormat}

theorem nearestEven_bounds {m : ℕ} (lower : 2 ^ (m + (t + 1)) ≤ n) (upper : n < 2 ^ (m + (t + 1) + 1)) :
    2 ^ m ≤ nearestEven n t ∧ nearestEven n t ≤ 2 ^ (m + 1) := by
  have positive := Nat.two_pow_pos (t + 1)
  have atLeast : 2 ^ m ≤ n / 2 ^ (t + 1) := by
    rw [Nat.le_div_iff_mul_le positive, ← pow_add]
    exact lower
  have atMost : n / 2 ^ (t + 1) < 2 ^ (m + 1) := by
    rw [Nat.div_lt_iff_lt_mul positive, ← pow_add]
    rwa [add_right_comm] at upper
  have one := Bool.toNat_le (roundsUp n t)
  unfold nearestEven
  omega

theorem holds_scaled {e : ℕ} (lower : 2 ^ f.trailing ≤ k) (upper : k ≤ 2 ^ (f.trailing + 1)) (exponent : f.trailing ≤ e)
    (finite : k * 2 ^ (e - f.trailing) < 2 ^ (f.emax + 1)) :
    ∃ m j, f.Holds ((k : ℚ) * 2 ^ (e - f.trailing)) m j ∧ f.pack m j = f.pack k e := by
  have least : f.emin = 1 - f.emax := rfl
  have wide := f.wide
  have power : (2 : ℚ) ^ (e - f.trailing) = 2 ^ ((e : ℤ) - f.trailing) := by
    rw [← Nat.cast_sub exponent, zpow_natCast]
  rcases upper.lt_or_eq with short | full
  · have below : 2 ^ e < 2 ^ (f.emax + 1) := by
      calc 2 ^ e = 2 ^ f.trailing * 2 ^ (e - f.trailing) := by rw [← pow_add, Nat.add_sub_cancel' exponent]
        _ ≤ k * 2 ^ (e - f.trailing) := Nat.mul_le_mul_right _ lower
        _ < _ := finite
    have small := (Nat.pow_lt_pow_iff_right (by decide : 1 < 2)).mp below
    exact ⟨k, e, ⟨by rw [power]; rfl, short, by omega, by omega, .inr lower⟩, rfl⟩
  · have below : 2 ^ (e + 1) < 2 ^ (f.emax + 1) := by
      calc 2 ^ (e + 1) = 2 ^ (f.trailing + 1) * 2 ^ (e - f.trailing) := by
            rw [← pow_add]
            congr 1
            omega
        _ < _ := full ▸ finite
    have small := (Nat.pow_lt_pow_iff_right (by decide : 1 < 2)).mp below
    refine ⟨2 ^ f.trailing, e + 1, ⟨?_, ?_, by omega, by omega, .inr le_rfl⟩, ?_⟩
    · rw [power, full, scaled]
      push_cast
      rw [← zpow_natCast, ← zpow_natCast, ← two_zpow_add, ← two_zpow_add]
      push_cast
      ring_nf
    · exact Nat.pow_lt_pow_right (by decide) (Nat.lt_succ_self _)
    · have next : ((e : ℤ) + 1 - f.emin).toNat = ((e : ℤ) - f.emin).toNat + 1 := by omega
      unfold pack
      rw [full, next]
      ring

theorem log_natCast {m : ℕ} (lower : 2 ^ m ≤ n) (upper : n < 2 ^ (m + 1)) : Int.log 2 (n : ℚ) = m := by
  apply log_eq
  · exact_mod_cast lower
  · exact_mod_cast upper

section
variable (lower : 2 ^ (f.trailing + (t + 1)) ≤ n)
include lower

section
variable (upper : n < 2 ^ (f.trailing + (t + 1) + 1))
include upper

theorem toDigits_natCast : f.toDigits n = (nearestEven n t : ℚ) * 2 ^ (t + 1) := by
  have exponent : ((f.trailing + (t + 1) : ℕ) : ℤ) - f.trailing = ((t + 1 : ℕ) : ℤ) := by push_cast; ring
  rw [toDigits, log_natCast lower upper, exponent, zpow_natCast, roundHalfEven_div_two_pow, Int.cast_natCast]

theorem round_nearestEven : f.round n = f.round ((nearestEven n t : ℚ) * 2 ^ (t + 1)) := by
  have positive : 0 < n := (Nat.two_pow_pos _).trans_le lower
  have least : f.emin = 1 - f.emax := rfl
  rw [← toDigits_natCast lower upper, round_toDigits (by exact_mod_cast positive)]
  rw [log_natCast lower upper]
  omega

theorem round_natCast (finite : nearestEven n t * 2 ^ (t + 1) < 2 ^ (f.emax + 1)) :
    f.round n = f.round ((nearestEven n t : ℚ) * 2 ^ (t + 1)) ∧ f.Fits ((nearestEven n t : ℚ) * 2 ^ (t + 1)) := by
  obtain ⟨atLeast, atMost⟩ := nearestEven_bounds lower upper
  have exponent : f.trailing ≤ f.trailing + (t + 1) := Nat.le_add_right _ _
  have shift : f.trailing + (t + 1) - f.trailing = t + 1 := Nat.add_sub_cancel_left _ _
  obtain ⟨m, j, holds, -⟩ := @holds_scaled (nearestEven n t) f (f.trailing + (t + 1)) atLeast atMost exponent
    (shift.symm ▸ finite)
  rw [shift] at holds
  exact ⟨round_nearestEven lower upper, m, j, holds⟩

end

end

end BinaryFormat

end MitScheme.Library
