import MitScheme.Runtime.Arithmetic.Numbers

namespace MitScheme.Runtime.Arithmetic

open Library Microcode Flonum BinaryFormat
open Int (cast_natCast log)

variable {n : ℤ} {d : ℕ}

theorem toDigits_nonneg {q : ℚ} (positive : 0 < q) : 0 ≤ roundHalfEven (q / 2 ^ (log 2 q - 52)) := by
  have bounds := (@digits_bounds binary64 q positive).1
  have power : (0 : ℤ) ≤ 2 ^ binary64.trailing := by positivity
  exact power.trans bounds

theorem scaledRatio_toDigits {n d : ℕ} (hn : 0 < n) (hd : 0 < d) :
    ((scaledRatio n d).1 : ℚ) * 2 ^ (scaledRatio n d).2 = binary64.toDigits (n / d) := by
  have positive : (0 : ℚ) < n / d := div_pos (by exact_mod_cast hn) (by exact_mod_cast hd)
  have whole : (((roundHalfEven ((n : ℚ) / d / 2 ^ (log 2 ((n : ℚ) / d) - 52))).toNat : ℕ) : ℤ) =
      roundHalfEven ((n : ℚ) / d / 2 ^ (log 2 ((n : ℚ) / d) - 52)) := Int.toNat_of_nonneg (toDigits_nonneg positive)
  have cast : (((roundHalfEven ((n : ℚ) / d / 2 ^ (log 2 ((n : ℚ) / d) - 52))).toNat : ℕ) : ℚ) =
      roundHalfEven ((n : ℚ) / d / 2 ^ (log 2 ((n : ℚ) / d) - 52)) := by
    rw [← whole, cast_natCast, whole]
  rw [scaledRatio_eq hn hd, cast]
  rfl

/-- The exponent of the rounded quotient is an int. -/
def Sized (q : ℚ) : Prop := 52 - 2 ^ 31 ≤ log 2 (binary64.toDigits q) ∧ log 2 q < 2 ^ 31

theorem log_toDigits_bounds {q : ℚ} (positive : 0 < q) :
    log 2 q ≤ log 2 (binary64.toDigits q) ∧ log 2 (binary64.toDigits q) ≤ log 2 q + 1 := by
  rw [log_toDigits positive]
  split <;> omega

theorem sized_of_log {q : ℚ} (positive : 0 < q) (lower : 52 - 2 ^ 31 ≤ log 2 q) (upper : log 2 q < 2 ^ 31) : Sized q :=
  ⟨lower.trans (log_toDigits_bounds positive).1, upper⟩

/-- Fewer than 54 digits are scaled. -/
theorem scaledRatio_least {n d : ℕ} (hn : 0 < n) (hd : 0 < d) :
    log 2 (binary64.toDigits ((n : ℚ) / d)) - 52 ≤ (scaledRatio n d).2 := by
  have positive : (0 : ℚ) < n / d := div_pos (by exact_mod_cast hn) (by exact_mod_cast hd)
  have digits := scaledRatio_toDigits hn hd
  have short : ((scaledRatio n d).1 : ℚ) < 2 ^ (53 : ℤ) := by exact_mod_cast scaledRatio_lt hn hd
  have upper : binary64.toDigits ((n : ℚ) / d) < 2 ^ (53 + (scaledRatio n d).2) := by
    rw [← digits, two_zpow_add]
    exact mul_lt_mul_of_pos_right short (two_zpow_pos _)
  have log : log 2 (binary64.toDigits ((n : ℚ) / d)) < 53 + (scaledRatio n d).2 :=
    (Int.lt_zpow_iff_log_lt (by decide) (toDigits_pos positive)).mp upper
  omega

theorem positiveRatio_toDigits {n d : ℕ} (hn : 0 < n) (hd : 0 < d) (sized : Sized ((n : ℚ) / d)) :
    positiveRatio n d = ofMagnitude false (binary64.toDigits (n / d)) := by
  have digits := scaledRatio_toDigits hn hd
  have short := scaledRatio_lt hn hd
  have int : toCInt (scaledRatio n d).2 = (scaledRatio n d).2 := by
    have low := scaledRatio_least hn hd
    have high := (scaledRatio_exponent hn hd).2
    obtain ⟨lower, upper⟩ := sized
    exact toCInt_eq (by omega) (by omega)
  rw [positiveRatio_eq]
  generalize scaledRatio n d = scaled at digits short int
  have fits := @fits_of_short scaled.1 (by rwa [Int.natAbs_natCast])
  have exactly := ofRational_is fits
  have magnitude := exactly.magnitude
  have sign : (ofRational ((scaled.1 : ℤ) : ℚ)).negative = false := decide_eq_false (not_lt.mpr (by positivity))
  rw [cast_natCast, abs_of_nonneg (Nat.cast_nonneg _)] at magnitude
  rw [cast_natCast] at sign
  rw [intToInexact_of_fits fits, denormalize, int, cast_natCast, magnitude, sign, digits]

theorem ofMagnitude_eq_iff {negative : Bool} {a b : ℚ} :
    ofMagnitude negative a = ofMagnitude negative b ↔ binary64.round a = binary64.round b := by
  unfold ofMagnitude
  simp

theorem sign_ratio (hd : 0 < d) : decide ((n : ℚ) / d < 0) = decide (n < 0) := by
  have divisor : (0 : ℚ) < d := by exact_mod_cast hd
  rw [decide_eq_decide, div_lt_iff₀ divisor, zero_mul]
  exact_mod_cast Iff.rfl

theorem abs_ratio (n : ℤ) (d : ℕ) : |(n : ℚ) / d| = (n.natAbs : ℚ) / d := by
  rw [abs_div, Nat.abs_cast, Nat.cast_natAbs, Int.cast_abs]

theorem abs_ratio_pos (nonzero : n ≠ 0) (hd : 0 < d) : 0 < |(n : ℚ) / d| := by
  rw [abs_ratio]
  exact div_pos (by exact_mod_cast Int.natAbs_pos.mpr nonzero) (by exact_mod_cast hd)

theorem slowMethod_toDigits (nonzero : n ≠ 0) (hd : 0 < d) (sized : Sized |(n : ℚ) / d|) :
    slowMethod n d = ofMagnitude (n < 0) (binary64.toDigits |(n : ℚ) / d|) := by
  rw [abs_ratio] at sized ⊢
  unfold slowMethod
  split
  · have natural : n.toNat = n.natAbs := by omega
    rw [natural, positiveRatio_toDigits (by omega) hd sized, decide_eq_false (by omega)]
  · have natural : (-n).toNat = n.natAbs := by omega
    rw [natural, positiveRatio_toDigits (by omega) hd sized, decide_eq_true (by omega)]
    rfl

theorem DoubleRounds.bounds {q : ℚ} (positive : 0 < q) (twice : binary64.DoubleRounds q) :
    (2 : ℚ) ^ (-1100 : ℤ) ≤ q ∧ q < 2 ^ (-1022 : ℤ) := by
  obtain ⟨below, m, near, -⟩ := twice
  have lower := Int.zpow_log_le_self (b := 2) (by norm_num) positive
  have upper := Int.lt_zpow_succ_log_self (b := 2) (by norm_num) q
  have least : binary64.emin = -1022 := rfl
  refine ⟨?_, upper.trans_le (two_zpow_le (by omega))⟩
  have middle : (2 : ℚ) ^ (-1075 : ℤ) ≤ binary64.middle m := by
    unfold middle
    have one : (1 : ℚ) ≤ 2 * m + 1 := by
      linarith
    exact le_mul_of_one_le_left (two_zpow_pos _).le one
  have distance : |q - binary64.middle m| ≤ 2 ^ (log 2 q - binary64.trailing - 1) := by
    rcases near with less | ⟨same, -⟩
    · exact less.le
    · exact same.le
  have unit : (2 : ℚ) ^ (log 2 q - binary64.trailing - 1) ≤ q :=
    (two_zpow_le (by omega)).trans lower
  have double : (2 : ℚ) ^ (-1075 : ℤ) ≤ 2 * q := by
    have side := neg_abs_le (q - binary64.middle m)
    linarith
  have half : (2 : ℚ) ^ (-1075 : ℤ) = 2 * 2 ^ (-1076 : ℤ) := by
    rw [show (-1075 : ℤ) = 1 + -1076 from rfl, two_zpow_add, zpow_one]
  have order : (2 : ℚ) ^ (-1100 : ℤ) ≤ 2 ^ (-1076 : ℤ) := two_zpow_le (by decide)
  linarith

theorem div_nearest {x y : Flonum} (hx : x.Is n) (hy : y.Is d) (sign : x.negative = decide (n < 0))
    (sign' : y.negative = false) (hd : 0 < d) : x.div y = ofRational (n / d) := by
  have divisor : y.word ≠ 0 := by
    intro none
    have magnitude := hy.magnitude
    rw [magnitude_eq_zero.mpr none] at magnitude
    exact hd.ne (by exact_mod_cast magnitude)
  unfold div
  rw [hx.nan, hy.nan, hx.infinite, hy.infinite]
  simp only [Bool.false_eq_true, if_false, divisor, hx.magnitude, hy.magnitude, ← abs_div]
  rw [ofRational, sign_ratio hd, sign, sign', Bool.xor_false]

theorem fixnum_of_lossless {x : Flonum} (lossless : integerToFlonum n = some x) (short : ¬Wraps n) : n.natAbs ≤ 2 ^ 57 := by
  have converted : (integerToFlonum n).isSome = true := by rw [lossless]; rfl
  have fixnum := ((integerToFlonum_isSome_iff short).mp converted).1
  simp only [isFixnum, Bool.and_eq_true, decide_eq_true_eq] at fixnum
  omega

theorem not_doubleRounds_of_fixnums {q : ℚ} (positive : 0 < q) (large : (2 : ℚ) ^ (-57 : ℤ) ≤ q) :
    ¬binary64.DoubleRounds q := by
  intro twice
  have order := (two_zpow_le (by decide : (-1022 : ℤ) ≤ -57)).trans large
  exact absurd (DoubleRounds.bounds positive twice).2 (order.not_gt)

section
variable {x y : Flonum}

theorem ratio_fixnums (lossless : integerToFlonum n = some x) (lossless' : integerToFlonum d = some y) (short : ¬Wraps n)
    (short' : ¬Wraps d) (nonzero : n ≠ 0) (hd : 0 < d) :
    x.div y = ofRational (n / d) ∧ ¬binary64.DoubleRounds |(n : ℚ) / d| := by
  obtain ⟨converted, exactly⟩ := integerToFlonum_eq lossless short
  obtain ⟨converted', exactly'⟩ := integerToFlonum_eq lossless' short'
  have sign : x.negative = decide (n < 0) := by
    rw [converted]
    exact decide_eq_decide.mpr (by exact_mod_cast Iff.rfl)
  have sign' : y.negative = false := by
    rw [converted']
    exact decide_eq_false (not_lt.mpr (by exact_mod_cast hd.le))
  have fixnum := fixnum_of_lossless lossless' short'
  refine ⟨div_nearest exactly exactly' sign sign' hd, ?_⟩
  have divisor : (0 : ℚ) < d := by exact_mod_cast hd
  have numerator : (1 : ℚ) ≤ n.natAbs := by exact_mod_cast Int.natAbs_pos.mpr nonzero
  have denominator : (d : ℚ) ≤ 2 ^ 57 := by exact_mod_cast fixnum
  rw [abs_ratio]
  apply not_doubleRounds_of_fixnums (div_pos (by linarith) divisor)
  rw [le_div_iff₀ divisor]
  calc (2 : ℚ) ^ (-57 : ℤ) * d ≤ 2 ^ (-57 : ℤ) * 2 ^ 57 := mul_le_mul_of_nonneg_left denominator (two_zpow_pos _).le
    _ = 1 := by norm_num
    _ ≤ n.natAbs := numerator

theorem ratio_wraps_denominator (lossless : integerToFlonum n = some x) (short : ¬Wraps n) (wraps : Wraps d) (nonzero : n ≠ 0)
    (hd : 0 < d) : ¬Sized |(n : ℚ) / d| := by
  rintro ⟨lower, -⟩
  have divisor : (0 : ℚ) < d := by exact_mod_cast hd
  have positive := abs_ratio_pos nonzero hd
  have lower' : 51 - 2 ^ 31 ≤ log 2 |(n : ℚ) / d| := by
    have digits := (log_toDigits_bounds positive).2
    omega
  rw [← Int.zpow_le_iff_le_log (by decide) positive, abs_ratio, le_div_iff₀ divisor] at lower'
  have numerator : (n.natAbs : ℚ) ≤ 2 ^ (57 : ℤ) := by exact_mod_cast fixnum_of_lossless lossless short
  obtain ⟨k, exponent⟩ : ∃ k : ℕ, (k : ℤ) = 2 ^ 31 + 7 := ⟨2 ^ 31 + 7, by norm_num⟩
  have large := wraps_large wraps (by omega : k ≤ 2 ^ 33)
  have large' : (2 : ℚ) ^ (k : ℤ) ≤ d := by
    exact_mod_cast large
  have product : (2 : ℚ) ^ (51 - 2 ^ 31 : ℤ) * 2 ^ (k : ℤ) ≤ 2 ^ (57 : ℤ) :=
    (mul_le_mul_of_nonneg_left large' (two_zpow_pos _).le).trans (lower'.trans numerator)
  rw [← two_zpow_add] at product
  exact absurd product ((two_zpow_lt (by omega)).not_ge)

theorem ratio_wraps_numerator (lossless : integerToFlonum d = some y) (wraps : Wraps n) (short : ¬Wraps d) (hd : 0 < d) :
    ¬Sized |(n : ℚ) / d| := by
  rintro ⟨-, upper⟩
  have divisor : (0 : ℚ) < d := by exact_mod_cast hd
  have nonzero : n ≠ 0 := by
    rintro rfl
    exact nomatch wraps.1
  have positive := abs_ratio_pos nonzero hd
  rw [← Int.lt_zpow_iff_log_lt (by decide) positive, abs_ratio, div_lt_iff₀ divisor] at upper
  have fixnum := fixnum_of_lossless lossless short
  have denominator : (d : ℚ) ≤ 2 ^ (57 : ℤ) := by exact_mod_cast fixnum
  obtain ⟨k, exponent⟩ : ∃ k : ℕ, (k : ℤ) = 2 ^ 31 + 57 := ⟨2 ^ 31 + 57, by norm_num⟩
  have large : (2 : ℚ) ^ (k : ℤ) ≤ n.natAbs := by
    exact_mod_cast wraps_large wraps (by omega : k ≤ 2 ^ 33)
  have product : (2 : ℚ) ^ (k : ℤ) < 2 ^ (2 ^ 31 : ℤ) * 2 ^ (57 : ℤ) :=
    large.trans_lt (upper.trans_le (mul_le_mul_of_nonneg_left denominator (two_zpow_pos _).le))
  rw [← two_zpow_add, exponent] at product
  exact lt_irrefl _ product

end

/-- How a ratio is converted: its parts are flonums and are divided, or it is rounded to 53 digits. -/
inductive Converted (n : ℤ) (d : ℕ) (x : Flonum) : Prop where
  | divided (once : ¬binary64.DoubleRounds |(n : ℚ) / d|) (same : x = ofRational (n / d))
  | scaled (same : x = ofMagnitude (n < 0) (binary64.toDigits |(n : ℚ) / d|))

theorem ratioToFlonum_converted (nonzero : n ≠ 0) (hd : 0 < d) (sized : Sized |(n : ℚ) / d|) (short : ¬(Wraps n ∧ Wraps d)) :
    Converted n d (ratioToFlonum n d) := by
  have slow := slowMethod_toDigits nonzero hd sized
  unfold ratioToFlonum
  rw [if_neg nonzero]
  cases lossless : integerToFlonum n with
  | none => exact .scaled slow
  | some x =>
    cases lossless' : integerToFlonum d with
    | none => exact .scaled slow
    | some y =>
      by_cases wraps : Wraps n
      · exact absurd sized (ratio_wraps_numerator lossless' wraps (fun wraps' => short ⟨wraps, wraps'⟩) hd)
      · by_cases wraps' : Wraps d
        · exact absurd sized (ratio_wraps_denominator lossless wraps wraps' nonzero hd)
        · obtain ⟨rounded, once⟩ := ratio_fixnums lossless lossless' wraps wraps' nonzero hd
          exact .divided once rounded

theorem overflow_large : (2 : ℚ) ^ (1023 : ℤ) ≤ binary64.overflow := by
  rw [overflow_binary64]
  exact_mod_cast overflowBound_bounds.1

theorem log_of_overflow {q : ℚ} (positive : 0 < q) (small : q < binary64.overflow) : log 2 q < 1024 := by
  rw [← Int.lt_zpow_iff_log_lt (by decide) positive]
  have bound : binary64.overflow ≤ 2 ^ ((1024 : ℕ) : ℤ) := by
    rw [overflow_binary64]
    exact_mod_cast overflowBound_bounds.2
  exact small.trans_le bound

/-- A ratio below the overflow threshold is converted to the nearest flonum, unless it is rounded twice. -/
theorem ratioToFlonum_nearest_iff (proper : 1 < d) (reduced : n.natAbs.Coprime d) (small : |(n : ℚ) / d| < binary64.overflow)
    (int : 52 - 2 ^ 31 ≤ log 2 (binary64.toDigits |(n : ℚ) / d|)) (short : ¬(Wraps n ∧ Wraps d)) :
    ratioToFlonum n d = ofRational (n / d) ↔ ¬binary64.DoubleRounds |(n : ℚ) / d| := by
  have nonzero : n ≠ 0 := by
    rintro rfl
    rw [Int.natAbs_zero, Nat.coprime_zero_left] at reduced
    omega
  have hd : 0 < d := by omega
  have positive := abs_ratio_pos nonzero hd
  cases ratioToFlonum_converted nonzero hd ⟨int, (log_of_overflow positive small).trans (by decide)⟩ short with
  | divided once same => exact iff_of_true same once
  | scaled same =>
    rw [same, ofRational, sign_ratio hd, ofMagnitude_eq_iff, round_toDigits_iff positive]

theorem counted_of_overflow (small : |(n : ℚ)| < binary64.overflow) : Counted n := by
  have magnitude : |(n : ℚ)| = (n.natAbs : ℕ) := by rw [Nat.cast_natAbs, Int.cast_abs]
  rw [magnitude, overflow_binary64] at small
  exact counted_of_small ((by exact_mod_cast small : n.natAbs < Bignum.overflowBound).trans_le overflowBound_bounds.2)

/-- The conversion of an exact rational is to the nearest flonum, but for truncated integers and ratios that are rounded
twice. -/
theorem ratToInexact_nearest_iff {q : ℚ} (small : |q| < binary64.overflow) (int : q = 0 ∨ 52 - 2 ^ 31 ≤ log 2 (binary64.toDigits |q|))
    (short : ¬(Wraps q.num ∧ Wraps q.den)) :
    ratToInexact q = ofRational q ↔ ¬(q.den = 1 ∧ Truncated q.num.natAbs) ∧ ¬binary64.DoubleRounds |q| := by
  have parts : (q.num : ℚ) / q.den = q := Rat.num_div_den q
  unfold ratToInexact
  by_cases integer : q.den = 1
  · have same : (q.num : ℚ) = q := by rw [← parts, integer, Nat.cast_one, div_one, Rat.num_intCast]
    have once : ¬binary64.DoubleRounds |q| := by
      intro twice
      by_cases zero : q = 0
      · have below : log 2 |q| < binary64.emin := twice.1
        rw [zero, abs_zero, Int.log_zero_right] at below
        exact absurd below (by decide)
      · have nonzero : q.num ≠ 0 := Rat.num_ne_zero.mpr zero
        have one : (1 : ℚ) ≤ |q| := by
          rw [← same]
          exact_mod_cast Int.one_le_abs nonzero
        exact not_doubleRounds_of_fixnums (by linarith) ((by norm_num : (2 : ℚ) ^ (-57 : ℤ) ≤ 1).trans one) twice
    have nearest := intToInexact_nearest_iff (counted_of_overflow (same ▸ small))
    rw [same] at nearest
    rw [if_pos integer, nearest]
    simp [integer, once]
  · have proper : 1 < q.den := lt_of_le_of_ne q.den_pos (.symm integer)
    have nonzero : q ≠ 0 := by
      rintro rfl
      exact integer rfl
    have nearest := @ratioToFlonum_nearest_iff q.num q.den proper q.reduced (by rwa [parts])
      (by rw [parts]; exact int.resolve_left nonzero) short
    rw [parts] at nearest
    rw [if_neg integer, nearest]
    simp [integer]

theorem log_of_bounds {q : ℚ} {i j : ℤ} (lower : (2 : ℚ) ^ i ≤ q) (upper : q < 2 ^ j) : i ≤ log 2 q ∧ log 2 q < j := by
  have positive : 0 < q := (two_zpow_pos i).trans_le lower
  rw [← Int.zpow_le_iff_le_log (by decide) positive, ← Int.lt_zpow_iff_log_lt (by decide) positive]
  exact ⟨lower, upper⟩

theorem ratioToFlonum_nearest_third : ratioToFlonum 1 3 = ofRational ((1 : ℤ) / (3 : ℕ)) := by
  have third : |((1 : ℤ) : ℚ) / (3 : ℕ)| = 1 / 3 := by norm_num [abs_of_pos]
  refine (@ratioToFlonum_nearest_iff 1 3 (by decide) (by decide) ?_ ?_ ?_).mpr ?_
  · have one : (2 : ℚ) ^ (0 : ℤ) < 2 ^ (1023 : ℤ) := two_zpow_lt (by decide)
    have less : (1 / 3 : ℚ) < 2 ^ (0 : ℤ) := by norm_num
    rw [third]
    exact less.trans (one.trans_le overflow_large)
  · have bounds := @log_of_bounds (1 / 3) (-2) (-1) (by norm_num) (by norm_num)
    have digits := (@log_toDigits_bounds (1 / 3) (by norm_num)).1
    rw [third]
    omega
  · rintro ⟨wraps, -⟩
    exact nomatch wraps.1
  · exact not_doubleRounds_of_fixnums (by norm_num) (by norm_num)

/-- A ratio just below three halves of the least positive flonum is rounded to three halves, and then up to two. -/
theorem ratioToFlonum_not_nearest : ratioToFlonum (3 * 2 ^ 60 - 1) (2 ^ 1135) ≠
    ofRational (((3 * 2 ^ 60 - 1 : ℤ) : ℚ) / (2 ^ 1135 : ℕ)) := by
  have short : ¬Wraps ((2 ^ 1135 : ℕ) : ℤ) := by
    intro wraps
    have large := wraps_large wraps (by decide : 1136 ≤ 2 ^ 33)
    omega
  have refused : integerToFlonum ((2 ^ 1135 : ℕ) : ℤ) = none := by
    cases lossless : integerToFlonum ((2 ^ 1135 : ℕ) : ℤ) with
    | none => rfl
    | some y =>
      have fixnum := fixnum_of_lossless lossless short
      omega
  have slow : ratioToFlonum (3 * 2 ^ 60 - 1) (2 ^ 1135) = slowMethod (3 * 2 ^ 60 - 1) (2 ^ 1135) := by
    unfold ratioToFlonum
    rw [if_neg (by decide), refused]
    rfl
  have value : |((3 * 2 ^ 60 - 1 : ℤ) : ℚ) / (2 ^ 1135 : ℕ)| = (3 * 2 ^ 60 - 1) * 2 ^ (-1135 : ℤ) := by
    have power : ((2 ^ 1135 : ℕ) : ℚ) = 2 ^ (1135 : ℤ) := by
      rw [Nat.cast_pow]
      exact (zpow_natCast 2 1135).symm
    have numerator : ((3 * 2 ^ 60 - 1 : ℤ) : ℚ) = 3 * 2 ^ 60 - 1 := by norm_num
    rw [power, numerator, abs_of_pos (div_pos (by norm_num) (two_zpow_pos _)), zpow_neg, div_eq_mul_inv]
  have log : log 2 ((3 * 2 ^ 60 - 1 : ℚ) * 2 ^ (-1135 : ℤ)) = -1074 := by
    apply log_eq
    · rw [show (-1074 : ℤ) = 61 + -1135 from rfl, two_zpow_add]
      exact mul_le_mul_of_nonneg_right (by norm_num) (two_zpow_pos _).le
    · rw [show (-1074 + 1 : ℤ) = 62 + -1135 from rfl, two_zpow_add]
      exact mul_lt_mul_of_pos_right (by norm_num) (two_zpow_pos _)
  have sized : Sized |((3 * 2 ^ 60 - 1 : ℤ) : ℚ) / (2 ^ 1135 : ℕ)| := by
    rw [value]
    exact sized_of_log (mul_pos (by norm_num) (two_zpow_pos _)) (by rw [log]; decide) (by rw [log]; decide)
  rw [slow, slowMethod_toDigits (by decide) (Nat.two_pow_pos _) sized, ofRational, sign_ratio (Nat.two_pow_pos _), Ne,
    ofMagnitude_eq_iff, round_toDigits_iff (abs_ratio_pos (by decide) (Nat.two_pow_pos _)), not_not]
  have middle : binary64.middle 1 = 3 * 2 ^ 60 * 2 ^ (-1135 : ℤ) := by
    unfold middle
    rw [show binary64.emin - (binary64.trailing : ℤ) - 1 = 60 + -1135 from rfl, two_zpow_add, ← mul_assoc]
    norm_num
  rw [value]
  refine ⟨by rw [log]; decide, 1, .inl ?_, .inl ⟨?_, rfl⟩⟩
  · have distance : (3 * 2 ^ 60 - 1 : ℚ) * 2 ^ (-1135 : ℤ) - 3 * 2 ^ 60 * 2 ^ (-1135 : ℤ) = -2 ^ (-1135 : ℤ) := by ring
    rw [log, middle, distance, abs_neg, abs_of_pos (two_zpow_pos _)]
    exact two_zpow_lt (by decide)
  · rw [middle]
    exact mul_lt_mul_of_pos_right (by norm_num) (two_zpow_pos _)

theorem round_toDigits_finite_iff {q : ℚ} (positive : 0 < q) :
    binary64.round (binary64.toDigits q) < binary64.infinity ↔ q < binary64.overflow := by
  by_cases normal : binary64.emin ≤ log 2 q
  · rw [round_toDigits positive normal]
    constructor
    · intro finite
      by_contra large
      exact finite.ne ((round_eq_infinity_iff positive (by decide)).mpr (not_lt.mp large))
    · exact round_lt_infinity
  · have below := not_le.mp normal
    have order : (2 : ℚ) ^ binary64.emin < 2 ^ (1023 : ℤ) := two_zpow_lt (by decide)
    have upper := Int.lt_zpow_succ_log_self (R := ℚ) (b := 2) (by decide) q
    have small : q < 2 ^ binary64.emin := by
      exact upper.trans_le (two_zpow_le (by omega))
    refine iff_of_true (round_lt_infinity ?_) (small.trans (order.trans_le overflow_large))
    exact (toDigits_le positive below).trans_lt (order.trans_le overflow_large)

theorem ratioToFlonum_finite (nonzero : n ≠ 0) (hd : 0 < d) (sized : Sized |(n : ℚ) / d|) (short : ¬(Wraps n ∧ Wraps d)) :
    ((ratioToFlonum n d).isFinite = true ↔ |(n : ℚ) / d| < binary64.overflow) ∧
      (ratioToFlonum n d).negative = decide (n < 0) := by
  have positive := abs_ratio_pos nonzero hd
  cases ratioToFlonum_converted nonzero hd sized short with
  | divided once same =>
    rw [same]
    refine ⟨⟨?_, ofMagnitude_finite⟩, sign_ratio hd⟩
    intro finite
    by_contra large
    have word := (round_eq_infinity_iff positive (by decide)).mpr (not_lt.mp large)
    exact (of_decide_eq_true finite).ne word
  | scaled same =>
    rw [same, ← round_toDigits_finite_iff positive]
    exact ⟨decide_eq_true_iff, rfl⟩

end MitScheme.Runtime.Arithmetic
