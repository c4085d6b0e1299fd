import Mathlib.Data.Rat.Floor

/-!
The families `ceiling/`, `euclidean/`, `floor/`, `round/` and `truncate/` on exact integers: each
procedure dispatches on the signs of its arguments and divides natural numbers.
-/

namespace MitScheme.Runtime.Division

/-- The primitive `quotient`, which truncates. -/
def quotient (n d : ℤ) : ℤ := n.tdiv d

/-- The primitive `remainder`, which has the sign of `n`. -/
def remainder (n d : ℤ) : ℤ := n.tmod d

def ceilingMinusMinus (n d : ℤ) : ℤ × ℤ :=
  let n := 0 - n
  let d := 0 - d
  let q := quotient n d
  let r := remainder n d
  if r = 0 then (q, r) else (q + 1, d - r)

def ceilingPlusPlus (n d : ℤ) : ℤ × ℤ :=
  let q := quotient n d
  let r := remainder n d
  if r = 0 then (q, r) else (q + 1, r - d)

/-- `ceiling/`. -/
def ceilingDivide (n d : ℤ) : ℤ × ℤ :=
  if n < 0 ∧ d < 0 then ceilingMinusMinus n d
  else if n < 0 then (0 - quotient (0 - n) d, 0 - remainder (0 - n) d)
  else if d < 0 then (0 - quotient n (0 - d), remainder n (0 - d))
  else ceilingPlusPlus n d

def ceilingQuotient (n d : ℤ) : ℤ :=
  if n < 0 ∧ d < 0 then (ceilingMinusMinus n d).1
  else if n < 0 then 0 - quotient (0 - n) d
  else if d < 0 then 0 - quotient n (0 - d)
  else (ceilingPlusPlus n d).1

def ceilingRemainder (n d : ℤ) : ℤ :=
  if n < 0 ∧ d < 0 then (ceilingMinusMinus n d).2
  else if n < 0 then 0 - remainder (0 - n) d
  else if d < 0 then remainder n (0 - d)
  else (ceilingPlusPlus n d).2

def floorMinusPlus (n d : ℤ) : ℤ × ℤ :=
  let n := 0 - n
  let q := quotient n d
  let r := remainder n d
  if r = 0 then (0 - q, r) else ((0 - q) - 1, d - r)

/-- The floor division by a negative number of one that is not negative. -/
def floorPlusMinus (n d : ℤ) : ℤ × ℤ :=
  let d := 0 - d
  let q := quotient n d
  let r := remainder n d
  if r = 0 then (0 - q, r) else ((0 - q) - 1, r - d)

/-- `euclidean/`. -/
def euclideanDivide (n d : ℤ) : ℤ × ℤ :=
  if n < 0 ∧ d < 0 then ceilingMinusMinus n d
  else if n < 0 then floorMinusPlus n d
  else if d < 0 then (0 - quotient n (0 - d), remainder n (0 - d))
  else (quotient n d, remainder n d)

def euclideanQuotient (n d : ℤ) : ℤ :=
  if n < 0 ∧ d < 0 then (ceilingMinusMinus n d).1
  else if n < 0 then (floorMinusPlus n d).1
  else if d < 0 then 0 - quotient n (0 - d)
  else quotient n d

def euclideanRemainder (n d : ℤ) : ℤ :=
  if n < 0 ∧ d < 0 then (ceilingMinusMinus n d).2
  else if n < 0 then (floorMinusPlus n d).2
  else if d < 0 then remainder n (0 - d)
  else remainder n d

/-- `floor/`. -/
def floorDivide (n d : ℤ) : ℤ × ℤ :=
  if n < 0 ∧ d < 0 then (quotient (0 - n) (0 - d), 0 - remainder (0 - n) (0 - d))
  else if n < 0 then floorMinusPlus n d
  else if d < 0 then floorPlusMinus n d
  else (quotient n d, remainder n d)

def floorQuotient (n d : ℤ) : ℤ :=
  if n < 0 ∧ d < 0 then quotient (0 - n) (0 - d)
  else if n < 0 then (floorMinusPlus n d).1
  else if d < 0 then (floorPlusMinus n d).1
  else quotient n d

def floorRemainder (n d : ℤ) : ℤ :=
  if n < 0 ∧ d < 0 then 0 - remainder (0 - n) (0 - d)
  else if n < 0 then (floorMinusPlus n d).2
  else if d < 0 then (floorPlusMinus n d).2
  else remainder n d

/-- `divisible?`. -/
def isDivisible (n d : ℤ) : Bool := remainder n d = 0

def roundWith (n d : ℤ) (adjust leave : ℤ → ℤ → ℤ × ℤ) : ℤ × ℤ :=
  let q := quotient n d
  let r := remainder n d
  if r ≠ 0 ∧ (Odd q ∧ Even d ∧ isDivisible n (quotient d 2) ∨ d < 2 * r) then adjust (q + 1) (r - d) else leave q r

/-- `round/`. -/
def roundDivide (n d : ℤ) : ℤ × ℤ :=
  if n < 0 ∧ d < 0 then roundWith (0 - n) (0 - d) (fun q r => (q, 0 - r)) (fun q r => (q, 0 - r))
  else if n < 0 then roundWith (0 - n) d (fun q r => (0 - q, 0 - r)) (fun q r => (0 - q, 0 - r))
  else if d < 0 then roundWith n (0 - d) (fun q r => (0 - q, r)) (fun q r => (0 - q, r))
  else roundWith n d (fun q r => (q, r)) (fun q r => (q, r))

def roundQuotient (n d : ℤ) : ℤ := (roundDivide n d).1

def roundRemainder (n d : ℤ) : ℤ := (roundDivide n d).2

/-- `truncate/`. -/
def truncateDivide (n d : ℤ) : ℤ × ℤ :=
  if n < 0 ∧ d < 0 then (quotient (0 - n) (0 - d), 0 - remainder (0 - n) (0 - d))
  else if n < 0 then (0 - quotient (0 - n) d, 0 - remainder (0 - n) d)
  else if d < 0 then (0 - quotient n (0 - d), remainder n (0 - d))
  else (quotient n d, remainder n d)

def truncateQuotient (n d : ℤ) : ℤ :=
  if n < 0 ∧ d < 0 then quotient (0 - n) (0 - d)
  else if n < 0 then 0 - quotient (0 - n) d
  else if d < 0 then 0 - quotient n (0 - d)
  else quotient n d

def truncateRemainder (n d : ℤ) : ℤ :=
  if n < 0 ∧ d < 0 then 0 - remainder (0 - n) (0 - d)
  else if n < 0 then 0 - remainder (0 - n) d
  else if d < 0 then remainder n (0 - d)
  else remainder n d

section
variable {n d q r : ℤ}

structure Divides (n d q r : ℤ) : Prop where
  product : n = d * q + r
  nonneg : 0 ≤ r
  less : r < d
  quotient_nonneg : 0 ≤ q

theorem divides (nonneg : 0 ≤ n) (positive : 0 < d) : Divides n d (quotient n d) (remainder n d) where
  product := (Int.mul_tdiv_add_tmod n d).symm
  nonneg := Int.tmod_nonneg d nonneg
  less := Int.tmod_lt_of_pos n positive
  quotient_nonneg := Int.tdiv_nonneg nonneg positive.le

theorem ratio_eq (product : n = d * q + r) (nonzero : d ≠ 0) : (n : ℚ) / d = q + (r : ℚ) / d := by
  rw [product]
  push_cast
  field_simp

theorem floor_of (product : n = d * q + r) (sign : 0 < d ∧ 0 ≤ r ∧ r < d ∨ d < 0 ∧ d < r ∧ r ≤ 0) :
    q = ⌊(n : ℚ) / d⌋ := by
  have nonzero : d ≠ 0 := by omega
  symm
  rw [ratio_eq product nonzero, Int.floor_eq_iff]
  have fraction : (0 : ℚ) ≤ (r : ℚ) / d ∧ (r : ℚ) / d < 1 := by
    rcases sign with ⟨positive, nonneg, less⟩ | ⟨negative, greater, nonpos⟩
    · have positive : (0 : ℚ) < d := Int.cast_pos.mpr positive
      exact ⟨div_nonneg (Int.cast_nonneg nonneg) positive.le, (div_lt_one positive).mpr (Int.cast_lt.mpr less)⟩
    · have negative : (d : ℚ) < 0 := Int.cast_lt_zero.mpr negative
      exact ⟨div_nonneg_of_nonpos (Int.cast_nonpos.mpr nonpos) negative.le,
        (div_lt_one_of_neg negative).mpr (Int.cast_lt.mpr greater)⟩
  constructor
  · linarith [fraction.1]
  · linarith [fraction.2]

theorem ceil_of (product : n = d * q + r) (sign : 0 < d ∧ -d < r ∧ r ≤ 0 ∨ d < 0 ∧ 0 ≤ r ∧ r < -d) :
    q = ⌈(n : ℚ) / d⌉ := by
  have mirrored : -q = ⌊((-n : ℤ) : ℚ) / d⌋ := floor_of (r := -r) (by linarith) (by omega)
  rw [Int.cast_neg, neg_div, Int.floor_neg] at mirrored
  omega

def truncation (x : ℚ) : ℤ := if 0 ≤ x then ⌊x⌋ else ⌈x⌉

theorem truncation_of (product : n = d * q + r) (less : |r| < |d|) (above : 0 ≤ n → 0 ≤ r) (below : n ≤ 0 → r ≤ 0) :
    q = truncation ((n : ℚ) / d) := by
  have nonzero : d ≠ 0 := by
    rintro rfl
    exact absurd less (by simp)
  unfold truncation
  rcases lt_or_gt_of_ne nonzero with negative | positive
  · rw [abs_of_neg negative, abs_lt] at less
    have divisor : (d : ℚ) < 0 := Int.cast_lt_zero.mpr negative
    by_cases dividend : 0 < n
    · rw [if_neg ((div_neg_of_pos_of_neg (Int.cast_pos.mpr dividend) divisor).not_ge)]
      exact ceil_of product (by omega)
    · rw [if_pos (div_nonneg_of_nonpos (Int.cast_nonpos.mpr (not_lt.mp dividend)) divisor.le)]
      exact floor_of product (by omega)
  · rw [abs_of_pos positive, abs_lt] at less
    have divisor : (0 : ℚ) < d := Int.cast_pos.mpr positive
    by_cases dividend : n < 0
    · rw [if_neg ((div_neg_of_neg_of_pos (Int.cast_lt_zero.mpr dividend) divisor).not_ge)]
      exact ceil_of product (by omega)
    · rw [if_pos (div_nonneg (Int.cast_nonneg (not_lt.mp dividend)) divisor.le)]
      exact floor_of product (by omega)

def NearestEven (x : ℚ) (q : ℤ) : Prop := |x - q| ≤ 1 / 2 ∧ (|x - q| = 1 / 2 → Even q)

theorem nearestEven_of (product : n = d * q + r) (nonzero : d ≠ 0) (near : 2 * |r| ≤ |d|)
    (tie : 2 * |r| = |d| → Even q) : NearestEven ((n : ℚ) / d) q := by
  have positive : (0 : ℚ) < |(d : ℚ)| := abs_pos.mpr (Int.cast_ne_zero.mpr nonzero)
  have distance : |(n : ℚ) / d - q| = |(r : ℚ)| / |(d : ℚ)| := by
    rw [ratio_eq product nonzero, add_sub_cancel_left, abs_div]
  unfold NearestEven
  rw [distance]
  constructor
  · rw [div_le_iff₀ positive]
    have near : (2 : ℚ) * |(r : ℚ)| ≤ |(d : ℚ)| := by exact_mod_cast near
    linarith
  · intro half
    rw [div_eq_iff positive.ne'] at half
    refine tie ?_
    have half : (2 : ℚ) * |(r : ℚ)| = |(d : ℚ)| := by linarith
    exact_mod_cast half

end

section
variable {n d : ℤ}

theorem ceilingMinusMinus_law (negative_n : n < 0) (negative_d : d < 0) :
    n = d * (ceilingMinusMinus n d).1 + (ceilingMinusMinus n d).2 ∧
      0 ≤ (ceilingMinusMinus n d).2 ∧ (ceilingMinusMinus n d).2 < -d := by
  obtain ⟨product, nonneg, less, -⟩ := @divides (0 - n) (0 - d) (by omega) (by omega)
  unfold ceilingMinusMinus
  dsimp only
  split_ifs with exact
  · exact ⟨by linarith, by omega, by omega⟩
  · exact ⟨by linarith, by omega, by omega⟩

theorem ceilingPlusPlus_law (nonneg_n : 0 ≤ n) (positive_d : 0 < d) :
    n = d * (ceilingPlusPlus n d).1 + (ceilingPlusPlus n d).2 ∧
      -d < (ceilingPlusPlus n d).2 ∧ (ceilingPlusPlus n d).2 ≤ 0 := by
  obtain ⟨product, nonneg, less, -⟩ := divides nonneg_n positive_d
  unfold ceilingPlusPlus
  dsimp only
  split_ifs with exact
  · exact ⟨by linarith, by omega, by omega⟩
  · exact ⟨by linarith, by omega, by omega⟩

theorem floorMinusPlus_law (negative_n : n < 0) (positive_d : 0 < d) : n =
    d * (floorMinusPlus n d).1 + (floorMinusPlus n d).2 ∧ 0 ≤ (floorMinusPlus n d).2 ∧ (floorMinusPlus n d).2 < d := by
  obtain ⟨product, nonneg, less, -⟩ := @divides (0 - n) d (by omega) positive_d
  unfold floorMinusPlus
  dsimp only
  split_ifs with exact
  · exact ⟨by linarith, by omega, by omega⟩
  · exact ⟨by linarith, by omega, by omega⟩

theorem floorPlusMinus_law (nonneg_n : 0 ≤ n) (negative_d : d < 0) : n =
    d * (floorPlusMinus n d).1 + (floorPlusMinus n d).2 ∧ d < (floorPlusMinus n d).2 ∧ (floorPlusMinus n d).2 ≤ 0 := by
  obtain ⟨product, nonneg, less, -⟩ := @divides n (0 - d) nonneg_n (by omega)
  unfold floorPlusMinus
  dsimp only
  split_ifs with exact
  · exact ⟨by linarith, by omega, by omega⟩
  · exact ⟨by linarith, by omega, by omega⟩

theorem ceilingDivide_law (nonzero : d ≠ 0) :
    n = d * (ceilingDivide n d).1 + (ceilingDivide n d).2 ∧ (ceilingDivide n d).1 = ⌈(n : ℚ) / d⌉ := by
  suffices law : n = d * (ceilingDivide n d).1 + (ceilingDivide n d).2 ∧
      (0 < d ∧ -d < (ceilingDivide n d).2 ∧ (ceilingDivide n d).2 ≤ 0 ∨
        d < 0 ∧ 0 ≤ (ceilingDivide n d).2 ∧ (ceilingDivide n d).2 < -d) from ⟨law.1, ceil_of law.1 law.2⟩
  unfold ceilingDivide
  split_ifs with both negative_n negative_d
  · obtain ⟨product, sign⟩ := ceilingMinusMinus_law both.1 both.2
    exact ⟨product, .inr ⟨both.2, sign⟩⟩
  · obtain ⟨product, nonneg, less, -⟩ := @divides (0 - n) d (by omega) (by omega)
    exact ⟨by linarith, by omega⟩
  · obtain ⟨product, nonneg, less, -⟩ := @divides n (0 - d) (by omega) (by omega)
    exact ⟨by linarith, by omega⟩
  · have positive : 0 < d := by omega
    obtain ⟨product, sign⟩ := ceilingPlusPlus_law (not_lt.mp negative_n) positive
    exact ⟨product, .inl ⟨positive, sign⟩⟩

theorem euclideanDivide_law (nonzero : d ≠ 0) : n = d * (euclideanDivide n d).1 + (euclideanDivide n d).2 ∧
    0 ≤ (euclideanDivide n d).2 ∧ (euclideanDivide n d).2 < |d| := by
  unfold euclideanDivide
  split_ifs with both negative_n negative_d
  · obtain ⟨product, nonneg, less⟩ := ceilingMinusMinus_law both.1 both.2
    exact ⟨product, nonneg, by rw [abs_of_neg both.2]; exact less⟩
  · have positive : 0 < d := by omega
    obtain ⟨product, nonneg, less⟩ := floorMinusPlus_law negative_n positive
    exact ⟨product, nonneg, by rw [abs_of_pos positive]; exact less⟩
  · obtain ⟨product, nonneg, less, -⟩ := @divides n (0 - d) (by omega) (by omega)
    exact ⟨by linarith, nonneg, by rw [abs_of_neg negative_d]; omega⟩
  · have positive : 0 < d := by omega
    obtain ⟨product, nonneg, less, -⟩ := divides (not_lt.mp negative_n) positive
    exact ⟨by linarith, nonneg, by rw [abs_of_pos positive]; exact less⟩

theorem floorDivide_law (nonzero : d ≠ 0) :
    n = d * (floorDivide n d).1 + (floorDivide n d).2 ∧ (floorDivide n d).1 = ⌊(n : ℚ) / d⌋ := by
  suffices law : n = d * (floorDivide n d).1 + (floorDivide n d).2 ∧
      (0 < d ∧ 0 ≤ (floorDivide n d).2 ∧ (floorDivide n d).2 < d ∨
        d < 0 ∧ d < (floorDivide n d).2 ∧ (floorDivide n d).2 ≤ 0) from ⟨law.1, floor_of law.1 law.2⟩
  unfold floorDivide
  split_ifs with both negative_n negative_d
  · obtain ⟨product, nonneg, less, -⟩ := @divides (0 - n) (0 - d) (by omega) (by omega)
    exact ⟨by linarith, by omega⟩
  · have positive : 0 < d := by omega
    obtain ⟨product, sign⟩ := floorMinusPlus_law negative_n positive
    exact ⟨product, .inl ⟨positive, sign⟩⟩
  · obtain ⟨product, sign⟩ := floorPlusMinus_law (not_lt.mp negative_n) negative_d
    exact ⟨product, .inr ⟨negative_d, sign⟩⟩
  · obtain ⟨product, nonneg, less, -⟩ := divides (not_lt.mp negative_n) (show 0 < d by omega)
    exact ⟨by linarith, by omega⟩

theorem truncateDivide_law (nonzero : d ≠ 0) : n =
    d * (truncateDivide n d).1 + (truncateDivide n d).2 ∧ (truncateDivide n d).1 = truncation ((n : ℚ) / d) := by
  suffices law : n = d * (truncateDivide n d).1 + (truncateDivide n d).2 ∧
      |(truncateDivide n d).2| < |d| ∧ (0 ≤ n → 0 ≤ (truncateDivide n d).2) ∧ (n ≤ 0 → (truncateDivide n d).2 ≤ 0)
    from ⟨law.1, truncation_of law.1 law.2.1 law.2.2.1 law.2.2.2⟩
  unfold truncateDivide
  split_ifs with both negative_n negative_d
  · obtain ⟨product, nonneg, less, -⟩ := @divides (0 - n) (0 - d) (by omega) (by omega)
    exact ⟨by linarith, by rw [abs_lt, abs_of_neg both.2]; omega, by omega, by omega⟩
  · have positive : 0 < d := by omega
    obtain ⟨product, nonneg, less, -⟩ := @divides (0 - n) d (by omega) positive
    exact ⟨by linarith, by rw [abs_lt, abs_of_pos positive]; omega, by omega, by omega⟩
  · obtain ⟨product, nonneg, less, -⟩ := @divides n (0 - d) (by omega) (by omega)
    refine ⟨by linarith, by rw [abs_lt, abs_of_neg negative_d]; omega, fun _ => nonneg, fun nonpos => ?_⟩
    obtain rfl : n = 0 := by omega
    simp [remainder]
  · have positive : 0 < d := by omega
    obtain ⟨product, nonneg, less, -⟩ := divides (not_lt.mp negative_n) positive
    refine ⟨by linarith, by rw [abs_lt, abs_of_pos positive]; omega, fun _ => nonneg, fun nonpos => ?_⟩
    obtain rfl : n = 0 := by omega
    simp [remainder]

theorem isDivisible_half {h q r : ℤ} (product : n = 2 * h * q + r) (positive : 0 < r) (less : r < 2 * h) :
    isDivisible n (quotient (2 * h) 2) = true ↔ r = h := by
  have half : quotient (2 * h) 2 = h := Int.mul_tdiv_cancel_left h (by decide)
  rw [isDivisible, decide_eq_true_iff, half, remainder, ← Int.dvd_iff_tmod_eq_zero, product]
  have multiple : h ∣ 2 * h * q := ⟨2 * q, by ring⟩
  rw [dvd_add_right multiple]
  constructor
  · rintro ⟨j, rfl⟩
    have positive_h : 0 < h := by omega
    have lower : 0 < j := pos_of_mul_pos_right positive positive_h.le
    have upper : j < 2 := lt_of_mul_lt_mul_left (by linarith) positive_h.le
    obtain rfl : j = 1 := by omega
    exact mul_one h
  · rintro rfl
    exact dvd_refl _

theorem roundWith_law (nonneg_n : 0 ≤ n) (positive_d : 0 < d) (result : ℤ → ℤ → ℤ × ℤ) :
    ∃ q r, roundWith n d result result = result q r ∧ n = d * q + r ∧ 2 * |r| ≤ d ∧ (2 * |r| = d → Even q) := by
  obtain ⟨product, nonneg, less, -⟩ := divides nonneg_n positive_d
  unfold roundWith
  dsimp only
  generalize quotient n d = q at *
  generalize remainder n d = r at *
  split_ifs with adjusts
  · obtain ⟨nonzero, tie | greater⟩ := adjusts
    · obtain ⟨odd, ⟨h, even⟩, divisible⟩ := tie
      rw [← two_mul] at even
      subst even
      rw [isDivisible_half product (by omega) less] at divisible
      subst divisible
      refine ⟨q + 1, r - 2 * r, rfl, by linarith, ?_, fun _ => odd.add_one⟩
      rw [abs_of_nonpos (by omega)]
      omega
    · refine ⟨q + 1, r - d, rfl, by linarith, ?_, fun tie => ?_⟩
      · rw [abs_of_neg (by omega)]
        omega
      · rw [abs_of_neg (by omega)] at tie
        omega
  · refine ⟨q, r, rfl, product, ?_, fun tie => ?_⟩
    · rw [abs_of_nonneg nonneg]
      by_contra greater
      exact adjusts ⟨by omega, .inr (by omega)⟩
    · rw [abs_of_nonneg nonneg] at tie
      by_contra odd
      refine adjusts ⟨by omega, .inl ⟨Int.not_even_iff_odd.mp odd, ⟨r, by omega⟩, ?_⟩⟩
      subst tie
      exact (isDivisible_half product (by omega) less).mpr rfl

theorem roundDivide_law (nonzero : d ≠ 0) :
    n = d * (roundDivide n d).1 + (roundDivide n d).2 ∧ NearestEven ((n : ℚ) / d) (roundDivide n d).1 := by
  suffices law : n = d * (roundDivide n d).1 + (roundDivide n d).2 ∧ 2 * |(roundDivide n d).2| ≤ |d| ∧
      (2 * |(roundDivide n d).2| = |d| → Even (roundDivide n d).1) from
    ⟨law.1, nearestEven_of law.1 nonzero law.2.1 law.2.2⟩
  unfold roundDivide
  split_ifs with both negative_n negative_d
  · obtain ⟨q, r, divided, product, near, tie⟩ :=
      @roundWith_law (0 - n) (0 - d) (by omega) (by omega) fun q r => (q, 0 - r)
    rw [divided, zero_sub, abs_neg, abs_of_neg both.2]
    rw [zero_sub] at near tie product
    exact ⟨by linarith, near, tie⟩
  · have positive : 0 < d := by omega
    obtain ⟨q, r, divided, product, near, tie⟩ :=
      @roundWith_law (0 - n) d (by omega) positive fun q r => (0 - q, 0 - r)
    rw [divided, zero_sub, zero_sub, abs_neg, abs_of_pos positive]
    exact ⟨by linarith, near, fun equal => (tie equal).neg⟩
  · obtain ⟨q, r, divided, product, near, tie⟩ :=
      @roundWith_law n (0 - d) (by omega) (by omega) fun q r => (0 - q, r)
    rw [divided, zero_sub, abs_of_neg negative_d]
    rw [zero_sub] at near tie product
    exact ⟨by linarith, near, fun equal => (tie equal).neg⟩
  · have positive : 0 < d := by omega
    obtain ⟨q, r, divided, product, near, tie⟩ := roundWith_law (not_lt.mp negative_n) positive fun q r => (q, r)
    rw [divided, abs_of_pos positive]
    exact ⟨product, near, tie⟩

/-- The procedures of a family: the pair divides, the quotient is the one of the family, and the
procedures for the quotient and the remainder return the parts of the pair. -/
structure Family (n d : ℤ) (pair : ℤ × ℤ) (quotient remainder : ℤ) (rounds : ℤ → ℤ → Prop) : Prop where
  product : n = d * pair.1 + pair.2
  rounds : rounds pair.1 pair.2
  quotient_eq : quotient = pair.1
  remainder_eq : remainder = pair.2

/-- The laws of the division families. -/
theorem division_families (n d : ℤ) (nonzero : d ≠ 0) :
    Family n d (ceilingDivide n d) (ceilingQuotient n d) (ceilingRemainder n d) (fun q _ => q = ⌈(n : ℚ) / d⌉) ∧
    Family n d (euclideanDivide n d) (euclideanQuotient n d) (euclideanRemainder n d) (fun _ r => 0 ≤ r ∧ r < |d|) ∧
    Family n d (floorDivide n d) (floorQuotient n d) (floorRemainder n d) (fun q _ => q = ⌊(n : ℚ) / d⌋) ∧
    Family n d (roundDivide n d) (roundQuotient n d) (roundRemainder n d) (fun q _ => NearestEven ((n : ℚ) / d) q) ∧
    Family n d (truncateDivide n d) (truncateQuotient n d) (truncateRemainder n d)
      (fun q _ => q = truncation ((n : ℚ) / d)) := by
  obtain ⟨ceiling_product, ceiling⟩ := ceilingDivide_law (n := n) nonzero
  obtain ⟨euclidean_product, euclidean⟩ := euclideanDivide_law (n := n) nonzero
  obtain ⟨floor_product, floor⟩ := floorDivide_law (n := n) nonzero
  obtain ⟨round_product, round⟩ := roundDivide_law (n := n) nonzero
  obtain ⟨truncate_product, truncate⟩ := truncateDivide_law (n := n) nonzero
  refine ⟨⟨ceiling_product, ceiling, ?_, ?_⟩, ⟨euclidean_product, euclidean, ?_, ?_⟩, ⟨floor_product, floor, ?_, ?_⟩,
    ⟨round_product, round, rfl, rfl⟩, ⟨truncate_product, truncate, ?_, ?_⟩⟩
  · unfold ceilingQuotient ceilingDivide
    split_ifs <;> rfl
  · unfold ceilingRemainder ceilingDivide
    split_ifs <;> rfl
  · unfold euclideanQuotient euclideanDivide
    split_ifs <;> rfl
  · unfold euclideanRemainder euclideanDivide
    split_ifs <;> rfl
  · unfold floorQuotient floorDivide
    split_ifs <;> rfl
  · unfold floorRemainder floorDivide
    split_ifs <;> rfl
  · unfold truncateQuotient truncateDivide
    split_ifs <;> rfl
  · unfold truncateRemainder truncateDivide
    split_ifs <;> rfl

theorem division_families_seven :
    Family (-7) 2 (ceilingDivide (-7) 2) (ceilingQuotient (-7) 2) (ceilingRemainder (-7) 2)
      (fun q _ => q = ⌈((-7 : ℤ) : ℚ) / (2 : ℤ)⌉) ∧
    Family (-7) 2 (euclideanDivide (-7) 2) (euclideanQuotient (-7) 2) (euclideanRemainder (-7) 2)
      (fun _ r => 0 ≤ r ∧ r < |2|) ∧
    Family (-7) 2 (floorDivide (-7) 2) (floorQuotient (-7) 2) (floorRemainder (-7) 2)
      (fun q _ => q = ⌊((-7 : ℤ) : ℚ) / (2 : ℤ)⌋) ∧
    Family (-7) 2 (roundDivide (-7) 2) (roundQuotient (-7) 2) (roundRemainder (-7) 2)
      (fun q _ => NearestEven (((-7 : ℤ) : ℚ) / (2 : ℤ)) q) ∧
    Family (-7) 2 (truncateDivide (-7) 2) (truncateQuotient (-7) 2) (truncateRemainder (-7) 2)
      (fun q _ => q = truncation (((-7 : ℤ) : ℚ) / (2 : ℤ))) :=
  division_families (-7) 2 (by decide)

end

end MitScheme.Runtime.Division
