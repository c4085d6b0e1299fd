import Mathlib.Tactic.LinearCombination
import MitScheme.Library.BinaryFormat

/-!
A rational is first rounded to the digits of a significand, at whatever exponent, and then to the format. Below the
normal range the first rounding may reach the middle between two numbers, from which the second one goes the wrong way.
-/

namespace MitScheme.Library

def NearestInt (q : ℚ) (n : ℤ) : Prop := (n - 1 / 2 < q ∧ q < n + 1 / 2) ∨ (q = n - 1 / 2 ∨ q = n + 1 / 2) ∧ n % 2 = 0

theorem nearestInt_roundHalfEven (q : ℚ) : NearestInt q (roundHalfEven q) := by
  have floor := Int.floor_le q
  have ceiling := Int.lt_floor_add_one q
  unfold NearestInt roundHalfEven
  split_ifs with below above even
  · exact .inl ⟨by linarith, by linarith⟩
  · push_cast
    exact .inl ⟨by linarith, by linarith⟩
  · exact .inr ⟨.inr (by linarith), even⟩
  · push_cast
    exact .inr ⟨.inl (by linarith), by omega⟩

theorem NearestInt.bounds {q : ℚ} {n : ℤ} (nearest : NearestInt q n) : (n : ℚ) - 1 / 2 ≤ q ∧ q ≤ n + 1 / 2 := by
  rcases nearest with ⟨_, _⟩ | ⟨_ | _, _⟩ <;> constructor <;> linarith

theorem NearestInt.not_next {q : ℚ} {n : ℤ} (nearest : NearestInt q n) : ¬NearestInt q (n + 1) := by
  intro next
  have upper := nearest.bounds.2
  have lower := next.bounds.1
  push_cast at lower
  rcases nearest with ⟨_, inside⟩ | ⟨_, even⟩
  · linarith
  · rcases next with ⟨inside, _⟩ | ⟨_, even'⟩
    · push_cast at inside
      linarith
    · omega

theorem NearestInt.unique {q : ℚ} {m n : ℤ} (hm : NearestInt q m) (hn : NearestInt q n) : m = n := by
  have close : (m : ℚ) ≤ n + 1 ∧ (n : ℚ) ≤ m + 1 := by
    have first := hm.bounds
    have second := hn.bounds
    constructor <;> linarith
  have near : m ≤ n + 1 ∧ n ≤ m + 1 := by exact_mod_cast close
  by_contra different
  have apart : m = n + 1 ∨ n = m + 1 := by omega
  rcases apart with rfl | rfl
  · exact hn.not_next hm
  · exact hm.not_next hn

theorem roundHalfEven_eq_iff {q : ℚ} {n : ℤ} : roundHalfEven q = n ↔ NearestInt q n :=
  ⟨fun same => same ▸ nearestInt_roundHalfEven q, (nearestInt_roundHalfEven q).unique⟩

theorem le_roundHalfEven {q : ℚ} {n : ℤ} (le : (n : ℚ) ≤ q) : n ≤ roundHalfEven q := by
  have floor : n ≤ ⌊q⌋ := Int.le_floor.mpr le
  unfold roundHalfEven
  omega

/-- On a grid that halves the unit some times, rounding to the grid first is wrong just where it reaches the middle of
two integers from the side of the odd one. -/
theorem roundHalfEven_grid_iff {y v : ℚ} {k : ℕ} (grid : v * 2 ^ (k + 1) = 1) :
    roundHalfEven (roundHalfEven (y / v) * v) = roundHalfEven y ↔
      ¬∃ m : ℤ, roundHalfEven (y / v) * v = m + 1 / 2 ∧ (y < m + 1 / 2 ∧ m % 2 = 1 ∨ (m : ℚ) + 1 / 2 < y ∧ m % 2 = 0) := by
  have positive : 0 < v := by
    by_contra nonpos
    have product := mul_nonpos_of_nonpos_of_nonneg (not_lt.mp nonpos) (show (0 : ℚ) ≤ 2 ^ (k + 1) by positivity)
    linarith
  have half_on_grid : ∀ m : ℤ, (m : ℚ) + 1 / 2 = ((2 * m + 1) * 2 ^ k : ℤ) * v := by
    intro m
    have double : v * 2 ^ k = 1 / 2 := by
      rw [pow_succ] at grid
      linarith
    push_cast
    rw [mul_assoc, mul_comm _ v, double]
    ring
  obtain ⟨n, rounded⟩ : ∃ n, n = roundHalfEven y := ⟨_, rfl⟩
  obtain ⟨z, first⟩ : ∃ z, z = roundHalfEven (y / v) * v := ⟨_, rfl⟩
  have nearest : NearestInt y n := rounded ▸ nearestInt_roundHalfEven y
  have upto : y ≤ n + 1 / 2 → z ≤ n + 1 / 2 := by
    intro le
    rw [half_on_grid, ← div_le_iff₀ positive] at le
    rw [first, half_on_grid]
    exact mul_le_mul_of_nonneg_right (by exact_mod_cast roundHalfEven_le le) positive.le
  have downto : (n - 1 : ℤ) + 1 / 2 ≤ y → (n - 1 : ℤ) + 1 / 2 ≤ z := by
    intro le
    rw [half_on_grid, ← le_div_iff₀ positive] at le
    rw [first, half_on_grid]
    exact mul_le_mul_of_nonneg_right (by exact_mod_cast le_roundHalfEven le) positive.le
  push_cast at downto
  have range := nearest.bounds
  have above := upto range.2
  have below := downto (by linarith [range.1])
  rw [← rounded, ← first, roundHalfEven_eq_iff]
  constructor
  · rintro result ⟨m, half, wrong⟩
    have which : m = n ∨ m = n - 1 := by
      have order : (m : ℚ) < n + 1 ∧ (n : ℚ) < m + 2 := by constructor <;> linarith
      have order' : m < n + 1 ∧ n < m + 2 := by exact_mod_cast order
      omega
    rcases which with rfl | rfl
    · rcases result with ⟨_, _⟩ | ⟨_, even⟩
      · linarith
      · rcases wrong with ⟨_, odd⟩ | ⟨_, _⟩
        · omega
        · linarith [range.2]
    · push_cast at half wrong
      rcases result with ⟨_, _⟩ | ⟨_, even⟩
      · linarith
      · rcases wrong with ⟨_, _⟩ | ⟨_, even'⟩
        · linarith [range.1]
        · omega
  · intro right
    rcases above.lt_or_eq with less | high
    · rcases below.lt_or_eq with more | low
      · exact .inl ⟨by linarith, less⟩
      · refine .inr ⟨.inl (by linarith), ?_⟩
        rcases nearest with ⟨inside, _⟩ | ⟨_, even⟩
        · by_contra odd
          exact right ⟨n - 1, by push_cast; linarith, .inr ⟨by push_cast; linarith, by omega⟩⟩
        · exact even
    · refine .inr ⟨.inr high, ?_⟩
      rcases nearest with ⟨_, inside⟩ | ⟨_, even⟩
      · by_contra odd
        exact right ⟨n, high, .inl ⟨inside, by omega⟩⟩
      · exact even

theorem roundHalfEven_cut_iff {y z v : ℚ} {k : ℕ} {j : ℤ} (grid : v * 2 ^ (k + 1) = 1) (multiple : y = j * v) (above : y < z)
    (below : z < y + v) : roundHalfEven y = roundHalfEven z ↔ ∀ m : ℤ, m % 2 = 0 → y ≠ m + 1 / 2 := by
  have power : (1 : ℚ) ≤ 2 ^ k := one_le_pow₀ (by norm_num)
  have unit : 0 < v := by
    by_contra none
    linarith
  have half : v * 2 ^ k = 1 / 2 := by
    rw [pow_succ] at grid
    linarith
  have short : v ≤ 1 / 2 := half ▸ le_mul_of_one_le_right unit.le power
  by_cases middle : ∃ m : ℤ, y = m + 1 / 2
  · obtain ⟨m, same⟩ := middle
    have next : roundHalfEven z = m + 1 := roundHalfEven_eq_iff.mpr (.inl (by push_cast; constructor <;> linarith))
    rw [next]
    constructor
    · intro up m' even same'
      have equal : m' = m := by
        have cast : (m' : ℚ) = m := by linarith
        exact_mod_cast cast
      have down : roundHalfEven y = m := roundHalfEven_eq_iff.mpr (.inr ⟨.inr same, equal ▸ even⟩)
      omega
    · intro off
      have odd : m % 2 ≠ 0 := fun even => off m even same
      exact roundHalfEven_eq_iff.mpr (.inr ⟨.inl (by push_cast; linarith), by omega⟩)
  · refine iff_of_true ?_ fun m _ same => middle ⟨m, same⟩
    obtain ⟨n, rounded⟩ : ∃ n, roundHalfEven y = n := ⟨_, rfl⟩
    have bounds := (roundHalfEven_eq_iff.mp rounded).bounds
    have strict : y < n + 1 / 2 := lt_of_le_of_ne bounds.2 fun same => middle ⟨n, same⟩
    -- The next middle is a multiple of the unit too, so that the whole unit lies below it.
    have next : (n : ℚ) + 1 / 2 = ((n * 2 ^ (k + 1) + 2 ^ k : ℤ) : ℚ) * v := by
      push_cast
      linear_combination (-(n : ℚ)) * grid - half
    have order : j + 1 ≤ n * 2 ^ (k + 1) + 2 ^ k := by
      rw [multiple, next, mul_lt_mul_iff_of_pos_right unit] at strict
      exact_mod_cast strict
    have room : y + v ≤ n + 1 / 2 := by
      rw [next, multiple, ← add_one_mul]
      exact mul_le_mul_of_nonneg_right (by exact_mod_cast order) unit.le
    rw [rounded]
    exact (roundHalfEven_eq_iff.mpr (.inl ⟨by linarith [bounds.1], by linarith⟩)).symm

namespace BinaryFormat

variable {f : BinaryFormat} {q : ℚ}

/-- The rational rounded to the digits of a significand, at whatever exponent. -/
def toDigits (f : BinaryFormat) (q : ℚ) : ℚ :=
  roundHalfEven (q / 2 ^ (Int.log 2 q - f.trailing)) * 2 ^ (Int.log 2 q - f.trailing)

theorem digits_bounds (positive : 0 < q) : 2 ^ f.trailing ≤ roundHalfEven (q / 2 ^ (Int.log 2 q - f.trailing)) ∧
    roundHalfEven (q / 2 ^ (Int.log 2 q - f.trailing)) ≤ 2 ^ (f.trailing + 1) := by
  have lower := Int.zpow_log_le_self (b := 2) (by norm_num) positive
  have upper := Int.lt_zpow_succ_log_self (b := 2) (by norm_num) q
  have unit := two_zpow_pos (Int.log 2 q - f.trailing)
  have whole : ∀ j : ℕ, (((2 ^ j : ℤ)) : ℚ) = 2 ^ (j : ℤ) := by
    intro j
    push_cast
    rfl
  constructor
  · apply le_roundHalfEven
    rw [le_div_iff₀ unit, whole, ← two_zpow_add]
    exact (two_zpow_le (by omega)).trans lower
  · apply roundHalfEven_le
    rw [div_le_iff₀ unit, whole, ← two_zpow_add]
    exact upper.le.trans (two_zpow_le (by omega))

theorem toDigits_pos (positive : 0 < q) : 0 < f.toDigits q := by
  have power : (0 : ℤ) < 2 ^ f.trailing := by positivity
  have digits : 0 < roundHalfEven (q / 2 ^ (Int.log 2 q - f.trailing)) := power.trans_le (digits_bounds positive).1
  exact mul_pos (by exact_mod_cast digits) (two_zpow_pos _)

theorem log_toDigits (positive : 0 < q) : Int.log 2 (f.toDigits q) =
    if roundHalfEven (q / 2 ^ (Int.log 2 q - f.trailing)) < 2 ^ (f.trailing + 1) then Int.log 2 q else Int.log 2 q + 1 := by
  obtain ⟨atLeast, atMost⟩ := @digits_bounds f q positive
  obtain ⟨n, digits⟩ : ∃ n, n = roundHalfEven (q / 2 ^ (Int.log 2 q - f.trailing)) := ⟨_, rfl⟩
  have whole : ∀ j : ℕ, (((2 ^ j : ℤ)) : ℚ) = 2 ^ (j : ℤ) := by
    intro j
    push_cast
    rfl
  unfold toDigits
  rw [← digits] at atLeast atMost ⊢
  split
  · rename_i short
    apply log_eq
    · calc (2 : ℚ) ^ Int.log 2 q = ((2 ^ f.trailing : ℤ) : ℚ) * 2 ^ (Int.log 2 q - f.trailing) := by
            rw [whole, ← two_zpow_add]
            ring_nf
        _ ≤ n * 2 ^ (Int.log 2 q - f.trailing) :=
          mul_le_mul_of_nonneg_right (by exact_mod_cast atLeast) (two_zpow_pos _).le
    · calc (n : ℚ) * 2 ^ (Int.log 2 q - f.trailing) < ((2 ^ (f.trailing + 1) : ℤ) : ℚ) * 2 ^ (Int.log 2 q - f.trailing) :=
            mul_lt_mul_of_pos_right (by exact_mod_cast short) (two_zpow_pos _)
        _ = 2 ^ (Int.log 2 q + 1) := by
          rw [whole, ← two_zpow_add]
          push_cast
          ring_nf
  · rename_i full
    have same : n = 2 ^ (f.trailing + 1) := by omega
    have power : (n : ℚ) * 2 ^ (Int.log 2 q - f.trailing) = 2 ^ (Int.log 2 q + 1) := by
      rw [same, whole, ← two_zpow_add]
      push_cast
      ring_nf
    rw [power]
    exact log_eq le_rfl (two_zpow_lt (by omega))

theorem round_toDigits (positive : 0 < q) (normal : f.emin ≤ Int.log 2 q) : f.round (f.toDigits q) = f.round q := by
  have log := @log_toDigits f q positive
  obtain ⟨atLeast, atMost⟩ := @digits_bounds f q positive
  obtain ⟨n, digits⟩ : ∃ n, n = roundHalfEven (q / 2 ^ (Int.log 2 q - f.trailing)) := ⟨_, rfl⟩
  have value : f.toDigits q = n * 2 ^ (Int.log 2 q - f.trailing) := by rw [digits]; rfl
  unfold BinaryFormat.round
  rw [if_neg ((toDigits_pos positive).not_ge), if_neg (positive.not_ge)]
  dsimp only
  rw [log, max_eq_left normal, ← digits]
  split
  · rw [max_eq_left normal, value, mul_div_assoc, div_self (two_zpow_pos _).ne', mul_one, roundHalfEven_intCast]
  · have same : n = 2 ^ (f.trailing + 1) := by omega
    have next : (Int.log 2 q + 1 - f.emin).toNat = (Int.log 2 q - f.emin).toNat + 1 := by omega
    have half : f.toDigits q / 2 ^ (Int.log 2 q + 1 - f.trailing) = ((2 ^ f.trailing : ℤ) : ℚ) := by
      rw [div_eq_iff (two_zpow_pos _).ne', value, same]
      have exponent : Int.log 2 q + 1 - (f.trailing : ℤ) = 1 + (Int.log 2 q - f.trailing) := by ring
      rw [exponent, two_zpow_add, ← mul_assoc]
      push_cast
      rw [pow_succ]
    have power : ∀ j : ℕ, ((2 : ℤ) ^ j).toNat = 2 ^ j := by
      intro j
      rw [show (2 : ℤ) ^ j = ((2 ^ j : ℕ) : ℤ) by rfl, Int.toNat_natCast]
    rw [max_eq_left (by omega), half, roundHalfEven_intCast, next, same, power, power]
    ring_nf

theorem round_subnormal (positive : 0 < q) (small : q ≤ 2 ^ f.emin) :
    f.round q = (roundHalfEven (q / 2 ^ (f.emin - f.trailing))).toNat := by
  have top : q / 2 ^ (f.emin - f.trailing) ≤ ((2 ^ f.trailing : ℕ) : ℤ) := by
    rw [div_le_iff₀ (two_zpow_pos _)]
    push_cast
    rw [← zpow_natCast, ← two_zpow_add]
    exact small.trans (two_zpow_le (by omega))
  have digits := roundHalfEven_le top
  have room : 2 ^ f.trailing ≤ f.infinity := Nat.le_mul_of_pos_left _ (by omega)
  have least : max (Int.log 2 q) f.emin = f.emin := by
    have lower := Int.zpow_log_le_self (b := 2) (by norm_num) positive
    have order := two_zpow_lt_iff.not.mp ((lower.trans small).not_gt)
    exact max_eq_right (not_lt.mp order)
  unfold BinaryFormat.round
  rw [if_neg (positive.not_ge)]
  dsimp only
  rw [least, sub_self, Int.toNat_zero, zero_mul, zero_add]
  exact min_eq_left (by omega)

/-- The middle between two consecutive multiples of the least positive number. -/
def middle (f : BinaryFormat) (m : ℕ) : ℚ := (2 * m + 1) * 2 ^ (f.emin - f.trailing - 1)

/-- The rational is below the normal range, and so close to a middle that its digits round to it, on the side of the
odd neighbour. -/
def DoubleRounds (f : BinaryFormat) (q : ℚ) : Prop :=
  Int.log 2 q < f.emin ∧ ∃ m : ℕ,
    (|q - f.middle m| < 2 ^ (Int.log 2 q - f.trailing - 1) ∨
      |q - f.middle m| = 2 ^ (Int.log 2 q - f.trailing - 1) ∧ Int.log 2 q + 1 < f.emin) ∧
    (q < f.middle m ∧ m % 2 = 1 ∨ f.middle m < q ∧ m % 2 = 0)

theorem nearestInt_iff_abs {q w : ℚ} {n : ℤ} (positive : 0 < w) :
    NearestInt (q / w) n ↔ |q - n * w| < w / 2 ∨ |q - n * w| = w / 2 ∧ n % 2 = 0 := by
  have scaled : q = q / w * w := (div_mul_cancel₀ q positive.ne').symm
  have distance : |q - n * w| = |q / w - n| * w := by
    conv_lhs => rw [scaled, ← sub_mul, abs_mul, abs_of_pos positive]
  have half : w / 2 = 1 / 2 * w := by ring
  rw [distance, half, mul_lt_mul_iff_of_pos_right positive, mul_left_inj' positive.ne', abs_lt, NearestInt]
  have ends : q / w = n - 1 / 2 ∨ q / w = n + 1 / 2 ↔ |q / w - n| = 1 / 2 := by
    rw [abs_eq (by norm_num)]
    constructor
    · rintro (low | high)
      · exact .inr (by linarith)
      · exact .inl (by linarith)
    · rintro (high | low)
      · exact .inr (by linarith)
      · exact .inl (by linarith)
  rw [ends]
  refine or_congr_left ?_
  constructor
  · rintro ⟨_, _⟩
    constructor <;> linarith
  · rintro ⟨_, _⟩
    constructor <;> linarith

theorem middle_eq (m : ℕ) : f.middle m = ((m : ℚ) + 1 / 2) * 2 ^ (f.emin - f.trailing) := by
  unfold middle
  rw [zpow_sub_one₀ (by norm_num)]
  ring

theorem toDigits_eq_middle_iff (below : Int.log 2 q < f.emin) (m : ℕ) :
    f.toDigits q = f.middle m ↔ |q - f.middle m| < 2 ^ (Int.log 2 q - f.trailing - 1) ∨
      |q - f.middle m| = 2 ^ (Int.log 2 q - f.trailing - 1) ∧ Int.log 2 q + 1 < f.emin := by
  obtain ⟨k, exponent⟩ : ∃ k : ℕ, f.emin - Int.log 2 q = k + 1 := ⟨(f.emin - Int.log 2 q - 1).toNat, by omega⟩
  have positive := two_zpow_pos (Int.log 2 q - f.trailing)
  have on_grid : f.middle m = (((2 * m + 1) * 2 ^ k : ℤ) : ℚ) * 2 ^ (Int.log 2 q - f.trailing) := by
    have powers : (2 : ℚ) ^ (f.emin - f.trailing - 1) = 2 ^ (k : ℤ) * 2 ^ (Int.log 2 q - f.trailing) := by
      rw [← two_zpow_add]
      congr 1
      omega
    unfold middle
    rw [powers, zpow_natCast]
    push_cast
    ring
  have even : ((2 * m + 1) * 2 ^ k : ℤ) % 2 = 0 ↔ Int.log 2 q + 1 < f.emin := by
    cases k with
    | zero =>
      omega
    | succ j =>
      rw [pow_succ, ← mul_assoc, Int.mul_emod_left]
      exact iff_of_true rfl (by omega)
  have near := @nearestInt_iff_abs q _ ((2 * m + 1) * 2 ^ k) positive
  rw [← on_grid, even, div_eq_mul_inv (2 ^ (Int.log 2 q - f.trailing) : ℚ), ← zpow_sub_one₀ (by norm_num)] at near
  rw [← near, ← roundHalfEven_eq_iff, on_grid, toDigits, mul_left_inj' positive.ne', Int.cast_inj]

theorem toDigits_le (positive : 0 < q) (below : Int.log 2 q < f.emin) : f.toDigits q ≤ 2 ^ f.emin := by
  have atMost : ((roundHalfEven (q / 2 ^ (Int.log 2 q - f.trailing)) : ℤ) : ℚ) ≤ ((2 ^ (f.trailing + 1) : ℤ) : ℚ) := by
    exact_mod_cast (@digits_bounds f q positive).2
  calc f.toDigits q ≤ ((2 ^ (f.trailing + 1) : ℤ) : ℚ) * 2 ^ (Int.log 2 q - f.trailing) :=
        mul_le_mul_of_nonneg_right atMost (two_zpow_pos _).le
    _ = 2 ^ (Int.log 2 q + 1) := by
      push_cast
      rw [← zpow_natCast, ← two_zpow_add]
      push_cast
      ring_nf
    _ ≤ 2 ^ f.emin := two_zpow_le (by omega)

theorem round_toDigits_iff (positive : 0 < q) : f.round (f.toDigits q) = f.round q ↔ ¬f.DoubleRounds q := by
  by_cases normal : f.emin ≤ Int.log 2 q
  · refine iff_of_true (round_toDigits positive normal) ?_
    rintro ⟨below, -⟩
    omega
  · have below : Int.log 2 q < f.emin := not_le.mp normal
    obtain ⟨k, exponent⟩ : ∃ k : ℕ, f.emin - Int.log 2 q = k + 1 := ⟨(f.emin - Int.log 2 q - 1).toNat, by omega⟩
    obtain ⟨v, step⟩ : ∃ v : ℚ, v = 2 ^ (Int.log 2 q - f.emin) := ⟨_, rfl⟩
    obtain ⟨u, unit⟩ : ∃ u : ℚ, u = 2 ^ (f.emin - f.trailing) := ⟨_, rfl⟩
    have positive_u : 0 < u := unit ▸ two_zpow_pos _
    have grid : v * 2 ^ (k + 1) = 1 := by
      rw [step, ← zpow_natCast, ← two_zpow_add]
      push_cast
      rw [← exponent]
      norm_num
    have units : 2 ^ (Int.log 2 q - f.trailing) = v * u := by
      rw [step, unit, ← two_zpow_add]
      ring_nf
    have digits : f.toDigits q / u = roundHalfEven (q / u / v) * v := by
      rw [div_eq_iff positive_u.ne', mul_assoc, div_div, mul_comm u v, ← units]
      rfl
    have small : q ≤ 2 ^ f.emin :=
      (Int.lt_zpow_succ_log_self (b := 2) (by norm_num) q).le.trans (two_zpow_le (by omega))
    have nonneg : ∀ z : ℚ, 0 < z → 0 ≤ roundHalfEven (z / u) := by
      intro z above
      apply le_roundHalfEven
      exact (div_pos above positive_u).le
    have first := nonneg _ (@toDigits_pos f q positive)
    have second := nonneg q positive
    have words : (roundHalfEven (f.toDigits q / u)).toNat = (roundHalfEven (q / u)).toNat ↔
        roundHalfEven (f.toDigits q / u) = roundHalfEven (q / u) := by omega
    rw [round_subnormal (toDigits_pos positive) (toDigits_le positive below), round_subnormal positive small, ← unit, words,
      digits, roundHalfEven_grid_iff grid, not_iff_not, ← digits]
    have middles : ∀ m : ℕ, f.middle m = ((m : ℚ) + 1 / 2) * u := by
      intro m
      rw [middle_eq, unit]
    constructor
    · rintro ⟨m, half, wrong⟩
      have above : 0 < f.toDigits q / u := div_pos (toDigits_pos positive) positive_u
      have natural : (-1 : ℚ) < m := by linarith
      have natural' : -1 < m := by exact_mod_cast natural
      obtain ⟨j, rfl⟩ := Int.eq_ofNat_of_zero_le (by omega : 0 ≤ m)
      rw [Int.cast_natCast] at half wrong
      refine ⟨below, j, ?_, ?_⟩
      · rw [← toDigits_eq_middle_iff below, middles, ← half, div_mul_cancel₀ _ positive_u.ne']
      · rw [middles, ← div_lt_iff₀ positive_u, ← lt_div_iff₀ positive_u]
        exact wrong.imp (fun ⟨side, odd⟩ => ⟨side, by omega⟩) fun ⟨side, even⟩ => ⟨side, by omega⟩
    · rintro ⟨-, m, near, wrong⟩
      rw [← toDigits_eq_middle_iff below, middles] at near
      rw [middles, ← div_lt_iff₀ positive_u, ← lt_div_iff₀ positive_u] at wrong
      refine ⟨m, ?_, ?_⟩
      · rw [div_eq_iff positive_u.ne']
        exact near
      · exact wrong.imp (fun ⟨side, odd⟩ => ⟨side, by omega⟩) fun ⟨side, even⟩ => ⟨side, by omega⟩

theorem DoubleRounds.round_odd (positive : 0 < q) (wide : 0 < f.trailing) (twice : f.DoubleRounds q) :
    f.round q % 2 = 1 ∧ f.round q < 2 ^ f.trailing := by
  obtain ⟨below, m, near, wrong⟩ := twice
  have unit := two_zpow_pos (f.emin - f.trailing)
  have upper : q < 2 ^ f.emin :=
    (Int.lt_zpow_succ_log_self (b := 2) (by norm_num) q).trans_le (two_zpow_le (by omega))
  have quarter : |q / 2 ^ (f.emin - f.trailing) - (m + 1 / 2)| ≤ 1 / 4 := by
    have distance : |q - f.middle m| ≤ 2 ^ (f.emin - f.trailing - 2) := by
      have order : (2 : ℚ) ^ (Int.log 2 q - f.trailing - 1) ≤ 2 ^ (f.emin - f.trailing - 2) := two_zpow_le (by omega)
      rcases near with less | ⟨same, -⟩
      · exact less.le.trans order
      · exact same.le.trans order
    have power : (2 : ℚ) ^ (f.emin - f.trailing - 2) = 1 / 4 * 2 ^ (f.emin - f.trailing) := by
      rw [sub_eq_add_neg _ (2 : ℤ), two_zpow_add, mul_comm]
      norm_num
    rw [middle_eq, power] at distance
    have scaled : q - (m + 1 / 2) * 2 ^ (f.emin - f.trailing) =
        (q / 2 ^ (f.emin - f.trailing) - (m + 1 / 2)) * 2 ^ (f.emin - f.trailing) := by
      rw [sub_mul, div_mul_cancel₀ _ unit.ne']
    rw [scaled, abs_mul, abs_of_pos unit] at distance
    exact le_of_mul_le_mul_right distance unit
  have rounded : ∃ n : ℤ, roundHalfEven (q / 2 ^ (f.emin - f.trailing)) = n ∧ 0 ≤ n ∧ n % 2 = 1 := by
    have bounds := abs_le.mp quarter
    simp only [middle_eq, ← div_lt_iff₀ unit, ← lt_div_iff₀ unit] at wrong
    rcases wrong with ⟨side, odd⟩ | ⟨side, even⟩
    · refine ⟨m, roundHalfEven_eq_iff.mpr (.inl ?_), by omega, by omega⟩
      push_cast
      constructor <;> linarith [bounds.1, bounds.2]
    · refine ⟨m + 1, roundHalfEven_eq_iff.mpr (.inl ?_), by omega, by omega⟩
      push_cast
      constructor <;> linarith [bounds.1, bounds.2]
  obtain ⟨n, same, natural, odd⟩ := rounded
  have most : n ≤ 2 ^ f.trailing := by
    rw [← same]
    apply roundHalfEven_le
    rw [div_le_iff₀ unit]
    push_cast
    rw [← zpow_natCast, ← two_zpow_add]
    exact upper.le.trans (two_zpow_le (by omega))
  have even : (2 : ℤ) ^ f.trailing % 2 = 0 := by
    obtain ⟨k, trailing⟩ : ∃ k, f.trailing = k + 1 := ⟨_, (Nat.sub_add_cancel wide).symm⟩
    rw [trailing, pow_succ, Int.mul_emod_left]
  have power : ((2 ^ f.trailing : ℕ) : ℤ) = 2 ^ f.trailing := by rfl
  rw [round_subnormal positive upper.le]
  omega

theorem log_scale (positive : 0 < q) (e : ℤ) : Int.log 2 (q * 2 ^ e) = Int.log 2 q + e := by
  have lower := Int.zpow_log_le_self (b := 2) (by norm_num) positive
  have upper := Int.lt_zpow_succ_log_self (b := 2) (by norm_num) q
  apply log_eq
  · rw [two_zpow_add]
    exact mul_le_mul_of_nonneg_right lower (two_zpow_pos e).le
  · rw [add_right_comm, two_zpow_add]
    exact mul_lt_mul_of_pos_right upper (two_zpow_pos e)

theorem toDigits_scale (positive : 0 < q) (e : ℤ) : f.toDigits (q * 2 ^ e) = f.toDigits q * 2 ^ e := by
  have exponent : Int.log 2 q + e - (f.trailing : ℤ) = Int.log 2 q - f.trailing + e := by ring
  unfold toDigits
  rw [log_scale positive, exponent, two_zpow_add, mul_div_mul_right _ _ (two_zpow_pos e).ne', mul_assoc]

theorem round_eq_zero_iff (wide : 0 < f.trailing) : f.round q = 0 ↔ q ≤ 2 ^ (f.emin - f.trailing - 1) := by
  rcases le_or_gt q 0 with none | positive
  · refine iff_of_true ?_ (none.trans (two_zpow_pos _).le)
    unfold BinaryFormat.round
    rw [if_pos none]
  · have unit := two_zpow_pos (f.emin - f.trailing)
    have half : (2 : ℚ) ^ (f.emin - f.trailing - 1) = 1 / 2 * 2 ^ (f.emin - f.trailing) := by
      rw [zpow_sub_one₀ (by norm_num), mul_comm]
      norm_num
    rcases le_or_gt q (2 ^ f.emin) with small | large
    · rw [round_subnormal positive small, half, ← div_le_iff₀ unit]
      constructor
      · intro zero
        by_contra more
        have up : 1 ≤ roundHalfEven (q / 2 ^ (f.emin - f.trailing)) := by
          have nearest := nearestInt_roundHalfEven (q / 2 ^ (f.emin - f.trailing))
          have least : (0 : ℚ) < roundHalfEven (q / 2 ^ (f.emin - f.trailing)) := by linarith [nearest.bounds.2]
          exact_mod_cast least
        omega
      · intro less
        have down : roundHalfEven (q / 2 ^ (f.emin - f.trailing)) = 0 := by
          rcases less.lt_or_eq with inside | tie
          · exact roundHalfEven_eq_iff.mpr (.inl ⟨by linarith [div_pos positive unit], by linarith⟩)
          · exact roundHalfEven_eq_iff.mpr (.inr ⟨.inr (by rw [tie]; norm_num), rfl⟩)
        rw [down]
        rfl
    · have normal : f.emin ≤ Int.log 2 q := by
        have bound := (Int.zpow_le_iff_le_log (b := 2) (by norm_num) positive).mp (by exact large.le)
        exact bound
      refine iff_of_false ?_ (((two_zpow_lt (by omega)).trans large).not_ge)
      have digits := (@digits_bounds f q positive).1
      have power : (0 : ℤ) < 2 ^ f.trailing := by positivity
      have infinity : 0 < f.infinity := mul_pos (Nat.succ_pos _) (Nat.two_pow_pos _)
      unfold BinaryFormat.round
      rw [if_neg (positive.not_ge)]
      dsimp only
      rw [max_eq_left normal]
      omega

theorem magnitude_round (positive : 0 < q) (normal : f.emin ≤ Int.log 2 q) (finite : f.round q < f.infinity) :
    f.magnitude (f.round q) = f.toDigits q := by
  have least : f.emin = 1 - f.emax := rfl
  have power : 0 < 2 ^ f.trailing := Nat.two_pow_pos _
  obtain ⟨atLeast, atMost⟩ := @digits_bounds f q positive
  obtain ⟨n, digits⟩ := Int.eq_ofNat_of_zero_le ((by positivity : (0 : ℤ) ≤ 2 ^ f.trailing).trans atLeast)
  have value : f.toDigits q = f.scaled n (Int.log 2 q) := by
    rw [toDigits, digits, Int.cast_natCast, scaled]
  have word : f.round q = min (f.pack n (Int.log 2 q)) f.infinity := by
    unfold BinaryFormat.round pack
    rw [if_neg (positive.not_ge)]
    dsimp only
    rw [max_eq_left normal, digits, Int.toNat_natCast]
  have inside : f.pack n (Int.log 2 q) < f.infinity := by
    omega
  rw [digits] at atLeast atMost
  have low : 2 ^ f.trailing ≤ n := by exact_mod_cast atLeast
  have high : n ≤ 2 ^ (f.trailing + 1) := by exact_mod_cast atMost
  have double : 2 ^ (f.trailing + 1) = 2 ^ f.trailing + 2 ^ f.trailing := by rw [pow_succ, mul_two]
  rw [word, min_eq_left inside.le, value]
  have range : (Int.log 2 q - f.emin).toNat + n / 2 ^ f.trailing < 2 * f.emax + 1 := by
    have quotient := Nat.div_mul_le_self n (2 ^ f.trailing)
    rw [pack, infinity] at inside
    apply Nat.lt_of_mul_lt_mul_right (a := 2 ^ f.trailing)
    rw [add_mul]
    omega
  rcases high.lt_or_eq with short | full
  · have one : n / 2 ^ f.trailing = 1 := Nat.div_eq_of_lt_le (by omega) (by omega)
    exact Holds.magnitude ⟨rfl, short, normal, by omega, .inr low⟩
  · have two : n / 2 ^ f.trailing = 2 := by rw [full, pow_succ, Nat.mul_div_cancel_left _ power]
    have same : f.pack n (Int.log 2 q) = f.pack (2 ^ f.trailing) (Int.log 2 q + 1) := by
      have next : (Int.log 2 q + 1 - f.emin).toNat = (Int.log 2 q - f.emin).toNat + 1 := by omega
      rw [pack, pack, next, full, double, Nat.succ_mul, add_assoc]
    have next : f.scaled n (Int.log 2 q) = f.scaled (2 ^ f.trailing) (Int.log 2 q + 1) := by
      rw [scaled, scaled, full, add_sub_right_comm, two_zpow_add]
      push_cast
      ring
    rw [same, next]
    exact Holds.magnitude ⟨rfl, by omega, by omega, by omega, .inr le_rfl⟩

theorem toDigits_eq_of_round {p : ℚ} (hp : 0 < p) (hq : 0 < q) (normal : f.emin ≤ Int.log 2 p) (normal' : f.emin ≤ Int.log 2 q)
    (finite : f.round q < f.infinity) (same : f.round p = f.round q) : f.toDigits p = f.toDigits q := by
  rw [← magnitude_round hp normal (same ▸ finite), ← magnitude_round hq normal' finite, same]

/-- A rational below the normal range that is cut to a multiple of its unit is rounded as before, but for the middles
above an even multiple of the least positive number. -/
theorem round_cut_iff {p : ℚ} {j : ℕ} (positive : 0 < p) (below : Int.log 2 q < f.emin)
    (multiple : p = j * 2 ^ (Int.log 2 q - f.trailing)) (above : p < q) (near : q < p + 2 ^ (Int.log 2 q - f.trailing)) :
    f.round p = f.round q ↔ ∀ m : ℕ, m % 2 = 0 → p ≠ f.middle m := by
  obtain ⟨k, exponent⟩ : ∃ k : ℕ, f.emin - Int.log 2 q = k + 1 := ⟨(f.emin - Int.log 2 q - 1).toNat, by omega⟩
  have unit := two_zpow_pos (f.emin - f.trailing)
  have small : q ≤ 2 ^ f.emin :=
    (Int.lt_zpow_succ_log_self (b := 2) (by norm_num) q).le.trans (two_zpow_le (by omega))
  have grid : (2 : ℚ) ^ (Int.log 2 q - f.emin) * 2 ^ (k + 1) = 1 := by
    rw [← zpow_natCast, ← two_zpow_add]
    push_cast
    rw [← exponent]
    norm_num
  have units : (2 : ℚ) ^ (Int.log 2 q - f.trailing) = 2 ^ (Int.log 2 q - f.emin) * 2 ^ (f.emin - f.trailing) := by
    rw [← two_zpow_add]
    ring_nf
  have scaled : p / 2 ^ (f.emin - f.trailing) = (j : ℤ) * 2 ^ (Int.log 2 q - f.emin) := by
    rw [div_eq_iff unit.ne', multiple, units, Int.cast_natCast, mul_assoc]
  have cut := roundHalfEven_cut_iff grid scaled (div_lt_div_of_pos_right above unit) (by
    rw [div_lt_iff₀ unit, add_mul, div_mul_cancel₀ _ unit.ne', ← units]
    exact near)
  have nonneg : ∀ x : ℚ, 0 < x → 0 ≤ roundHalfEven (x / 2 ^ (f.emin - f.trailing)) := by
    intro x some_value
    apply le_roundHalfEven
    exact (div_pos some_value unit).le
  have first := nonneg p positive
  have second := nonneg q (positive.trans above)
  have words : (roundHalfEven (p / 2 ^ (f.emin - f.trailing))).toNat = (roundHalfEven (q / 2 ^ (f.emin - f.trailing))).toNat ↔
      roundHalfEven (p / 2 ^ (f.emin - f.trailing)) = roundHalfEven (q / 2 ^ (f.emin - f.trailing)) := by omega
  rw [round_subnormal positive (above.le.trans small), round_subnormal (positive.trans above) small, words, cut]
  constructor
  · intro off m even same
    refine off m (by omega) ?_
    rw [same, middle_eq, mul_div_cancel_right₀ _ unit.ne', Int.cast_natCast]
  · intro off m even same
    have natural : (-1 : ℚ) < m := by
      have some_value := div_pos positive unit
      linarith
    have natural' : -1 < m := by exact_mod_cast natural
    obtain ⟨i, rfl⟩ := Int.eq_ofNat_of_zero_le (by omega : 0 ≤ m)
    refine off i (by omega) ?_
    rw [middle_eq, ← div_eq_iff unit.ne', same, Int.cast_natCast]

def overflow (f : BinaryFormat) : ℚ := 2 ^ (f.emax + 1 : ℤ) - 2 ^ (f.emax - f.trailing - 1 : ℤ)

theorem le_roundHalfEven_iff {x : ℚ} {n : ℤ} (even : n % 2 = 0) : n ≤ roundHalfEven x ↔ (n : ℚ) - 1 / 2 ≤ x := by
  have nearest := nearestInt_roundHalfEven x
  constructor
  · intro le
    have order : (n : ℚ) ≤ roundHalfEven x := by exact_mod_cast le
    linarith [nearest.bounds.1]
  · intro le
    by_contra less
    have order : ((roundHalfEven x : ℤ) : ℚ) + 1 ≤ n := by exact_mod_cast not_le.mp less
    have reached : x = roundHalfEven x + 1 / 2 := by linarith [nearest.bounds.2]
    have last : n = roundHalfEven x + 1 := by
      have close : (n : ℚ) ≤ roundHalfEven x + 1 := by linarith
      have close' : n ≤ roundHalfEven x + 1 := by exact_mod_cast close
      omega
    rcases nearest with ⟨_, inside⟩ | ⟨_, even'⟩
    · linarith
    · omega

theorem round_eq_infinity_iff (positive : 0 < q) (wide : 0 < f.trailing) : f.round q = f.infinity ↔ f.overflow ≤ q := by
  have least : f.emin = 1 - f.emax := rfl
  have some_range := f.wide
  have lower := Int.zpow_log_le_self (b := 2) (by norm_num) positive
  have upper := Int.lt_zpow_succ_log_self (b := 2) (by norm_num) q
  obtain ⟨e, top⟩ : ∃ e, e = max (Int.log 2 q) f.emin := ⟨_, rfl⟩
  obtain ⟨n, digits⟩ : ∃ n, n = roundHalfEven (q / 2 ^ (e - f.trailing)) := ⟨_, rfl⟩
  have word : f.round q = min ((e - f.emin).toNat * 2 ^ f.trailing + n.toNat) f.infinity := by
    unfold BinaryFormat.round
    rw [if_neg (positive.not_ge)]
    dsimp only
    rw [← top, ← digits]
  have unit := two_zpow_pos (e - f.trailing)
  have whole : ∀ j : ℕ, (((2 ^ j : ℤ)) : ℚ) = 2 ^ (j : ℤ) := by
    intro j
    push_cast
    rfl
  have atMost : n ≤ 2 ^ (f.trailing + 1) := by
    rw [digits]
    apply roundHalfEven_le
    rw [div_le_iff₀ unit, whole, ← two_zpow_add]
    exact upper.le.trans (two_zpow_le (by omega))
  have full : (2 : ℤ) ^ (f.trailing + 1) = 2 * 2 ^ f.trailing := by ring
  have power : (0 : ℤ) < 2 ^ f.trailing := by positivity
  rw [word, min_eq_right_iff, infinity]
  have cast : ((2 * f.emax + 1) * 2 ^ f.trailing ≤ (e - f.emin).toNat * 2 ^ f.trailing + n.toNat) ↔
      ((2 * f.emax + 1 : ℤ) * 2 ^ f.trailing ≤ (e - f.emin) * 2 ^ f.trailing + max n 0) := by
    have difference : ((e - f.emin).toNat : ℤ) = e - f.emin := Int.toNat_of_nonneg (by omega)
    rw [← difference, ← Int.ofNat_toNat]
    exact_mod_cast Iff.rfl
  rw [cast]
  rcases lt_trichotomy (Int.log 2 q) f.emax with less | same | more
  · have bound : e - f.emin ≤ 2 * f.emax - 2 := by omega
    refine iff_of_false ?_ ?_
    · have room : max n 0 ≤ 2 * 2 ^ f.trailing := by omega
      nlinarith
    · have below : q < 2 ^ (f.emax : ℤ) := upper.trans_le (two_zpow_le (by omega))
      have half : (2 : ℚ) ^ (f.emax - f.trailing - 1 : ℤ) ≤ 2 ^ (f.emax : ℤ) := two_zpow_le (by omega)
      unfold overflow
      rw [two_zpow_add]
      linarith
  · have exponent : e = f.emax := by omega
    have even : (2 : ℤ) ^ (f.trailing + 1) % 2 = 0 := by rw [full, Int.mul_emod_right]
    have reached := @le_roundHalfEven_iff (q / 2 ^ (e - f.trailing)) (2 ^ (f.trailing + 1)) even
    rw [← digits, whole, le_div_iff₀ unit, sub_mul, ← two_zpow_add] at reached
    have first : ((f.trailing + 1 : ℕ) : ℤ) + (e - f.trailing) = f.emax + 1 := by omega
    have second : (1 : ℚ) / 2 * 2 ^ (e - f.trailing) = 2 ^ (f.emax - f.trailing - 1 : ℤ) := by
      rw [exponent, zpow_sub_one₀ (by norm_num)]
      ring
    rw [first, second] at reached
    unfold overflow
    rw [← reached, exponent, least]
    have nonneg : max n 0 = n ∨ n < 0 := by omega
    constructor
    · intro le
      rcases nonneg with same | negative
      · linarith
      · rw [max_eq_right (by omega)] at le
        nlinarith
    · intro le
      rw [max_eq_left (by omega)]
      linarith
  · refine iff_of_true ?_ ?_
    · have digits_low : 2 ^ f.trailing ≤ n := by
        rw [digits]
        apply le_roundHalfEven
        rw [le_div_iff₀ unit, whole, ← two_zpow_add]
        exact (two_zpow_le (by omega)).trans lower
      have bound : (2 * f.emax : ℤ) ≤ e - f.emin := by omega
      have product := mul_le_mul_of_nonneg_right bound power.le
      rw [max_eq_left (by omega)]
      linarith
    · have above : (2 : ℚ) ^ (f.emax + 1 : ℤ) ≤ q := (two_zpow_le (by omega)).trans lower
      have positive' := two_zpow_pos (f.emax - f.trailing - 1 : ℤ)
      unfold overflow
      linarith

end BinaryFormat

end MitScheme.Library
