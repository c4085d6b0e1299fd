import MitScheme.Library.Significand
import MitScheme.Runtime.Ieee754.Interchange

/-!
The fields that are found for a number of each of the five classes. All the results on the way are
exact: a flonum is taken apart as the rational that it is.
-/

namespace MitScheme.Runtime.Ieee754

open Library Arithmetic BinaryFormat Number Flonum

structure Narrow (g : BinaryFormat) : Prop where
  trailing : g.trailing ≤ 52
  emax : g.emax ≤ 1023

variable {g : BinaryFormat} {x : Number} {a q : ℚ} {k sign : ℕ} {d e : ℤ}

theorem Narrow.fits (narrow : Narrow g) (short : k < 2 ^ (g.trailing + 1)) (lower : -1022 ≤ d) (upper : d ≤ 1023) :
    binary64.Fits |g.scaled k d| := by
  have wide : 2 ^ (g.trailing + 1) ≤ 2 ^ (binary64.trailing + 1) :=
    Nat.pow_le_pow_right (by decide) (Nat.succ_le_succ narrow.trailing)
  have trailing := narrow.trailing
  have nonneg : 0 ≤ g.scaled k d := mul_nonneg (Nat.cast_nonneg _) (two_zpow_pos _).le
  rw [abs_of_nonneg nonneg]
  apply fits_of (short.trans_le wide)
  · show (1 - (1023 : ℤ)) - 52 ≤ d - g.trailing
    omega
  · exact (scaled_lt short).trans_le (two_zpow_le (by show d + 1 ≤ 1023 + 1; omega))

theorem fits_two_zpow {j : ℤ} (lower : -1074 ≤ j) (upper : j ≤ 1023) : binary64.Fits |(2 : ℚ) ^ j| := by
  rw [abs_of_pos (two_zpow_pos j)]
  exact BinaryFormat.fits_two_zpow lower upper

theorem flonum_fits {y : Flonum} (hy : (flonum y).Is a) : binary64.Fits |a| := by
  rw [← Flonum.Is.magnitude hy]
  exact ⟨_, _, holds_word (of_decide_eq_true hy.1)⟩

theorem mul_power {j : ℤ} (hx : x.Is a) (power : binary64.Fits |(2 : ℚ) ^ j|)
    (fits : binary64.Fits |a| → binary64.Fits |a * 2 ^ j|) : (x.mul (.exact (2 ^ j))).Is (a * 2 ^ j) := by
  cases x with
  | exact r =>
    have same : r = a := hx
    subst same
    exact rfl
  | flonum y =>
    have whole := flonum_fits hx
    exact hx.mul (exact_is _) whole power (fits whole)

theorem div_power {j : ℤ} (hx : x.Is a) (power : binary64.Fits |(2 : ℚ) ^ j|)
    (fits : binary64.Fits |a| → binary64.Fits |a * 2 ^ (-j)|) : (x.div (.exact (2 ^ j))).Is (a * 2 ^ (-j)) := by
  have inverse : a / 2 ^ j = a * 2 ^ (-j) := by rw [zpow_neg, div_eq_mul_inv]
  cases x with
  | exact r =>
    have same : r = a := hx
    subst same
    exact inverse
  | flonum y =>
    have whole := flonum_fits hx
    have quotient := hx.div (exact_is (2 ^ j)) (two_zpow_pos j).ne' whole power (by
      rw [inverse]
      exact fits whole)
    rwa [inverse] at quotient

theorem fits_up {j : ℤ} (up : 0 ≤ j) (upper : |a * 2 ^ j| < 2 ^ (binary64.emax + 1 : ℤ)) (fits : binary64.Fits |a|) :
    binary64.Fits |a * 2 ^ j| := by
  rw [abs_mul, abs_of_pos (two_zpow_pos j)] at upper ⊢
  exact fits.scale (.inl up) upper

theorem fits_down {j : ℤ} (down : j ≤ 0) (lower : 2 ^ binary64.emin ≤ |a * 2 ^ j|) (fits : binary64.Fits |a|) :
    binary64.Fits |a * 2 ^ j| := by
  rw [abs_mul, abs_of_pos (two_zpow_pos j)] at lower ⊢
  have upper : |a| < 2 ^ (binary64.emax + 1 : ℤ) := lt_of_not_ge (fun large => not_fits_large large fits)
  have smaller : |a| * 2 ^ j ≤ |a| := by
    apply mul_le_of_le_one_right (abs_nonneg a)
    rw [← zpow_zero (2 : ℚ)]
    exact two_zpow_le down
  exact fits.scale (.inr lower) (smaller.trans_lt upper)

theorem base_eq : exact ((2 : ℕ) : ℚ) = .exact (2 ^ (1 : ℤ)) := by norm_num

theorem two_is : (exact ((2 : ℕ) : ℚ)).Is (2 ^ (1 : ℤ)) := by
  exact exact_is _

theorem one_is : (exact 1).Is (2 ^ (0 : ℤ)) := by
  show (1 : ℚ) = 2 ^ (0 : ℤ)
  norm_num

theorem expt_eq (j : ℤ) : expt 2 j = .exact (2 ^ j) := by
  unfold expt
  rw [Nat.cast_ofNat]

theorem expt_is (j : ℤ) : (expt 2 j).Is (2 ^ j) := by
  exact exact_is _

theorem range_binary64 : binary64.emin = -1022 ∧ (binary64.emax + 1 : ℤ) = 1024 := ⟨rfl, rfl⟩

theorem scale_bounds (lower : 2 ^ d ≤ q) (upper : q < 2 ^ (d + 1)) (i : ℤ) :
    2 ^ (d + i) ≤ q * 2 ^ i ∧ q * 2 ^ i < 2 ^ (d + i + 1) := by
  rw [add_right_comm, two_zpow_add, two_zpow_add (d + 1)]
  exact ⟨mul_le_mul_of_nonneg_right lower (two_zpow_pos _).le, mul_lt_mul_of_pos_right upper (two_zpow_pos _)⟩

def digitsTo (q : ℚ) (j : ℤ) : ℕ := (roundHalfEven (q / 2 ^ j)).toNat

theorem digitsTo_scale (i j : ℤ) : digitsTo (q * 2 ^ i) (j + i) = digitsTo q j := by
  unfold digitsTo
  rw [two_zpow_add, mul_div_mul_right _ _ (two_zpow_pos i).ne']

theorem significand_is (narrow : Narrow g) (nonneg : 0 ≤ q) (small : q < 2) (hx : x.Is q) :
    significand 2 (g.trailing + 1) x = .ok (digitsTo q (-g.trailing)) := by
  have trailing := narrow.trailing
  obtain ⟨-, last⟩ := range_binary64
  have top : |q * 2 ^ (g.trailing : ℤ)| < 2 ^ (binary64.emax + 1 : ℤ) := by
    rw [abs_of_nonneg (mul_nonneg nonneg (two_zpow_pos _).le)]
    calc q * 2 ^ (g.trailing : ℤ) < 2 * 2 ^ (g.trailing : ℤ) := mul_lt_mul_of_pos_right small (two_zpow_pos _)
      _ = 2 ^ (1 + g.trailing : ℤ) := by rw [two_zpow_add, zpow_one]
      _ ≤ 2 ^ (binary64.emax + 1 : ℤ) := two_zpow_le (by omega)
  have product := mul_power hx (fits_two_zpow (by omega) (by omega)) (fits_up (Int.natCast_nonneg _) top)
  unfold significand digitsTo
  rw [show (((g.trailing + 1 : ℕ) : ℤ) - 1) = g.trailing by omega, expt_eq, product.roundToExact, zpow_neg, div_inv_eq_mul]
  rfl

theorem normalLoop_is (narrow : Narrow g) {fuel : ℕ} : ∀ {x : Number} {q : ℚ} {d exponent : ℤ}, x.Is q → 2 ^ d ≤ q →
    q < 2 ^ (d + 1) → 0 ≤ d → exponent ≤ g.emax + 1 → g.emax + 1 < exponent + fuel →
    normalLoop 2 g.emax (g.trailing + 1) sign fuel exponent x =
      .ok (if g.emax < exponent + d then .ifInfinite sign
        else .ifNormal sign (exponent + d) (digitsTo q (d - g.trailing))) := by
  obtain ⟨first, -⟩ := range_binary64
  induction fuel with
  | zero =>
    intro x q d exponent _ _ _ _ last enough
    omega
  | succ fuel ih =>
    intro x q d exponent hx lower upper nonneg last enough
    have positive : 0 < q := (two_zpow_pos d).trans_le lower
    rw [normalLoop]
    by_cases past : g.emax < exponent
    · rw [if_pos past, if_pos (by omega)]
    rw [if_neg past, two_is.le hx]
    by_cases more : 1 ≤ d
    · rw [if_pos (decide_eq_true ((two_zpow_le more).trans lower)), base_eq]
      obtain ⟨lower', upper'⟩ := scale_bounds lower upper (-1)
      have quotient := div_power (j := 1) hx (fits_two_zpow (by omega) (by omega)) (by
        apply fits_down (by omega)
        rw [abs_of_pos (mul_pos positive (two_zpow_pos _))]
        exact (two_zpow_le (by omega)).trans lower')
      rw [ih quotient lower' upper' (by omega) (by omega) (by omega), show exponent + 1 + (d + -1) = exponent + d by ring,
        show d + -1 - (g.trailing : ℤ) = d - g.trailing + -1 by ring, digitsTo_scale]
    · have done : d = 0 := by omega
      subst done
      rw [if_neg (by rw [decide_eq_true_eq]; exact upper.not_ge), if_neg (by omega),
        significand_is narrow positive.le (by simpa using upper) hx, add_zero, zero_sub]
      rfl

theorem fractionLoop_is (narrow : Narrow g) {fuel : ℕ} : ∀ {x : Number} {q : ℚ} {d exponent : ℤ}, x.Is q → 2 ^ d ≤ q →
    q < 2 ^ (d + 1) → d ≤ 0 → 1 - (g.emax : ℤ) ≤ exponent + d → exponent ≤ 0 → -d < fuel →
    fractionLoop 2 (1 - g.emax) (g.trailing + 1) sign fuel exponent x =
      .ok (.ifNormal sign (exponent + d) (digitsTo q (d - g.trailing))) := by
  induction fuel with
  | zero =>
    intro x q d exponent _ _ _ nonpos _ _ enough
    omega
  | succ fuel ih =>
    intro x q d exponent hx lower upper nonpos least first enough
    have positive : 0 < q := (two_zpow_pos d).trans_le lower
    rw [fractionLoop, one_is.le hx]
    have passes : assert (1 - (g.emax : ℤ) ≤ exponent) "(<= emin exponent)" = .ok () := if_pos (by omega)
    simp only [passes, bind, Except.bind]
    by_cases last : 0 ≤ d
    · have done : d = 0 := by omega
      subst done
      rw [if_pos (decide_eq_true lower), significand_is narrow positive.le (by simpa using upper) hx, add_zero, zero_sub]
    · have below : q < 2 ^ (0 : ℤ) := upper.trans_le (two_zpow_le (by omega))
      rw [if_neg (by rw [decide_eq_true_eq]; exact below.not_ge), base_eq]
      obtain ⟨lower', upper'⟩ := scale_bounds lower upper 1
      have product := mul_power (j := 1) hx (fits_two_zpow (by omega) (by omega)) (by
        apply fits_up (by omega)
        rw [abs_of_pos (mul_pos positive (two_zpow_pos _))]
        exact upper'.trans_le (two_zpow_le (by omega)))
      rw [ih product lower' upper' (by omega) (by omega) (by omega) (by omega),
        show exponent - 1 + (d + 1) = exponent + d by ring, show d + 1 - (g.trailing : ℤ) = d - g.trailing + 1 by ring,
        digitsTo_scale]

theorem significand_eq (exponent : g.exponent q = e) : digitsTo q (e - g.trailing) = g.significand q := by
  rw [← exponent]
  rfl

theorem decomposeFinite_large (narrow : Narrow g) (large : 2 ^ (g.emax + 1 : ℤ) ≤ q) (hx : x.Is q) :
    decomposeFinite sign x 2 g.emax (g.trailing + 1) = .ok (.ifInfinite sign) := by
  obtain ⟨d, lower, upper⟩ := exists_log ((two_zpow_pos _).trans_le large)
  have past : (g.emax + 1 : ℤ) < d + 1 := two_zpow_lt_iff.mp (large.trans_lt upper)
  have whole : 2 ^ (0 : ℤ) ≤ q := (two_zpow_le (by omega)).trans large
  unfold decomposeFinite
  rw [one_is.le hx, if_pos (decide_eq_true whole), normalLoop_is narrow hx lower upper (by omega) (by omega) (by omega),
    if_pos (by omega)]

theorem decomposeFinite_normal (narrow : Narrow g) (lower : 2 ^ e ≤ q) (upper : q < 2 ^ (e + 1)) (least : g.emin ≤ e)
    (most : e ≤ g.emax) (hx : x.Is q) :
    decomposeFinite sign x 2 g.emax (g.trailing + 1) = .ok (.ifNormal sign e (g.significand q)) := by
  have emin : g.emin = 1 - g.emax := rfl
  have digits := significand_eq (exponent_of_normal lower upper least)
  unfold decomposeFinite
  rw [one_is.le hx]
  by_cases whole : 0 ≤ e
  · rw [if_pos (decide_eq_true ((two_zpow_le whole).trans lower)),
      normalLoop_is narrow hx lower upper whole (by omega) (by omega), if_neg (by omega), zero_add, digits]
  · have below : q < 2 ^ (0 : ℤ) := upper.trans_le (two_zpow_le (by omega))
    rw [if_neg (by rw [decide_eq_true_eq]; exact below.not_ge), (expt_is _).le hx,
      if_pos (decide_eq_true ((two_zpow_le (emin ▸ least)).trans lower)),
      fractionLoop_is narrow hx lower upper (by omega) (by omega) le_rfl (by omega), zero_add, digits]

def tiny (g : BinaryFormat) : ℚ := 2 ^ (g.emin - ((g.trailing + 1 : ℕ) + 1)) / 2

theorem decomposeFinite_small (positive : 0 < q) (below : q < 2 ^ g.emin) (hx : x.Is q) :
    decomposeFinite sign x 2 g.emax (g.trailing + 1) = if q ≤ tiny g then .ok (.ifZero sign)
      else (significand 2 (g.trailing + 1) (x.div (expt 2 g.emin)) >>= fun digits => .ok (.ifSubnormal sign digits)) := by
  have least : g.emin = 1 - g.emax := rfl
  have wide := g.wide
  have zero_is := exact_is 0
  have below_one : q < 2 ^ (0 : ℤ) := below.trans_le (two_zpow_le (by omega))
  unfold decomposeFinite
  rw [one_is.le hx, if_neg (by rw [decide_eq_true_eq]; exact below_one.not_ge), (expt_is _).le hx,
    if_neg (by rw [decide_eq_true_eq]; exact below.not_ge), zero_is.lt hx, if_pos (decide_eq_true positive),
    hx.le (exact_is _)]
  simp only [decide_eq_true_eq]
  rfl

theorem decomposeFinite_subnormal (narrow : Narrow g) (above : tiny g < q) (below : q < 2 ^ g.emin) (hx : x.Is q) :
    decomposeFinite sign x 2 g.emax (g.trailing + 1) = .ok (.ifSubnormal sign (g.significand q)) := by
  have least : g.emin = 1 - g.emax := rfl
  have wide := g.wide
  have emax := narrow.emax
  have positive : 0 < q := (half_pos (two_zpow_pos _)).trans above
  have small : q * 2 ^ (-g.emin) < 2 ^ (0 : ℤ) := by
    calc q * 2 ^ (-g.emin) < 2 ^ g.emin * 2 ^ (-g.emin) := mul_lt_mul_of_pos_right below (two_zpow_pos _)
      _ = 2 ^ (0 : ℤ) := by rw [← two_zpow_add, add_neg_cancel]
  have scaled_pos : 0 < q * 2 ^ (-g.emin) := mul_pos positive (two_zpow_pos _)
  have quotient := div_power (j := g.emin) hx (fits_two_zpow (by omega) (by omega)) (by
    apply fits_up (by omega)
    rw [abs_of_pos scaled_pos]
    exact small.trans_le (two_zpow_le (by omega)))
  have digits := significand_is narrow scaled_pos.le (small.trans (by norm_num)) quotient
  rw [show -(g.trailing : ℤ) = g.emin - g.trailing + -g.emin by ring, digitsTo_scale,
    significand_eq (exponent_of_subnormal positive below)] at digits
  rw [decomposeFinite_small positive below hx, if_neg (above.not_ge), expt_eq, digits]
  rfl

theorem significand_tiny (positive : 0 < q) (below : q < 2 ^ g.emin) (small : q ≤ tiny g) : g.significand q = 0 := by
  have unit := two_zpow_pos (g.emin - g.trailing)
  have eighth : tiny g ≤ 1 / 8 * 2 ^ (g.emin - g.trailing) := by
    unfold tiny
    rw [show g.emin - ((g.trailing + 1 : ℕ) + 1) = g.emin - g.trailing + -2 by push_cast; ring, two_zpow_add]
    linarith
  have under : q / 2 ^ (g.emin - g.trailing) ≤ 1 / 8 := by
    rw [div_le_iff₀ unit]
    exact small.trans eighth
  have nonneg : 0 ≤ q / 2 ^ (g.emin - g.trailing) := div_nonneg positive.le unit.le
  have floor : ⌊q / 2 ^ (g.emin - g.trailing)⌋ = 0 := Int.floor_eq_zero_iff.mpr ⟨nonneg, by linarith⟩
  rw [← significand_eq (exponent_of_subnormal positive below)]
  unfold digitsTo roundHalfEven
  rw [floor, if_pos (by linarith)]
  rfl

def signOf (a : ℚ) : ℕ := if a < 0 then 1 else 0

theorem ieee754Sign_is (hx : x.Is a) (nonzero : a ≠ 0) : ieee754Sign x = signOf a := by
  have zero_is := exact_is 0
  unfold ieee754Sign signOf
  rw [zero_is.lt hx, hx.lt zero_is]
  rcases lt_or_gt_of_ne nonzero with negative | positive
  · simp [negative, negative.le.not_gt]
  · simp [positive, positive.le.not_gt]

theorem decomposeIeee754_finite {base precision : ℕ} {emax : ℤ} (hx : x.Is a) (nonzero : a ≠ 0) :
    decomposeIeee754 x base emax precision = decomposeFinite (signOf a) x.abs base emax precision := by
  obtain ⟨least, -⟩ := range_binary64
  have finite : ((exact 1).lt x.abs && x.eq (x.div (.exact 2))) = false := by
    rw [(exact_is 1).lt hx.abs]
    by_cases large : 1 < |a|
    · have quotient := div_power (j := 1) hx (fits_two_zpow (by omega) (by omega)) (by
        apply fits_down (by omega)
        rw [abs_mul, abs_of_pos (two_zpow_pos _)]
        calc (2 : ℚ) ^ binary64.emin ≤ 1 * 2 ^ (-1 : ℤ) := by
              rw [one_mul]
              exact two_zpow_le (by omega)
          _ ≤ |a| * 2 ^ (-1 : ℤ) := mul_le_mul_of_nonneg_right large.le (two_zpow_pos _).le)
      rw [zpow_one] at quotient
      have different : a ≠ a * 2 ^ (-1 : ℤ) := by
        intro same
        rw [zpow_neg_one] at same
        exact nonzero (by linarith)
      rw [hx.eq quotient, decide_eq_false different, Bool.and_false]
    · rw [decide_eq_false large, Bool.false_and]
  unfold decomposeIeee754
  rw [hx.eq hx, finite, ieee754Sign_is hx nonzero]
  simp

theorem decompose_normal (narrow : Narrow g) (hx : x.Is a) (nonzero : a ≠ 0) (holds : g.Holds |a| k e)
    (normal : 2 ^ g.trailing ≤ k) : decomposeIeee754 x 2 g.emax (g.trailing + 1) = .ok (.ifNormal (signOf a) e k) := by
  have lower : 2 ^ e ≤ |a| := (le_scaled normal).trans_eq holds.value.symm
  have upper : |a| < 2 ^ (e + 1) := holds.value.trans_lt (scaled_lt holds.short)
  rw [decomposeIeee754_finite hx nonzero, decomposeFinite_normal narrow lower upper holds.lower holds.upper hx.abs,
    holds.significand (abs_pos.mpr nonzero)]

theorem decompose_subnormal (narrow : Narrow g) (hx : x.Is a) (nonzero : a ≠ 0) (holds : g.Holds |a| k g.emin)
    (positive : 0 < k) (short : k < 2 ^ g.trailing) :
    decomposeIeee754 x 2 g.emax (g.trailing + 1) = .ok (.ifSubnormal (signOf a) k) := by
  have below : |a| < 2 ^ g.emin := by
    calc |a| = k * 2 ^ (g.emin - g.trailing) := holds.value
      _ < (2 ^ g.trailing : ℕ) * 2 ^ (g.emin - g.trailing) :=
        mul_lt_mul_of_pos_right (by exact_mod_cast short) (two_zpow_pos _)
      _ = 2 ^ g.emin := by rw [two_pow_units, add_sub_cancel_right]
  have above : tiny g < |a| := by
    calc tiny g < 2 ^ (g.emin - ((g.trailing + 1 : ℕ) + 1)) := half_lt_self (two_zpow_pos _)
      _ ≤ 2 ^ (g.emin - g.trailing) := two_zpow_le (by omega)
      _ ≤ k * 2 ^ (g.emin - g.trailing) := le_mul_of_one_le_left (two_zpow_pos _).le (by exact_mod_cast positive)
      _ = |a| := holds.value.symm
  rw [decomposeIeee754_finite hx nonzero, decomposeFinite_subnormal narrow above below hx.abs,
    holds.significand (abs_pos.mpr nonzero)]

theorem decompose_of_zero {base precision : ℕ} {emax : ℤ} (hx : x.Is 0) (positive : 0 < base) :
    decomposeIeee754 x base emax precision = .ok (.ifZero (ieee754Sign x)) := by
  have exact_zero := exact_is 0
  have power : (0 : ℚ) < (base : ℚ) ^ (1 - emax) := zpow_pos (by exact_mod_cast positive) _
  have expt_power : (expt base (1 - emax)).Is ((base : ℚ) ^ (1 - emax)) := rfl
  have magnitude := hx.abs
  unfold decomposeIeee754 decomposeFinite
  dsimp only
  rw [hx.eq hx, (exact_is 1).lt magnitude, (exact_is 1).le magnitude, expt_power.le magnitude,
    exact_zero.lt magnitude]
  have large : ¬((base : ℚ) ^ (1 - emax) ≤ 0) := power.not_ge
  simp [large, (zero_lt_one' ℚ).not_ge]

theorem decompose_zero {base precision : ℕ} {emax : ℤ} (negative : Bool) (positive : 0 < base) :
    decomposeIeee754 (.flonum (zero negative)) base emax precision = .ok (.ifZero negative.toNat) := by
  have hx : (flonum (.zero negative)).Is 0 := zero_is negative
  have exact_zero := exact_is 0
  have sign : ieee754Sign (.flonum (.zero negative)) = negative.toNat := by
    unfold ieee754Sign
    rw [exact_zero.lt hx, hx.lt exact_zero]
    cases negative <;> rfl
  rw [decompose_of_zero hx positive, sign]

theorem two_inexact : (ratToInexact 2).Is 2 := by
  have power := @fits_two_zpow 1 (by decide) (by decide)
  exact ratToInexact_is power

theorem infinite_class (negative : Bool) : (infinite negative).isNan = false ∧
    (infinite negative).isInfinite = true ∧ (infinite negative).isFinite = false :=
  ⟨decide_eq_false (lt_irrefl _), decide_eq_true rfl, decide_eq_false (lt_irrefl _)⟩

theorem half_infinite (negative : Bool) :
    (infinite negative).div (ratToInexact 2) = infinite negative := by
  obtain ⟨isNan, isInfinite, -⟩ := infinite_class negative
  have positive : (ratToInexact 2).negative = false := by
    cases sign : (ratToInexact 2).negative with
    | false => rfl
    | true =>
      have nonpos := two_inexact.nonpos sign
      norm_num at nonpos
  unfold Flonum.div
  rw [isNan, isNan_of_finite two_inexact.1, isInfinite, isInfinite_of_finite two_inexact.1, positive]
  simp [infinite]

theorem decompose_infinite {base precision : ℕ} {emax : ℤ} (negative : Bool) :
    decomposeIeee754 (.flonum (infinite negative)) base emax precision = .ok (.ifInfinite negative.toNat) := by
  obtain ⟨isNan, isInfinite, isFinite⟩ := infinite_class negative
  have same : (infinite negative).eq (.infinite negative) = true := by
    unfold Flonum.eq
    rw [isNan]
    simp
  have halved : (flonum (.infinite negative)).eq
      ((flonum (.infinite negative)).div (.exact 2)) = true := by
    show (infinite negative).eq ((infinite negative).div (ratToInexact 2)) = true
    rw [half_infinite]
    exact same
  unfold decomposeIeee754
  rw [halved]
  cases negative <;> rfl

theorem decompose_nan {base precision : ℕ} {emax : ℤ} {x : Flonum} (isNan : x.isNan = true) :
    decomposeIeee754 (.flonum x) base emax precision = decomposeNan (.flonum x) := by
  have different : (flonum x).eq (.flonum x) = false := by
    show Flonum.eq x x = false
    unfold Flonum.eq
    rw [isNan]
    simp
  unfold decomposeIeee754
  rw [different]
  rfl

end MitScheme.Runtime.Ieee754
