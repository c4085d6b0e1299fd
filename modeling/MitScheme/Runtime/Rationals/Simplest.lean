import MitScheme.Library.SimplestRational
import MitScheme.Runtime.Rationals.Canonical

namespace MitScheme.Runtime.Rationals

open Library
open Division (quotient remainder)

namespace Rational

def simplestLoop : (fuel : ℕ) → (x y : Rational) → Except Failure Rational
  | 0, _, _ => .error .unfinished
  | _ + 1, .integer n, _ => .ok (.integer n)
  | fuel + 1, x@(.ratnum _ _), y =>
    let fx := Rational.integer x.floor
    let fy := Rational.integer y.floor
    if equal fx fy then do
      let lower ← invert (subtract y fy)
      let upper ← invert (subtract x fx)
      let rest ← simplestLoop fuel lower upper
      let inverse ← invert rest
      .ok (add fx inverse)
    else .ok (increment fx)

def simplestBetween (fuel : ℕ) (x y : Rational) : Except Failure Rational :=
  if isPositive x then simplestLoop fuel x y
  else if isNegative y then (simplestLoop fuel (negate y) (negate x)).map negate
  else .ok (.integer 0)

def simplestRational (fuel : ℕ) (x y : Rational) : Except Failure Rational :=
  if less x y then simplestBetween fuel x y
  else if less y x then simplestBetween fuel y x
  else .ok x

def rationalize (fuel : ℕ) (q e : Rational) : Except Failure Rational :=
  simplestRational fuel (subtract q e) (add q e)

variable {x y : Rational} {fuel : ℕ}

theorem intFloor_eq {n d : ℤ} (positive : 0 < d) : intFloor n d = n / d := by
  have divides : remainder n d = 0 ↔ d ∣ n := Int.dvd_iff_tmod_eq_zero.symm
  have sign : d.sign = 1 := Int.sign_eq_one_of_pos positive
  unfold intFloor
  simp only [divides, quotient, Int.tdiv_eq_ediv, sign]
  split_ifs <;> omega

theorem floor_eq (hx : x.Canonical) : x.floor = ⌊x.value⌋ := by
  cases x with
  | integer n => simp [floor, value]
  | ratnum n d =>
    have positive := hx.positive
    obtain ⟨m, rfl⟩ := Int.eq_ofNat_of_zero_le positive.le
    rw [floor, intFloor_eq positive, ratnum_value, Int.cast_natCast, Rat.floor_intCast_div_natCast]

theorem floor_lt (n d : ℤ) (canonical : (ratnum n d).Canonical) :
    ((ratnum n d).floor : ℚ) < (ratnum n d).value ∧ (ratnum n d).value < (ratnum n d).floor + 1 := by
  rw [floor_eq canonical]
  refine ⟨lt_of_le_of_ne (Int.floor_le _) ?_, Int.lt_floor_add_one _⟩
  intro same
  have equal_parts := (@equal_iff (.integer ⌊(ratnum n d).value⌋) (ratnum n d) trivial canonical).mpr same
  simp [equal] at equal_parts

/-- One turn of the loop at end points in the same unit interval: the end points of the next turn, and how its result
gives this one's. -/
theorem simplestLoop_descends {n d : ℤ} (hx : (ratnum n d).Canonical) (hy : y.Canonical)
    (order : (ratnum n d).value < y.value) (same : (ratnum n d).floor = y.floor) :
    ∃ lower upper, lower.Represents (y.value - ((ratnum n d).floor : ℤ))⁻¹ ∧
      upper.Represents ((ratnum n d).value - ((ratnum n d).floor : ℤ))⁻¹ ∧
      lower.value.den + upper.value.den < (ratnum n d).value.den + y.value.den ∧
      simplestLoop (fuel + 1) (ratnum n d) y = (do
        let rest ← simplestLoop fuel lower upper
        let inverse ← invert rest
        .ok (add (.integer (ratnum n d).floor) inverse)) := by
  obtain ⟨below, above⟩ := floor_lt n d hx
  have floor_y := floor_eq hy
  have above_y : y.value < (ratnum n d).floor + 1 := by
    rw [same, floor_y]
    exact Int.lt_floor_add_one _
  have from_y := @subtract_represents y (.integer y.floor) hy trivial
  have from_x := @subtract_represents (ratnum n d) (.integer (ratnum n d).floor) hx trivial
  rw [integer_value] at from_x from_y
  obtain ⟨lower, inverted_y, lower_represents⟩ := invert_represents from_y.1 (by rw [from_y.2, ← same]; linarith)
  obtain ⟨upper, inverted_x, upper_represents⟩ := invert_represents from_x.1 (by rw [from_x.2]; linarith)
  rw [from_y.2, ← same] at lower_represents
  rw [from_x.2] at upper_represents
  refine ⟨lower, upper, lower_represents, upper_represents, ?_, ?_⟩
  · rw [lower_represents.2, upper_represents.2]
    have smaller := den_inv_fract_lt below above
    have smaller' := den_inv_fract_lt (below.trans order) above_y
    omega
  · have equal_floors : equal (.integer (ratnum n d).floor) (.integer y.floor) = true := by simp [equal, same]
    rw [simplestLoop]
    simp only [equal_floors, if_true, inverted_y, inverted_x]
    rfl

theorem simplestLoop_simplest (hx : x.Canonical) (hy : y.Canonical) (positive : 0 < x.value) (order : x.value < y.value)
    (enough : x.value.den + y.value.den ≤ fuel) :
    ∃ r, simplestLoop fuel x y = .ok r ∧ r.Canonical ∧ Simplest x.value y.value r.value := by
  induction fuel generalizing x y with
  | zero =>
    have some_den := x.value.den_pos
    omega
  | succ fuel ih =>
    cases x with
    | integer n =>
      have above : 0 < n := by
        rw [integer_value] at positive
        exact_mod_cast positive
      exact ⟨.integer n, by rw [simplestLoop], trivial, .integer above order.le⟩
    | ratnum n d =>
      obtain ⟨below, above⟩ := floor_lt n d hx
      have nonneg : 0 ≤ (ratnum n d).floor := by
        rw [floor_eq hx]
        exact Int.floor_nonneg.mpr positive.le
      by_cases same : (ratnum n d).floor = y.floor
      · obtain ⟨lower, upper, hl, hu, smaller, turn⟩ := @simplestLoop_descends y fuel n d hx hy order same
        have shifted : 0 < (ratnum n d).value - ((ratnum n d).floor : ℤ) := by linarith
        obtain ⟨rest, looped, canonical, simplest⟩ := ih hl.1 hu.1
          (by rw [hl.2]; exact inv_pos.mpr (by linarith))
          (by rw [hl.2, hu.2]; exact inv_strictAnti₀ shifted (by linarith)) (by omega)
        rw [hl.2, hu.2] at simplest
        have positive_l : 0 < (y.value - ((ratnum n d).floor : ℤ))⁻¹ := inv_pos.mpr (by linarith)
        have nonzero : rest.value ≠ 0 := (positive_l.trans_le simplest.lower).ne'
        obtain ⟨inverse, inverted, represents⟩ := invert_represents canonical nonzero
        have result := @add_represents (.integer (ratnum n d).floor) inverse trivial represents.1
        refine ⟨add (.integer (ratnum n d).floor) inverse, ?_, result.1, ?_⟩
        · rw [turn, looped]
          change (invert rest >>= fun inverse => .ok (add (.integer (ratnum n d).floor) inverse)) = _
          rw [inverted]
          rfl
        · have moved := (simplest.inv positive_l).add_int (by rwa [inv_inv]) nonneg
          rw [inv_inv, inv_inv, sub_add_cancel, sub_add_cancel] at moved
          rw [result.2, represents.2, add_comm]
          exact moved
      · have different : equal (.integer (ratnum n d).floor) (.integer y.floor) = false := by simp [equal, same]
        refine ⟨increment (.integer (ratnum n d).floor), ?_, trivial, ?_⟩
        · rw [simplestLoop]
          simp only [different]
          rfl
        · have next : (ratnum n d).floor + 1 ≤ y.floor := by
            rw [floor_eq hx, floor_eq hy] at *
            have mono := Int.floor_le_floor order.le
            omega
          have reached : ((ratnum n d).floor : ℚ) + 1 ≤ y.value := by
            have down := Int.floor_le y.value
            rw [← floor_eq hy] at down
            have step : (((ratnum n d).floor + 1 : ℤ) : ℚ) ≤ y.floor := by exact_mod_cast next
            push_cast at step
            linarith
          have value := (@increment_represents (.integer (ratnum n d).floor) trivial).2
          rw [value]
          exact .integer_after nonneg below above reached

theorem simplestBetween_simplest (hx : x.Canonical) (hy : y.Canonical) (order : x.value < y.value)
    (enough : x.value.den + y.value.den ≤ fuel) :
    ∃ r, simplestBetween fuel x y = .ok r ∧ r.Canonical ∧ Simplest x.value y.value r.value := by
  unfold simplestBetween
  by_cases positive : 0 < x.value
  · rw [if_pos ((isPositive_iff hx).mpr positive)]
    exact simplestLoop_simplest hx hy positive order enough
  · rw [if_neg (mt (isPositive_iff hx).mp positive)]
    by_cases negative : y.value < 0
    · rw [if_pos ((isNegative_iff hy).mpr negative)]
      have first := negate_represents hx
      have second := negate_represents hy
      obtain ⟨r, looped, canonical, simplest⟩ := @simplestLoop_simplest (negate y) (negate x) fuel second.1 first.1
        (by rw [second.2]; linarith) (by rw [first.2, second.2]; linarith)
        (by rw [first.2, second.2, Rat.den_neg_eq_den, Rat.den_neg_eq_den]; omega)
      have opposite := negate_represents canonical
      refine ⟨negate r, by rw [looped]; rfl, opposite.1, ?_⟩
      rw [first.2, second.2] at simplest
      have result := simplest.neg
      rwa [neg_neg, neg_neg, ← opposite.2] at result
    · rw [if_neg (mt (isNegative_iff hy).mp negative)]
      refine ⟨_, rfl, trivial, ?_⟩
      have zero := Simplest.zero (not_lt.mp positive) (not_lt.mp negative)
      rwa [integer_value]

theorem simplestRational_simplest (hx : x.Canonical) (hy : y.Canonical) (enough : x.value.den + y.value.den ≤ fuel) :
    ∃ r, simplestRational fuel x y = .ok r ∧ r.Canonical ∧
      Simplest (min x.value y.value) (max x.value y.value) r.value := by
  unfold simplestRational
  rcases lt_trichotomy x.value y.value with less | same | more
  · rw [if_pos ((less_iff hx hy).mpr less), min_eq_left less.le, max_eq_right less.le]
    exact simplestBetween_simplest hx hy less enough
  · have not_less : ¬less x y = true := mt (less_iff hx hy).mp same.not_lt
    have not_more : ¬less y x = true := mt (less_iff hy hx).mp same.not_gt
    rw [if_neg not_less, if_neg not_more, ← same, min_self, max_self]
    exact ⟨x, rfl, hx, .single x.value⟩
  · rw [if_neg (mt (less_iff hx hy).mp more.not_gt), if_pos ((less_iff hy hx).mpr more), min_eq_right more.le,
      max_eq_left more.le]
    exact simplestBetween_simplest hy hx more (by omega)

theorem min_sub_add (a b : ℚ) : min (a - b) (a + b) = a - |b| := by
  rcases le_total 0 b with nonneg | nonpos
  · rw [abs_of_nonneg nonneg, min_eq_left (by linarith)]
  · rw [abs_of_nonpos nonpos, min_eq_right (by linarith), sub_neg_eq_add]

theorem max_sub_add (a b : ℚ) : max (a - b) (a + b) = a + |b| := by
  rcases le_total 0 b with nonneg | nonpos
  · rw [abs_of_nonneg nonneg, max_eq_right (by linarith)]
  · rw [abs_of_nonpos nonpos, max_eq_left (by linarith), sub_eq_add_neg]

/-- The search ends, with fuel enough for the denominators, and finds the simplest rational between its arguments. -/
theorem simplest_rational (hx : x.Canonical) (hy : y.Canonical) :
    (∃ r, (∀ fuel ≥ x.value.den + y.value.den, simplestRational fuel x y = .ok r) ∧ r.Canonical ∧
      Simplest (min x.value y.value) (max x.value y.value) r.value ∧
      (min x.value y.value ≤ 0 → 0 ≤ max x.value y.value → r = .integer 0) ∧ (x = y → r = x)) ∧
    ∃ r enough, (∀ fuel ≥ enough, rationalize fuel x y = .ok r) ∧ r.Canonical ∧
      Simplest (x.value - |y.value|) (x.value + |y.value|) r.value := by
  constructor
  · obtain ⟨r, found, canonical, simplest⟩ := simplestRational_simplest hx hy le_rfl
    refine ⟨r, ?_, canonical, simplest, ?_, ?_⟩
    · intro fuel enough
      obtain ⟨r', found', canonical', simplest'⟩ := simplestRational_simplest hx hy enough
      rw [found', Represents.unique ⟨canonical', simplest'.unique simplest⟩ ⟨canonical, rfl⟩]
    · intro below above
      have zero : r.value = 0 := simplest.unique (.zero below above)
      exact Represents.unique ⟨canonical, zero⟩ ⟨trivial, by simp [value]⟩
    · rintro rfl
      rw [min_self, max_self] at simplest
      exact Represents.unique ⟨canonical, simplest.unique (.single _)⟩ ⟨hx, rfl⟩
  · have difference := subtract_represents hx hy
    have sum := add_represents hx hy
    obtain ⟨r, found, canonical, simplest⟩ := simplestRational_simplest difference.1 sum.1 le_rfl
    refine ⟨r, (subtract x y).value.den + (add x y).value.den, ?_, canonical, ?_⟩
    · intro fuel enough
      obtain ⟨r', found', canonical', simplest'⟩ := simplestRational_simplest difference.1 sum.1 enough
      rw [rationalize, found', Represents.unique ⟨canonical', simplest'.unique simplest⟩ ⟨canonical, rfl⟩]
    · rwa [difference.2, sum.2, min_sub_add, max_sub_add] at simplest

theorem simplest_rational_pi : ∃ r enough, (∀ fuel ≥ enough, simplestRational fuel (.ratnum 157 50) (.ratnum 63 20) = .ok r) ∧
    r.Canonical ∧ Simplest (157 / 50) (63 / 20) r.value := by
  obtain ⟨r, found, canonical, simplest, -⟩ := (@simplest_rational (.ratnum 157 50) (.ratnum 63 20)
    ⟨by decide, Int.isCoprime_iff_gcd_eq_one.mpr (by decide)⟩ ⟨by decide, Int.isCoprime_iff_gcd_eq_one.mpr (by decide)⟩).1
  refine ⟨r, _, found, canonical, ?_⟩
  norm_num [value] at simplest
  exact simplest

example : simplestRational 100 (.ratnum 157 50) (.ratnum 63 20) = .ok (.ratnum 22 7) := by decide +kernel

end Rational

end MitScheme.Runtime.Rationals
