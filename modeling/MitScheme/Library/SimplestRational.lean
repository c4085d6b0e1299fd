import Mathlib.Data.Rat.Floor

/-!
The rational with the least denominator, and among those the one with the least numerator. In an
interval of positive rationals it has the least numerator as well, so that taking inverses keeps it.
-/

namespace MitScheme.Library

open Rat (num_div_den num_pos)

/-- The rational is in the interval, and every other one there has a larger denominator, or the same and a larger
numerator. -/
structure Simplest (lo hi r : ℚ) : Prop where
  lower : lo ≤ r
  upper : r ≤ hi
  least : ∀ s, lo ≤ s → s ≤ hi → s ≠ r → r.den < s.den ∨ r.den = s.den ∧ r.num.natAbs < s.num.natAbs

namespace Simplest

variable {lo hi r r' : ℚ}

theorem unique (first : Simplest lo hi r) (second : Simplest lo hi r') : r = r' := by
  by_contra different
  have one := first.least r' second.lower second.upper (.symm different)
  have other := second.least r first.lower first.upper different
  omega

theorem zero (below : lo ≤ 0) (above : 0 ≤ hi) : Simplest lo hi 0 := by
  refine ⟨below, above, ?_⟩
  intro s _ _ nonzero
  have positive := s.den_pos
  have numerator : s.num ≠ 0 := Rat.num_ne_zero.mpr nonzero
  rw [Rat.den_zero, Rat.num_zero]
  omega

theorem single (q : ℚ) : Simplest q q q :=
  ⟨le_rfl, le_rfl, fun _ lower upper different => absurd (upper.antisymm lower) different⟩

theorem neg (simplest : Simplest lo hi r) : Simplest (-hi) (-lo) (-r) := by
  refine ⟨neg_le_neg simplest.upper, neg_le_neg simplest.lower, ?_⟩
  intro s lower upper different
  have opposite : -s ≠ r := by
    rintro rfl
    exact different (neg_neg s).symm
  have least := simplest.least (-s) (le_neg_of_le_neg upper) (neg_le_of_neg_le lower) opposite
  rwa [Rat.num_neg_eq_neg_num, Int.natAbs_neg] at least ⊢

theorem integer {n : ℤ} (positive : 0 < n) (order : (n : ℚ) ≤ hi) : Simplest n hi n := by
  refine ⟨le_rfl, order, ?_⟩
  intro s lower _ different
  have denominator := s.den_pos
  rw [Rat.den_intCast, Rat.num_intCast]
  by_cases whole : s.den = 1
  · refine .inr ⟨whole.symm, ?_⟩
    have same : s = s.num := (Rat.den_eq_one_iff s).mp whole |>.symm
    have below : n < s.num := by
      have less : (n : ℚ) < s := lt_of_le_of_ne lower (different.symm)
      rw [same] at less
      exact_mod_cast less
    omega
  · omega

theorem integer_after {n : ℤ} (nonneg : 0 ≤ n) (below : (n : ℚ) < lo) (above : lo < n + 1) (order : (n : ℚ) + 1 ≤ hi) :
    Simplest lo hi (n + 1) := by
  refine ⟨above.le, order, ?_⟩
  intro s lower upper different
  have from_next : ∀ m : ℤ, s = m → n + 1 ≤ m := by
    intro m same
    rw [same] at lower
    have less : (n : ℚ) < m := below.trans_le lower
    have strict : n < m := by exact_mod_cast less
    omega
  have next : ((n : ℚ) + 1) = ((n + 1 : ℤ) : ℚ) := by push_cast; rfl
  have denominator := s.den_pos
  rw [next] at different ⊢
  rw [Rat.den_intCast, Rat.num_intCast]
  by_cases whole : s.den = 1
  · refine .inr ⟨whole.symm, ?_⟩
    have same : s = s.num := (Rat.den_eq_one_iff s).mp whole |>.symm
    have least := from_next s.num same
    have other : n + 1 ≠ s.num := by
      intro equal
      exact different (by rw [equal]; exact same)
    omega
  · omega

theorem num_add_intCast (q : ℚ) (n : ℤ) : (q + n).num = q.num + n * q.den := by
  have parts := num_div_den (q + n)
  rw [Rat.add_intCast_den] at parts
  have nonzero : (q.den : ℚ) ≠ 0 := by exact_mod_cast q.den_ne_zero
  rw [div_eq_iff nonzero, add_mul, Rat.mul_den_eq_num] at parts
  exact_mod_cast parts

theorem add_int {n : ℤ} (simplest : Simplest lo hi r) (positive : 0 < lo) (nonneg : 0 ≤ n) :
    Simplest (lo + n) (hi + n) (r + n) := by
  have lower := simplest.lower
  have upper := simplest.upper
  refine ⟨by linarith, by linarith, ?_⟩
  intro s below above different
  have moved : s = s - n + n := (sub_add_cancel s _).symm
  have other : s - n ≠ r := by
    rintro rfl
    exact different moved
  have least := simplest.least (s - n) (by linarith) (by linarith) other
  have positive_s : 0 < (s - n).num := num_pos.mpr (by linarith)
  rw [moved, Rat.add_intCast_den, Rat.add_intCast_den, num_add_intCast, num_add_intCast]
  rcases least with smaller | ⟨same, smaller⟩
  · exact .inl smaller
  · refine .inr ⟨same, ?_⟩
    have product : 0 ≤ n * (r.den : ℤ) := mul_nonneg nonneg (Int.natCast_nonneg _)
    rw [← same]
    omega

/-- The simplest rational has the least numerator too: one with a smaller numerator and a larger denominator would
leave room for a simpler one. -/
theorem least_num (simplest : Simplest lo hi r) (positive : 0 < lo) {s : ℚ} (lower : lo ≤ s) (upper : s ≤ hi)
    (different : s ≠ r) : r.num < s.num ∨ r.num = s.num ∧ r.den < s.den := by
  have positive_r : 0 < r := positive.trans_le simplest.lower
  have positive_s : 0 < s := positive.trans_le lower
  have num_s : 0 < s.num := num_pos.mpr positive_s
  rcases simplest.least s lower upper different with smaller | ⟨same, smaller⟩
  · by_contra neither
    have order : s.num < r.num := by omega
    have den_r : (0 : ℚ) < r.den := by exact_mod_cast r.den_pos
    have between : s ≤ s.num / r.den := by
      conv_lhs => rw [← num_div_den s]
      have less : (r.den : ℚ) ≤ s.den := by exact_mod_cast smaller.le
      exact div_le_div_of_nonneg_left (by exact_mod_cast num_s.le) den_r less
    have below : (s.num : ℚ) / r.den < r := by
      conv_rhs => rw [← num_div_den r]
      exact div_lt_div_of_pos_right (by exact_mod_cast order) den_r
    have simpler := simplest.least (s.num / r.den) (lower.trans between) (below.le.trans simplest.upper) below.ne
    have divides : (((s.num : ℚ) / r.den).den : ℤ) ∣ r.den := by
      have quotient := Rat.den_dvd s.num r.den
      rwa [Rat.divInt_eq_div] at quotient
    have bound : ((s.num : ℚ) / r.den).den ≤ r.den := Nat.le_of_dvd r.den_pos (by exact_mod_cast divides)
    rcases simpler with more | ⟨equal, more⟩
    · omega
    · have numerator : ((s.num : ℚ) / r.den).num = s.num := by
        have parts := num_div_den ((s.num : ℚ) / r.den)
        rw [← equal, div_left_inj' den_r.ne'] at parts
        exact_mod_cast parts
      rw [numerator] at more
      omega
  · exact .inl (by omega)

theorem inv (simplest : Simplest lo hi r) (positive : 0 < lo) : Simplest hi⁻¹ lo⁻¹ r⁻¹ := by
  have positive_r : 0 < r := positive.trans_le simplest.lower
  have positive_hi : 0 < hi := positive_r.trans_le simplest.upper
  refine ⟨inv_anti₀ positive_r simplest.upper, inv_anti₀ positive simplest.lower, ?_⟩
  intro s below above different
  have positive_s : 0 < s := (inv_pos.mpr positive_hi).trans_le below
  have lower : lo ≤ s⁻¹ := (le_inv_comm₀ positive_s positive).mp above
  have upper : s⁻¹ ≤ hi := (inv_le_comm₀ positive_hi positive_s).mp below
  have other : s⁻¹ ≠ r := by
    rintro rfl
    exact different (inv_inv s).symm
  have least := simplest.least_num positive lower upper other
  have num_r : 0 < r.num := num_pos.mpr positive_r
  have num_s : 0 < s.num := num_pos.mpr positive_s
  have den_s : s⁻¹.num = s.den := by rw [Rat.num_inv, Int.sign_eq_one_of_pos num_s, one_mul]
  have num_s' : s⁻¹.den = s.num.natAbs := Rat.den_inv_of_ne_zero positive_s.ne'
  rw [Rat.num_inv, Int.sign_eq_one_of_pos num_r, one_mul, Rat.den_inv_of_ne_zero positive_r.ne']
  omega

end Simplest

theorem den_inv_fract_lt {q : ℚ} {n : ℤ} (below : (n : ℚ) < q) (above : q < n + 1) : (q - n)⁻¹.den < q.den := by
  have positive : 0 < q - n := by linarith
  have less : q - n < 1 := by linarith
  rw [Rat.den_inv_of_ne_zero positive.ne', ← Rat.sub_intCast_den q n]
  have order : (q - n).num < (q - n).den := Rat.num_lt_denom_iff.mpr less
  have numerator : 0 < (q - n).num := num_pos.mpr positive
  omega

end MitScheme.Library
