import MitScheme.Runtime.Rationals.Arithmetic

namespace MitScheme.Runtime.Rationals

open Division (quotient remainder)
open Int (cast_one isUnit_iff)

theorem intGcd_eq (n m : ℤ) : intGcd n m = Int.gcd n m := by
  induction n, m using intGcd.induct with
  | case1 n m nonzero ih =>
    rw [intGcd, if_pos nonzero, ih, remainder, Int.gcd_comm n m]
    rw [Int.gcd_def, Int.gcd_def, Int.natAbs_tmod, Nat.gcd_comm, ← Nat.gcd_rec]
  | case2 n m zero negative =>
    rw [intGcd, not_not.mp zero, Int.gcd_zero_right]
    omega
  | case3 n m zero nonneg =>
    rw [intGcd, not_not.mp zero, Int.gcd_zero_right]
    omega

theorem intGcd_parts {n m : ℤ} (nonzero : n ≠ 0 ∨ m ≠ 0) :
    ∃ g a b, 0 < g ∧ intGcd n m = g ∧ n = g * a ∧ m = g * b ∧ IsCoprime a b := by
  have positive : 0 < Int.gcd n m := Int.gcd_pos_iff.mpr nonzero
  obtain ⟨a, b, coprime, first, second⟩ := Int.exists_gcd_one positive
  exact ⟨Int.gcd n m, a, b, by exact_mod_cast positive, intGcd_eq n m, by rw [mul_comm]; exact first,
    by rw [mul_comm]; exact second, Int.isCoprime_iff_gcd_eq_one.mpr coprime⟩

theorem quotient_mul {d : ℤ} (nonzero : d ≠ 0) (n : ℤ) : quotient (d * n) d = n := Int.mul_tdiv_cancel_left n nonzero

theorem quotient_neg_mul {d : ℤ} (nonzero : d ≠ 0) (n : ℤ) : quotient (d * n) (-d) = -n := by
  rw [quotient, Int.tdiv_neg, Int.mul_tdiv_cancel_left n nonzero]

namespace Rational

variable {x y z : Rational} {n d u u' v v' : ℤ} {p q : ℚ}

theorem makeRational_represents (positive : 0 < d) (coprime : IsCoprime n d) : (makeRational n d).Represents (n / d) := by
  unfold makeRational
  split
  · rename_i whole
    refine ⟨trivial, ?_⟩
    rcases whole with zero | one
    · rw [zero]
      simp [value]
    · rw [one]
      simp [value]
  · exact ⟨⟨by omega, coprime⟩, rfl⟩

theorem makeRational_of (positive : 0 < d) (coprime : IsCoprime n d) (same : (n : ℚ) / d = q) :
    (makeRational n d).Represents q := same ▸ makeRational_represents positive coprime

theorem Canonical.nonzero (canonical : (ratnum n d).Canonical) : n ≠ 0 := by
  intro zero
  have unit := isCoprime_zero_left.mp (zero ▸ canonical.2)
  have large := canonical.1
  rcases isUnit_iff.mp unit with one | minus <;> omega

theorem Canonical.positive (canonical : (ratnum n d).Canonical) : 0 < d := by
  have large := canonical.1
  omega

theorem ratnum_value (n d : ℤ) : (ratnum n d).value = n / d := rfl

theorem integer_value (n : ℤ) : (integer n).value = n := rfl

section
variable {op : ℤ → ℤ → ℤ} {s : ℤ}

theorem sum_coprime {g a b : ℤ} (unit : IsUnit s) (hu : IsCoprime u (g * a)) (hv : IsCoprime v (g * b)) (parts : IsCoprime a b) :
    IsCoprime (u * b + s * (v * a)) (a * b) := by
  have ua : IsCoprime u a := hu.of_isCoprime_of_dvd_right (Dvd.intro_left g rfl)
  have vb : IsCoprime v b := hv.of_isCoprime_of_dvd_right (Dvd.intro_left g rfl)
  apply IsCoprime.mul_right
  · have first : IsCoprime (u * b) a := ua.mul_left parts.symm
    have shifted := first.add_mul_right_left (s * v)
    rwa [mul_assoc] at shifted
  · have second : IsCoprime (s * (v * a)) b := (isCoprime_mul_unit_left_left unit _ _).mpr (vb.mul_left parts)
    have shifted := second.add_mul_right_left u
    rwa [add_comm] at shifted

theorem additionOperator_represents (linear : ∀ a b, op a b = a + s * b) (unit : IsUnit s) (hx : x.Canonical) (hy : y.Canonical) :
    (additionOperator op x y).Represents (x.value + s * y.value) := by
  cases x with
  | integer u =>
    cases y with
    | integer v =>
      refine ⟨trivial, ?_⟩
      change ((op u v : ℤ) : ℚ) = _
      rw [linear]
      push_cast
      rfl
    | ratnum v v' =>
      have nonzero : (v' : ℚ) ≠ 0 := by exact_mod_cast hy.positive.ne'
      apply makeRational_of hy.positive
      · rw [linear, add_comm]
        exact ((isCoprime_mul_unit_left_left unit _ _).mpr hy.2).add_mul_right_left u
      · rw [linear, integer_value, ratnum_value]
        push_cast
        field_simp
  | ratnum u u' =>
    cases y with
    | integer v =>
      have nonzero : (u' : ℚ) ≠ 0 := by exact_mod_cast hx.positive.ne'
      apply makeRational_of hx.positive
      · rw [linear, ← mul_assoc]
        exact hx.2.add_mul_right_left (s * v)
      · rw [linear, integer_value, ratnum_value]
        push_cast
        field_simp
    | ratnum v v' =>
      have positive := hx.positive
      have positive' := hy.positive
      obtain ⟨g, a, b, hg, gcd, first, second, parts⟩ := intGcd_parts (.inl positive.ne' : u' ≠ 0 ∨ v' ≠ 0)
      have ha : 0 < a := pos_of_mul_pos_right (first ▸ positive) hg.le
      have hb : 0 < b := pos_of_mul_pos_right (second ▸ positive') hg.le
      have sum := sum_coprime unit (first ▸ hx.2) (second ▸ hy.2) parts
      have total : (ratnum u u').value + s * (ratnum v v').value = ((u * b + s * (v * a) : ℤ) : ℚ) / (g * (a * b) : ℤ) := by
        rw [ratnum_value, ratnum_value, first, second]
        push_cast
        field_simp
      rw [total]
      simp only [additionOperator, binaryOperator, gcd]
      split
      · -- the denominators have no common factor
        rename_i one
        rw [one, one_mul] at first second
        rw [one, one_mul, linear, first, second]
        exact makeRational_represents (mul_pos ha hb) sum
      · have share : quotient u' g = a := by rw [first, quotient_mul hg.ne']
        have share' : quotient v' g = b := by rw [second, quotient_mul hg.ne']
        rw [share, share', linear]
        split
        · rename_i zero
          rw [zero]
          refine ⟨trivial, ?_⟩
          simp [value]
        · obtain ⟨h, t, g', hh, gcd', third, fourth, parts'⟩ :=
            intGcd_parts (.inr hg.ne' : u * b + s * (v * a) ≠ 0 ∨ g ≠ 0)
          have hg' : 0 < g' := pos_of_mul_pos_right (fourth ▸ hg) hh.le
          have rest : quotient v' h = g' * b := by rw [second, fourth, mul_assoc, quotient_mul hh.ne']
          rw [gcd', rest, third, quotient_mul hh.ne', fourth]
          apply makeRational_of (mul_pos ha (mul_pos hg' hb))
          · rw [third] at sum
            have common : IsCoprime t (a * b) := sum.of_isCoprime_of_dvd_left (Dvd.intro_left h rfl)
            have product : a * (g' * b) = g' * (a * b) := by ring
            rw [product]
            exact parts'.mul_right common
          · have nonzero_g' : (g' : ℚ) ≠ 0 := by exact_mod_cast hg'.ne'
            push_cast
            field_simp

theorem add_represents (hx : x.Canonical) (hy : y.Canonical) : (add x y).Represents (x.value + y.value) := by
  have sum := @additionOperator_represents x y (· + ·) 1 (fun a b => by simp) isUnit_one hx hy
  rwa [cast_one, one_mul] at sum

theorem subtract_represents (hx : x.Canonical) (hy : y.Canonical) : (subtract x y).Represents (x.value - y.value) := by
  have difference := @additionOperator_represents x y (· - ·) (-1) (fun a b => by ring) isUnit_one.neg hx hy
  rwa [Int.cast_neg, cast_one, neg_one_mul, ← sub_eq_add_neg] at difference

end

theorem increment_represents (hx : x.Canonical) : (increment x).Represents (x.value + 1) := by
  cases x with
  | integer v =>
    refine ⟨trivial, ?_⟩
    simp [increment, value]
  | ratnum v v' =>
    have nonzero : (v' : ℚ) ≠ 0 := by exact_mod_cast hx.positive.ne'
    refine ⟨⟨hx.1, ?_⟩, ?_⟩
    · have shifted := hx.2.add_mul_right_left 1
      rwa [one_mul] at shifted
    · rw [increment, ratnum_value, ratnum_value]
      push_cast
      field_simp

theorem negate_represents (hx : x.Canonical) : (negate x).Represents (-x.value) := by
  cases x with
  | integer v =>
    refine ⟨trivial, ?_⟩
    simp [negate, value]
  | ratnum v v' =>
    refine ⟨⟨hx.1, hx.2.neg_left⟩, ?_⟩
    rw [negate, ratnum_value, ratnum_value, Int.cast_neg, neg_div]

theorem multiply_represents (hx : x.Canonical) (hy : y.Canonical) : (multiply x y).Represents (x.value * y.value) := by
  cases x with
  | integer u =>
    cases y with
    | integer v =>
      refine ⟨trivial, ?_⟩
      simp [multiply, binaryOperator, value]
    | ratnum v v' =>
      have positive := hy.positive
      obtain ⟨g, a, b, hg, gcd, first, second, parts⟩ := intGcd_parts (.inr positive.ne' : u ≠ 0 ∨ v' ≠ 0)
      have hb : 0 < b := pos_of_mul_pos_right (second ▸ positive) hg.le
      simp only [multiply, binaryOperator, gcd, integer_value, ratnum_value]
      have coprime := hy.2
      rw [second] at coprime
      rw [first, second, quotient_mul hg.ne', quotient_mul hg.ne']
      apply makeRational_of hb
      · exact parts.mul_left (coprime.of_isCoprime_of_dvd_right (Dvd.intro_left g rfl))
      · push_cast
        field_simp
  | ratnum u u' =>
    cases y with
    | integer v =>
      have positive := hx.positive
      obtain ⟨g, a, b, hg, gcd, first, second, parts⟩ := intGcd_parts (.inr positive.ne' : v ≠ 0 ∨ u' ≠ 0)
      have hb : 0 < b := pos_of_mul_pos_right (second ▸ positive) hg.le
      simp only [multiply, binaryOperator, gcd, integer_value, ratnum_value]
      have coprime := hx.2
      rw [second] at coprime
      rw [first, second, quotient_mul hg.ne', quotient_mul hg.ne']
      apply makeRational_of hb
      · exact (coprime.of_isCoprime_of_dvd_right (Dvd.intro_left g rfl)).mul_left parts
      · push_cast
        field_simp
    | ratnum v v' =>
      have positive := hx.positive
      have positive' := hy.positive
      obtain ⟨g, a, b, hg, gcd, first, second, parts⟩ := intGcd_parts (.inr positive'.ne' : u ≠ 0 ∨ v' ≠ 0)
      obtain ⟨h, c, e, hh, gcd', third, fourth, parts'⟩ := intGcd_parts (.inr positive.ne' : v ≠ 0 ∨ u' ≠ 0)
      have hb : 0 < b := pos_of_mul_pos_right (second ▸ positive') hg.le
      have he : 0 < e := pos_of_mul_pos_right (fourth ▸ positive) hh.le
      simp only [multiply, binaryOperator, gcd, gcd', ratnum_value]
      have coprime := hx.2
      have coprime' := hy.2
      rw [first, fourth] at coprime
      rw [third, second] at coprime'
      rw [first, second, third, fourth, quotient_mul hg.ne', quotient_mul hg.ne', quotient_mul hh.ne', quotient_mul hh.ne']
      apply makeRational_of (mul_pos he hb)
      · have ae : IsCoprime a e :=
          (coprime.of_isCoprime_of_dvd_left (Dvd.intro_left g rfl)).of_isCoprime_of_dvd_right (Dvd.intro_left h rfl)
        have cb : IsCoprime c b :=
          (coprime'.of_isCoprime_of_dvd_left (Dvd.intro_left h rfl)).of_isCoprime_of_dvd_right (Dvd.intro_left g rfl)
        exact (ae.mul_right parts).mul_left (parts'.mul_right cb)
      · push_cast
        field_simp

theorem square_represents (hx : x.Canonical) : (square x).Represents (x.value * x.value) := by
  cases x with
  | integer n =>
    refine ⟨trivial, ?_⟩
    simp [square, value]
  | ratnum n d =>
    have large := hx.1
    refine ⟨⟨by nlinarith, ?_⟩, ?_⟩
    · exact (hx.2.mul_right hx.2).mul_left (hx.2.mul_right hx.2)
    · rw [square, ratnum_value, ratnum_value, div_mul_div_comm]
      push_cast
      rfl

theorem quotients_represent (nonzero : v ≠ 0) : ∃ n d : ℤ, 0 < d ∧ IsCoprime n d ∧ (n : ℚ) / d = u / v ∧
    signCorrection u v (fun u v => (quotient u (intGcd u v), quotient v (intGcd u v))) = (n, d) := by
  obtain ⟨w, w', positive, same, corrected⟩ : ∃ w w' : ℤ, 0 < w' ∧ (w : ℚ) / w' = u / v ∧
      ∀ k : ℤ → ℤ → ℤ × ℤ, signCorrection u v k = k w w' := by
    by_cases negative : v < 0
    · refine ⟨-u, -v, by omega, ?_, fun k => if_pos negative⟩
      push_cast
      rw [neg_div_neg_eq]
    · exact ⟨u, v, by omega, rfl, fun k => if_neg negative⟩
  obtain ⟨g, a, b, hg, gcd, first, second, parts⟩ := intGcd_parts (.inr positive.ne' : w ≠ 0 ∨ w' ≠ 0)
  have nonzero_g : (g : ℚ) ≠ 0 := by exact_mod_cast hg.ne'
  have above : 0 < b := pos_of_mul_pos_right (second ▸ positive) hg.le
  refine ⟨a, b, above, parts, ?_, ?_⟩
  · rw [← same, first, second]
    push_cast
    rw [mul_div_mul_left _ _ nonzero_g]
  · rw [corrected, gcd, first, second, quotient_mul hg.ne', quotient_mul hg.ne']

theorem signCorrection_map {α β : Type} (f : α → β) (u v : ℤ) (k : ℤ → ℤ → α) :
    signCorrection u v (fun u v => f (k u v)) = f (signCorrection u v k) := by
  unfold signCorrection
  split <;> rfl

theorem divide_represents (hx : x.Canonical) (hy : y.Canonical) (nonzero : y.value ≠ 0) :
    ∃ z, divide x y = .ok z ∧ z.Represents (x.value / y.value) := by
  cases y with
  | integer v =>
    have divisor : v ≠ 0 := by
      rintro rfl
      exact nonzero rfl
    cases x with
    | integer u =>
      obtain ⟨n, d, positive, coprime, same, parts⟩ := @quotients_represent u v divisor
      refine ⟨makeRational n d, ?_, makeRational_of positive coprime same⟩
      simp only [divide, binaryOperator, if_neg divisor]
      have mapped := signCorrection_map (fun r : ℤ × ℤ => (.ok (makeRational r.1 r.2) : Except Failure Rational)) u v
        fun u v => (quotient u (intGcd u v), quotient v (intGcd u v))
      rw [parts] at mapped
      exact mapped
    | ratnum u u' =>
      obtain ⟨n, d, positive, coprime, same, parts⟩ := @quotients_represent u v divisor
      refine ⟨makeRational n (u' * d), ?_, makeRational_of (mul_pos hx.positive positive) ?_ ?_⟩
      · simp only [divide, binaryOperator, if_neg divisor]
        have mapped := signCorrection_map
          (fun r : ℤ × ℤ => (.ok (makeRational r.1 (u' * r.2)) : Except Failure Rational)) u v
          fun u v => (quotient u (intGcd u v), quotient v (intGcd u v))
        rw [parts] at mapped
        exact mapped
      · refine .mul_right ?_ coprime
        -- the numerator divides the one of the ratnum
        have divides : n ∣ u := by
          have cross : n * v = u * d := by
            have hv : (v : ℚ) ≠ 0 := by exact_mod_cast divisor
            have hd : (d : ℚ) ≠ 0 := by exact_mod_cast positive.ne'
            have crossed := (div_eq_div_iff hd hv).mp same
            exact_mod_cast crossed
          exact coprime.dvd_of_dvd_mul_right (Dvd.intro v cross)
        exact hx.2.of_isCoprime_of_dvd_left divides
      · rw [ratnum_value, integer_value, div_div, mul_comm (u' : ℚ), ← div_div, ← same]
        push_cast
        rw [div_div, mul_comm (d : ℚ)]
  | ratnum v v' =>
    have divisor : v ≠ 0 := hy.nonzero
    have hv : (v : ℚ) ≠ 0 := by exact_mod_cast divisor
    cases x with
    | integer u =>
      obtain ⟨n, d, positive, coprime, same, parts⟩ := @quotients_represent u v divisor
      refine ⟨makeRational (n * v') d, ?_, makeRational_of positive ?_ ?_⟩
      · have mapped := signCorrection_map
          (fun r : ℤ × ℤ => (.ok (makeRational (r.1 * v') r.2) : Except Failure Rational)) u v
          fun u v => (quotient u (intGcd u v), quotient v (intGcd u v))
        rw [parts] at mapped
        exact mapped
      · refine coprime.mul_left ?_
        -- the denominator divides the numerator of the ratnum
        have divides : d ∣ v := by
          have cross : n * v = u * d := by
            have hd : (d : ℚ) ≠ 0 := by exact_mod_cast positive.ne'
            have crossed := (div_eq_div_iff hd hv).mp same
            exact_mod_cast crossed
          exact coprime.symm.dvd_of_dvd_mul_left (Dvd.intro_left u cross.symm)
        exact hy.2.symm.of_isCoprime_of_dvd_right divides
      · rw [ratnum_value, integer_value, div_div_eq_mul_div, mul_div_right_comm, ← same]
        push_cast
        rw [mul_div_right_comm]
    | ratnum u u' =>
      have positive := hx.positive
      obtain ⟨g, a, b, hg, gcd, first, second, parts⟩ := intGcd_parts (.inr divisor : u ≠ 0 ∨ v ≠ 0)
      obtain ⟨h, c, e, hh, gcd', third, fourth, parts'⟩ := intGcd_parts (.inr positive.ne' : v' ≠ 0 ∨ u' ≠ 0)
      have he : 0 < e := pos_of_mul_pos_right (fourth ▸ positive) hh.le
      have coprime := hx.2
      have coprime' := hy.2
      rw [first, fourth] at coprime
      rw [second, third] at coprime'
      have ae : IsCoprime a e :=
        (coprime.of_isCoprime_of_dvd_left (Dvd.intro_left g rfl)).of_isCoprime_of_dvd_right (Dvd.intro_left h rfl)
      have bc : IsCoprime b c :=
        (coprime'.of_isCoprime_of_dvd_left (Dvd.intro_left g rfl)).of_isCoprime_of_dvd_right (Dvd.intro_left h rfl)
      have reduced : IsCoprime (a * c) (e * b) := (ae.mul_right parts).mul_left (parts'.mul_right bc.symm)
      simp only [divide, binaryOperator, gcd, gcd', ratnum_value]
      refine ⟨_, rfl, ?_⟩
      split
      · rename_i negative
        have hb : b < 0 := by
          rw [second] at negative
          exact neg_of_mul_neg_right negative hg.le
        rw [first, second, third, fourth, quotient_mul hg.ne', quotient_mul hg.ne', quotient_neg_mul hh.ne',
          quotient_neg_mul hh.ne']
        apply makeRational_of (mul_pos_of_neg_of_neg (by omega) hb)
        · rw [mul_neg, neg_mul]
          exact reduced.neg_neg
        · push_cast
          field_simp
      · have hb : 0 < b := by
          have above : 0 < v := by omega
          exact pos_of_mul_pos_right (second ▸ above) hg.le
        rw [first, second, third, fourth, quotient_mul hg.ne', quotient_mul hg.ne', quotient_mul hh.ne', quotient_mul hh.ne']
        apply makeRational_of (mul_pos he hb) reduced
        push_cast
        field_simp

theorem invert_represents (hx : x.Canonical) (nonzero : x.value ≠ 0) : ∃ z, invert x = .ok z ∧ z.Represents x.value⁻¹ := by
  cases x with
  | integer v =>
    have some_part : v ≠ 0 := by
      rintro rfl
      exact nonzero rfl
    by_cases positive : 0 < v
    · refine ⟨_, if_pos positive, makeRational_of positive isCoprime_one_left ?_⟩
      simp [value]
    · have negative : v < 0 := by omega
      refine ⟨_, (if_neg positive).trans (if_pos negative), makeRational_of (by omega) isCoprime_one_left.neg_left ?_⟩
      simp [value]
  | ratnum v v' =>
    by_cases positive : 0 < v
    · refine ⟨_, if_pos positive, makeRational_of positive hx.2.symm ?_⟩
      rw [ratnum_value, inv_div]
    · have some_part := hx.nonzero
      have negative : v < 0 := by omega
      refine ⟨_, (if_neg positive).trans (if_pos negative), makeRational_of (by omega) hx.2.symm.neg_neg ?_⟩
      push_cast
      rw [ratnum_value, neg_div_neg_eq, inv_div]

theorem equal_iff (hx : x.Canonical) (hy : y.Canonical) : equal x y = true ↔ x.value = y.value := by
  cases x with
  | integer u =>
    cases y with
    | integer v => simp [equal, value]
    | ratnum v v' =>
      have nonzero : (v' : ℚ) ≠ 0 := by exact_mod_cast hy.positive.ne'
      refine iff_of_false (by simp [equal]) ?_
      intro same
      rw [integer_value, ratnum_value, eq_div_iff nonzero] at same
      have product : u * v' = v := by exact_mod_cast same
      have unit := hy.2.isUnit_of_dvd' (Dvd.intro_left u product) dvd_rfl
      have large := hy.1
      rcases isUnit_iff.mp unit with one | minus <;> omega
  | ratnum u u' =>
    have nonzero : (u' : ℚ) ≠ 0 := by exact_mod_cast hx.positive.ne'
    cases y with
    | integer v =>
      refine iff_of_false (by simp [equal]) ?_
      intro same
      rw [integer_value, ratnum_value, div_eq_iff nonzero] at same
      have product : u = v * u' := by exact_mod_cast same
      have unit := hx.2.isUnit_of_dvd' (Dvd.intro_left v product.symm) dvd_rfl
      have large := hx.1
      rcases isUnit_iff.mp unit with one | minus <;> omega
    | ratnum v v' =>
      have nonzero' : (v' : ℚ) ≠ 0 := by exact_mod_cast hy.positive.ne'
      simp only [equal, Bool.and_eq_true, decide_eq_true_eq, ratnum_value]
      constructor
      · rintro ⟨rfl, rfl⟩
        rfl
      · intro same
        rw [div_eq_div_iff nonzero nonzero'] at same
        have cross : u * v' = v * u' := by exact_mod_cast same
        have divides : u' ∣ v' := hx.2.symm.dvd_of_dvd_mul_left (Dvd.intro_left v cross.symm)
        have divides' : v' ∣ u' := hy.2.symm.dvd_of_dvd_mul_left (Dvd.intro_left u cross)
        have equal_parts := Int.dvd_antisymm hx.positive.le hy.positive.le divides divides'
        rw [equal_parts] at cross
        exact ⟨mul_right_cancel₀ hy.positive.ne' cross, equal_parts⟩

theorem Represents.unique (hx : x.Represents q) (hy : y.Represents q) : x = y := by
  have same := (equal_iff hx.1 hy.1).mpr (hx.2.trans hy.2.symm)
  cases x with
  | integer u =>
    cases y with
    | integer v => simpa [equal] using same
    | ratnum v v' => simp [equal] at same
  | ratnum u u' =>
    cases y with
    | integer v => simp [equal] at same
    | ratnum v v' => simpa [equal] using same

theorem less_iff (hx : x.Canonical) (hy : y.Canonical) : less x y = true ↔ x.value < y.value := by
  cases x with
  | integer u =>
    cases y with
    | integer v => simp [less, value]
    | ratnum v v' =>
      have positive : (0 : ℚ) < v' := by exact_mod_cast hy.positive
      rw [integer_value, ratnum_value, lt_div_iff₀ positive]
      simp only [less, decide_eq_true_eq]
      exact_mod_cast Iff.rfl
  | ratnum u u' =>
    have positive : (0 : ℚ) < u' := by exact_mod_cast hx.positive
    cases y with
    | integer v =>
      rw [integer_value, ratnum_value, div_lt_iff₀ positive]
      simp only [less, decide_eq_true_eq]
      exact_mod_cast Iff.rfl
    | ratnum v v' =>
      have positive' : (0 : ℚ) < v' := by exact_mod_cast hy.positive
      rw [ratnum_value, ratnum_value, div_lt_div_iff₀ positive positive']
      simp only [less, decide_eq_true_eq]
      exact_mod_cast Iff.rfl

theorem isPositive_iff (hx : x.Canonical) : isPositive x = true ↔ 0 < x.value := by
  cases x with
  | integer v => simp [isPositive, value]
  | ratnum v v' =>
    have positive : (0 : ℚ) < v' := by exact_mod_cast hx.positive
    rw [ratnum_value, div_pos_iff_of_pos_right positive]
    simp [isPositive]

theorem isNegative_iff (hx : x.Canonical) : isNegative x = true ↔ x.value < 0 := by
  cases x with
  | integer v => simp [isNegative, value]
  | ratnum v v' =>
    have positive : (0 : ℚ) < v' := by exact_mod_cast hx.positive
    rw [ratnum_value, div_lt_iff₀ positive]
    simp [isNegative]

end Rational

theorem intExptLoop_eq (b : ℤ) (e : ℕ) (answer : ℤ) (large : 2 ≤ e) : intExptLoop b e answer = answer * b ^ e := by
  induction e using Nat.strong_induction_on generalizing b answer with
  | _ e ih =>
    have split := Nat.div_add_mod e 2
    have next : (if e % 2 = 0 then answer else answer * b) * (b * b) ^ (e / 2) = answer * b ^ e := by
      rw [← pow_two, ← pow_mul]
      split
      · rename_i even
        rw [even, add_zero] at split
        rw [split]
      · have one : e % 2 = 1 := by omega
        rw [one] at split
        conv_rhs => rw [← split]
        ring
    rw [intExptLoop]
    by_cases last : e / 2 ≤ 1
    · have one : e / 2 = 1 := by omega
      rw [one, pow_one] at next
      rw [if_pos last]
      exact next
    · rw [if_neg last]
      exact (ih (e / 2) (by omega) _ _ (by omega)).trans next

theorem intExpt_eq (b : ℤ) (e : ℕ) : intExpt b e = b ^ e := by
  unfold intExpt
  split
  · rename_i positive
    split
    · rename_i trivial_base
      rcases trivial_base with rfl | rfl | rfl
      · rw [pow_one]
      · rw [zero_pow positive.ne']
      · rw [one_pow]
    · split
      · rename_i two
        rw [two, Int.shiftLeft_eq, one_mul]
      · rw [intExptLoop_eq b e 1 (by omega), one_mul]
  · have none : e = 0 := by omega
    rw [none, pow_zero]

namespace Rational

variable {x y : Rational}

theorem exptLoop_represents (b : Rational) (e : ℕ) (answer : Rational) (large : 2 ≤ e) (hb : b.Canonical)
    (ha : answer.Canonical) : (exptLoop b e answer).Represents (answer.value * b.value ^ e) := by
  induction e using Nat.strong_induction_on generalizing b answer with
  | _ e ih =>
    have split := Nat.div_add_mod e 2
    have squared := multiply_represents hb hb
    obtain ⟨next, same⟩ : ∃ next, next = if e % 2 = 0 then answer else multiply answer b := ⟨_, rfl⟩
    have taken : next.Canonical ∧ next.value * (b.value * b.value) ^ (e / 2) = answer.value * b.value ^ e := by
      rw [← pow_two, ← pow_mul]
      by_cases even : e % 2 = 0
      · rw [if_pos even] at same
        rw [even, add_zero] at split
        rw [same, split]
        exact ⟨ha, rfl⟩
      · have odd := multiply_represents ha hb
        have one : e % 2 = 1 := by omega
        rw [if_neg even] at same
        rw [one] at split
        rw [same, odd.2, mul_assoc, ← pow_succ', split]
        exact ⟨odd.1, rfl⟩
    rw [exptLoop]
    simp only [← same]
    by_cases last : e / 2 ≤ 1
    · have one : e / 2 = 1 := by omega
      have product := multiply_represents taken.1 squared.1
      rw [one, pow_one] at taken
      rw [squared.2, taken.2] at product
      rwa [if_pos last]
    · have result := ih (e / 2) (by omega) (multiply b b) next (by omega) squared.1 taken.1
      rw [squared.2, taken.2] at result
      rwa [if_neg last]

theorem exactMethod_represents {e : ℕ} (hx : x.Canonical) (positive : 0 < e) : (exactMethod x e).Represents (x.value ^ e) := by
  unfold exactMethod
  split
  · rename_i one
    rw [one, pow_one]
    exact ⟨hx, rfl⟩
  · have result := exptLoop_represents x e (.integer 1) (by omega) hx trivial
    rwa [integer_value, cast_one, one_mul] at result

theorem inverse_power {e : ℤ} (negative : e < 0) (hy : y.Represents (x.value ^ (-e).toNat)) (nonzero : x.value ≠ 0) :
    ∃ z, invert y = .ok z ∧ z.Represents (x.value ^ e) := by
  have power : y.value ≠ 0 := by
    rw [hy.2]
    exact pow_ne_zero _ nonzero
  obtain ⟨z, inverted, represents⟩ := invert_represents hy.1 power
  have exponent : e = -(((-e).toNat : ℕ) : ℤ) := by omega
  have result : x.value ^ e = (x.value ^ (-e).toNat)⁻¹ := by
    conv_lhs => rw [exponent, zpow_neg, zpow_natCast]
  rw [hy.2, ← result] at represents
  exact ⟨z, inverted, represents⟩

theorem expt_represents {e : ℤ} (hx : x.Canonical) (defined : x.value ≠ 0 ∨ 0 ≤ e) :
    ∃ z, expt x e = .ok z ∧ z.Represents (x.value ^ e) := by
  cases x with
  | integer n =>
    by_cases negative : e < 0
    · have nonzero : (integer n).value ≠ 0 := defined.resolve_right (by omega)
      have power : (integer (intExpt n (-e).toNat)).Represents ((integer n).value ^ (-e).toNat) := by
        refine ⟨trivial, ?_⟩
        rw [integer_value, intExpt_eq]
        push_cast
        rfl
      obtain ⟨z, inverted, represents⟩ := inverse_power negative power nonzero
      exact ⟨z, (if_pos negative).trans inverted, represents⟩
    · refine ⟨_, if_neg negative, trivial, ?_⟩
      have exponent : e = ((e.toNat : ℕ) : ℤ) := by omega
      rw [integer_value, intExpt_eq, exponent]
      push_cast
      rfl
  | ratnum n d =>
    by_cases negative : e < 0
    · have nonzero : (ratnum n d).value ≠ 0 := defined.resolve_right (by omega)
      have power := @exactMethod_represents (ratnum n d) (-e).toNat hx (by omega)
      obtain ⟨z, inverted, represents⟩ := inverse_power negative power nonzero
      exact ⟨z, (if_pos negative).trans inverted, represents⟩
    · by_cases positive : 0 < e
      · refine ⟨_, (if_neg negative).trans (if_pos positive), ?_⟩
        have power := @exactMethod_represents (ratnum n d) e.toNat hx (by omega)
        have exponent : e = ((e.toNat : ℕ) : ℤ) := by omega
        rw [exponent]
        exact power
      · refine ⟨_, (if_neg negative).trans (if_neg positive), trivial, ?_⟩
        have zero : e = 0 := by omega
        rw [zero, zpow_zero, integer_value, cast_one]

end Rational

end MitScheme.Runtime.Rationals
