import MitScheme.Runtime.Ieee754.RoundTrips

/-!
A number is taken apart into fields, which rounds it, and compared with what they are put together to.
Where the rounding carries, an assertion about the significand fails.
-/

namespace MitScheme.Runtime.Ieee754

open Library Arithmetic BinaryFormat

def composeIeee754Binary128 (fields : Fields) : Except Error Number := composeIeee754Binary fields 15 113

def recomposes (decompose : Number → Except Error Fields) (compose : Fields → Except Error Number) (x : Number) :
    Except Error Bool := do
  let fields ← decompose x
  let composed ← compose fields
  .ok (x.eq composed)

def ieee754Binary32Exact (x : Number) : Except Error Bool := recomposes decomposeIeee754Binary32 composeIeee754Binary32 x
def ieee754Binary64Exact (x : Number) : Except Error Bool := recomposes decomposeIeee754Binary64 composeIeee754Binary64 x

/-- `ieee754-binary128-exact?`, which takes the number apart for the format of 64 bits. -/
def ieee754Binary128Exact (x : Number) : Except Error Bool := recomposes decomposeIeee754Binary64 composeIeee754Binary128 x

def binary128 : BinaryFormat := ⟨112, 16383, by decide⟩

def Decides (exact : Except Error Bool) (holds : Prop) : Prop := ∃ answer, exact = .ok answer ∧ (answer = true ↔ holds)

variable {exponentBits sign : ℕ} {g : BinaryFormat} {x : Number} {a q : ℚ} {fields : Fields}

/-- The fields to which a positive rational is rounded, where that does not carry. -/
inductive Rounded (g : BinaryFormat) (q : ℚ) (sign : ℕ) : Fields → Prop where
  | infinite (large : 2 ^ (g.emax + 1 : ℤ) ≤ q) : Rounded g q sign ⟨sign, 2 * g.emax + 1, 0⟩
  | normal {e : ℤ} {trailing : ℕ} (lower : 2 ^ e ≤ q) (upper : q < 2 ^ (e + 1)) (least : g.emin ≤ e) (most : e ≤ g.emax)
      (short : trailing < 2 ^ g.trailing) (digits : g.significand q = 2 ^ g.trailing + trailing) :
      Rounded g q sign ⟨sign, e + g.emax, trailing⟩
  | subnormal (below : q < 2 ^ g.emin) (short : g.significand q < 2 ^ g.trailing) :
      Rounded g q sign ⟨sign, 0, g.significand q⟩

theorem decomposition_cases (positive : 0 < q) : 2 ^ (g.emax + 1 : ℤ) ≤ q ∨
    (∃ e, 2 ^ e ≤ q ∧ q < 2 ^ (e + 1) ∧ g.emin ≤ e ∧ e ≤ g.emax) ∨ q < 2 ^ g.emin := by
  obtain ⟨e, lower, upper⟩ := exists_log positive
  rcases lt_or_ge e g.emin with small | least
  · exact .inr (.inr (upper.trans_le (two_zpow_le (by omega))))
  rcases le_or_gt e g.emax with most | large
  · exact .inr (.inl ⟨e, lower, upper, least, most⟩)
  · exact .inl ((two_zpow_le (by omega)).trans lower)

theorem fieldsOf_normal_carry {e : ℤ} (lower : g.emin ≤ e) (upper : e ≤ g.emax) :
    fieldsOf ⟨2, g.emin, g.emax, g.emax, -g.emax, g.emax + 1⟩ g.trailing (.ifNormal sign e (2 ^ (g.trailing + 1))) =
      .error (.assertion "(= 1 (shift-right significand t))") := by
  have passes : assert (g.emin ≤ e ∧ e ≤ g.emax) "(<= emin exponent emax)" = .ok () := if_pos ⟨lower, upper⟩
  have two : 2 ^ (g.trailing + 1) >>> g.trailing = 2 := by
    rw [Nat.shiftRight_eq_div_pow, pow_succ, Nat.mul_div_cancel_left _ (Nat.two_pow_pos _)]
  have fails : assert (1 = 2 ^ (g.trailing + 1) >>> g.trailing) "(= 1 (shift-right significand t))" =
      .error (.assertion "(= 1 (shift-right significand t))") := if_neg (by rw [two]; decide)
  simp [fieldsOf, passes, fails, bind, Except.bind]

theorem fieldsOf_subnormal_carry :
    fieldsOf ⟨2, g.emin, g.emax, g.emax, -g.emax, g.emax + 1⟩ g.trailing (.ifSubnormal sign (2 ^ g.trailing)) =
      .error (.assertion "(= 0 (shift-right significand t))") := by
  have one : 2 ^ g.trailing >>> g.trailing = 1 := by
    rw [Nat.shiftRight_eq_div_pow, Nat.div_self (Nat.two_pow_pos _)]
  have fails : assert (0 = 2 ^ g.trailing >>> g.trailing) "(= 0 (shift-right significand t))" =
      .error (.assertion "(= 0 (shift-right significand t))") := if_neg (by rw [one]; decide)
  simp [fieldsOf, fails, bind, Except.bind]

section
variable (format : Interchange exponentBits g)
include format

theorem Interchange.decompose_large (hx : x.Is a) (nonzero : a ≠ 0) (large : 2 ^ (g.emax + 1 : ℤ) ≤ |a|) :
    decomposeIeee754Binary x exponentBits (g.trailing + 1) = .ok ⟨signOf a, 2 * g.emax + 1, 0⟩ := by
  have found := @decomposeIeee754_finite x a 2 (g.trailing + 1) g.emax hx nonzero
  rw [decomposeFinite_large format.narrow large hx.abs] at found
  rw [format.decompose found]
  simp only [fieldsOf]
  ring_nf

theorem Interchange.decompose_in_range (hx : x.Is a) (nonzero : a ≠ 0) {e : ℤ} (lower : 2 ^ e ≤ |a|)
    (upper : |a| < 2 ^ (e + 1)) (least : g.emin ≤ e) (most : e ≤ g.emax) :
    decomposeIeee754Binary x exponentBits (g.trailing + 1) =
    fieldsOf ⟨2, g.emin, g.emax, g.emax, -g.emax, g.emax + 1⟩ g.trailing (.ifNormal (signOf a) e (g.significand |a|)) := by
  apply format.decompose
  rw [decomposeIeee754_finite hx nonzero, decomposeFinite_normal format.narrow lower upper least most hx.abs]

theorem Interchange.decompose_small (hx : x.Is a) (nonzero : a ≠ 0) (below : |a| < 2 ^ g.emin) :
    decomposeIeee754Binary x exponentBits (g.trailing + 1) =
    fieldsOf ⟨2, g.emin, g.emax, g.emax, -g.emax, g.emax + 1⟩ g.trailing (.ifSubnormal (signOf a) (g.significand |a|)) := by
  have positive := abs_pos.mpr nonzero
  rcases le_or_gt |a| (tiny g) with small | above
  · have found := @decomposeIeee754_finite x a 2 (g.trailing + 1) g.emax hx nonzero
    rw [decomposeFinite_small positive below hx.abs, if_pos small] at found
    rw [format.decompose found, significand_tiny positive below small, fieldsOf_subnormal (Nat.two_pow_pos _)]
    rfl
  · apply format.decompose
    rw [decomposeIeee754_finite hx nonzero, decomposeFinite_subnormal format.narrow above below hx.abs]

theorem Interchange.decompose_carries (hx : x.Is a) (nonzero : a ≠ 0) (carries : g.Carries |a|) : ∃ expression,
    decomposeIeee754Binary x exponentBits (g.trailing + 1) = .error (.assertion expression) := by
  have positive := abs_pos.mpr nonzero
  rcases decomposition_cases (g := g) positive with large | ⟨e, lower, upper, least, most⟩ | below
  · exact absurd carries (not_carries_large large)
  · have digits := (carries_normal lower upper least most).mp carries
    rw [format.decompose_in_range hx nonzero lower upper least most, digits]
    exact ⟨_, fieldsOf_normal_carry least most⟩
  · have digits := (carries_subnormal positive below format.payload.ne').mp carries
    rw [format.decompose_small hx nonzero below, digits]
    exact ⟨_, fieldsOf_subnormal_carry⟩

theorem Interchange.decompose_rounded (hx : x.Is a) (nonzero : a ≠ 0) (regular : ¬g.Carries |a|) : ∃ fields,
    decomposeIeee754Binary x exponentBits (g.trailing + 1) = .ok fields ∧ Rounded g |a| (signOf a) fields := by
  have positive := abs_pos.mpr nonzero
  rcases decomposition_cases (g := g) positive with large | ⟨e, lower, upper, least, most⟩ | below
  · exact ⟨_, format.decompose_large hx nonzero large, .infinite large⟩
  · rw [carries_normal lower upper least most] at regular
    obtain ⟨filled, short⟩ := significand_normal lower upper least
    obtain ⟨trailing, digits⟩ := Nat.exists_eq_add_of_le filled
    have small : trailing < 2 ^ g.trailing := by
      omega
    rw [format.decompose_in_range hx nonzero lower upper least most, digits]
    exact ⟨_, fieldsOf_normal least most small, .normal lower upper least most small digits⟩
  · rw [carries_subnormal positive below format.payload.ne'] at regular
    have small := lt_of_le_of_ne (significand_subnormal positive below) regular
    rw [format.decompose_small hx nonzero below]
    exact ⟨_, fieldsOf_subnormal small, .subnormal below small⟩

end

theorem signOf_le (a : ℚ) : signOf a ≤ 1 := by
  unfold signOf
  split <;> decide

theorem eq_signed_iff : a = signed (signOf a) q ↔ |a| = q := by
  unfold signed signOf
  split
  · rename_i negative
    rw [pow_one, neg_one_mul, abs_of_neg negative]
    exact neg_eq_iff_eq_neg.symm
  · rename_i positive
    rw [pow_zero, one_mul, abs_of_nonneg (not_lt.mp positive)]

theorem eq_signed (hx : x.Is a) : x.eq (.exact (signed (signOf a) q)) = decide (|a| = q) := by
  rw [hx.eq (Number.exact_is _)]
  exact decide_eq_decide.mpr eq_signed_iff

theorem eq_zero (hx : x.Is a) (negative : Bool) : x.eq (.flonum (Flonum.zero negative)) = decide (a = 0) :=
  hx.eq (y := .flonum (.zero negative)) (Flonum.zero_is negative)

theorem eq_infinite (hx : x.Is a) (negative : Bool) : x.eq (.flonum (Flonum.infinite negative)) = false := by
  obtain ⟨isNan, isInfinite, isFinite⟩ := infinite_class negative
  cases x with
  | exact r =>
    simp [Number.eq, isFinite]
  | flonum y =>
    have different : y ≠ .infinite negative := by
      rintro rfl
      have finite := hx.1
      cases finite
    simp only [Number.eq, Flonum.eq, isNan, isInfinite, Flonum.isNan_of_finite hx.1]
    simp [different]

theorem Widths.recompose (format : Widths exponentBits g) (hx : x.Is a) (nonzero : a ≠ 0)
    (rounded : Rounded g |a| (signOf a) fields) : ∃ composed,
    composeIeee754Binary fields exponentBits (g.trailing + 1) = .ok composed ∧ (x.eq composed = true ↔ g.Fits |a|) := by
  have positive := abs_pos.mpr nonzero
  have emin : g.emin = 1 - g.emax := rfl
  cases rounded with
  | infinite large =>
    refine ⟨_, format.compose_infinite (signOf_le a), ?_⟩
    rw [eq_infinite hx]
    exact iff_of_false Bool.false_ne_true (not_fits_large large)
  | @normal e trailing lower upper least most short digits =>
    refine ⟨_, format.compose_normal (by omega) (by omega) short, ?_⟩
    have below : g.significand |a| < 2 ^ (g.trailing + 1) := by
      omega
    rw [eq_signed hx, decide_eq_true_eq, fits_iff_normal lower upper least most below, digits,
      add_sub_cancel_right]
  | subnormal below short =>
    rw [fits_iff_subnormal positive below short]
    by_cases none : g.significand |a| = 0
    · rw [none]
      refine ⟨_, format.compose_zero (signOf_le a), ?_⟩
      rw [eq_zero hx, decide_eq_true_eq, scaled, Nat.cast_zero, zero_mul, abs_eq_zero]
    · refine ⟨_, format.compose_subnormal none, ?_⟩
      rw [eq_signed hx, decide_eq_true_eq]

theorem Widths.recompose_zero (format : Widths exponentBits g) (hx : x.Is 0) (one : sign ≤ 1) :
    ∃ composed, composeIeee754Binary ⟨sign, 0, 0⟩ exponentBits (g.trailing + 1) = .ok composed ∧ x.eq composed = true := by
  refine ⟨_, format.compose_zero one, ?_⟩
  rw [eq_zero hx]
  rfl

theorem Interchange.decompose_zero (format : Interchange exponentBits g) (hx : x.Is 0) :
    ∃ sign ≤ 1, decomposeIeee754Binary x exponentBits (g.trailing + 1) = .ok ⟨sign, 0, 0⟩ := by
  refine ⟨ieee754Sign x, ?_, ?_⟩
  · unfold ieee754Sign
    split_ifs <;> decide
  · rw [format.decompose (decompose_of_zero hx (by decide))]
    rfl

theorem not_decides_error {e : Error} {holds : Prop} : ¬Decides (.error e) holds := by
  rintro ⟨answer, same, -⟩
  cases same

theorem decides_ok {answer : Bool} {holds : Prop} : Decides (.ok answer) holds ↔ (answer = true ↔ holds) := by
  constructor
  · rintro ⟨_, same, right⟩
    cases same
    exact right
  · intro right
    exact ⟨answer, rfl, right⟩

theorem Interchange.decides_iff (format : Interchange exponentBits g) (hx : x.Is a) :
    Decides (recomposes (decomposeIeee754Binary · exponentBits (g.trailing + 1))
      (composeIeee754Binary · exponentBits (g.trailing + 1)) x) (g.Fits |a|) ↔ ¬g.Carries |a| := by
  rcases eq_or_ne a 0 with rfl | nonzero
  · obtain ⟨sign, one, found⟩ := format.decompose_zero hx
    obtain ⟨composed, together, same⟩ := format.widths.recompose_zero hx one
    refine iff_of_true ⟨true, ?_, iff_of_true rfl .zero⟩ not_carries_zero
    simp [recomposes, found, together, same, bind, Except.bind]
  · by_cases carries : g.Carries |a|
    · obtain ⟨expression, failed⟩ := format.decompose_carries hx nonzero carries
      simp only [recomposes, failed, bind, Except.bind]
      exact iff_of_false not_decides_error (not_not_intro carries)
    · obtain ⟨fields, found, rounded⟩ := format.decompose_rounded hx nonzero carries
      obtain ⟨composed, together, right⟩ := format.widths.recompose hx nonzero rounded
      simp only [recomposes, found, together, bind, Except.bind]
      exact iff_of_true (decides_ok.mpr right) carries

theorem widths_binary128 : Widths 15 binary128 := by
  constructor
  · decide
  · norm_num [binary128]

/-- Read with the exponents of the wider format, the fields of a number other than zero are those of smaller numbers. -/
theorem Rounded.misread (nonzero : a ≠ 0) (rounded : Rounded binary64 |a| (signOf a) fields) (hx : x.Is a) :
    ∃ composed, composeIeee754Binary128 fields = .ok composed ∧ x.eq composed = false := by
  have positive := abs_pos.mpr nonzero
  have narrower : 2 ^ binary64.trailing < 2 ^ binary128.trailing := Nat.pow_lt_pow_right (by decide) (by decide)
  obtain ⟨first, last⟩ := range_binary64
  have bias' : (binary128.emax : ℤ) = 16383 := rfl
  have smaller : ∀ {trailing : ℕ} {e d : ℤ}, trailing < 2 ^ binary128.trailing → 2 ^ e ≤ |a| → d < e →
      x.eq (.exact (signed (signOf a) (binary128.scaled (2 ^ binary128.trailing + trailing) d))) = false := by
    intro trailing e d short lower less
    have below := @scaled_lt binary128 (2 ^ binary128.trailing + trailing) d (by omega)
    rw [eq_signed hx]
    exact decide_eq_false (below.trans_le ((two_zpow_le (by omega)).trans lower)).ne'
  cases rounded with
  | infinite large =>
    exact ⟨_, widths_binary128.compose_normal (by omega) (by omega) (Nat.two_pow_pos _),
      smaller (Nat.two_pow_pos _) large (by omega)⟩
  | @normal e trailing lower upper least most short digits =>
    exact ⟨_, widths_binary128.compose_normal (by omega) (by omega) (short.trans narrower),
      smaller (short.trans narrower) lower (by omega)⟩
  | subnormal below short =>
    by_cases none : binary64.significand |a| = 0
    · rw [none]
      refine ⟨_, widths_binary128.compose_zero (signOf_le a), ?_⟩
      rw [eq_zero hx]
      exact decide_eq_false nonzero
    · refine ⟨_, widths_binary128.compose_subnormal none, ?_⟩
      have half := half_significand_le binary64 positive.le
      rw [exponent_of_subnormal positive below] at half
      have digits : (0 : ℚ) < binary64.significand |a| := by exact_mod_cast pos_of_ne_zero none
      rw [eq_signed hx]
      refine decide_eq_false (lt_of_lt_of_le ?_ half).ne'
      exact mul_lt_mul_of_pos_left (two_zpow_lt (by decide)) digits

theorem binary128Exact_false (hx : x.Is a) (nonzero : a ≠ 0) (regular : ¬binary64.Carries |a|) :
    ieee754Binary128Exact x = .ok false := by
  obtain ⟨fields, found, rounded⟩ := interchange_binary64.decompose_rounded hx nonzero regular
  obtain ⟨composed, together, different⟩ := rounded.misread nonzero hx
  have found' : decomposeIeee754Binary64 x = .ok fields := found
  simp [ieee754Binary128Exact, recomposes, found', together, different, bind, Except.bind]

theorem decides_binary128 (hx : x.Is a) : Decides (ieee754Binary128Exact x) (binary128.Fits |a|) ↔
    a = 0 ∨ ¬binary128.Fits |a| ∧ ¬binary64.Carries |a| := by
  rcases eq_or_ne a 0 with rfl | nonzero
  · obtain ⟨sign, one, found⟩ := interchange_binary64.decompose_zero hx
    obtain ⟨composed, together, same⟩ := widths_binary128.recompose_zero hx one
    have found' : decomposeIeee754Binary64 x = .ok ⟨sign, 0, 0⟩ := found
    have together' : composeIeee754Binary128 ⟨sign, 0, 0⟩ = .ok composed := together
    refine iff_of_true ⟨true, ?_, iff_of_true rfl .zero⟩ (.inl rfl)
    simp [ieee754Binary128Exact, recomposes, found', together', same, bind, Except.bind]
  · rw [or_iff_right nonzero]
    by_cases carries : binary64.Carries |a|
    · obtain ⟨expression, failed⟩ := interchange_binary64.decompose_carries hx nonzero carries
      have failed' : decomposeIeee754Binary64 x = .error (.assertion expression) := failed
      simp only [ieee754Binary128Exact, recomposes, failed', bind, Except.bind]
      exact iff_of_false not_decides_error (fun outside => outside.2 carries)
    · rw [binary128Exact_false hx nonzero carries, decides_ok, iff_comm, iff_false_left Bool.false_ne_true]
      exact and_iff_left carries

/-- For every finite number, the predicates of 32 and of 64 bits answer rightly where rounding does not carry; that of 128
bits answers rightly only of zero, and of the numbers that its format does not hold. -/
theorem exactness_predicates (hx : x.Is a) :
    (Decides (ieee754Binary32Exact x) (binary32.Fits |a|) ↔ ¬binary32.Carries |a|) ∧
    (Decides (ieee754Binary64Exact x) (binary64.Fits |a|) ↔ ¬binary64.Carries |a|) ∧
    (Decides (ieee754Binary128Exact x) (binary128.Fits |a|) ↔ a = 0 ∨ ¬binary128.Fits |a| ∧ ¬binary64.Carries |a|) :=
  ⟨interchange_binary32.decides_iff hx, interchange_binary64.decides_iff hx, decides_binary128 hx⟩

theorem exactness_predicates_half :
    (Decides (ieee754Binary32Exact (.exact (1 / 2))) (binary32.Fits |1 / 2|) ↔ ¬binary32.Carries |1 / 2|) ∧
    (Decides (ieee754Binary64Exact (.exact (1 / 2))) (binary64.Fits |1 / 2|) ↔ ¬binary64.Carries |1 / 2|) ∧
    (Decides (ieee754Binary128Exact (.exact (1 / 2))) (binary128.Fits |1 / 2|) ↔
      (1 / 2 : ℚ) = 0 ∨ ¬binary128.Fits |1 / 2| ∧ ¬binary64.Carries |1 / 2|) :=
  @exactness_predicates (.exact (1 / 2)) (1 / 2) (Number.exact_is (1 / 2))

theorem exactness_predicates_two_one :
    ¬Decides (ieee754Binary32Exact (.exact (2 - 2 ^ (-25 : ℤ)))) (binary32.Fits |2 - 2 ^ (-25 : ℤ)|) ∧
    ¬Decides (ieee754Binary128Exact (.exact 1)) (binary128.Fits |1|) := by
  constructor
  · have carries : binary32.Carries |2 - 2 ^ (-25 : ℤ)| := by
      refine .inl ⟨0, by decide, by decide, ?_⟩
      have trailing : (binary32.trailing : ℤ) = 23 := rfl
      rw [trailing]
      norm_num
    exact fun right => (interchange_binary32.decides_iff (Number.exact_is _)).mp right carries
  · have one : |(1 : ℚ)| = 2 ^ (0 : ℤ) := by norm_num
    have fits : binary128.Fits |1| := by
      rw [one]
      exact BinaryFormat.fits_two_zpow (by decide) (by decide)
    have regular : ¬binary64.Carries |1| := by
      exact (BinaryFormat.fits_two_zpow (by decide) (by decide)).not_carries (two_zpow_pos 0).le (by decide)
    rw [binary128Exact_false (Number.exact_is 1) one_ne_zero regular, decides_ok]
    exact fun right => Bool.false_ne_true (right.mpr fits)

end MitScheme.Runtime.Ieee754
