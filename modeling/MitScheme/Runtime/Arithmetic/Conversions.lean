import MitScheme.Microcode.Bignum.ToDouble
import MitScheme.Microcode.Bignum.WordRange

namespace MitScheme.Runtime.Arithmetic

open Library Microcode List Nat Bignum Flonum BinaryFormat

def isFixnum (n : ℤ) : Bool := -2 ^ 57 ≤ n && n < 2 ^ 57

def toBignum (n : ℤ) : Bignum := ⟨n < 0, Nat.digits radix n.natAbs⟩

def bignumToDoubleP (x : Bignum) : Bool := fitsInWordP x 1025 true == some true

def losslessBignumToDoubleP (x : Bignum) : Bool := fitsInWordP x 54 true == some true

/-- `(integer->flonum n #b00)`. -/
def integerToFlonumRounded (n : ℤ) : Option Flonum :=
  if isFixnum n then some (ofRational n)
  else if bignumToDoubleP (toBignum n) then bignumToDouble (toBignum n)
  else none

/-- `(integer->flonum n #b01)`, which refuses the integers that may lose digits. -/
def integerToFlonum (n : ℤ) : Option Flonum :=
  if isFixnum n then
    if (ofRational n).isFinite ∧ (ofRational n).toRational = n then some (ofRational n) else none
  else if losslessBignumToDoubleP (toBignum n) then bignumToDouble (toBignum n)
  else none

/-- `int:->inexact`. The exceptions that it raises are not trapped. -/
def intToInexact (n : ℤ) : Flonum := (integerToFlonumRounded n).getD (infinite (n < 0))

variable {n : ℤ}

theorem toBignum_normalized (large : n ≠ 0) : (toBignum n).Normalized := by
  refine ⟨?_, ?_, ?_⟩
  · exact fun d => digits_lt_base one_lt_radix
  · intro last
    have nonempty : digits radix n.natAbs ≠ [] := digits_ne_nil_iff_ne_zero.mpr (Int.natAbs_ne_zero.mpr large)
    have leading := getLast_digit_ne_zero radix (Int.natAbs_ne_zero.mpr large)
    rw [toBignum, getLast?_eq_getLast_of_ne_nil nonempty] at last
    exact leading (Option.some.inj last)
  · intro empty
    have nonempty : digits radix n.natAbs ≠ [] := digits_ne_nil_iff_ne_zero.mpr (Int.natAbs_ne_zero.mpr large)
    exact absurd empty nonempty

theorem toBignum_magnitude (n : ℤ) : (toBignum n).magnitude = n.natAbs := ofDigits_digits _ _

theorem toBignum_toInt (n : ℤ) : (toBignum n).toInt = n := by
  rw [toInt, toBignum_magnitude]
  unfold toBignum
  simp only [decide_eq_true_eq] at *
  omega

theorem overflow_binary64 : binary64.overflow = (overflowBound : ℕ) := by
  have sum := overflowBound_add
  have sum' : (overflowBound : ℚ) + 2 ^ 970 = 2 ^ 1024 := by exact_mod_cast sum
  have first : (2 : ℚ) ^ (binary64.emax + 1 : ℤ) = 2 ^ 1024 := by
    rw [show ((binary64.emax : ℤ) + 1) = ((1024 : ℕ) : ℤ) from rfl, zpow_natCast]
  have second : (2 : ℚ) ^ (binary64.emax - binary64.trailing - 1 : ℤ) = 2 ^ 970 := by
    rw [show ((binary64.emax : ℤ) - binary64.trailing - 1) = ((970 : ℕ) : ℤ) from rfl, zpow_natCast]
  unfold overflow
  linarith

theorem ofMagnitude_overflow {negative : Bool} {q : ℚ} (large : binary64.overflow ≤ q) :
    ofMagnitude negative q = infinite negative := by
  have positive : 0 < q := by
    have bound : 0 < overflowBound := by
      have sum := overflowBound_add
      omega
    rw [overflow_binary64] at large
    exact lt_of_lt_of_le (by exact_mod_cast bound) large
  have word := (round_eq_infinity_iff positive (by decide)).mpr large
  unfold ofMagnitude infinite
  simp [word]

theorem round_lt_infinity {q : ℚ} (small : q < binary64.overflow) : binary64.round q < binary64.infinity := by
  by_cases positive : 0 < q
  · have least : binary64.round q ≤ binary64.infinity := by
      unfold BinaryFormat.round
      split
      · exact zero_le _
      · exact min_le_right _ _
    have different := mt (round_eq_infinity_iff positive (by decide)).mp (small.not_ge)
    omega
  · unfold BinaryFormat.round
    rw [if_pos (not_lt.mp positive)]
    decide

theorem ofMagnitude_finite {negative : Bool} {q : ℚ} (small : q < binary64.overflow) :
    (ofMagnitude negative q).isFinite = true := decide_eq_true (round_lt_infinity small)

/-- The most significant digit of an integer has exactly the bits of a significand, and the digits below it call for
rounding up, which the microcode does not do. -/
def Truncated (m : ℕ) : Prop :=
  m < overflowBound ∧ ∃ k, 0 < k ∧ Nat.size m = 53 + digitLength * k ∧
    roundsUp m (digitLength * k - 1) = true

theorem size_concat {ds : List ℕ} {msd : ℕ} {negative : Bool} (digits : Digits radix ds) (leading : msd ≠ 0) :
    Nat.size (Bignum.magnitude ⟨negative, ds ++ [msd]⟩) = msd.size + digitLength * ds.length := by
  have low := ofDigits_lt_base_pow_length one_lt_radix digits
  have power : radix ^ ds.length = 2 ^ (digitLength * ds.length) := (pow_mul 2 _ _).symm
  have some_bits : 0 < msd.size := size_pos.mpr (pos_of_ne_zero leading)
  have below : 2 ^ (msd.size - 1) ≤ msd := lt_size.mp (by omega)
  have above : msd < 2 ^ msd.size := lt_size_self msd
  rw [magnitude_concat]
  rw [power] at low ⊢
  apply le_antisymm
  · apply size_le.mpr
    calc msd * 2 ^ (digitLength * ds.length) + ofDigits radix ds
        < (msd + 1) * 2 ^ (digitLength * ds.length) := by
          rw [succ_mul]
          exact Nat.add_lt_add_left low _
      _ ≤ 2 ^ msd.size * 2 ^ (digitLength * ds.length) := mul_le_mul_right _ above
      _ = _ := (pow_add _ _ _).symm
  · have position : msd.size + digitLength * ds.length - 1 < size (msd * 2 ^ (digitLength * ds.length) +
        ofDigits radix ds) := by
      apply lt_size.mpr
      calc 2 ^ (msd.size + digitLength * ds.length - 1)
          = 2 ^ (msd.size - 1) * 2 ^ (digitLength * ds.length) := by
            rw [← pow_add]
            congr 1
            omega
        _ ≤ msd * 2 ^ (digitLength * ds.length) := mul_le_mul_right _ below
        _ ≤ _ := le_add_right _ _
    omega

theorem losesRounding_iff_size {x : Bignum} (normalized : x.Normalized) : Bignum.LosesRounding x ↔ ∃ k, 0 < k ∧
    Nat.size x.magnitude = 53 + digitLength * k ∧ roundsUp x.magnitude (digitLength * k - 1) = true := by
  rcases normalized.cases with rfl | ⟨negative, ds, msd, rfl, leading, msd_small, digits⟩
  · refine iff_of_false not_losesRounding_zero ?_
    have none : size (Bignum.magnitude ⟨false, []⟩) = 0 := rfl
    omega
  · have bits : msd.size ≤ 62 := size_le.mpr msd_small
    have length : digitLength = 62 := rfl
    rw [losesRounding_iff, size_concat digits leading, magnitude_concat]
    constructor
    · rintro ⟨exact_size, nonempty, up⟩
      exact ⟨ds.length, length_pos_of_ne_nil nonempty, by rw [exact_size], up⟩
    · rintro ⟨k, positive, size, up⟩
      rw [length] at size
      have same : k = ds.length := by omega
      subst same
      exact ⟨by omega, ne_nil_of_length_pos positive, up⟩

theorem overflowBound_bounds : 2 ^ 1023 ≤ overflowBound ∧ overflowBound ≤ 2 ^ 1024 := by
  have sum := overflowBound_add
  omega

theorem magnitude_overflow {m : ℕ} (large : overflowBound ≤ m) {negative : Bool} :
    ofMagnitude negative (m : ℚ) = infinite negative := by
  apply ofMagnitude_overflow
  rw [overflow_binary64]
  exact_mod_cast large

/-- The number of digits fits in the `unsigned int` in which the microcode holds it. -/
def Counted (n : ℤ) : Prop := (toBignum n).digits.length < 2 ^ 32

theorem counted_of_small (small : n.natAbs < 2 ^ 1024) : Counted n := by
  by_cases zero : n = 0
  · subst zero
    exact (by decide : 0 < 2 ^ 32)
  · have normalized := toBignum_normalized zero
    have short : (toBignum n).digits.length ≤ 17 := by
      rw [normalized.length_le_iff, toBignum_magnitude]
      exact small.trans_le (by rw [radix, ← pow_mul]; exact Nat.pow_le_pow_right (by decide) (by decide))
    exact short.trans_lt (by decide)

theorem length_of_accepted (nonzero : n ≠ 0) (counted : Counted n) (accepted : bignumToDoubleP (toBignum n) = true) :
    (toBignum n).digits.length * digitLength < 2 ^ 31 := by
  have normalized := toBignum_normalized nonzero
  have fits := @fitsInWordP_eq (toBignum n) 1024 1025 true normalized (.inl rfl) rfl (by decide) (by decide) counted
  have accepts : Bignum.Accepts (toBignum n) 1024 true := by
    rw [bignumToDoubleP, fits] at accepted
    exact of_decide_eq_true (by simpa using accepted)
  have length : digitLength = 62 := rfl
  have digits : bitsToDigits 1024 - 1 = 16 := rfl
  have bound : (toBignum n).magnitude < radix ^ 18 := by
    have power : radix ^ 18 = 2 ^ 1115 * 2 := by
      rw [radix, ← pow_mul, ← pow_succ, length]
    have second : radix ^ 16 ≤ 2 ^ 1115 := by
      rw [radix, ← pow_mul]
      exact Nat.pow_le_pow_right (by decide) (by decide)
    unfold Bignum.Accepts at accepts
    rw [digits] at accepts
    omega
  have short := normalized.length_le_iff.mpr bound
  rw [length]
  omega

theorem bignumToDouble_overflow (large : overflowBound ≤ n.natAbs)
    (int : (toBignum n).digits.length * digitLength < 2 ^ 31) :
    bignumToDouble (toBignum n) = some (ofRational n) := by
  have bounds := overflowBound_bounds
  have nonzero : n ≠ 0 := by
    omega
  have normalized := toBignum_normalized nonzero
  have value := toBignum_toInt n
  have magnitude := toBignum_magnitude n
  rcases normalized.cases with none | ⟨negative, ds, msd, same, leading, msd_small, digits⟩
  · rw [none] at value
    exact absurd value.symm nonzero
  · rw [same] at normalized value magnitude int ⊢
    by_cases truncates : msd.size = 53
    · obtain ⟨collected, collects, rounds⟩ := @roundCollected_truncates msd ds truncates
      have size := @size_concat ds msd negative digits leading
      have many : 1023 < Nat.size n.natAbs := lt_size.mpr (bounds.1.trans large)
      have below : 2 ^ 52 ≤ msd := lt_size.mp (truncates ▸ by decide)
      have length : digitLength = 62 := rfl
      rw [magnitude, length] at size
      have part : overflowBound ≤ msd * radix ^ ds.length := by
        calc overflowBound ≤ 2 ^ 1024 := bounds.2
          _ ≤ 2 ^ (52 + 62 * ds.length) := Nat.pow_le_pow_right (by decide) (by omega)
          _ = 2 ^ 52 * radix ^ ds.length := by rw [pow_add, pow_mul]; rfl
          _ ≤ msd * radix ^ ds.length := mul_le_mul_right _ below
      have exactly := accumulate_short (truncates ▸ lt_size_self msd)
      have result := exactly.scaled_eq (n := ds.length) (by
        rw [length_append, length_singleton, succ_mul] at int
        omega)
      have positive : 0 < Bignum.magnitude ⟨negative, ds ++ [msd]⟩ := by
        rw [magnitude]
        exact Int.natAbs_pos.mpr nonzero
      rw [bignumToDouble_concat collects rounds, result, magnitude_overflow part, ← value, toInt_eq_signed,
        ofRational_signed positive, magnitude_overflow (magnitude ▸ large)]
    · have rounds := bignumToDouble_rounds normalized int (fun msd' last exact_size => by
        have same : msd' = msd := by simpa using last.symm
        exact absurd (same ▸ exact_size) truncates)
      rwa [value] at rounds

theorem bignumToDoubleP_of_small (nonzero : n ≠ 0) (small : n.natAbs < 2 ^ 1024) : bignumToDoubleP (toBignum n) = true := by
  have normalized := toBignum_normalized nonzero
  have short : (toBignum n).digits.length ≤ 17 := by
    rw [normalized.length_le_iff, toBignum_magnitude]
    exact small.trans_le (by rw [radix, ← pow_mul]; exact Nat.pow_le_pow_right (by decide) (by decide))
  have fits := @fitsInWordP_eq (toBignum n) 1024 1025 true normalized (.inl rfl) rfl (by decide) (by decide) (by omega)
  have accepts : Bignum.Accepts (toBignum n) 1024 true := .inl (by rwa [toBignum_magnitude])
  rw [bignumToDoubleP, fits, decide_eq_true accepts]
  rfl

theorem ofRational_natAbs (n : ℤ) : ofRational n = ofMagnitude (n < 0) (n.natAbs : ℕ) := by
  have magnitude : |(n : ℚ)| = (n.natAbs : ℕ) := by rw [cast_natAbs, Int.cast_abs]
  have sign : decide ((n : ℚ) < 0) = decide (n < 0) := decide_eq_decide.mpr (by exact_mod_cast Iff.rfl)
  rw [ofRational, magnitude, sign]

theorem ofRational_overflow (large : overflowBound ≤ n.natAbs) : ofRational n = infinite (n < 0) := by
  rw [ofRational_natAbs, magnitude_overflow large]

theorem intToInexact_nearest_iff (counted : Counted n) : intToInexact n = ofRational n ↔ ¬Truncated n.natAbs := by
  have length : digitLength = 62 := rfl
  have bounds := overflowBound_bounds
  unfold intToInexact integerToFlonumRounded
  by_cases fixnum : isFixnum n = true
  · rw [if_pos fixnum]
    refine iff_of_true rfl ?_
    rintro ⟨-, k, positive, size, -⟩
    have small : n.natAbs < 2 ^ 58 := by
      simp only [isFixnum, Bool.and_eq_true, decide_eq_true_eq] at fixnum
      omega
    have bits : Nat.size n.natAbs ≤ 58 := size_le.mpr small
    rw [length] at size
    omega
  · have nonzero : n ≠ 0 := by
      rintro rfl
      exact fixnum rfl
    have normalized := toBignum_normalized nonzero
    rw [if_neg fixnum]
    by_cases large : overflowBound ≤ n.natAbs
    · refine iff_of_true ?_ fun truncated => absurd truncated.1 (large.not_gt)
      by_cases accepted : bignumToDoubleP (toBignum n) = true
      · rw [if_pos accepted, bignumToDouble_overflow large (length_of_accepted nonzero counted accepted), Option.getD_some]
      · rw [if_neg accepted, Option.getD_none, ofRational_overflow large]
    · have small : (toBignum n).magnitude < overflowBound := by rw [toBignum_magnitude]; omega
      have accepted := bignumToDoubleP_of_small nonzero ((not_le.mp large).trans_le bounds.2)
      have nearest := bignumToDouble_nearest_iff normalized small
      have loses := losesRounding_iff_size normalized
      rw [toBignum_toInt] at nearest
      rw [toBignum_magnitude] at loses
      have truncated : Truncated n.natAbs ↔ Bignum.LosesRounding (toBignum n) := by
        rw [loses]
        exact and_iff_right (not_le.mp large)
      rw [if_pos accepted, truncated, ← nearest]
      obtain ⟨x, converted⟩ := bignumToDouble_total normalized (length_of_accepted nonzero counted accepted)
      rw [converted, Option.getD_some, Option.some_inj]

theorem not_truncated_of_fits {m : ℕ} (fits : binary64.Fits (m : ℚ)) : ¬Truncated m := by
  rintro ⟨-, k, positive, size, up⟩
  obtain ⟨a, e, holds⟩ := fits
  have length : digitLength = 62 := rfl
  have trailing : (binary64.trailing : ℤ) = 52 := rfl
  rw [length] at size up
  have lower : 2 ^ (52 + 62 * k) ≤ m := lt_size.mp (by omega)
  have upper : (m : ℚ) < 2 ^ (e + 1) := holds.value.trans_lt (scaled_lt holds.short)
  have room : ((52 + 62 * k : ℕ) : ℤ) < e + 1 := by
    apply two_zpow_lt_iff.mp
    refine lt_of_le_of_lt ?_ upper
    exact_mod_cast lower
  obtain ⟨j, exponent⟩ := Int.eq_ofNat_of_zero_le (by omega : 0 ≤ e - 52 - 62 * k)
  have product : m = 2 ^ (62 * k) * (a * 2 ^ j) := by
    have value := holds.value
    have shift : e - (binary64.trailing : ℤ) = ((62 * k + j : ℕ) : ℤ) := by omega
    rw [BinaryFormat.scaled, shift, zpow_natCast] at value
    have exact_value : (m : ℚ) = ((2 ^ (62 * k) * (a * 2 ^ j) : ℕ) : ℚ) := by
      rw [value]
      push_cast
      ring
    exact_mod_cast exact_value
  have unset : m.testBit (62 * k - 1) = false := by
    rw [product, testBit_two_pow_mul]
    simp
    omega
  unfold roundsUp at up
  rw [unset] at up
  cases up

theorem natAbs_lt_of_fits (fits : binary64.Fits |(n : ℚ)|) : n.natAbs < 2 ^ 1024 := by
  obtain ⟨m, e, holds⟩ := fits
  have upper : e ≤ 1023 := holds.upper
  have bound : ((n.natAbs : ℕ) : ℚ) < 2 ^ ((1024 : ℕ) : ℤ) := by
    rw [cast_natAbs, Int.cast_abs]
    exact holds.value.trans_lt ((scaled_lt holds.short).trans_le (two_zpow_le (by omega)))
  exact_mod_cast bound

theorem intToInexact_of_fits (fits : binary64.Fits |(n : ℚ)|) : intToInexact n = ofRational n := by
  have magnitude : |(n : ℚ)| = (n.natAbs : ℕ) := by rw [cast_natAbs, Int.cast_abs]
  exact (intToInexact_nearest_iff (counted_of_small (natAbs_lt_of_fits fits))).mpr (not_truncated_of_fits (magnitude ▸ fits))

def truncation (m : ℕ) : ℕ := m / 2 ^ (Nat.size m - 53) * 2 ^ (Nat.size m - 53)

theorem truncation_le (m : ℕ) : truncation m ≤ m := div_mul_le_self _ _

theorem intToInexact_truncated (truncated : Truncated n.natAbs) :
    intToInexact n = ofMagnitude (n < 0) (truncation n.natAbs : ℕ) := by
  have bounds := overflowBound_bounds
  have fixnum : ¬isFixnum n = true := by
    intro fixnum
    refine (intToInexact_nearest_iff (counted_of_small (truncated.1.trans_le bounds.2))).mp ?_ truncated
    rw [intToInexact, integerToFlonumRounded, if_pos fixnum, Option.getD_some]
  have nonzero : n ≠ 0 := by
    rintro rfl
    exact fixnum rfl
  have normalized := toBignum_normalized nonzero
  have accepted := bignumToDoubleP_of_small nonzero (truncated.1.trans_le bounds.2)
  have loses := (losesRounding_iff_size normalized).mpr (by rw [toBignum_magnitude]; exact truncated.2)
  have magnitude := toBignum_magnitude n
  have sign : (toBignum n).negative = decide (n < 0) := rfl
  rw [intToInexact, integerToFlonumRounded, if_neg fixnum, if_pos accepted]
  rcases normalized.cases with none | ⟨negative, ds, msd, same, leading, msd_small, digits⟩
  · rw [none] at loses
    exact absurd loses not_losesRounding_zero
  · rw [same] at loses magnitude sign ⊢
    have exact_size := (losesRounding_iff.mp loses).1
    obtain ⟨collected, collects, rounds⟩ := @roundCollected_truncates msd ds exact_size
    have int := length_int (same ▸ normalized : Bignum.Normalized ⟨negative, ds ++ [msd]⟩)
      (magnitude ▸ truncated.1.trans_le bounds.2)
    rw [length_append, length_singleton, succ_mul] at int
    have result := (accumulate_short (exact_size ▸ lt_size_self msd)).scaled_eq (n := ds.length) (by omega)
    have first : truncation n.natAbs = msd * radix ^ ds.length := by
      have power : radix ^ ds.length = 2 ^ (digitLength * ds.length) := (pow_mul 2 _ _).symm
      have below := ofDigits_lt_base_pow_length one_lt_radix digits
      have size := @size_concat ds msd negative digits leading
      rw [magnitude, exact_size] at size
      rw [truncation, size, Nat.add_sub_cancel_left, ← power, ← magnitude, magnitude_concat,
        add_comm, add_mul_div_right _ _ (Nat.pow_pos (zero_lt_of_lt one_lt_radix)),
        div_eq_of_lt below, zero_add]
    rw [bignumToDouble_concat collects rounds, result, ← sign, first]
    cases negative <;> rfl

theorem intToInexact_finite (counted : Counted n) : ((intToInexact n).isFinite = true ↔ n.natAbs < overflowBound) ∧
    (intToInexact n).negative = decide (n < 0) := by
  by_cases truncated : Truncated n.natAbs
  · rw [intToInexact_truncated truncated]
    refine ⟨iff_of_true (ofMagnitude_finite ?_) truncated.1, rfl⟩
    rw [overflow_binary64]
    exact_mod_cast (truncation_le _).trans_lt truncated.1
  · rw [(intToInexact_nearest_iff counted).mpr truncated, ofRational_natAbs]
    refine ⟨?_, rfl⟩
    by_cases small : n.natAbs < overflowBound
    · refine iff_of_true (ofMagnitude_finite ?_) small
      rw [overflow_binary64]
      exact_mod_cast small
    · rw [magnitude_overflow (not_lt.mp small)]
      exact iff_of_false (by cases decide (n < 0) <;> decide) small

/-- The number of digits, which the microcode holds in an `unsigned int`, becomes zero. -/
def Wraps (n : ℤ) : Prop := isFixnum n = false ∧ (toBignum n).digits.length % 2 ^ 32 = 0

theorem natAbs_of_not_fixnum (bignum : isFixnum n = false) : 2 ^ 57 ≤ n.natAbs := by
  by_contra small
  have fixnum : isFixnum n = true := by
    simp only [isFixnum, Bool.and_eq_true, decide_eq_true_eq]
    omega
  rw [bignum] at fixnum
  exact nomatch fixnum

theorem losslessBignumToDoubleP_eq (bignum : isFixnum n = false) :
    losslessBignumToDoubleP (toBignum n) = true ↔ Wraps n := by
  have large := natAbs_of_not_fixnum bignum
  have nonzero : n ≠ 0 := by
    rintro rfl
    exact nomatch bignum
  have magnitude := toBignum_magnitude n
  unfold Wraps losslessBignumToDoubleP fitsInWordP
  have bits : unsignedInt (magnitudeBits 54 true) = 53 := rfl
  have most : bitsToDigits 53 = 1 := rfl
  simp only [Bool.not_true, Bool.false_and, Bool.false_eq_true, if_false, bits, most, bignum, true_and]
  rw [if_neg (by decide)]
  unfold unsignedInt
  by_cases wraps : (toBignum n).digits.length % 2 ^ 32 = 0
  · rw [if_pos (by omega)]
    exact iff_of_true rfl wraps
  · rw [if_neg (by omega)]
    refine iff_of_false ?_ wraps
    split
    · decide
    · by_cases single : (toBignum n).digits.length = 1
      · obtain ⟨msd, digits⟩ := length_eq_one_iff.mp single
        have value : msd = n.natAbs := by
          rw [← magnitude, Bignum.magnitude, digits, ofDigits_singleton]
        have shift : oneShifted 53 = some (2 ^ 53) := by decide
        simp only [digits, length_singleton, Nat.sub_self, getElem?_cons_zero, someBind, cast_one, sub_self,
          zero_mul, cast_ofNat, sub_zero, shift]
        have below : decide (msd < 2 ^ 53) = false := decide_eq_false (by omega)
        have other : decide (msd = 2 ^ 53) = false := decide_eq_false (by omega)
        simp only [below, other, Bool.and_false, Bool.false_and, Bool.false_or]
        decide
      · have shift : oneShifted (((53 : ℕ) : ℤ) - (((toBignum n).digits.length : ℤ) - 1) * digitLength) = none := by
          unfold oneShifted
          have length : (digitLength : ℤ) = 62 := rfl
          rw [if_neg]
          rw [length]
          omega
        simp only [shift]
        simp

theorem wraps_large (wraps : Wraps n) {k : ℕ} (small : k ≤ 2 ^ 33) : 2 ^ k ≤ n.natAbs := by
  have nonzero : n ≠ 0 := by
    rintro rfl
    exact nomatch wraps.1
  have normalized := toBignum_normalized nonzero
  have magnitude := toBignum_magnitude n
  have positive : 0 < (toBignum n).digits.length := by
    rw [length_pos_iff]
    intro empty
    rw [Bignum.magnitude, empty] at magnitude
    have none : ofDigits radix [] = 0 := rfl
    omega
  obtain ⟨j, many⟩ : ∃ j, j + 1 = (toBignum n).digits.length := ⟨_, Nat.sub_add_cancel positive⟩
  have large := normalized.pow_le_magnitude (by omega : j < (toBignum n).digits.length)
  have multiple := wraps.2
  have length : digitLength = 62 := rfl
  rw [magnitude, radix, ← pow_mul, length] at large
  exact (Nat.pow_le_pow_right (by decide) (by omega)).trans large

theorem integerToFlonum_eq {x : Flonum} (lossless : integerToFlonum n = some x) (short : ¬Wraps n) :
    x = ofRational n ∧ x.Is n := by
  unfold integerToFlonum at lossless
  split at lossless
  · split at lossless
    · rename_i same
      cases lossless
      exact ⟨rfl, same⟩
    · cases lossless
  · rename_i bignum
    rw [if_neg (mt (losslessBignumToDoubleP_eq (Bool.not_eq_true _ ▸ bignum)).mp short)] at lossless
    cases lossless

theorem integerToFlonum_isSome_iff (short : ¬Wraps n) :
    (integerToFlonum n).isSome = true ↔ isFixnum n = true ∧ (ofRational n).Is n := by
  unfold integerToFlonum
  by_cases fixnum : isFixnum n = true
  · simp only [fixnum, true_and]
    exact Option.isSome_ite
  · have bignum : isFixnum n = false := Bool.not_eq_true _ ▸ fixnum
    rw [if_neg (mt (losslessBignumToDoubleP_eq bignum).mp short)]
    simp [bignum]

theorem not_wraps_of_fits {q : ℚ} (fits : binary64.Fits |q|) : ¬Wraps q.num ∧ ¬Wraps q.den := by
  obtain ⟨m, e, holds⟩ := fits
  have lower : -1022 ≤ e := holds.lower
  have upper : e ≤ 1023 := holds.upper
  obtain ⟨j, exponent⟩ := Int.eq_ofNat_of_zero_le (by omega : 0 ≤ e - 52 + 1074)
  have value : |q| = ((m * 2 ^ j : ℕ) : ℤ) / ((2 ^ 1074 : ℕ) : ℤ) := by
    have powers : (2 : ℚ) ^ (e - 52) = 2 ^ j / 2 ^ 1074 := by
      rw [eq_div_iff (by positivity), ← zpow_natCast, ← zpow_natCast, ← two_zpow_add]
      congr 1
    rw [holds.value, BinaryFormat.scaled, show (binary64.trailing : ℤ) = 52 from rfl, powers]
    push_cast
    ring
  have den_same : |q|.den = q.den := by
    rcases abs_choice q with same | same <;> rw [same]
    exact Rat.den_neg_eq_den q
  have divides : q.den ∣ 2 ^ 1074 := by
    have quotient := Rat.den_dvd ((m * 2 ^ j : ℕ) : ℤ) ((2 ^ 1074 : ℕ) : ℤ)
    rw [Rat.divInt_eq_div, ← value, den_same] at quotient
    exact_mod_cast quotient
  have den_le : q.den ≤ 2 ^ 1074 := le_of_dvd (Nat.two_pow_pos _) divides
  have less : |q| < 2 ^ 1024 := by
    calc |q| < 2 ^ (e + 1) := holds.value.trans_lt (scaled_lt holds.short)
      _ ≤ 2 ^ (1024 : ℤ) := two_zpow_le (by omega)
      _ = 2 ^ 1024 := zpow_natCast 2 1024
  have num_lt : q.num.natAbs < 2 ^ 1024 * 2 ^ 1074 := by
    have product : (q.num.natAbs : ℚ) = |q| * q.den := by
      rw [cast_natAbs, Int.cast_abs, ← Rat.mul_den_eq_num, abs_mul, abs_cast]
    have bound : (q.num.natAbs : ℚ) < 2 ^ 1024 * 2 ^ 1074 := by
      rw [product]
      have den_le' : (q.den : ℚ) ≤ 2 ^ 1074 := by exact_mod_cast den_le
      have den_pos : (0 : ℚ) < q.den := by exact_mod_cast q.den_pos
      exact mul_lt_mul less den_le' den_pos (by positivity)
    exact_mod_cast bound
  constructor
  · intro wraps
    have large := wraps_large wraps (by decide : 1024 + 1074 ≤ 2 ^ 33)
    omega
  · intro wraps
    have large := wraps_large wraps (by decide : 1075 ≤ 2 ^ 33)
    omega

end MitScheme.Runtime.Arithmetic
