import MitScheme.Runtime.Arithmetic.Ratios
import MitScheme.Runtime.NumberParser.Points

namespace MitScheme.Runtime.NumberParser

open Library Microcode Arithmetic Flonum Literal

theorem fits_power {i : ℕ} (small : i ≤ 22) : binary64.Fits |(((10 ^ i : ℕ) : ℤ) : ℚ)| := by
  have short : 5 ^ i < 2 ^ (binary64.trailing + 1) :=
    (Nat.pow_le_pow_right (by decide) small).trans_lt (by decide : 5 ^ 22 < 2 ^ 53)
  have value : |(((10 ^ i : ℕ) : ℤ) : ℚ)| = (5 ^ i : ℕ) * 2 ^ (i : ℤ) := by
    rw [Int.cast_natCast, zpow_natCast]
    push_cast
    rw [← mul_pow]
    norm_num
  rw [value]
  apply BinaryFormat.fits_of short
  · have least : binary64.emin - (binary64.trailing : ℤ) = -1074 := rfl
    omega
  · have digits : ((5 ^ i : ℕ) : ℚ) < 2 ^ (53 : ℤ) := by exact_mod_cast short
    calc ((5 ^ i : ℕ) : ℚ) * 2 ^ (i : ℤ) < 2 ^ (53 : ℤ) * 2 ^ (i : ℤ) := mul_lt_mul_of_pos_right digits (two_zpow_pos _)
      _ = 2 ^ (53 + i : ℤ) := (two_zpow_add _ _).symm
      _ ≤ 2 ^ (binary64.emax + 1 : ℤ) := two_zpow_le (by have most : (binary64.emax : ℤ) = 1023 := rfl; omega)

theorem isExactPower_eq {i : ℕ} (small : i ≤ 22) : isExactPower (10 ^ i) = true := by
  have fits := fits_power small
  have is := ofRational_is fits
  unfold isExactPower
  rw [intToInexact_of_fits fits, is.1, is.2]
  simp

theorem isExactPower_23 : isExactPower (10 ^ 23) = false := by
  by_contra exactly
  simp only [isExactPower, Bool.not_eq_false, Bool.and_eq_true, decide_eq_true_eq] at exactly
  obtain ⟨finite, value⟩ := exactly
  have is : (intToInexact ((10 ^ 23 : ℕ) : ℤ)).Is ((10 ^ 23 : ℕ) : ℚ) := ⟨finite, value⟩
  have magnitude := is.magnitude
  have holds := BinaryFormat.holds_word (of_decide_eq_true is.1)
  rw [magnitude] at holds
  obtain ⟨m, e, holds⟩ : binary64.Fits ((10 ^ 23 : ℕ) : ℚ) := ⟨_, _, holds⟩
  have short : m < 2 ^ 53 := holds.short
  have same := holds.value
  have trailing : (binary64.trailing : ℤ) = 52 := rfl
  rw [BinaryFormat.scaled, trailing] at same
  rcases le_or_gt (e - 52) 23 with low | high
  · have bound : ((10 ^ 23 : ℕ) : ℚ) < 2 ^ (53 : ℤ) * 2 ^ (23 : ℤ) := by
      rw [same]
      have digits : (m : ℚ) < 2 ^ (53 : ℤ) := by exact_mod_cast short
      exact mul_lt_mul digits (two_zpow_le low) (two_zpow_pos _) (two_zpow_pos _).le
    norm_num at bound
  · obtain ⟨j, exponent⟩ : ∃ j : ℕ, e - 52 = j + 24 := ⟨(e - 52 - 24).toNat, by omega⟩
    rw [exponent, show (j : ℤ) + 24 = ((j + 24 : ℕ) : ℤ) by rfl] at same
    have whole : 10 ^ 23 = m * 2 ^ (j + 24) := by exact_mod_cast same
    have divides : 2 ^ 24 ∣ 10 ^ 23 := whole ▸ .mul_left (pow_dvd_pow 2 (by omega)) m
    exact absurd divides (by decide)

theorem powersOf10Loop_spec (k : ℕ) {i fuel : ℕ} (last : i + k = 23) (enough : k < fuel) :
    (powersOf10Loop fuel (10 ^ i)).length = k ∧
      ∀ j x, (powersOf10Loop fuel (10 ^ i))[j]? = some x → x = intToInexact ((10 ^ (i + j) : ℕ) : ℤ) := by
  induction k generalizing i fuel with
  | zero =>
    obtain ⟨fuel, rfl⟩ := Nat.exists_eq_succ_of_ne_zero enough.ne'
    have top : i = 23 := last
    rw [powersOf10Loop, top, isExactPower_23]
    exact ⟨rfl, fun j x none => nomatch none⟩
  | succ k ih =>
    obtain ⟨fuel, rfl⟩ := Nat.exists_eq_succ_of_ne_zero ((Nat.zero_lt_of_lt enough).ne')
    obtain ⟨length, entries⟩ := @ih (i + 1) fuel (by omega) (by omega)
    rw [powersOf10Loop, isExactPower_eq (by omega), if_pos rfl, ← pow_succ]
    refine ⟨by rw [List.length_cons, length], ?_⟩
    intro j x entry
    cases j with
    | zero => exact (Option.some.inj entry).symm
    | succ j =>
      rw [entries j x entry, add_right_comm, add_assoc]

theorem exactFlonumPowersOf10_spec {i : ℕ} {x : Flonum} (entry : exactFlonumPowersOf10[i]? = some x) :
    i ≤ 22 ∧ x = ofRational (((10 ^ i : ℕ) : ℤ) : ℚ) ∧ x.Is ((10 ^ i : ℕ) : ℚ) := by
  obtain ⟨length, entries⟩ := @powersOf10Loop_spec 23 0 309 rfl (by decide)
  have inside : i < exactFlonumPowersOf10.length := (getElem?_eq_some_iff.mp entry).1
  have bound : exactFlonumPowersOf10.length = 23 := length
  have small : i ≤ 22 := by omega
  have same := entries i x entry
  rw [zero_add, intToInexact_of_fits (fits_power small)] at same
  refine ⟨small, same, ?_⟩
  rw [same]
  exact ofRational_is (fits_power small)

theorem mul_nearest {x y : Flonum} {a b : ℚ} (hx : x.Is a) (hy : y.Is b) (positive : x.negative = false)
    (positive' : y.negative = false) : x.mul y = ofMagnitude false (a * b) := by
  unfold mul
  rw [hx.nan, hy.nan, hx.infinite, hy.infinite, hx.magnitude, hy.magnitude, positive, positive', abs_of_nonneg (hx.nonneg positive),
    abs_of_nonneg (hy.nonneg positive')]
  rfl

theorem ofRational_nonneg {q : ℚ} (nonneg : 0 ≤ q) : ofRational q = ofMagnitude false q := by
  unfold ofRational
  rw [abs_of_nonneg nonneg, decide_eq_false (nonneg.not_gt)]

theorem applySign_nearest (sign : Option Sign) (q : ℚ) :
    applySign sign (.flonum (ofMagnitude false q)) = .flonum (ofMagnitude (sign = some .minus) q) := by
  simp only [applySign]
  by_cases minus : sign = some .minus
  · rw [if_pos minus, decide_eq_true minus]
    rfl
  · rw [if_neg minus, decide_eq_false minus]

section
variable (sign : Option Sign) {exactness : Option Exactness} {integer : ℕ} {rexponent bexponent : ℤ}

def decimalMagnitude (integer : ℕ) (exponent : ℤ) : ℚ := integer * 10 ^ exponent

theorem decimalMagnitude_nonneg (integer : ℕ) (exponent : ℤ) : 0 ≤ decimalMagnitude integer exponent :=
  mul_nonneg (Nat.cast_nonneg _) (zpow_pos (by norm_num) _).le

variable {exponent : ℤ} {integer : ℕ} {exactness : Option Exactness}

theorem finishFlonum_nearest {x power : Flonum} (entry : exactFlonumPowersOf10[exponent.natAbs]? = some power)
    (lossless : integerToFlonum integer = some x) (short : ¬Wraps integer) :
    finishFlonum sign exponent x power = .flonum (ofMagnitude (sign = some .minus) (decimalMagnitude integer exponent)) := by
  obtain ⟨-, table, is_power⟩ := exactFlonumPowersOf10_spec entry
  obtain ⟨converted, is⟩ := integerToFlonum_eq lossless short
  have positive : x.negative = false := by
    rw [converted]
    exact decide_eq_false (not_lt.mpr (by positivity))
  have positive' : power.negative = false := by
    rw [table]
    exact decide_eq_false (not_lt.mpr (by positivity))
  have operation : (if 0 ≤ exponent then x.mul power else x.div power) =
      .ofMagnitude false (decimalMagnitude integer exponent) := by
    split
    · rename_i nonneg
      obtain ⟨k, rfl⟩ := Int.eq_ofNat_of_zero_le nonneg
      rw [mul_nearest is is_power positive positive', decimalMagnitude]
      push_cast
      rfl
    · obtain ⟨k, opposite⟩ := Int.eq_ofNat_of_zero_le (by omega : 0 ≤ -exponent)
      have size : exponent.natAbs = k := by omega
      have exponent_eq : exponent = -(k : ℤ) := by omega
      rw [size] at is_power
      have quotient := div_nearest (n := integer) (d := 10 ^ k) (by rwa [Int.cast_natCast]) is_power
        (positive.trans (decide_eq_false (by omega)).symm) positive' (Nat.pow_pos (by decide))
      rw [quotient, ofRational_nonneg (by positivity), decimalMagnitude, exponent_eq, zpow_neg]
      push_cast
      rfl
  rw [finishFlonum, operation, applySign_nearest]

theorem highPrecisionMethod_decimal (exactness : Option Exactness) (integer : ℕ) (rexponent bexponent : ℤ) :
    highPrecisionMethod sign exactness integer rexponent 10 10 bexponent =
      .ok (applySign sign (applyExactness exactness (decimalMagnitude integer (rexponent + bexponent)))) := by
  have power : ∀ e, expt 10 e = .ok (10 ^ e) := fun _ => if_neg fun two => absurd two.1 (by decide)
  unfold highPrecisionMethod decimalMagnitude
  rw [power, power, zpow_add₀ (by norm_num), ← mul_assoc]
  rfl

theorem applyExactness_nearest {q : ℚ} (nonneg : 0 ≤ q) (inexact : isInexact exactness = true)
    (nearest : ratToInexact q = ofRational q) :
    applySign sign (applyExactness exactness q) = .flonum (ofMagnitude (sign = some .minus) q) := by
  simp only [applyExactness, toInexact]
  rw [if_pos inexact, nearest, ofRational_nonneg nonneg, applySign_nearest]

/-- An integer from which the microcode cuts digits that should round it up. -/
def TruncatedValue (q : ℚ) : Prop := q.den = 1 ∧ Truncated q.num.natAbs

def Lossless (integer : ℕ) (exponent : ℤ) : Prop := (integerToFlonum integer).isSome = true ∧ exponent.natAbs ≤ 22

/-- The rounded value is zero or a normal number. The exponent and the lengths in the conversion of a ratio fit in the
types that the microcode has for them. -/
structure Ordinary (q : ℚ) : Prop where
  rounded : binary64.round q = 0 ∨ 2 ^ 52 ≤ binary64.round q ∧ binary64.round q < binary64.infinity
  exponent : q = 0 ∨ 52 - 2 ^ 31 ≤ Int.log 2 (binary64.toDigits q)
  lengths : ¬(Wraps q.num ∧ Wraps q.den)

variable {q : ℚ}

theorem Ordinary.small (ordinary : Ordinary q) : q < binary64.overflow := by
  by_contra large
  have large' : binary64.overflow ≤ q := not_lt.mp large
  have positive : 0 < q := by
    have order : (0 : ℚ) < 2 ^ (1023 : ℤ) := two_zpow_pos _
    exact order.trans_le (overflow_large.trans large')
  have infinite := (BinaryFormat.round_eq_infinity_iff positive (by decide)).mpr large'
  have nonzero : 0 < binary64.infinity := by
    rw [infinity_binary64]
    omega
  rcases ordinary.rounded with zero | ⟨-, finite⟩ <;> omega

theorem Ordinary.once (ordinary : Ordinary q) (nonneg : 0 ≤ q) : ¬binary64.DoubleRounds q := by
  intro twice
  rcases nonneg.eq_or_lt with rfl | positive
  · have below : Int.log 2 (0 : ℚ) < binary64.emin := twice.1
    rw [Int.log_zero_right] at below
    exact absurd below (by decide)
  · obtain ⟨odd, subnormal⟩ := twice.round_odd positive (by decide)
    have trailing : 2 ^ binary64.trailing = 2 ^ 52 := rfl
    rcases ordinary.rounded with zero | ⟨normal, -⟩ <;> omega

theorem Ordinary.nearest (ordinary : Ordinary q) (nonneg : 0 ≤ q) (kept : ¬TruncatedValue q) :
    ratToInexact q = ofRational q := by
  have magnitude := abs_of_nonneg nonneg
  refine (ratToInexact_nearest_iff (magnitude.symm ▸ ordinary.small) (magnitude.symm ▸ ordinary.exponent) ordinary.lengths).mpr ?_
  rw [magnitude]
  exact ⟨kept, ordinary.once nonneg⟩

theorem Ordinary.short (ordinary : Ordinary (decimalMagnitude integer exponent))
    (table : exponent.natAbs ≤ 22) : ¬Wraps integer := by
  intro wraps
  have large : (2 : ℚ) ^ (1200 : ℤ) ≤ integer := by
    have bound := wraps_large wraps (by decide : 1200 ≤ 2 ^ 33)
    exact_mod_cast bound
  have scale : (2 : ℚ) ^ (-88 : ℤ) ≤ 10 ^ exponent :=
    calc (2 : ℚ) ^ (-88 : ℤ) ≤ 10 ^ (-22 : ℤ) := by norm_num
      _ ≤ 10 ^ exponent := zpow_le_zpow_right₀ (by norm_num) (by omega)
  have product : (2 : ℚ) ^ (1112 : ℤ) ≤ decimalMagnitude integer exponent := by
    rw [show (1112 : ℤ) = 1200 + -88 from rfl, two_zpow_add]
    exact mul_le_mul large scale (two_zpow_pos _).le (Nat.cast_nonneg _)
  have bound : binary64.overflow ≤ 2 ^ ((1024 : ℕ) : ℤ) := by
    rw [overflow_binary64]
    exact_mod_cast overflowBound_bounds.2
  have order : (2 : ℚ) ^ ((1024 : ℕ) : ℤ) < 2 ^ (1112 : ℤ) := two_zpow_lt (by decide)
  exact absurd ordinary.small ((bound.trans (order.le.trans product)).not_gt)

theorem finishReal_decimal (sign : Option Sign) (inexact : isInexact exactness = true) (integer : ℕ)
    (rexponent bexponent : ℤ) : finishReal sign exactness integer rexponent 10 10 bexponent =
      match exactFlonumPowersOf10[(rexponent + bexponent).natAbs]?, integerToFlonum integer with
      | some powerOf10, some x => .ok (finishFlonum sign (rexponent + bexponent) x powerOf10)
      | _, _ => highPrecisionMethod sign exactness integer rexponent 10 10 bexponent := by
  unfold finishReal
  refine (if_pos ⟨rfl, rfl, inexact⟩).trans ?_
  cases exactFlonumPowersOf10[(rexponent + bexponent).natAbs]? with
  | none => rfl
  | some power => cases integerToFlonum integer <;> rfl

theorem finishReal_nearest (sign : Option Sign) (inexact : isInexact exactness = true)
    {rexponent bexponent : ℤ} (ordinary : Ordinary (decimalMagnitude integer (rexponent + bexponent)))
    (kept : Lossless integer (rexponent + bexponent) ∨ ¬TruncatedValue (decimalMagnitude integer (rexponent + bexponent))) :
    finishReal sign exactness integer rexponent 10 10 bexponent =
      .ok (.flonum (ofMagnitude (sign = some .minus) (decimalMagnitude integer (rexponent + bexponent)))) := by
  have nonneg := decimalMagnitude_nonneg integer (rexponent + bexponent)
  have slow : ¬TruncatedValue (decimalMagnitude integer (rexponent + bexponent)) →
      highPrecisionMethod sign exactness integer rexponent 10 10 bexponent =
        .ok (.flonum (.ofMagnitude (sign = some .minus) (decimalMagnitude integer (rexponent + bexponent)))) := by
    intro kept
    rw [highPrecisionMethod_decimal, applyExactness_nearest sign nonneg inexact (ordinary.nearest nonneg kept)]
  rw [finishReal_decimal sign inexact]
  cases entry : exactFlonumPowersOf10[(rexponent + bexponent).natAbs]? with
  | none =>
    refine slow (kept.resolve_left ?_)
    rintro ⟨-, small⟩
    have length : exactFlonumPowersOf10.length = 23 := (@powersOf10Loop_spec 23 0 309 rfl (by decide)).1
    have outside := List.getElem?_eq_none_iff.mp entry
    omega
  | some power =>
    have table := (exactFlonumPowersOf10_spec entry).1
    cases lossless : integerToFlonum integer with
    | none =>
      refine slow (kept.resolve_left ?_)
      rintro ⟨converted, -⟩
      rw [lossless] at converted
      exact nomatch converted
    | some x => exact congrArg Except.ok (finishFlonum_nearest sign entry lossless (ordinary.short table))

theorem den_le_of_table (integer : ℕ) (table : exponent.natAbs ≤ 22) :
    (decimalMagnitude integer exponent).den ≤ 10 ^ 22 := by
  obtain ⟨k, shifted⟩ := Int.eq_ofNat_of_zero_le (by omega : 0 ≤ exponent + 22)
  have value : decimalMagnitude integer exponent = ((integer * 10 ^ k : ℕ) : ℤ) / ((10 ^ 22 : ℕ) : ℤ) := by
    have powers : (10 : ℚ) ^ exponent = 10 ^ k / 10 ^ 22 := by
      rw [eq_div_iff (by norm_num), ← zpow_natCast, ← zpow_natCast, ← zpow_add₀ (by norm_num)]
      congr 1
    rw [decimalMagnitude, powers]
    push_cast
    ring
  have divides := Rat.den_dvd ((integer * 10 ^ k : ℕ) : ℤ) ((10 ^ 22 : ℕ) : ℤ)
  rw [Rat.divInt_eq_div, ← value] at divides
  exact Nat.le_of_dvd (by decide) (by exact_mod_cast divides)

theorem highPrecisionMethod_eq (sign : Option Sign) (inexact : isInexact exactness = true)
    {rexponent bexponent : ℤ} {x power : Flonum}
    (entry : exactFlonumPowersOf10[(rexponent + bexponent).natAbs]? = some power) (lossless : integerToFlonum integer = some x)
    (short : ¬Wraps integer) (kept : ¬TruncatedValue (decimalMagnitude integer (rexponent + bexponent))) :
    highPrecisionMethod sign exactness integer rexponent 10 10 bexponent =
      .ok (finishFlonum sign (rexponent + bexponent) x power) := by
  have table := (exactFlonumPowersOf10_spec entry).1
  have nonneg := decimalMagnitude_nonneg integer (rexponent + bexponent)
  have fixnum := fixnum_of_lossless lossless short
  have upper : decimalMagnitude integer (rexponent + bexponent) < 2 ^ (140 : ℤ) := by
    have digits : (integer : ℚ) ≤ 2 ^ 57 := by exact_mod_cast fixnum
    have scale : (10 : ℚ) ^ (rexponent + bexponent) ≤ 10 ^ (22 : ℤ) := zpow_le_zpow_right₀ (by norm_num) (by omega)
    calc decimalMagnitude integer (rexponent + bexponent) ≤ 2 ^ 57 * 10 ^ (22 : ℤ) :=
          mul_le_mul digits scale (zpow_pos (by norm_num) _).le (by norm_num)
      _ < 2 ^ (140 : ℤ) := by norm_num
  have small : |decimalMagnitude integer (rexponent + bexponent)| < binary64.overflow := by
    rw [abs_of_nonneg nonneg]
    exact (upper.trans (two_zpow_lt (by decide))).trans_le overflow_large
  have lower : decimalMagnitude integer (rexponent + bexponent) = 0 ∨
      (2 : ℚ) ^ (-88 : ℤ) ≤ decimalMagnitude integer (rexponent + bexponent) := by
    rcases eq_zero_or_pos integer with rfl | positive
    · exact .inl (by rw [decimalMagnitude, Nat.cast_zero, zero_mul])
    · refine .inr ?_
      have one : (1 : ℚ) ≤ integer := by exact_mod_cast positive
      calc (2 : ℚ) ^ (-88 : ℤ) ≤ 10 ^ (-22 : ℤ) := by norm_num
        _ ≤ 10 ^ (rexponent + bexponent) := zpow_le_zpow_right₀ (by norm_num) (by omega)
        _ ≤ decimalMagnitude integer (rexponent + bexponent) := le_mul_of_one_le_left (zpow_pos (by norm_num) _).le one
  have den := den_le_of_table integer table
  have nearest : ratToInexact (decimalMagnitude integer (rexponent + bexponent)) =
      .ofRational (decimalMagnitude integer (rexponent + bexponent)) := by
    refine (ratToInexact_nearest_iff small ?_ ?_).mpr ⟨kept, ?_⟩
    · rw [abs_of_nonneg nonneg]
      refine lower.imp_right fun above => ?_
      have bounds := log_of_bounds above upper
      have digits := (log_toDigits_bounds ((two_zpow_pos _).trans_le above)).1
      omega
    · rintro ⟨-, wraps⟩
      have large := wraps_large wraps (by decide : 100 ≤ 2 ^ 33)
      omega
    · intro twice
      rw [abs_of_nonneg nonneg] at twice
      rcases lower with zero | above
      · have below : Int.log 2 (decimalMagnitude integer (rexponent + bexponent)) < binary64.emin := twice.1
        rw [zero, Int.log_zero_right] at below
        exact absurd below (by decide)
      · have bounds := DoubleRounds.bounds ((two_zpow_pos _).trans_le above) twice
        have order : (2 : ℚ) ^ (-1022 : ℤ) < 2 ^ (-88 : ℤ) := two_zpow_lt (by decide)
        exact absurd bounds.2 ((order.le.trans above).not_gt)
  rw [finishFlonum_nearest sign entry lossless short, highPrecisionMethod_decimal,
    applyExactness_nearest sign nonneg inexact nearest]

abbrev Decimal := Literal 10 exponentMarkers

/-- A literal is a number without sharps. -/
def Literal.form (l : Decimal) : FloatForm 10 where
  whole := ⟨l.whole, 0⟩
  fraction := l.fraction.map fun ds => ⟨ds, 0⟩
  exponent := l.exponent.map fun e => { e with known := List.mem_append_left _ e.known }

variable (trig : Trigonometry) (l : Decimal)

theorem decimal_magnitude : l.magnitude 10 = decimalMagnitude l.integer (l.rexponent + l.bexponent) := by
  unfold magnitude decimalMagnitude
  push_cast
  rw [mul_assoc, ← zpow_add₀ (by norm_num)]

theorem decimal_integer (whole : l.fraction = none ∧ l.exponent = none) : l.magnitude 10 = l.integer := by
  unfold magnitude rexponent bexponent
  rw [whole.1, whole.2]
  simp

theorem applySign_exact (q : ℚ) : applySign l.sign (.exact q) = .exact (if l.negative then -q else q) := by
  simp [applySign, Literal.negative]

def Literal.exactly : Number := .exact (if l.negative then -l.magnitude 10 else l.magnitude 10)

def Literal.nearest : Number := .flonum (ofMagnitude l.negative (l.magnitude 10))

theorem form_spelling : signSpelling l.sign ++ (l.form.spelling ++ []) = l.spelling := by
  unfold Literal.spelling FloatForm.spelling FloatForm.fractionSpelling FloatForm.exponentSpelling Run.spelling form
  rw [fractionSpelling, exponentSpelling]
  cases l.fraction <;> cases l.exponent <;> simp [ExponentPart.tail]

theorem form_wellFormed (float : ¬(l.fraction = none ∧ l.exponent = none)) : l.form.WellFormed l.sign where
  parts := by
    by_contra whole
    exact float (by simpa [form] using whole)
  leading none := by
    obtain ⟨d, ds, fraction⟩ := l.some_digit none
    exact ⟨rfl, by simp [FloatForm.fractionDigits, form, fraction], .inr (.inl rfl)⟩
  sharp sharp := absurd rfl sharp
  ten _ _ _ := rfl
  two e made other := by
    obtain ⟨e, -, rfl⟩ := Option.map_eq_some_iff.mp made
    cases (decide_eq_true e.known).symm.trans other

theorem form_stops : l.form.Stops [] := by
  unfold FloatForm.Stops
  split
  · trivial
  · exact ⟨trivial, fun _ => trivial⟩

theorem form_integer : l.form.integer = l.integer := by
  unfold FloatForm.integer FloatForm.fractionDigits Run.value form Literal.integer
  rw [pow_zero, mul_one]
  cases l.fraction with
  | none => simp [DigitChar.read]
  | some ds => simp [DigitChar.read_append]

theorem form_base : l.form.base [] = 10 := by
  have unsharp : l.form.sharps = 0 := by
    unfold FloatForm.sharps form
    cases l.fraction <;> rfl
  unfold FloatForm.base form
  cases l.exponent with
  | none => exact if_neg fun sharp => sharp.2 unsharp
  | some e => exact if_pos (decide_eq_true e.known)

theorem decimal_literal (mark : Option ExactnessMark) :
    stringToNumber trig (prefixSpelling mark ++ l.spelling) (some 10) =
      if l.fraction = none ∧ l.exponent = none then
        accepted (finishInteger l.sign (mark.map ExactnessMark.exactness) l.integer)
      else finishReal l.sign ((mark.map ExactnessMark.exactness).or (some .implicitInexact)) l.integer l.rexponent 10 10
        l.bexponent >>= accepted := by
  rw [stringToNumber_top trig l (by decide), parseTopLevel, ← form_spelling]
  split
  · next whole =>
    have digits : l.form.spelling = l.form.whole.spelling := by
      simp [FloatForm.spelling, FloatForm.fractionSpelling, FloatForm.exponentSpelling, form, whole]
    have some_digit : l.form.whole.digits ≠ [] := fun none => by
      obtain ⟨d, ds, fraction⟩ := l.some_digit none
      cases whole.1.symm.trans fraction
    have integer : l.form.whole.value 0 = l.integer := by
      rw [← form_integer, FloatForm.integer, FloatForm.fractionDigits, form, whole.1]
      rfl
    rw [digits, parseTopLevelWith_run _ _ _ l.sign some_digit (show l.form.whole.Stops [] from trivial), integer]
    rfl
  · next float =>
    have rexponent : l.form.rexponent = l.rexponent := by
      unfold FloatForm.rexponent FloatForm.fractionDigits form Literal.rexponent
      cases l.fraction <;> rfl
    have bexponent : l.form.bexponent = l.bexponent := by
      unfold FloatForm.bexponent form Literal.bexponent
      cases l.exponent <;> rfl
    rw [parseTopLevelWith_float _ _ _ (by decide) (form_wellFormed l float) (form_stops l), form_integer, form_base, rexponent,
      bexponent]
    rfl

theorem decimal_exact {mark : Option ExactnessMark} (exact : mark.map ExactnessMark.exactness = some .exact) :
    stringToNumber trig (prefixSpelling mark ++ l.spelling) (some 10) = accepted l.exactly := by
  rw [decimal_literal, exact]
  split
  · rename_i whole
    rw [exactly, decimal_integer l whole, ← applySign_exact]
    rfl
  · have value : finishReal l.sign (some .exact) l.integer l.rexponent 10 10 l.bexponent = .ok l.exactly := by
      unfold finishReal
      rw [highPrecisionMethod_decimal, ← decimal_magnitude, exactly, ← applySign_exact]
      rfl
    rw [Option.some_or, value]
    rfl

theorem not_truncated_of_fixnum {n : ℕ} (fixnum : n ≤ 2 ^ 57) : ¬Truncated n := by
  rintro ⟨-, k, positive, size, -⟩
  have bits : Nat.size n ≤ 58 := Nat.size_le.mpr (by omega)
  have length : Bignum.digitLength = 62 := rfl
  rw [length] at size
  omega

theorem decimal_nearest {mark : Option ExactnessMark} (inexact : mark.map ExactnessMark.exactness ≠ some .exact)
    (float : mark ≠ none ∨ ¬(l.fraction = none ∧ l.exponent = none)) (ordinary : Ordinary (l.magnitude 10))
    (kept : Lossless l.integer (l.rexponent + l.bexponent) ∨ ¬TruncatedValue (l.magnitude 10)) :
    stringToNumber trig (prefixSpelling mark ++ l.spelling) (some 10) = accepted l.nearest := by
  have applied : isInexact ((mark.map ExactnessMark.exactness).or (some .implicitInexact)) = true := by
    cases mark with
    | none => rfl
    | some mark =>
      obtain ⟨char, exactness, is⟩ := mark
      cases exactness with
      | exact => exact absurd rfl inexact
      | inexact => rfl
      | implicitInexact => rfl
  rw [decimal_literal, nearest]
  split
  · rename_i whole
    have some_mark := float.resolve_right fun other => other whole
    have same := decimal_integer l whole
    have digits : ¬TruncatedValue (l.magnitude 10) := by
      rcases kept with ⟨lossless, table⟩ | kept
      · rw [decimal_magnitude] at ordinary
        obtain ⟨x, converted⟩ := Option.isSome_iff_exists.mp lossless
        have fixnum := fixnum_of_lossless converted (ordinary.short table)
        rintro ⟨-, truncated⟩
        rw [same, Rat.num_natCast] at truncated
        exact not_truncated_of_fixnum fixnum truncated
      · exact kept
    have read : finishInteger l.sign (mark.map ExactnessMark.exactness) l.integer =
        .flonum (.ofMagnitude l.negative (l.magnitude 10)) := by
      rw [finishInteger, ← same]
      have nonneg : 0 ≤ l.magnitude 10 := by
        rw [same]
        exact Nat.cast_nonneg _
      refine applyExactness_nearest l.sign nonneg ?_ (ordinary.nearest nonneg digits)
      cases mark with
      | none => exact absurd rfl some_mark
      | some mark => exact applied
    rw [read]
  · rw [decimal_magnitude] at ordinary kept ⊢
    rw [finishReal_nearest l.sign applied ordinary kept]
    rfl

/-- Decimal literals with a point, an exponent or `#i` are read as the nearest flonum, the others as the integer, and
those with `#e` exactly. -/
theorem decimal_literals :
    (∀ mark : Option ExactnessMark, mark.map ExactnessMark.exactness = some .exact →
      stringToNumber trig (prefixSpelling mark ++ l.spelling) (some 10) = accepted l.exactly) ∧
    (l.fraction = none ∧ l.exponent = none → stringToNumber trig l.spelling (some 10) = accepted l.exactly) ∧
    (∀ mark : Option ExactnessMark, mark.map ExactnessMark.exactness ≠ some .exact →
      mark ≠ none ∨ ¬(l.fraction = none ∧ l.exponent = none) → Ordinary (l.magnitude 10) →
      Lossless l.integer (l.rexponent + l.bexponent) ∨ ¬TruncatedValue (l.magnitude 10) →
      stringToNumber trig (prefixSpelling mark ++ l.spelling) (some 10) = accepted l.nearest) ∧
    (∀ (sign : Option Sign) (exactness : Option Exactness) (integer : ℕ) (rexponent bexponent : ℤ) (x power : Flonum),
      isInexact exactness = true → exactFlonumPowersOf10[(rexponent + bexponent).natAbs]? = some power →
      integerToFlonum integer = some x → ¬Wraps integer →
      ¬TruncatedValue (decimalMagnitude integer (rexponent + bexponent)) →
      highPrecisionMethod sign exactness integer rexponent 10 10 bexponent =
        .ok (finishFlonum sign (rexponent + bexponent) x power)) := by
  refine ⟨fun mark => decimal_exact trig l, fun whole => ?_, fun mark inexact float ordinary kept => ?_,
    fun sign exactness integer rexponent bexponent x power inexact entry lossless short kept => ?_⟩
  · have read := decimal_literal trig l none
    rw [if_pos whole] at read
    rw [exactly, decimal_integer l whole, ← applySign_exact]
    exact read
  · exact decimal_nearest trig l inexact float ordinary kept
  · exact highPrecisionMethod_eq sign inexact entry lossless short kept

end

def threeHalves : Decimal where
  sign := none
  whole := [⟨'1'.toNat, 1, by decide⟩]
  fraction := some [⟨'5'.toNat, 5, by decide⟩]
  exponent := none
  some_digit := fun none => nomatch none

theorem threeHalves_magnitude : threeHalves.magnitude 10 = 3 / 2 := by
  have integer : threeHalves.integer = 15 := rfl
  have rexponent : threeHalves.rexponent = -1 := rfl
  have bexponent : threeHalves.bexponent = 0 := rfl
  rw [magnitude, integer, rexponent, bexponent]
  norm_num

theorem ordinary_threeHalves : Ordinary (3 / 2) := by
  have holds : binary64.Holds (3 / 2) (3 * 2 ^ 51) 0 := by
    refine ⟨?_, by decide, by decide, by decide, .inr (by decide)⟩
    rw [BinaryFormat.scaled, show (0 : ℤ) - (binary64.trailing : ℤ) = -52 from rfl]
    norm_num
  have word : binary64.round (3 / 2) = binary64.pack (3 * 2 ^ 51) 0 := holds.round (by norm_num)
  refine ⟨.inr ?_, .inr ?_, ?_⟩
  · rw [word]
    decide
  · have log : Int.log 2 (3 / 2 : ℚ) = 0 := log_eq (by norm_num) (by norm_num)
    have digits := (@log_toDigits_bounds (3 / 2) (by norm_num)).1
    omega
  · rintro ⟨wraps, -⟩
    have bignum := natAbs_of_not_fixnum wraps.1
    have numerator : (3 / 2 : ℚ).num = 3 := by decide +kernel
    omega

theorem decimal_literals_threeHalves :
    stringToNumber ⟨id, id⟩ ("1.5".toList.map Char.toNat) (some 10) = accepted (.flonum (ofMagnitude false (3 / 2))) := by
  have proper : (3 / 2 : ℚ).den = 2 := by decide +kernel
  have kept : ¬TruncatedValue (threeHalves.magnitude 10) := by
    intro truncated
    rw [threeHalves_magnitude] at truncated
    exact absurd (proper.symm.trans truncated.1) (by decide)
  have read := (decimal_literals ⟨id, id⟩ threeHalves).2.2.1 none (by decide) (.inr (by decide))
    (threeHalves_magnitude ▸ ordinary_threeHalves) (.inr kept)
  rw [nearest, threeHalves_magnitude] at read
  exact read

theorem decimal_integer_exact :
    stringToNumber ⟨id, id⟩ ("12".toList.map Char.toNat) (some 10) ≠ accepted (.flonum (ofRational 12)) := by
  intro same
  exact nomatch same

end MitScheme.Runtime.NumberParser
