import MitScheme.Runtime.NumberParser.BinaryRadices
import MitScheme.Runtime.NumberParser.Grammar

namespace MitScheme.Runtime.NumberParser

open Library Microcode Arithmetic FloatForm

theorem isInexact_given {given : Option Exactness} (inexact : given ≠ some .exact) :
    isInexact (given.or (some .implicitInexact)) = true := by
  rcases given with _ | (_ | _ | _)
  · rfl
  · exact absurd rfl inexact
  · rfl
  · rfl

theorem stringToNumber_prefixed (trig : Trigonometry) {given : Option Exactness} {marked : Option ℕ} {body s : List ℕ} {defaultRadix : ℕ}
    (known : defaultRadix ∈ [2, 8, 10, 16]) (prefixed : Prefixed given marked body s none none) :
    stringToNumber trig s (some defaultRadix) = parseTopLevel trig body given (some (marked.getD defaultRadix)) .real := by
  rw [stringToNumber_eq trig s known, prefixed.parse]
  cases marked <;> rfl

theorem parseComplex_atEnd (trig : Trigonometry) (comp : Comp) (x : Number) (exactness : Option Exactness) (radix : ℕ)
    (sign : Option Sign) : parseComplex trig comp [] x exactness radix sign = ended comp (.ok x) := rfl

variable {radix : ℕ} {sign : Option Sign}

namespace FloatForm

variable (x : FloatForm radix)

def Scaled (rest : List ℕ) : Prop := x.exponent ≠ none ∨ rest = [] ∧ x.sharps ≠ 0

def magnitude (rest : List ℕ) : ℚ := x.integer * radix ^ x.rexponent * x.base rest ^ x.bexponent

variable {x} {rest : List ℕ}

theorem base_scaled (power : radix ∈ [2, 8, 16]) (wellFormed : x.WellFormed sign) (scaled : x.Scaled rest) :
    x.base rest ∈ [2, 8, 16] := by
  have not_ten : radix ≠ 10 := by
    rintro rfl
    exact absurd power (by decide)
  unfold base
  cases exponent : x.exponent with
  | some e =>
    have other : ¬exponentMarker e.marker = true := fun marker => not_ten (wellFormed.ten e exponent marker)
    simp only [ExponentPart.base, if_neg other]
    decide
  | none =>
    have sharp := scaled.resolve_left fun some => some exponent
    simp only [if_pos sharp]
    exact power

theorem base_not_scaled (unscaled : ¬x.Scaled rest) : x.base rest = 10 := by
  have none : x.exponent = none := by
    by_contra some
    exact unscaled (.inl some)
  unfold base
  rw [none]
  exact if_neg fun sharp => unscaled (.inr sharp)

end FloatForm

theorem powerOfTwo_of_mem {n : ℕ} (power : n ∈ [2, 8, 16]) : powerOfTwo n = true := by
  have table : ∀ n ∈ [2, 8, 16], powerOfTwo n = true := by decide
  exact table n power

theorem two_pow_log2 {n : ℕ} (power : n ∈ [2, 8, 16]) : (n : ℚ) = 2 ^ log2 n := by
  have table : ∀ n ∈ [2, 8, 16], log2 n = n.log2 ∧ n = 2 ^ n.log2 := by decide
  obtain ⟨log, value⟩ := table n power
  rw [log]
  exact_mod_cast value

section
variable {exactness : Option Exactness} {n base : ℕ} {rexponent bexponent : ℤ}

theorem magnitude_powers (power : radix ∈ [2, 8, 16]) (power' : base ∈ [2, 8, 16]) :
    (n : ℚ) * radix ^ rexponent * base ^ bexponent = n * 2 ^ exponentOfTwo rexponent radix base bexponent := by
  rw [two_pow_log2 power, two_pow_log2 power', ← zpow_mul, ← zpow_mul, mul_assoc, ← two_zpow_add, exponentOfTwo, mul_comm (log2 radix),
    mul_comm (log2 base)]

theorem finishReal_scaled (power : radix ∈ [2, 8, 16]) (power' : base ∈ [2, 8, 16]) (inexact : isInexact exactness = true) :
    finishReal sign exactness n rexponent radix base bexponent = shortcut sign n rexponent radix base bexponent := by
  have not_ten : ¬(radix = 10 ∧ base = 10 ∧ isInexact exactness = true) := by
    rintro ⟨rfl, -⟩
    exact absurd power (by decide)
  unfold finishReal
  rw [if_neg not_ten, if_pos ⟨powerOfTwo_of_mem power, powerOfTwo_of_mem power', inexact⟩]

/-- The shifts that make powers of two have words for counts. -/
def Shiftable (b : ℕ) (e : ℤ) : Prop := b = 2 → e.natAbs < 2 ^ 64

theorem shiftable_of_ne {b : ℕ} (other : b ≠ 2) (e : ℤ) : Shiftable b e := fun two => absurd two other

theorem expt_eq {b : ℕ} {e : ℤ} (shiftable : Shiftable b e) : expt b e = .ok (b ^ e) :=
  if_neg fun refused => refused.2.not_gt (shiftable refused.1)

theorem expt_error {b : ℕ} {e : ℤ} (refused : ¬Shiftable b e) : expt b e = .error (.error (.badRange 2 "integer-shift-left")) := by
  obtain ⟨two, large⟩ := Classical.not_imp.mp refused
  exact if_pos ⟨two, not_lt.mp large⟩

theorem highPrecisionMethod_made (shiftable : Shiftable radix rexponent) (shiftable' : Shiftable base bexponent) :
    highPrecisionMethod sign exactness n rexponent radix base bexponent =
      .ok (applySign sign (applyExactness exactness (n * radix ^ rexponent * base ^ bexponent))) := by
  unfold highPrecisionMethod
  rw [expt_eq shiftable, expt_eq shiftable']
  rfl

theorem highPrecisionMethod_ok_iff : (∃ y, highPrecisionMethod sign exactness n rexponent radix base bexponent = .ok y) ↔
    Shiftable radix rexponent ∧ Shiftable base bexponent := by
  by_cases first : Shiftable radix rexponent
  · by_cases second : Shiftable base bexponent
    · exact iff_of_true ⟨_, highPrecisionMethod_made first second⟩ ⟨first, second⟩
    · refine iff_of_false (fun ok => ?_) fun both => second both.2
      unfold highPrecisionMethod at ok
      rw [expt_eq first, expt_error second] at ok
      exact nomatch ok.choose_spec
  · refine iff_of_false (fun ok => ?_) fun both => first both.1
    unfold highPrecisionMethod at ok
    rw [expt_error first] at ok
    exact nomatch ok.choose_spec

theorem finishReal_slow (slow : ¬(radix = 10 ∧ base = 10 ∧ isInexact exactness = true))
    (other : ¬(powerOfTwo radix = true ∧ powerOfTwo base = true ∧ isInexact exactness = true)) :
    finishReal sign exactness n rexponent radix base bexponent =
      highPrecisionMethod sign exactness n rexponent radix base bexponent := by
  unfold finishReal
  rw [if_neg slow, if_neg other]

theorem finishReal_unscaled (power : radix ∈ [2, 8, 16]) :
    finishReal sign exactness n rexponent radix 10 bexponent =
      highPrecisionMethod sign exactness n rexponent radix 10 bexponent := by
  have not_ten : ¬(radix = 10 ∧ 10 = 10 ∧ isInexact exactness = true) := by
    rintro ⟨rfl, -⟩
    exact absurd power (by decide)
  have ten : ¬(powerOfTwo radix = true ∧ powerOfTwo 10 = true ∧ isInexact exactness = true) := fun powers =>
    absurd powers.2.1 (by decide)
  exact finishReal_slow not_ten ten

end

section
variable (trig : Trigonometry) {given : Option Exactness} {marked : Option ℕ} {s : List ℕ} {defaultRadix : ℕ} {x : FloatForm radix}

structure Written (x : FloatForm radix) (sign : Option Sign) (given : Option Exactness) (defaultRadix : ℕ) (s : List ℕ) : Prop where
  known : defaultRadix ∈ [2, 8, 10, 16]
  power : radix ∈ [2, 8, 16]
  wellFormed : x.WellFormed sign
  marks : ∃ marked : Option ℕ, marked.getD defaultRadix = radix ∧
    Prefixed given marked (signSpelling sign ++ x.spelling) s none none

theorem stringToNumber_written (written : Written x sign given defaultRadix s) :
    stringToNumber trig s (some defaultRadix) =
      finishReal sign (given.or (some .implicitInexact)) x.integer x.rexponent radix (x.base []) x.bexponent >>= accepted := by
  obtain ⟨marked, read, prefixed⟩ := written.marks
  have known : radix ∈ [2, 8, 10, 16] := by
    have table : ∀ radix ∈ [2, 8, 16], radix ∈ [2, 8, 10, 16] := by decide
    exact table radix written.power
  have stops : x.Stops [] := by
    unfold FloatForm.Stops
    cases x.exponent with
    | none => exact ⟨trivial, fun _ => trivial⟩
    | some e => trivial
  have top := @parseTopLevelWith_float (parseComplex trig .real) given radix sign .real x [] known written.wellFormed stops
  rw [List.append_nil] at top
  rw [stringToNumber_prefixed trig written.known prefixed, read, parseTopLevel, top]
  rfl

theorem accepted_bind {x : Except Failure Number} {y : Number} : x >>= accepted = accepted y ↔ x = .ok y := by
  cases x with
  | error failure => exact iff_of_false (fun same => nomatch same) (fun same => nomatch same)
  | ok x =>
    rw [ok_then]
    simp [accepted]

def FloatForm.exponentOfTwo (x : FloatForm radix) : ℤ := NumberParser.exponentOfTwo x.rexponent radix (x.base []) x.bexponent

def FloatForm.ScaledOnce (x : FloatForm radix) : Prop :=
  FixnumExponents x.rexponent radix (x.base []) x.bexponent ∧ x.integer < Bignum.overflowBound ∧
    ShortcutNearest x.integer x.exponentOfTwo

/-- The literal is read as the flonum nearest to its value. -/
def ReadNearest (x : FloatForm radix) (sign : Option Sign) (defaultRadix : ℕ) (s : List ℕ) : Prop :=
  stringToNumber trig s (some defaultRadix) = accepted (.flonum (Flonum.ofMagnitude (sign = some .minus) (x.magnitude [])))

theorem readNearest_iff_shortcut (written : Written x sign given defaultRadix s) (inexact : given ≠ some .exact) (scaled : x.Scaled []) :
    ReadNearest trig x sign defaultRadix s ↔ shortcut sign x.integer x.rexponent radix (x.base []) x.bexponent =
      .ok (.flonum (Flonum.ofMagnitude (sign = some .minus) (x.integer * 2 ^ x.exponentOfTwo))) := by
  have base := base_scaled written.power written.wellFormed scaled
  have value : x.magnitude [] = x.integer * 2 ^ x.exponentOfTwo := magnitude_powers written.power base
  rw [ReadNearest, value, stringToNumber_written trig written, accepted_bind,
    finishReal_scaled written.power base (isInexact_given inexact)]

section
variable (written : Written x sign given defaultRadix s)
include written

theorem unscaled_refused (unscaled : ¬x.Scaled []) (refused : ¬Shiftable radix x.rexponent) :
    ¬ReadNearest trig x sign defaultRadix s := by
  rw [ReadNearest, stringToNumber_written trig written, base_not_scaled unscaled, finishReal_unscaled written.power,
    accepted_bind]
  exact fun made => refused (highPrecisionMethod_ok_iff.mp ⟨_, made⟩).1

variable (inexact : given ≠ some .exact)
include inexact

theorem scaled_nearest (below : x.magnitude [] < binary64.overflow) (scaled : x.Scaled []) (once : x.ScaledOnce) :
    ReadNearest trig x sign defaultRadix s := by
  have base := base_scaled written.power written.wellFormed scaled
  have value : x.magnitude [] = x.integer * 2 ^ x.exponentOfTwo := magnitude_powers written.power base
  rw [value] at below
  obtain ⟨fixnums, small, nearest⟩ := once
  exact (readNearest_iff_shortcut trig written inexact scaled).mpr
    (shortcut_nearest sign written.power base below fixnums small nearest)

theorem scaled_nearest_iff (below : x.magnitude [] < binary64.overflow) (scaled : x.Scaled []) (counted : Counted x.integer) :
    ReadNearest trig x sign defaultRadix s ↔ x.ScaledOnce := by
  have base := base_scaled written.power written.wellFormed scaled
  have value : x.magnitude [] = x.integer * 2 ^ x.exponentOfTwo := magnitude_powers written.power base
  rw [value] at below
  exact (readNearest_iff_shortcut trig written inexact scaled).trans
    (shortcut_nearest_iff sign written.power base counted below)

theorem unscaled_converted (unscaled : ¬x.Scaled []) (shiftable : Shiftable radix x.rexponent) :
    stringToNumber trig s (some defaultRadix) = accepted (applySign sign (.flonum (ratToInexact (x.magnitude [])))) := by
  rw [stringToNumber_written trig written, magnitude, base_not_scaled unscaled,
    finishReal_unscaled written.power, highPrecisionMethod_made shiftable (shiftable_of_ne (by decide) _), ok_then, applyExactness,
    if_pos (isInexact_given inexact)]
  rfl

end

theorem magnitude_nonneg : 0 ≤ x.magnitude [] :=
  mul_nonneg (mul_nonneg (Nat.cast_nonneg _) (zpow_nonneg (Nat.cast_nonneg _) _)) (zpow_nonneg (Nat.cast_nonneg _) _)

/-- The exponent and the lengths in the conversion of the exact value fit in the types that the microcode has for them. -/
structure FloatForm.Unwrapped (x : FloatForm radix) : Prop where
  exponent : x.magnitude [] = 0 ∨ 52 - 2 ^ 31 ≤ Int.log 2 (binary64.toDigits (x.magnitude []))
  lengths : ¬(Wraps (x.magnitude []).num ∧ Wraps (x.magnitude []).den)

/-- The exact value is made, and is not an integer that the microcode truncates, nor rounded twice. -/
def FloatForm.ConvertedOnce (x : FloatForm radix) : Prop :=
  Shiftable radix x.rexponent ∧ ¬TruncatedValue (x.magnitude []) ∧ ¬binary64.DoubleRounds (x.magnitude [])

theorem unscaled_nearest_iff (written : Written x sign given defaultRadix s) (inexact : given ≠ some .exact)
    (below : x.magnitude [] < binary64.overflow) (unscaled : ¬x.Scaled []) (unwrapped : x.Unwrapped) :
    ReadNearest trig x sign defaultRadix s ↔ x.ConvertedOnce := by
  by_cases shiftable : Shiftable radix x.rexponent
  swap
  · exact iff_of_false (unscaled_refused trig written unscaled shiftable) fun once => shiftable once.1
  have nonneg := @magnitude_nonneg radix x
  have same := abs_of_nonneg nonneg
  have nearest := @ratToInexact_nearest_iff (x.magnitude []) (same.symm ▸ below) (same.symm ▸ unwrapped.exponent) unwrapped.lengths
  rw [same] at nearest
  have signed : ∀ y, applySign sign (.flonum y) = .flonum (.ofMagnitude (sign = some .minus) (x.magnitude [])) ↔
      y = .ofRational (x.magnitude []) := by
    intro y
    rw [← applySign_nearest, applySign_injective, ofRational_nonneg nonneg]
  rw [ReadNearest, unscaled_converted trig written inexact unscaled shiftable, accepted, accepted, Except.ok.injEq,
    Option.some.injEq, Value.real.injEq, signed, nearest, FloatForm.ConvertedOnce, and_iff_right shiftable]
  rfl

/-- A literal with an exponent of two is read as the nearest flonum where the shortcut rounds its digits only once.
Without one it is converted from the exact value. -/
theorem binary_literals (written : Written x sign given defaultRadix s) (inexact : given ≠ some .exact)
    (below : x.magnitude [] < binary64.overflow) :
    (x.Scaled [] → (x.ScaledOnce → ReadNearest trig x sign defaultRadix s) ∧
        (Counted x.integer → ReadNearest trig x sign defaultRadix s → x.ScaledOnce)) ∧
      (¬x.Scaled [] → (x.Unwrapped ∧ x.ConvertedOnce → ReadNearest trig x sign defaultRadix s) ∧
        (x.Unwrapped → ReadNearest trig x sign defaultRadix s → x.ConvertedOnce)) :=
  ⟨fun scaled => ⟨scaled_nearest trig written inexact below scaled, fun counted =>
      (scaled_nearest_iff trig written inexact below scaled counted).mp⟩,
    fun unscaled => ⟨fun ⟨unwrapped, once⟩ => (unscaled_nearest_iff trig written inexact below unscaled unwrapped).mpr once,
      fun unwrapped => (unscaled_nearest_iff trig written inexact below unscaled unwrapped).mp⟩⟩

end

theorem power_p : 'p'.toNat ∈ exponentMarkers ++ powerMarkers := by decide

theorem digit_one : charToDigit '1'.toNat 10 = some 1 := by decide

def timesTwo : AnyExponent := ⟨'p'.toNat, power_p, none, ⟨'1'.toNat, 1, digit_one⟩, []⟩

def threeInHex : FloatForm 16 := ⟨⟨[⟨'1'.toNat, 1, by decide⟩], 0⟩, some ⟨[⟨'8'.toNat, 8, by decide⟩], 0⟩, some timesTwo⟩

theorem threeInHex_written : Written threeInHex none none 10 ("#x1.8p1".toList.map Char.toNat) where
  known := by decide
  power := by decide
  wellFormed := {
    parts := .inl (Option.some_ne_none _)
    leading := fun none => nomatch none
    sharp := absurd rfl
    ten := fun e is marker => by
      rw [← Option.some.inj is] at marker
      exact absurd marker (by decide)
    two := fun _ _ _ _ => rfl }
  marks := by
    have no_sharp : '1'.toNat ≠ '#'.toNat := by decide
    exact ⟨some 16, rfl, .radix (by decide) (.body no_sharp)⟩

theorem threeInHex_magnitude : threeInHex.magnitude [] = 3 := by
  have integer : threeInHex.integer = 24 := by decide
  have rexponent : threeInHex.rexponent = -1 := rfl
  have bexponent : threeInHex.bexponent = 1 := rfl
  have base : threeInHex.base [] = 2 := by decide
  rw [magnitude, integer, rexponent, bexponent, base]
  norm_num

theorem threeInHex_scaledOnce : threeInHex.ScaledOnce := by
  have whole : ¬Truncated 24 := not_truncated_of_fixnum (by decide)
  have normal : ¬binary64.DoubleRounds ((24 : ℕ) * 2 ^ (-3 : ℤ)) := by
    rintro ⟨below, -⟩
    rw [log_eq (e := 1) (by norm_num) (by norm_num)] at below
    exact absurd below (by decide)
  refine ⟨⟨?_, ?_, ?_, ?_, ?_⟩, ?_, ?_⟩
  · exact isFixnum_of_bounds (by decide) (by decide)
  · exact isFixnum_of_bounds (by decide) (by decide)
  · exact isFixnum_of_bounds (by decide) (by decide)
  · exact isFixnum_of_bounds (by decide) (by decide)
  · change isFixnum threeInHex.exponentOfTwo = true
    exact isFixnum_of_bounds (by decide) (by decide)
  · exact Bignum.small_of_lt (by decide)
  · refine ⟨fun _ => ?_, fun truncated => absurd truncated whole⟩
    exact normal

theorem binary_literals_three : stringToNumber ⟨id, id⟩ ("#x1.8p1".toList.map Char.toNat) (some 10) =
    accepted (.flonum (Flonum.ofMagnitude false 3)) := by
  have below : threeInHex.magnitude [] < binary64.overflow := by
    rw [threeInHex_magnitude]
    have order : (3 : ℚ) < 2 ^ (2 : ℤ) := by norm_num
    exact (order.trans (two_zpow_lt (by decide))).trans_le overflow_large
  have read := ((binary_literals ⟨id, id⟩ threeInHex_written (by decide) below).1 (.inl (Option.some_ne_none _))).1
    threeInHex_scaledOnce
  rw [ReadNearest, threeInHex_magnitude] at read
  exact read

/-- Digits that are one above a half of the least flonum are rounded to a half of it first, and then to zero. -/
theorem roundsTwice : ¬ShortcutNearest (2 ^ 54 + 1) (-1129) := by
  have whole : ¬Truncated (2 ^ 54 + 1) := not_truncated_of_fixnum (by decide)
  have small : 2 ^ 54 + 1 < Bignum.overflowBound := Bignum.small_of_lt (by decide)
  intro nearest
  have once := nearest.whole whole
  rw [if_pos (Flonum.toCInt_eq (by decide) (by decide)), ← scaled_whole_iff small] at once
  have log : Int.log 2 ((2 ^ 54 + 1 : ℕ) : ℚ) = 54 := log_eq (by norm_num) (by norm_num)
  have rounded : roundHalfEven (((2 ^ 54 + 1 : ℕ) : ℚ) / 2 ^ (2 : ℤ)) = 2 ^ 52 := by
    rw [roundHalfEven_eq_iff]
    exact .inl ⟨by norm_num, by norm_num⟩
  have digits : binary64.toDigits ((2 ^ 54 + 1 : ℕ) : ℚ) = 2 ^ (54 : ℤ) := by
    rw [BinaryFormat.toDigits, log, show (54 : ℤ) - (binary64.trailing : ℤ) = 2 from rfl, rounded]
    norm_num
  have below : binary64.round (binary64.toDigits ((2 ^ 54 + 1 : ℕ) : ℚ) * 2 ^ (-1129 : ℤ)) = 0 := by
    rw [digits, ← two_zpow_add, vanishes_iff]
    exact two_zpow_le (by decide)
  rw [below, eq_comm, vanishes_iff] at once
  have above : (2 : ℚ) ^ (-1075 : ℤ) < ((2 ^ 54 + 1 : ℕ) : ℚ) * 2 ^ (-1129 : ℤ) := by
    rw [show (-1075 : ℤ) = 54 + -1129 from rfl, two_zpow_add]
    exact mul_lt_mul_of_pos_right (by norm_num) (two_zpow_pos _)
  exact absurd once (above.not_ge)

theorem digit_two : charToDigit '2'.toNat 10 = some 2 := by decide

theorem digit_nine : charToDigit '9'.toNat 10 = some 9 := by decide

def minus1129 : AnyExponent :=
  ⟨'p'.toNat, power_p, some .minus, ⟨'1'.toNat, 1, digit_one⟩,
    [⟨'1'.toNat, 1, digit_one⟩, ⟨'2'.toNat, 2, digit_two⟩, ⟨'9'.toNat, 9, digit_nine⟩]⟩

def aboveHalf : FloatForm 16 :=
  ⟨⟨⟨'4'.toNat, 4, by decide⟩ :: (List.replicate 12 ⟨'0'.toNat, 0, by decide⟩ ++ [⟨'1'.toNat, 1, by decide⟩]), 0⟩, none, some minus1129⟩

theorem aboveHalf_written : Written aboveHalf none none 16 ("40000000000001p-1129".toList.map Char.toNat) where
  known := by decide
  power := by decide
  wellFormed := {
    parts := .inr (Option.some_ne_none _)
    leading := fun none => nomatch none
    sharp := absurd rfl
    ten := fun e is marker => by
      rw [← Option.some.inj is] at marker
      exact absurd marker (by decide)
    two := fun _ _ _ pointed => absurd rfl pointed }
  marks := by
    have no_sharp : '4'.toNat ≠ '#'.toNat := by decide
    exact ⟨none, rfl, .body no_sharp⟩

theorem binary_literal_rounded_twice :
    stringToNumber ⟨id, id⟩ ("40000000000001p-1129".toList.map Char.toNat) (some 16) ≠
      accepted (.flonum (Flonum.ofRational ((2 ^ 54 + 1 : ℕ) * 2 ^ (-1129 : ℤ)))) := by
  have integer : aboveHalf.integer = 2 ^ 54 + 1 := by decide
  have rexponent : aboveHalf.rexponent = 0 := rfl
  have bexponent : aboveHalf.bexponent = -1129 := by decide
  have base : aboveHalf.base [] = 2 := by decide
  have value : aboveHalf.magnitude [] = (2 ^ 54 + 1 : ℕ) * 2 ^ (-1129 : ℤ) := by
    rw [magnitude, integer, rexponent, bexponent, base, zpow_zero, mul_one, Nat.cast_two]
  have small : 2 ^ 54 + 1 < Bignum.overflowBound := Bignum.small_of_lt (by decide)
  have below : aboveHalf.magnitude [] < binary64.overflow := by
    rw [value]
    calc ((2 ^ 54 + 1 : ℕ) : ℚ) * 2 ^ (-1129 : ℤ) ≤ (2 ^ 54 + 1 : ℕ) * 1 :=
          mul_le_mul_of_nonneg_left (zpow_le_one_of_nonpos₀ (by norm_num) (by decide)) (Nat.cast_nonneg _)
      _ < binary64.overflow := by
        rw [mul_one]
        exact overflow_nat small
  have counted : Counted aboveHalf.integer := by
    rw [integer]
    exact counted_of_small (small.trans_le overflowBound_bounds.2)
  have read := scaled_nearest_iff ⟨id, id⟩ aboveHalf_written (by decide) below (.inl (Option.some_ne_none _)) counted
  have nonneg : (0 : ℚ) ≤ (2 ^ 54 + 1 : ℕ) * 2 ^ (-1129 : ℤ) := value ▸ magnitude_nonneg
  rw [ReadNearest, value] at read
  rw [ofRational_nonneg nonneg]
  intro same
  obtain ⟨-, -, nearest⟩ := read.mp same
  exact roundsTwice nearest

end MitScheme.Runtime.NumberParser
