import MitScheme.Runtime.Ieee754.Decomposition

/-!
Fields put together and taken apart again are the same fields, and a flonum taken apart and put
together again is the same flonum.
-/

namespace MitScheme.Runtime.Ieee754

open Library Arithmetic Flonum BinaryFormat
open Nat (div_eq_of_lt lt_succ_iff mod_lt two_pow_pos)

theorem extractBitField_eq (size position integer : ℕ) :
    extractBitField size position integer = integer / 2 ^ position % 2 ^ size := by
  unfold extractBitField
  rw [Nat.and_comm, land_ones, Nat.shiftRight_eq_div_pow]

theorem replaceBitField_above {position integer bit : ℕ} (below : integer < 2 ^ position) (one : bit ≤ 1) :
    replaceBitField 1 position integer bit = bit * 2 ^ position + integer := by
  unfold replaceBitField
  rw [extractBitField_eq, land_mask, div_eq_of_lt below, Nat.shiftLeft_eq]
  have small : bit / 2 ^ 0 % 2 ^ 1 = bit := by
    omega
  rw [small, Nat.zero_mod, zero_mul]
  exact lor_add _ _ _ below

def nanWord (quiet : Bool) (payload : ℕ) : ℕ := 0x7FF * 2 ^ 52 + (quiet.toNat * 2 ^ 51 + payload)

theorem makeNan_eq {sign quiet : Bool} {payload : ℕ} (small : payload < 2 ^ 51) (proper : quiet = true ∨ payload ≠ 0) :
    ∃ x, makeNan sign quiet payload = .ok x ∧ x.negative = sign ∧ x.word = nanWord quiet payload := by
  have filled : ¬(quiet = false ∧ payload = 0) := by
    rintro ⟨silent, none⟩
    rcases proper with loud | some
    · rw [silent] at loud
      cases loud
    · exact some none
  unfold makeNan
  rw [dif_pos small, if_neg filled]
  refine ⟨_, rfl, rfl, ?_⟩
  show 0x7FF * 2 ^ 52 ||| quiet.toNat * 2 ^ 51 ||| payload = _
  have bit := quiet.toNat_le
  rw [Nat.or_assoc, lor_add _ _ _ small]
  exact lor_add _ _ _ (by omega)

theorem decomposeNan_eq {x : Flonum} {quiet : Bool} {payload : ℕ} (small : payload < 2 ^ 51)
    (word : x.word = nanWord quiet payload) :
    decomposeNan (.flonum x) = .ok (.ifNan x.negative.toNat quiet.toNat payload) := by
  have bit := quiet.toNat_le
  have exponent : x.word &&& 0x7FF * 2 ^ 52 = 0x7FF * 2 ^ 52 := by
    have field := land_mask x.word 11 52
    rw [show 2 ^ 11 - 1 = 0x7FF from rfl] at field
    rw [field, word]
    unfold nanWord
    omega
  have quiet_bit : x.word &&& 2 ^ 51 = quiet.toNat * 2 ^ 51 := by
    have field := land_mask x.word 1 51
    rw [show (2 ^ 1 - 1) * 2 ^ 51 = 2 ^ 51 from rfl] at field
    rw [field, word]
    unfold nanWord
    omega
  have payload_bits : x.word &&& (2 ^ 51 - 1) = payload := by
    rw [land_ones, word]
    unfold nanWord
    omega
  have loud : x.nanQuiet = .ok quiet := by
    unfold nanQuiet
    rw [if_pos exponent, quiet_bit]
    cases quiet <;> rfl
  have carried : x.nanPayload = .ok payload := by
    unfold nanPayload
    rw [if_pos exponent, payload_bits]
  simp [decomposeNan, loud, carried, bind, Except.bind]

theorem isNan_nanWord {x : Flonum} {quiet : Bool} {payload : ℕ} (proper : quiet = true ∨ payload ≠ 0)
    (word : x.word = nanWord quiet payload) : x.isNan = true := by
  apply decide_eq_true
  rw [infinity_binary64, word]
  unfold nanWord
  rcases proper with loud | some
  · rw [loud, Bool.toNat_true]
    omega
  · omega

structure InRange (exponentBits trailingBits : ℕ) (fields : Fields) : Prop where
  sign : fields.sign ≤ 1
  exponent_nonneg : 0 ≤ fields.biasedExponent
  exponent_lt : fields.biasedExponent < 2 ^ exponentBits
  trailing_lt : fields.trailingSignificand < 2 ^ trailingBits

structure Widths (exponentBits : ℕ) (g : BinaryFormat) : Prop where
  aligned : (exponentBits + (g.trailing + 1)) % 32 = 0
  emax : (2 : ℤ) ^ (exponentBits - 1) - 1 = g.emax

structure Interchange (exponentBits : ℕ) (g : BinaryFormat) : Prop where
  aligned : (exponentBits + (g.trailing + 1)) % 32 = 0
  emax : (2 : ℤ) ^ (exponentBits - 1) - 1 = g.emax
  last : (2 : ℤ) ^ exponentBits = 2 * g.emax + 2
  narrow : Narrow g
  payload : 0 < g.trailing

/-- The flonum that a composed number is, bit for bit unless it is an exact rational. -/
def Denotes : Number → Flonum → Prop
  | .flonum y, x => y = x
  | .exact q, x => x.Is q ∧ q ≠ 0

variable {exponentBits : ℕ} {g : BinaryFormat} {sign trailing : ℕ} {b e : ℤ}

theorem Interchange.widths (format : Interchange exponentBits g) : Widths exponentBits g := ⟨format.aligned, format.emax⟩

theorem Widths.parameters (format : Widths exponentBits g) : ieee754BinaryParameters exponentBits (g.trailing + 1) =
    .ok ⟨2, g.emin, g.emax, g.emax, -g.emax, g.emax + 1⟩ := by
  unfold ieee754BinaryParameters assert
  rw [if_pos format.aligned]
  show Except.ok (binaryParameters exponentBits) = _
  unfold binaryParameters
  dsimp only
  rw [format.emax]
  congr 2
  ring

theorem Interchange.decompose (format : Interchange exponentBits g) {x : Number} {decomposition : Decomposition}
    (found : decomposeIeee754 x 2 g.emax (g.trailing + 1) = .ok decomposition) :
    decomposeIeee754Binary x exponentBits (g.trailing + 1) =
      fieldsOf ⟨2, g.emin, g.emax, g.emax, -g.emax, g.emax + 1⟩ g.trailing decomposition := by
  unfold decomposeIeee754Binary
  rw [format.widths.parameters]
  show (decomposeIeee754 x 2 g.emax (g.trailing + 1) >>= fieldsOf _ g.trailing) = _
  rw [found]
  rfl

theorem fieldsOf_normal (lower : g.emin ≤ e) (upper : e ≤ g.emax) (small : trailing < 2 ^ g.trailing) :
    fieldsOf ⟨2, g.emin, g.emax, g.emax, -g.emax, g.emax + 1⟩ g.trailing (.ifNormal sign e (2 ^ g.trailing + trailing)) =
      .ok ⟨sign, e + g.emax, trailing⟩ := by
  have passes : assert (g.emin ≤ e ∧ e ≤ g.emax) "(<= emin exponent emax)" = .ok () := if_pos ⟨lower, upper⟩
  have leading : 1 = (2 ^ g.trailing + trailing) >>> g.trailing := by
    rw [Nat.shiftRight_eq_div_pow, Nat.add_div_left _ (two_pow_pos _), div_eq_of_lt small]
  have passes' : assert (1 = (2 ^ g.trailing + trailing) >>> g.trailing) "(= 1 (shift-right significand t))" = .ok () :=
    if_pos leading
  simp only [fieldsOf, passes, passes', bind, Except.bind]
  rw [extractBitField_eq, pow_zero, Nat.div_one, Nat.add_mod_left, Nat.mod_eq_of_lt small]

theorem fieldsOf_subnormal (small : trailing < 2 ^ g.trailing) :
    fieldsOf ⟨2, g.emin, g.emax, g.emax, -g.emax, g.emax + 1⟩ g.trailing (.ifSubnormal sign trailing) =
      .ok ⟨sign, 0, trailing⟩ := by
  have passes : assert (0 = trailing >>> g.trailing) "(= 0 (shift-right significand t))" = .ok () :=
    if_pos (by rw [Nat.shiftRight_eq_div_pow, div_eq_of_lt small])
  simp only [fieldsOf, passes, bind, Except.bind]
  ring_nf

def signed (sign : ℕ) (q : ℚ) : ℚ := (-1) ^ sign * q

theorem signed_spec {q : ℚ} (small : sign ≤ 1) (positive : 0 < q) :
    |signed sign q| = q ∧ signOf (signed sign q) = sign ∧ signed sign q ≠ 0 := by
  unfold signed signOf
  rcases Nat.le_one_iff_eq_zero_or_eq_one.mp small with rfl | rfl
  · rw [pow_zero, one_mul]
    exact ⟨abs_of_pos positive, if_neg (positive.le.not_gt), positive.ne'⟩
  · rw [pow_one, neg_one_mul, abs_neg]
    exact ⟨abs_of_pos positive, if_pos (neg_neg_iff_pos.mpr positive), neg_ne_zero.mpr positive.ne'⟩

theorem denotes_exact {q : ℚ} (nonzero : q ≠ 0) (fits : binary64.Fits |q|) : Denotes (.exact q) (ofRational q) :=
  ⟨ofRational_is fits, nonzero⟩

theorem Widths.compose_normal (format : Widths exponentBits g) (lower : 1 ≤ b) (upper : b ≤ 2 * g.emax)
    (small : trailing < 2 ^ g.trailing) : composeIeee754Binary ⟨sign, b, trailing⟩ exponentBits (g.trailing + 1) =
    .ok (.exact (signed sign (g.scaled (2 ^ g.trailing + trailing) (b - g.emax)))) := by
  have least : g.emin = 1 - g.emax := rfl
  have passes : assert (g.emin ≤ b - g.emax ∧ b - g.emax ≤ g.emax) "(<= emin exponent emax)" = .ok () :=
    if_pos ⟨by omega, by omega⟩
  have digits := @replaceBitField_above g.trailing trailing 1 small le_rfl
  rw [one_mul] at digits
  unfold composeIeee754Binary
  rw [format.parameters]
  simp only [bind, Except.bind, Nat.add_sub_cancel]
  rw [if_neg (by omega), if_neg (by omega), passes, digits]
  have exponent : b - g.emax - (((g.trailing + 1 : ℕ) : ℤ) - 1) = b - g.emax - g.trailing := by
    push_cast
    ring
  simp [composeIeee754Normal, signFactor, expt, Number.mul, signed, scaled]

theorem Widths.compose_subnormal (format : Widths exponentBits g) (some_digit : trailing ≠ 0) :
    composeIeee754Binary ⟨sign, 0, trailing⟩ exponentBits (g.trailing + 1) =
      .ok (.exact (signed sign (g.scaled trailing g.emin))) := by
  unfold composeIeee754Binary
  rw [format.parameters]
  simp only [bind, Except.bind]
  rw [if_pos (by ring), if_neg some_digit]
  have exponent : g.emin - (((g.trailing + 1 : ℕ) : ℤ) - 1) = g.emin - g.trailing := by
    push_cast
    ring
  simp [composeIeee754Subnormal, signFactor, expt, Number.mul, signed, scaled]

theorem Interchange.decompose_normal (format : Interchange exponentBits g) {x : Number} (one : sign ≤ 1)
    (lower : 1 ≤ b) (upper : b ≤ 2 * g.emax) (small : trailing < 2 ^ g.trailing)
    (hx : x.Is (signed sign (g.scaled (2 ^ g.trailing + trailing) (b - g.emax)))) :
    decomposeIeee754Binary x exponentBits (g.trailing + 1) = .ok ⟨sign, b, trailing⟩ := by
  have least : g.emin = 1 - g.emax := rfl
  obtain ⟨magnitude, same_sign, nonzero⟩ := signed_spec one
    (@scaled_pos g (2 ^ g.trailing + trailing) (b - g.emax) (by omega))
  have holds : g.Holds |signed sign (g.scaled (2 ^ g.trailing + trailing) (b - g.emax))| (2 ^ g.trailing + trailing)
      (b - g.emax) :=
    ⟨magnitude, by omega, by omega, by omega, .inr (Nat.le_add_right _ _)⟩
  rw [format.decompose (Ieee754.decompose_normal format.narrow hx nonzero holds (Nat.le_add_right _ _)), same_sign]
  rw [fieldsOf_normal (by omega) (by omega) small, sub_add_cancel]

theorem Interchange.decompose_subnormal (format : Interchange exponentBits g) {x : Number} (one : sign ≤ 1)
    (some_digit : trailing ≠ 0) (small : trailing < 2 ^ g.trailing)
    (hx : x.Is (signed sign (g.scaled trailing g.emin))) :
    decomposeIeee754Binary x exponentBits (g.trailing + 1) = .ok ⟨sign, 0, trailing⟩ := by
  have least : g.emin = 1 - g.emax := rfl
  have wide := g.wide
  obtain ⟨magnitude, same_sign, nonzero⟩ := signed_spec one
    (@scaled_pos g trailing g.emin (pos_of_ne_zero some_digit))
  have holds : g.Holds |signed sign (g.scaled trailing g.emin)| trailing g.emin :=
    ⟨magnitude, by omega, le_rfl, by omega, .inl rfl⟩
  rw [format.decompose (Ieee754.decompose_subnormal format.narrow hx nonzero holds (pos_of_ne_zero some_digit)
    small), same_sign]
  exact fieldsOf_subnormal small

theorem signFactor_inexact (one : sign ≤ 1) : (ratToInexact ((-1) ^ sign)).isFinite = true ∧
    (ratToInexact ((-1) ^ sign)).negative = decide (sign = 1) ∧ (ratToInexact ((-1) ^ sign)).word ≠ 0 := by
  have unit_fits : binary64.Fits |(1 : ℚ)| := by
    have power := @fits_two_zpow 0 (by decide) (by decide)
    rwa [zpow_zero] at power
  have is : (ratToInexact ((-1) ^ sign)).Is ((-1) ^ sign) := by
    apply ratToInexact_is
    rwa [abs_pow, abs_neg, abs_one, one_pow]
  refine ⟨is.1, ?_, ?_⟩
  · rcases Nat.le_one_iff_eq_zero_or_eq_one.mp one with rfl | rfl
    · cases same : (ratToInexact 1).negative with
      | false => rfl
      | true =>
        have nonpos := is.nonpos same
        norm_num at nonpos
    · cases same : (ratToInexact (-1)).negative with
      | false =>
        have nonneg := is.nonneg same
        norm_num at nonneg
      | true => rfl
  · intro none
    have magnitude := is.magnitude
    rw [magnitude_eq_zero.mpr none, abs_pow, abs_neg, abs_one] at magnitude
    norm_num at magnitude

theorem composeIeee754Zero_eq (one : sign ≤ 1) : composeIeee754Zero sign = .flonum (zero (decide (sign = 1))) := by
  obtain ⟨finite, negative, -⟩ := signFactor_inexact one
  have nonzero : ((-1 : ℚ) ^ sign) ≠ 0 := pow_ne_zero _ (by norm_num)
  have round_zero : binary64.round 0 = 0 := if_pos le_rfl
  have magnitude_zero : binary64.magnitude 0 = 0 := magnitude_eq_zero.mpr rfl
  simp only [composeIeee754Zero, signFactor, Number.mul, nonzero, if_false]
  unfold mul
  rw [isNan_of_finite finite, isInfinite_of_finite finite, isNan_of_finite (zero_is false).1,
    isInfinite_of_finite (zero_is false).1, negative]
  simp [ofMagnitude, zero, magnitude_zero, round_zero]

theorem composeIeee754Infinity_eq (one : sign ≤ 1) :
    composeIeee754Infinity sign = .flonum (infinite (decide (sign = 1))) := by
  obtain ⟨finite, negative, some_word⟩ := signFactor_inexact one
  obtain ⟨isNan, isInfinite, -⟩ := infinite_class false
  have nonzero : ((-1 : ℚ) ^ sign) ≠ 0 := pow_ne_zero _ (by norm_num)
  have large : binary64.infinity ≠ 0 := by
    rw [infinity_binary64]
    omega
  simp only [composeIeee754Infinity, signFactor, Number.mul, nonzero, if_false]
  unfold mul
  rw [isNan_of_finite finite, isNan, isInfinite, negative]
  simp [some_word, large, infinite]

theorem sign_toNat (one : sign ≤ 1) : (decide (sign = 1)).toNat = sign := by
  rcases Nat.le_one_iff_eq_zero_or_eq_one.mp one with rfl | rfl <;> rfl

theorem Widths.compose_zero (format : Widths exponentBits g) (one : sign ≤ 1) :
    composeIeee754Binary ⟨sign, 0, 0⟩ exponentBits (g.trailing + 1) =
      .ok (.flonum (zero (decide (sign = 1)))) := by
  unfold composeIeee754Binary
  rw [format.parameters]
  simp only [bind, Except.bind]
  rw [if_pos (by ring), if_pos trivial, composeIeee754Zero_eq one]

theorem Widths.compose_infinite (format : Widths exponentBits g) (one : sign ≤ 1) :
    composeIeee754Binary ⟨sign, 2 * g.emax + 1, 0⟩ exponentBits (g.trailing + 1) =
      .ok (.flonum (infinite (decide (sign = 1)))) := by
  unfold composeIeee754Binary
  rw [format.parameters]
  simp only [bind, Except.bind]
  rw [if_neg (by omega), if_pos (by ring), if_pos trivial, composeIeee754Infinity_eq one]

theorem nan_parts (format : Interchange exponentBits g) (some_digit : trailing ≠ 0) (small : trailing < 2 ^ g.trailing) :
    ∃ (quiet : Bool) (payload : ℕ), extractBitField 1 (g.trailing - 1) trailing = quiet.toNat ∧
      extractBitField (g.trailing - 1) 0 trailing = payload ∧ payload < 2 ^ (g.trailing - 1) ∧
      payload < 2 ^ 51 ∧ trailing = quiet.toNat * 2 ^ (g.trailing - 1) + payload ∧ (quiet = true ∨ payload ≠ 0) := by
  have payload_lt := mod_lt trailing (two_pow_pos (g.trailing - 1))
  have width := format.payload
  have narrow := format.narrow.trailing
  have split := Nat.div_add_mod trailing (2 ^ (g.trailing - 1))
  have top : trailing / 2 ^ (g.trailing - 1) < 2 := by
    rw [Nat.div_lt_iff_lt_mul (two_pow_pos _), ← pow_succ', Nat.sub_add_cancel width]
    exact small
  refine ⟨decide (trailing / 2 ^ (g.trailing - 1) = 1), trailing % 2 ^ (g.trailing - 1), ?_, ?_, payload_lt, ?_, ?_, ?_⟩
  · rw [extractBitField_eq, pow_one, Nat.mod_eq_of_lt top, sign_toNat (lt_succ_iff.mp top)]
  · rw [extractBitField_eq, pow_zero, Nat.div_one]
  · exact payload_lt.trans_le (Nat.pow_le_pow_right (by decide) (by omega))
  · rw [sign_toNat (lt_succ_iff.mp top), mul_comm]
    exact split.symm
  · rcases Nat.le_one_iff_eq_zero_or_eq_one.mp (lt_succ_iff.mp top) with silent | loud
    · right
      intro none
      rw [silent, none] at split
      exact some_digit split.symm
    · exact .inl (decide_eq_true loud)

theorem Interchange.compose_nan (format : Interchange exponentBits g) (one : sign ≤ 1) (some_digit : trailing ≠ 0)
    (small : trailing < 2 ^ g.trailing) : ∃ x quiet payload,
    composeIeee754Binary ⟨sign, 2 * g.emax + 1, trailing⟩ exponentBits (g.trailing + 1) = .ok (.flonum x) ∧ x.negative =
    decide (sign = 1) ∧ x.word = nanWord quiet payload ∧ trailing = quiet.toNat * 2 ^ (g.trailing - 1) + payload ∧
    decomposeIeee754Binary (.flonum x) exponentBits (g.trailing + 1) = .ok ⟨sign, 2 * g.emax + 1, trailing⟩ := by
  obtain ⟨quiet, payload, quiet_bit, payload_bits, below, short, whole, proper⟩ := nan_parts format some_digit small
  obtain ⟨x, made, negative, word⟩ := @makeNan_eq (decide (sign = 1)) quiet payload short proper
  refine ⟨x, quiet, payload, ?_, negative, word, whole, ?_⟩
  · have loud : decide (quiet.toNat = 1) = quiet := by cases quiet <;> rfl
    unfold composeIeee754Binary
    rw [format.widths.parameters]
    simp only [bind, Except.bind, Nat.add_sub_cancel]
    rw [if_neg (by omega), if_pos (by ring), if_neg some_digit, quiet_bit, payload_bits]
    simp [composeIeee754Nan, made, bind, Except.bind]
  · have found := @decompose_nan 2 (g.trailing + 1) g.emax x (isNan_nanWord proper word)
    rw [decomposeNan_eq short word] at found
    rw [format.decompose found, negative, sign_toNat one]
    have bit := quiet.toNat_le
    have passes : assert (¬(quiet.toNat = 0 ∧ payload = 0)) "(not (and (zero? quiet) (zero? payload)))" = .ok () := by
      apply if_pos
      rintro ⟨silent, none⟩
      rcases proper with loud | some
      · rw [loud] at silent
        cases silent
      · exact some none
    have passes' : assert (extractBitField 1 (g.trailing - 1) payload = 0)
        "(zero? (extract-bit-field 1 (- t 1) payload))" = .ok () :=
      if_pos (by rw [extractBitField_eq, div_eq_of_lt below, Nat.zero_mod])
    simp only [fieldsOf, passes, passes', bind, Except.bind]
    rw [replaceBitField_above below bit, ← whole]
    ring_nf

/-- The fields of a format and the numbers that they are put together to. -/
def RoundTrip (exponentBits precision : ℕ) (fields : Fields) : Prop :=
  ∃ r, composeIeee754Binary fields exponentBits precision = .ok r ∧
    decomposeIeee754Binary r exponentBits precision = .ok fields ∧ (∃ x, Denotes r x) ∧
    ∀ x, Denotes r x → decomposeIeee754Binary (.flonum x) exponentBits precision = .ok fields

theorem Interchange.round_trip (format : Interchange exponentBits g) {fields : Fields}
    (range : InRange exponentBits g.trailing fields) : RoundTrip exponentBits (g.trailing + 1) fields := by
  obtain ⟨sign, b, trailing⟩ := fields
  obtain ⟨one, nonneg, below, small⟩ := range
  dsimp only at one nonneg below small
  have last := format.last
  have least : g.emin = 1 - g.emax := rfl
  have emax := format.narrow.emax
  have flonum_only : ∀ {x : Flonum}, decomposeIeee754Binary (.flonum x) exponentBits (g.trailing + 1) =
      .ok ⟨sign, b, trailing⟩ → (∃ y, Denotes (.flonum x) y) ∧
        ∀ y, Denotes (.flonum x) y → decomposeIeee754Binary (.flonum y) exponentBits (g.trailing + 1) =
          .ok ⟨sign, b, trailing⟩ := by
    intro x found
    refine ⟨⟨x, rfl⟩, ?_⟩
    rintro y rfl
    exact found
  rcases nonneg.eq_or_lt with zero | positive
  · subst zero
    by_cases none : trailing = 0
    · subst none
      have found := format.decompose (@decompose_zero 2 (g.trailing + 1) g.emax (decide (sign = 1)) (by decide))
      rw [sign_toNat one] at found
      exact ⟨_, format.widths.compose_zero one, found, flonum_only found⟩
    · obtain ⟨magnitude, -, nonzero⟩ := signed_spec one (@scaled_pos g trailing g.emin (pos_of_ne_zero none))
      have fits := format.narrow.fits (by omega) (by omega) (by omega) (k := trailing) (d := g.emin)
      rw [← magnitude, abs_abs] at fits
      refine ⟨_, format.widths.compose_subnormal none, format.decompose_subnormal one none small rfl,
        ⟨_, denotes_exact nonzero fits⟩, ?_⟩
      intro x denotes
      exact format.decompose_subnormal one none small denotes.1
  · rcases (Int.lt_add_one_iff.mp (by omega : b < 2 * g.emax + 1 + 1)).eq_or_lt with special | finite
    · subst special
      by_cases none : trailing = 0
      · subst none
        have found := format.decompose (@decompose_infinite 2 (g.trailing + 1) g.emax (decide (sign = 1)))
        rw [sign_toNat one] at found
        have fields : decomposeIeee754Binary (.flonum (.infinite (decide (sign = 1)))) exponentBits
            (g.trailing + 1) = .ok ⟨sign, 2 * g.emax + 1, 0⟩ := by
          rw [found]
          simp only [fieldsOf]
          ring_nf
        exact ⟨_, format.widths.compose_infinite one, fields, flonum_only fields⟩
      · obtain ⟨x, quiet, payload, composed, -, -, -, found⟩ := format.compose_nan one none small
        exact ⟨_, composed, found, flonum_only found⟩
    · obtain ⟨magnitude, -, nonzero⟩ := signed_spec one
        (@scaled_pos g (2 ^ g.trailing + trailing) (b - g.emax) (by omega))
      have fits := format.narrow.fits (k := 2 ^ g.trailing + trailing) (d := b - g.emax) (by omega)
        (by omega) (by omega)
      rw [← magnitude, abs_abs] at fits
      refine ⟨_, format.widths.compose_normal (by omega) (by omega) small,
        format.decompose_normal one (by omega) (by omega) small rfl, ⟨_, denotes_exact nonzero fits⟩, ?_⟩
      intro x denotes
      exact format.decompose_normal one (by omega) (by omega) small denotes.1

def binary32 : BinaryFormat := ⟨23, 127, by decide⟩

theorem interchange_binary64 : Interchange 11 binary64 := by
  constructor
  · decide
  · norm_num [binary64]
  · norm_num [binary64]
  · exact ⟨le_rfl, le_rfl⟩
  · decide

theorem interchange_binary32 : Interchange 8 binary32 := by
  constructor
  · decide
  · norm_num [binary32]
  · norm_num [binary32]
  · exact ⟨by decide, by decide⟩
  · decide

def wordFields (x : Flonum) : Fields := ⟨x.negative.toNat, (x.word / 2 ^ 52 : ℕ), x.word % 2 ^ 52⟩

theorem wordFields_inRange (x : Flonum) : InRange 11 52 (wordFields x) := by
  have bound := x.bound
  constructor
  · exact x.negative.toNat_le
  · exact Int.natCast_nonneg _
  · show ((x.word / 2 ^ 52 : ℕ) : ℤ) < 2 ^ 11
    omega
  · exact mod_lt _ (two_pow_pos 52)

theorem decide_toNat (negative : Bool) : decide (negative.toNat = 1) = negative := by cases negative <;> rfl

theorem toRational_signed (x : Flonum) : x.toRational = signed x.negative.toNat (binary64.magnitude x.word) := by
  unfold toRational signed
  cases x.negative <;> simp

theorem flonum_ext {x y : Flonum} (sign : x.negative = y.negative) (word : x.word = y.word) : x = y := by
  cases x
  cases y
  cases sign
  cases word
  rfl

theorem compose_wordFields (x : Flonum) : ∃ r, composeIeee754Binary64 (wordFields x) = .ok r ∧ Denotes r x := by
  have format := interchange_binary64
  have one := x.negative.toNat_le
  have bound := x.bound
  have same_sign := decide_toNat x.negative
  have small : x.word % 2 ^ 52 < 2 ^ binary64.trailing := mod_lt _ (two_pow_pos 52)
  obtain ⟨b, exponent⟩ : ∃ b : ℕ, x.word / 2 ^ 52 = b := ⟨_, rfl⟩
  obtain ⟨t, trailing⟩ : ∃ t : ℕ, x.word % 2 ^ 52 = t := ⟨_, rfl⟩
  have fields : wordFields x = ⟨x.negative.toNat, b, t⟩ := by
    unfold wordFields
    rw [exponent, trailing]
  rw [trailing] at small
  rw [fields]
  have range : b < 2048 := by omega
  rcases eq_zero_or_pos b with zero | positive
  · subst zero
    have word : x.word = t := by omega
    by_cases none : t = 0
    · refine ⟨_, by rw [none]; exact format.widths.compose_zero one, ?_⟩
      exact flonum_ext same_sign (by rw [word, none]; rfl)
    · refine ⟨_, format.widths.compose_subnormal none, ⟨decide_eq_true ?_, ?_⟩, ?_⟩
      · rw [word]
        exact small.trans (by decide)
      · rw [toRational_signed, word]
        congr 1
        exact if_pos small
      · exact (signed_spec one (scaled_pos (pos_of_ne_zero none))).2.2
  · rcases (lt_succ_iff.mp range).eq_or_lt with special | finite
    · by_cases none : t = 0
      · refine ⟨_, by rw [none, special]; exact format.widths.compose_infinite one, ?_⟩
        apply flonum_ext same_sign
        show binary64.infinity = x.word
        rw [infinity_binary64]
        omega
      · obtain ⟨y, quiet, payload, composed, negative, word, whole, -⟩ := format.compose_nan one none small
        refine ⟨_, by rw [special]; exact composed, ?_⟩
        apply flonum_ext (negative.trans same_sign)
        have whole' : t = quiet.toNat * 2 ^ 51 + payload := whole
        rw [word, nanWord]
        omega
    · have normal : ¬x.word < 2 ^ binary64.trailing := by
        show ¬x.word < 2 ^ 52
        omega
      refine ⟨_, format.widths.compose_normal (by omega) (by show (b : ℤ) ≤ 2 * (1023 : ℕ); omega) small,
        ⟨decide_eq_true ?_, ?_⟩, ?_⟩
      · rw [infinity_binary64]
        omega
      · rw [toRational_signed]
        congr 1
        unfold magnitude
        rw [if_neg normal]
        show ((2 ^ 52 + x.word % 2 ^ 52 : ℕ) : ℚ) * 2 ^ (((x.word / 2 ^ 52 : ℕ) : ℤ) - 1023 - 52) = _
        rw [exponent, trailing]
        rfl
      · exact (signed_spec one (scaled_pos (by omega))).2.2

/-- Fields in range make the round trip through the numbers, exact or flonums, for both formats, and
every flonum makes the round trip through its fields. -/
theorem interchange_fields :
    (∀ fields, InRange 11 52 fields → RoundTrip 11 53 fields) ∧ (∀ fields, InRange 8 23 fields → RoundTrip 8 24 fields) ∧
    ∀ x : Flonum, ∃ fields r, decomposeIeee754Binary64 (.flonum x) = .ok fields ∧ InRange 11 52 fields ∧
    composeIeee754Binary64 fields = .ok r ∧ Denotes r x := by
  refine ⟨fun fields => interchange_binary64.round_trip, fun fields => interchange_binary32.round_trip, ?_⟩
  intro x
  obtain ⟨r, composed, denotes⟩ := compose_wordFields x
  obtain ⟨r', composed', -, -, found⟩ := interchange_binary64.round_trip (wordFields_inRange x)
  have same : r' = r := Except.ok.inj (composed'.symm.trans composed)
  subst same
  exact ⟨_, r', found x denotes, wordFields_inRange x, composed, denotes⟩

end MitScheme.Runtime.Ieee754
