import MitScheme.Microcode.Bignum.DigitDivide
import MitScheme.Microcode.Bignum.Schoolbook

/-!
A result of the unsigned divisions that the caller does not ask for is `none`; one that it asks for
is given its sign.
-/

namespace MitScheme.Microcode.Bignum

open Library List Nat

def scaleDownDigits (denominator : Nat) : List Nat → Option (List Nat × Nat)
  | [] => some ([], 0)
  | twoDigits :: rest => do
    let (rest, remainder) ← scaleDownDigits denominator rest
    let numerator ← word (hdCons remainder (hdHigh twoDigits))
    let quotientHigh := numerator / denominator
    let numerator ← word (hdCons (numerator % denominator) (hdLow twoDigits))
    let digit ← word (hdCons quotientHigh (numerator / denominator))
    some (digit :: rest, numerator % denominator)

def destructiveScaleDown (digits : List Nat) (denominator : Nat) : Option (List Nat × Nat) :=
  if 1 < denominator ∧ denominator < radixRoot then scaleDownDigits denominator digits else none

def divideUnsignedSmall (numerator : Bignum) (denominator : Nat) (qNegative : Bool) (remainder : Option Bool) :
    Option (Bignum × Option Bignum) := do
  let q := newSign numerator qNegative
  let (digits, r) ← destructiveScaleDown q.digits denominator
  some (trim { negative := q.negative, digits }, remainder.map (digitToBignum r))

def remainderDigits (d : Nat) : List Nat → Option Nat
  | [] => some 0
  | twoDigits :: rest => do
    let r ← remainderDigits d rest
    let high ← word (hdCons r (hdHigh twoDigits))
    let low ← word (hdCons (high % d) (hdLow twoDigits))
    some (low % d)

def remainderUnsignedSmall (n : Bignum) (d : Nat) (negative : Bool) : Option Bignum :=
  if 1 < d ∧ d < radixRoot then do
    let r ← remainderDigits d n.digits
    some (digitToBignum r negative)
  else none

def divideDigits (denominator : Nat) : List Nat → Option (List Nat × Nat)
  | [] => some ([], 0)
  | digit :: rest => do
    let (rest, r) ← divideDigits denominator rest
    let (qj, r) ← digitDivide r digit denominator
    some (qj :: rest, r)

def divideUnsignedMedium (numerator : Bignum) (denominator : Nat) (quotient remainder : Option Bool) :
    Option (Option Bignum × Option Bignum) := do
  let (denominator, shift) ← normalizeShift digitLength denominator 0
  let q ←
    if shift = 0 then some numerator.digits
    else destructiveNormalization numerator.digits (numerator.digits.length + 1) shift
  let (digits, r) ← divideDigits denominator q
  let r := if shift ≠ 0 then r >>> shift else r
  some (quotient.map fun negative => trim { negative, digits }, remainder.map (digitToBignum r))

/-- The shift and the operands that `bignum_divide_unsigned_large_denominator` passes on. -/
def largeOperands (numerator denominator : Bignum) : Option (Nat × List Nat × List Nat) :=
  if 1 < denominator.digits.length then do
    let v1 ← denominator.digits[denominator.digits.length - 1]?
    let (_, shift) ← normalizeShift digitLength v1 0
    if shift = 0 then some (shift, numerator.digits ++ [0], denominator.digits)
    else
      let u ← destructiveNormalization numerator.digits (numerator.digits.length + 1) shift
      let v ← destructiveNormalization denominator.digits denominator.digits.length shift
      some (shift, u, v)
  else none

def divideUnsignedLarge (numerator denominator : Bignum) (quotient remainder : Option Bool) :
    Option (Option Bignum × Option Bignum) := do
  let (shift, u, v) ← largeOperands numerator denominator
  let state ← divideNormalized u v
  let u ←
    if shift ≠ 0 ∧ remainder.isSome then destructiveUnnormalization state.u shift
    else some state.u
  some (quotient.map fun negative => trim { negative, digits := state.q },
    remainder.map fun negative => trim { negative, digits := u })

/-- The result for a zero denominator is the inner `none`. -/
def divide (numerator denominator : Bignum) : Option (Option (Bignum × Bignum)) :=
  if denominator.digits = [] then some none
  else if numerator.digits = [] then some (some (numerator, numerator))
  else
    let rNegative := numerator.negative
    let qNegative := if denominator.negative then !rNegative else rNegative
    match compareUnsigned numerator denominator with
    | .equal => some (some (makeOne qNegative, makeZero))
    | .less => some (some (makeZero, numerator))
    | .greater =>
      match denominator.digits with
      | [digit] =>
        if digit = 1 then some (some (maybeNewSign numerator qNegative, makeZero))
        else if digit < radixRoot then do
          match ← divideUnsignedSmall numerator digit qNegative (some rNegative) with
          | (quotient, some remainder) => some (some (quotient, remainder))
          | _ => none
        else do
          match ← divideUnsignedMedium numerator digit (some qNegative) (some rNegative) with
          | (some quotient, some remainder) => some (some (quotient, remainder))
          | _ => none
      | _ => do
        match ← divideUnsignedLarge numerator denominator (some qNegative) (some rNegative) with
        | (some quotient, some remainder) => some (some (quotient, remainder))
        | _ => none

def quotient (numerator denominator : Bignum) : Option (Option Bignum) :=
  if denominator.digits = [] then some none
  else if numerator.digits = [] then some (some numerator)
  else
    let qNegative := if denominator.negative then !numerator.negative else numerator.negative
    match compareUnsigned numerator denominator with
    | .equal => some (some (makeOne qNegative))
    | .less => some (some makeZero)
    | .greater =>
      match denominator.digits with
      | [digit] =>
        if digit = 1 then some (some (maybeNewSign numerator qNegative))
        else if digit < radixRoot then do
          let (quotient, _) ← divideUnsignedSmall numerator digit qNegative none
          some (some quotient)
        else do
          match ← divideUnsignedMedium numerator digit (some qNegative) none with
          | (some quotient, _) => some (some quotient)
          | _ => none
      | _ => do
        match ← divideUnsignedLarge numerator denominator (some qNegative) none with
        | (some quotient, _) => some (some quotient)
        | _ => none

def remainder (numerator denominator : Bignum) : Option (Option Bignum) :=
  if denominator.digits = [] then some none
  else if numerator.digits = [] then some (some numerator)
  else
    match compareUnsigned numerator denominator with
    | .equal => some (some makeZero)
    | .less => some (some numerator)
    | .greater =>
      match denominator.digits with
      | [digit] =>
        -- the denominator is a power of two
        if digit &&& (digit - 1) = 0 then
          match numerator.digits with
          | [] => some (some makeZero)
          | low :: _ =>
            let unsignedRemainder := (digit - 1) &&& low
            if unsignedRemainder = 0 then some (some makeZero)
            else some (some (digitToBignum unsignedRemainder numerator.negative))
        else if digit < radixRoot then do
          let remainder ← remainderUnsignedSmall numerator digit numerator.negative
          some (some remainder)
        else do
          match ← divideUnsignedMedium numerator digit none (some numerator.negative) with
          | (_, some remainder) => some (some remainder)
          | _ => none
      | _ => do
        match ← divideUnsignedLarge numerator denominator none (some numerator.negative) with
        | (_, some remainder) => some (some remainder)
        | _ => none

theorem halves_divided {d r digit : Nat} (positive : 0 < d) (small : d < radixRoot) (less : r < d)
    (small_digit : digit < radix) : ∃ high low, hdCons r (hdHigh digit) = high ∧ hdCons (high % d) (hdLow digit) = low ∧
    high < 2 ^ 63 ∧ low < 2 ^ 63 ∧ low / d < radixRoot ∧ high / d * radixRoot + low / d < radix ∧ r * radix + digit =
    d * (high / d * radixRoot + low / d) + low % d := by
  have small_high := hdHigh_lt small_digit
  have small_low := hdLow_lt digit
  have split := div_add_mod digit radixRoot
  have less' : (r * radixRoot + digit / radixRoot) % d < d := mod_lt _ positive
  have divided := div_add_mod (r * radixRoot + digit / radixRoot) d
  have divided' := div_add_mod ((r * radixRoot + digit / radixRoot) % d * radixRoot + digit % radixRoot) d
  have half : ∀ {r h : Nat}, r < d → h < radixRoot → (r * radixRoot + h) / d < radixRoot := by
    intro r h less small
    rw [div_lt_iff_lt_mul positive, mul_comm radixRoot]
    calc r * radixRoot + h < (r + 1) * radixRoot := by rw [succ_mul]; omega
      _ ≤ d * radixRoot := mul_le_mul_right _ less
  have range : ∀ {r h : Nat}, r < d → h < radixRoot → r * radixRoot + h < 2 ^ 63 := by
    intro r h less small'
    rw [radixRoot_eq] at *
    omega
  have high := half less small_high
  have low := half less' small_low
  refine ⟨_, _, hdCons_eq r (by rwa [hdHigh_eq]), hdCons_eq _ (by rwa [hdLow_eq]), ?_⟩
  rw [hdHigh_eq, hdLow_eq]
  refine ⟨range less small_high, range less' small_low, low, ?_, ?_⟩
  · rw [radix_eq, radixRoot_eq] at *
    omega
  · rw [← radixRoot_mul_self]
    generalize radixRoot = b at split divided divided' ⊢
    linear_combination divided'.symm + b * divided.symm + split.symm

theorem scaleDownDigits_spec {d : Nat} (positive : 0 < d) (small : d < radixRoot) {ds : List Nat}
    (digits : Digits radix ds) : ∃ rs r, scaleDownDigits d ds = some (rs, r) ∧ Digits radix rs ∧ rs.length = ds.length ∧
    r < d ∧ d * Nat.ofDigits radix rs + r = Nat.ofDigits radix ds := by
  induction ds with
  | nil => exact ⟨[], 0, rfl, digits_nil, rfl, positive, rfl⟩
  | cons digit ds ih =>
    rw [digits_cons] at digits
    obtain ⟨rs, r, ran, digits', length, less, value⟩ := ih digits.2
    obtain ⟨high, low, high_eq, low_eq, range_high, range_low, half, below, exact⟩ :=
      halves_divided positive small less digits.1
    have range := word_eq (below.trans (by decide : radix < 2 ^ 63))
    refine ⟨(high / d * radixRoot + low / d) :: rs, low % d, ?_, digits_cons.mpr ⟨below, digits'⟩,
      by rw [length_cons, length, length_cons], mod_lt _ positive, ?_⟩
    · simp only [scaleDownDigits, ran, someBind, high_eq, word_eq range_high, low_eq, word_eq range_low,
        hdCons_eq _ half, range]
    · rw [ofDigits_cons, ofDigits_cons, ← value]
      linear_combination exact.symm

theorem remainderDigits_spec {d : Nat} (positive : 0 < d) (small : d < radixRoot) {ds : List Nat}
    (digits : Digits radix ds) : remainderDigits d ds = some (Nat.ofDigits radix ds % d) := by
  induction ds with
  | nil => rfl
  | cons digit ds ih =>
    rw [digits_cons] at digits
    have less : ofDigits radix ds % d < d := mod_lt _ positive
    obtain ⟨high, low, high_eq, low_eq, range_high, range_low, -, -, exact⟩ :=
      halves_divided positive small less digits.1
    have split := div_add_mod (ofDigits radix ds) d
    have value : ofDigits radix (digit :: ds) % d = low % d := by
      rw [ofDigits_cons]
      generalize radix = b at split exact ⊢
      have total : digit + b * ofDigits b ds =
          d * (high / d * radixRoot + low / d + b * (ofDigits b ds / d)) + low % d := by
        linear_combination exact + b * split.symm
      rw [total, mul_add_mod, mod_mod]
    rw [value]
    simp only [remainderDigits, ih digits.2, someBind, high_eq, word_eq range_high, low_eq, word_eq range_low]

theorem divideDigits_spec {d : Nat} (large : radixRoot ≤ d) (small : d < radix) {ds : List Nat}
    (digits : Digits radix ds) : ∃ rs r, divideDigits d ds = some (rs, r) ∧ Digits radix rs ∧ rs.length = ds.length ∧
    r < d ∧ d * Nat.ofDigits radix rs + r = Nat.ofDigits radix ds := by
  have positive : 0 < d := lt_of_lt_of_le (by decide) large
  induction ds with
  | nil => exact ⟨[], 0, rfl, digits_nil, rfl, positive, rfl⟩
  | cons digit ds ih =>
    rw [digits_cons] at digits
    obtain ⟨rs, r, ran, digits', length, less, value⟩ := ih digits.2
    have divided := digitDivide_spec less digits.1 small large
    have below : (r * radix + digit) / d < radix := by
      rw [div_lt_iff_lt_mul positive, mul_comm radix]
      calc r * radix + digit < (r + 1) * radix := by rw [succ_mul]; omega
        _ ≤ d * radix := mul_le_mul_right _ less
    have exact := div_add_mod (r * radix + digit) d
    refine ⟨(r * radix + digit) / d :: rs, (r * radix + digit) % d, ?_, digits_cons.mpr ⟨below, digits'⟩,
      by rw [length_cons, length, length_cons], mod_lt _ positive, ?_⟩
    · simp [divideDigits, ran, divided]
    · rw [ofDigits_cons, ofDigits_cons, ← value]
      linear_combination exact

section
variable {n : Bignum}

section
variable (normal_n : n.Normalized)
include normal_n

theorem divideUnsignedSmall_represents (nonzero : n.digits ≠ []) {d : Nat} (large : 1 < d) (small : d < radixRoot)
    (negative : Bool) (remainder : Option Bool) : ∃ q r, divideUnsignedSmall n d negative remainder =
    some (q, remainder.map r) ∧ q.Represents (signed negative (n.magnitude / d : Nat)) ∧
    ∀ sign, (r sign).Represents (signed sign (n.magnitude % d : Nat)) := by
  obtain ⟨rs, r, ran, digits, length, less, value⟩ := scaleDownDigits_spec (by omega) small normal_n.digits
  have nonempty : rs ≠ [] := by
    rintro rfl
    exact nonzero (length_eq_zero_iff.mp length.symm)
  have value_q : n.magnitude / d = ofDigits radix rs := by
    rw [magnitude, ← value, mul_add_div (by omega), div_eq_of_lt less, add_zero]
  have value_r : n.magnitude % d = r := by
    rw [magnitude, ← value, mul_add_mod, mod_eq_of_lt less]
  refine ⟨trim { negative, digits := rs }, digitToBignum r, ?_, ?_, fun sign => ?_⟩
  · simp [divideUnsignedSmall, newSign, destructiveScaleDown, if_pos (And.intro large small), ran]
  · rw [value_q]
    exact represents_trim (x := { negative, digits := rs }) digits nonempty
  · rw [value_r]
    exact represents_digitToBignum (less.trans (small.trans (by decide))) sign

theorem remainderUnsignedSmall_represents {d : Nat} (large : 1 < d) (small : d < radixRoot) (negative : Bool) : ∃ r,
    remainderUnsignedSmall n d negative = some r ∧ r.Represents (signed negative (n.magnitude % d : Nat)) := by
  have positive : 0 < d := by omega
  refine ⟨digitToBignum (n.magnitude % d) negative, ?_, represents_digitToBignum ?_ negative⟩
  · rw [remainderUnsignedSmall, if_pos ⟨large, small⟩, remainderDigits_spec positive small normal_n.digits]
    rfl
  · exact (mod_lt _ positive).trans (small.trans (by decide))

theorem divideUnsignedMedium_represents (nonzero : n.digits ≠ []) {d : Nat} (positive : 0 < d) (small : d < radix)
    (quotient remainder : Option Bool) : ∃ q r, divideUnsignedMedium n d quotient remainder =
    some (quotient.map q, remainder.map r) ∧ (∀ sign, (q sign).Represents (signed sign (n.magnitude / d : Nat))) ∧
    ∀ sign, (r sign).Represents (signed sign (n.magnitude % d : Nat)) := by
  obtain ⟨s, shifted, short, large, small'⟩ := normalizeShift_digit small positive
  -- the shifted numerator
  obtain ⟨us, source, digits_u, nonempty, value_u⟩ : ∃ us,
      (if s = 0 then some n.digits else destructiveNormalization n.digits (n.digits.length + 1) s) = some us ∧
        Digits radix us ∧ us ≠ [] ∧ ofDigits radix us = 2 ^ s * n.magnitude := by
    by_cases zero : s = 0
    · exact ⟨n.digits, if_pos zero, normal_n.digits, nonzero, by rw [zero, pow_zero, one_mul, magnitude]⟩
    · obtain ⟨rs, top, ran, digits, -, small_top, value⟩ := destructiveNormalization_longer short.le normal_n.digits
      have small_top' : top < radix := small_top.trans (Nat.pow_lt_pow_right (by decide) short)
      exact ⟨rs ++ [top], by rw [if_neg zero, ran], digits.append (digits_cons.mpr ⟨small_top', digits_nil⟩), by simp,
        value⟩
  obtain ⟨rs, r, ran, digits, length, less, value⟩ := divideDigits_spec
    (le_trans (by decide : radixRoot ≤ radix / 2) large) small' digits_u
  rw [value_u] at value
  have positive' : 0 < d * 2 ^ s := mul_pos positive (by positivity)
  have value_q : n.magnitude / d = ofDigits radix rs := by
    rw [← Nat.mul_div_mul_left n.magnitude d (by positivity : 0 < 2 ^ s), ← value, mul_comm (2 ^ s) d,
      mul_add_div positive', div_eq_of_lt less, add_zero]
  have value_r : 2 ^ s * (n.magnitude % d) = r := by
    rw [← mul_mod_mul_left, ← value, mul_comm (2 ^ s) d, mul_add_mod, mod_eq_of_lt less]
  have back : (if s ≠ 0 then r >>> s else r) = n.magnitude % d := by
    by_cases zero : s = 0
    · rw [if_neg (not_not_intro zero), ← value_r, zero, pow_zero, one_mul]
    · rw [if_pos zero, shiftRight_eq_div_pow, ← value_r, Nat.mul_div_cancel_left _ (by positivity)]
  refine ⟨fun negative => trim { negative, digits := rs }, digitToBignum (n.magnitude % d), ?_, fun sign => ?_,
    fun sign => ?_⟩
  · by_cases zero : s = 0
    · rw [if_pos zero] at source
      obtain rfl := Option.some.inj source
      simp only [divideUnsignedMedium, shifted, someBind, if_pos zero, ran, back]
    · rw [if_neg zero] at source
      simp only [divideUnsignedMedium, shifted, someBind, if_neg zero, source, ran, back]
  · rw [value_q]
    refine represents_trim (x := { negative := sign, digits := rs }) digits ?_
    rintro rfl
    exact nonempty (length_eq_zero_iff.mp length.symm)
  · exact represents_digitToBignum ((mod_lt _ positive).trans small) sign

theorem largeOperands_spec {d : Bignum} (normal_d : d.Normalized)
    (long : 1 < d.digits.length) :
    ∃ s u v, largeOperands n d = some (s, u, v) ∧ s < digitLength ∧ Digits radix u ∧
      u.length = n.digits.length + 1 ∧ Nat.ofDigits radix u = 2 ^ s * n.magnitude ∧ Denominator v ∧
      v.length = d.digits.length ∧ Nat.ofDigits radix v = 2 ^ s * d.magnitude ∧
      (d.digits.length ≤ n.digits.length + 1 →
        Nat.ofDigits radix (u.drop (u.length - v.length)) < Nat.ofDigits radix v) := by
  obtain ⟨init, v1, split⟩ := eq_nil_or_concat d.digits |>.resolve_left (by
    rintro empty
    rw [empty] at long
    exact absurd long (by decide))
  rw [concat_eq_append] at split
  have read : d.digits[d.digits.length - 1]? = some v1 := by simp [split]
  have last : d.digits.getLast? = some v1 := by simp [split]
  have small_v1 : v1 < radix := normal_d.digits v1 (by simp [split])
  have positive : 0 < v1 := by
    refine pos_of_ne_zero ?_
    rintro rfl
    exact normal_d.leading last
  obtain ⟨s, shifted, short, large, small⟩ := normalizeShift_digit small_v1 positive
  have length_d : d.digits.length = init.length + 1 := by rw [split, length_append, length_singleton]
  have value_d : d.magnitude = ofDigits radix init + v1 * radix ^ init.length := by
    rw [magnitude, split, ofDigits_append, ofDigits_singleton, mul_comm v1]
  have rest_d := ofDigits_lt_base_pow_length one_lt_radix fun d' member =>
    normal_d.digits d' (by rw [split]; exact mem_append_left _ member)
  -- the shift leaves room in the leading digit
  have room : 2 ^ s * d.magnitude < radix ^ d.digits.length := by
    have below : v1 + 1 ≤ 2 ^ (digitLength - s) := by
      refine Nat.lt_of_mul_lt_mul_right (a := 2 ^ s) ?_
      rwa [mul_comm (2 ^ (digitLength - s)), two_pow_mul_two_pow short.le]
    calc 2 ^ s * d.magnitude < 2 ^ s * ((v1 + 1) * radix ^ init.length) := by
          refine mul_lt_mul_of_pos_left ?_ (by positivity)
          rw [succ_mul]
          omega
      _ ≤ 2 ^ s * (2 ^ (digitLength - s) * radix ^ init.length) :=
          mul_le_mul_left _ (mul_le_mul_right _ below)
      _ = radix ^ d.digits.length := by
          rw [← mul_assoc, two_pow_mul_two_pow short.le, length_d, pow_succ, mul_comm]
  obtain ⟨us, top, v, ran, digits_u, length_u, small_top, value_u, digits_v, length_v, value_v⟩ : ∃ us top v,
      largeOperands n d = some (s, us ++ [top], v) ∧ Digits radix us ∧ us.length = n.digits.length ∧ top < 2 ^ s ∧
        ofDigits radix (us ++ [top]) = 2 ^ s * n.magnitude ∧ Digits radix v ∧
        v.length = d.digits.length ∧ ofDigits radix v = 2 ^ s * d.magnitude := by
    by_cases zero : s = 0
    · subst zero
      refine ⟨n.digits, 0, d.digits, ?_, normal_n.digits, rfl, by decide, ?_, normal_d.digits, rfl, ?_⟩
      · simp [largeOperands, if_pos long, read, shifted]
      · rw [ofDigits_append_zero, pow_zero, one_mul, magnitude]
      · rw [pow_zero, one_mul, magnitude]
    · obtain ⟨us, top, ran_u, digits_u, length_u, small_top, value_u⟩ :=
        destructiveNormalization_longer short.le normal_n.digits
      obtain ⟨v, ran_v, digits_v, length_v, value_v⟩ := destructiveNormalization_equal short.le normal_d.digits room
      refine ⟨us, top, v, ?_, digits_u, length_u, small_top, value_u, digits_v, length_v, value_v⟩
      simp only [largeOperands, if_pos long, read, someBind, shifted, if_neg zero, ran_u, ran_v]
  have small_top' : top < radix := small_top.trans (Nat.pow_lt_pow_right (by decide) short)
  have leading : v1 * 2 ^ s * radix ^ init.length ≤ ofDigits radix v := by
    calc v1 * 2 ^ s * radix ^ init.length = 2 ^ s * (v1 * radix ^ init.length) := by ring
      _ ≤ 2 ^ s * d.magnitude := mul_le_mul_left _ (by rw [value_d]; exact le_add_left _ _)
      _ = ofDigits radix v := value_v.symm
  refine ⟨s, us ++ [top], v, ran, short, digits_u.append (digits_cons.mpr ⟨small_top', digits_nil⟩),
    by rw [length_append, length_singleton, length_u], value_u, ⟨digits_v, by rwa [length_v], ?_⟩, length_v,
    value_v, fun fits => ?_⟩
  · intro w last_v
    refine large.trans (le_getLast_of_le one_lt_radix digits_v last_v ?_)
    rwa [length_v, length_d]
  · have start : (us ++ [top]).length - v.length ≤ us.length := by
      rw [length_append, length_singleton, length_v]
      omega
    have length : (us.drop ((us ++ [top]).length - v.length)).length = init.length := by
      rw [length_drop, length_append, length_singleton, length_v]
      omega
    have rest := ofDigits_lt_base_pow_length one_lt_radix (digits_u.drop ((us ++ [top]).length - v.length))
    have half : 2 ^ s ≤ radix / 2 := by
      exact Nat.pow_le_pow_right (by decide) (le_of_lt_succ short)
    rw [drop_append_of_le_length start, ofDigits_append, length]
    rw [length] at rest
    calc ofDigits radix (us.drop ((us ++ [top]).length - v.length)) + radix ^ init.length * top
        < (top + 1) * radix ^ init.length := by rw [succ_mul, mul_comm top]; omega
      _ ≤ v1 * 2 ^ s * radix ^ init.length := mul_le_mul_right _ (small_top.trans_le (half.trans large))
      _ ≤ ofDigits radix v := leading

theorem divideUnsignedLarge_represents {d : Bignum} (normal_d : d.Normalized)
    (long : 1 < d.digits.length) (fits : d.digits.length ≤ n.digits.length) (quotient remainder : Option Bool) :
    ∃ q r, divideUnsignedLarge n d quotient remainder = some (quotient.map q, remainder.map r) ∧
      (∀ sign, (q sign).Represents (signed sign (n.magnitude / d.magnitude : Nat))) ∧
      (remainder.isSome → ∀ sign, (r sign).Represents (signed sign (n.magnitude % d.magnitude : Nat))) := by
  obtain ⟨s, u, v, operands, short, digits_u, length_u, value_u, denominator, length_v, value_v, below⟩ :=
    largeOperands_spec normal_n normal_d long
  obtain ⟨state, ran, digits_r, length_r, digits_q, length_q, quotient_eq, remainder_eq⟩ :=
    divideNormalized_spec denominator digits_u (below (by omega))
  rw [value_u, value_v, Nat.mul_div_mul_left _ _ (by positivity)] at quotient_eq
  rw [value_u, value_v, mul_mod_mul_left] at remainder_eq
  have quotients : ∀ sign, (trim { negative := sign, digits := state.q }).Represents
      (signed sign (n.magnitude / d.magnitude : Nat)) := by
    intro sign
    rw [← quotient_eq]
    refine represents_trim (x := { negative := sign, digits := state.q }) digits_q ?_
    intro empty
    rw [show state.q = [] from empty, length_nil] at length_q
    omega
  have remainders : ∀ {rs : List Nat}, Digits radix rs → rs.length = u.length →
      ofDigits radix rs = n.magnitude % d.magnitude → ∀ sign,
      (trim { negative := sign, digits := rs }).Represents (signed sign (n.magnitude % d.magnitude : Nat)) := by
    intro rs digits length value sign
    rw [← value]
    refine represents_trim (x := { negative := sign, digits := rs }) digits ?_
    rintro rfl
    rw [length_nil] at length
    omega
  by_cases shifted : s ≠ 0 ∧ remainder.isSome
  · obtain ⟨rs, back, digits_rs, length_rs, value⟩ := destructiveUnnormalization_spec short.le digits_r remainder_eq
    refine ⟨fun sign => trim { negative := sign, digits := state.q }, fun sign => trim { negative := sign, digits := rs },
      ?_, quotients, fun _ => remainders digits_rs (length_rs.trans length_r) value⟩
    simp [divideUnsignedLarge, operands, ran, if_pos shifted, back]
  · refine ⟨fun sign => trim { negative := sign, digits := state.q },
      fun sign => trim { negative := sign, digits := state.u }, ?_, quotients, fun asked => ?_⟩
    · simp [divideUnsignedLarge, operands, ran, if_neg shifted]
    · obtain rfl : s = 0 := by
        by_contra nonzero
        exact shifted ⟨nonzero, asked⟩
      rw [pow_zero, one_mul] at remainder_eq
      exact remainders digits_r length_r remainder_eq

end

end

section
variable {n d : Bignum}

structure Divides (n d q r : Bignum) : Prop where
  quotient : q.Represents (signed (if d.negative then !n.negative else n.negative) (n.magnitude / d.magnitude : Nat))
  remainder : r.Represents (signed n.negative (n.magnitude % d.magnitude : Nat))

theorem Divides.exact {q r : Bignum} (divides : Divides n d q r) (positive : 0 < d.magnitude) : n.toInt =
    q.toInt * d.toInt + r.toInt ∧ r.toInt.natAbs < d.toInt.natAbs ∧ (r.toInt = 0 ∨ (r.toInt < 0 ↔ n.toInt < 0)) := by
  have whole : (d.magnitude : Int) * (n.magnitude / d.magnitude : Nat) + (n.magnitude % d.magnitude : Nat) =
      n.magnitude := by exact_mod_cast div_add_mod n.magnitude d.magnitude
  have less := mod_lt n.magnitude positive
  rw [divides.quotient.value, divides.remainder.value, toInt_natAbs, toInt_eq_signed n, toInt_eq_signed d]
  generalize n.magnitude / d.magnitude = q at whole
  generalize n.magnitude % d.magnitude = r at whole less
  refine ⟨?_, ?_, ?_⟩
  · cases n.negative <;> cases d.negative <;> simp only [signed, Bool.not_true, Bool.not_false, if_true, if_false,
      Bool.false_eq_true] <;> rw [← whole] <;> ring
  · cases n.negative <;> simpa [signed] using less
  · have total : d.magnitude * q + r = n.magnitude := by exact_mod_cast whole
    cases n.negative <;> simp [signed] <;> omega

theorem and_pred_eq_mod {digit : Nat} (power : digit &&& (digit - 1) = 0) (positive : 0 < digit) (small : digit < radix)
    (low : Nat) (rest : List Nat) : (digit - 1) &&& low = Nat.ofDigits radix (low :: rest) % digit := by
  obtain ⟨k, rfl⟩ := (and_sub_one_eq_zero_iff_isPowerOfTwo positive.ne').mp power
  have short : k < digitLength := (Nat.pow_lt_pow_iff_right (by decide)).mp small
  obtain ⟨j, weight⟩ : ∃ j, radix = 2 ^ k * j := ⟨2 ^ (digitLength - k), (two_pow_mul_two_pow short.le).symm⟩
  rw [Nat.and_comm, and_two_pow_sub_one_eq_mod, ofDigits_cons, weight, mul_assoc, add_mul_mod_self_left]

section
variable (normal_n : n.Normalized)
include normal_n

theorem divide_digit_quotient (nonzero_n : n.digits ≠ []) {digit : Nat} (split : d.digits = [digit])
    (small : digit < radix) (positive : 0 < digit) (greater : compareUnsigned n d = .greater) : ∃ q r, divide n d =
    some (some (q, r)) ∧ quotient n d = some (some q) ∧ Divides n d q r := by
  have value : d.magnitude = digit := by rw [magnitude, split, ofDigits_singleton]
  generalize sign_eq : (if d.negative then !n.negative else n.negative) = sign
  by_cases one : digit = 1
  · refine ⟨newSign n sign, makeZero, ?_, ?_, ?_, ?_⟩
    · simp [divide, if_neg nonzero_n, greater, split, sign_eq, if_pos one, maybeNewSign_eq]
    · simp only [quotient, if_neg nonzero_n, greater, split, reduceCtorEq, if_false, sign_eq, if_pos one, maybeNewSign_eq]
    · rw [value, one, Nat.div_one, sign_eq]
      exact represents_newSign normal_n nonzero_n sign
    · rw [value, one, mod_one, signed_zero]
      exact represents_makeZero
  by_cases small' : digit < radixRoot
  · obtain ⟨q, r, ran, quotients, remainders⟩ :=
      divideUnsignedSmall_represents normal_n nonzero_n (by omega) small' sign (some n.negative)
    obtain ⟨q', _, ran_q, quotients', -⟩ :=
      divideUnsignedSmall_represents normal_n nonzero_n (by omega) small' sign none
    obtain rfl : q' = q := quotients'.unique quotients
    refine ⟨q', r n.negative, ?_, ?_, by rw [value, sign_eq]; exact quotients, value ▸ remainders _⟩
    · simp only [divide, if_neg nonzero_n, greater, split, reduceCtorEq, if_false, sign_eq, if_neg one, if_pos small', ran,
        someBind, Option.map_some]
    · simp only [quotient, if_neg nonzero_n, greater, split, reduceCtorEq, if_false, sign_eq, if_neg one, if_pos small', ran_q,
        someBind]
  · obtain ⟨q, r, ran, quotients, remainders⟩ :=
      divideUnsignedMedium_represents normal_n nonzero_n positive small (some sign) (some n.negative)
    obtain ⟨q', _, ran_q, quotients', -⟩ :=
      divideUnsignedMedium_represents normal_n nonzero_n positive small (some sign) none
    have same : q' sign = q sign := (quotients' sign).unique (quotients sign)
    refine ⟨q sign, r n.negative, ?_, ?_, by rw [value, sign_eq]; exact quotients sign, value ▸ remainders _⟩
    · simp only [divide, if_neg nonzero_n, greater, split, reduceCtorEq, if_false, sign_eq, if_neg one, if_neg small', ran,
        someBind, Option.map_some]
    · simp only [quotient, if_neg nonzero_n, greater, split, reduceCtorEq, if_false, sign_eq, if_neg one, if_neg small', ran_q,
        someBind, Option.map_some, same]

theorem divide_digit_remainder (nonzero_n : n.digits ≠ []) {digit : Nat} (split : d.digits = [digit])
    (small : digit < radix) (positive : 0 < digit) (greater : compareUnsigned n d = .greater) : ∃ r, remainder n d =
    some (some r) ∧ r.Represents (signed n.negative (n.magnitude % d.magnitude : Nat)) := by
  have value : d.magnitude = digit := by rw [magnitude, split, ofDigits_singleton]
  rw [value]
  by_cases power : digit &&& (digit - 1) = 0
  · obtain ⟨low, rest, split_n⟩ := exists_cons_of_ne_nil nonzero_n
    have masked := and_pred_eq_mod power positive small low rest
    rw [← split_n] at masked
    have below : n.magnitude % digit < radix := (mod_lt _ positive).trans small
    by_cases divisible : (digit - 1) &&& low = 0
    · refine ⟨makeZero, ?_, ?_⟩
      · simp [remainder, split_n, greater, split, if_pos power, if_pos divisible]
      · rw [magnitude, ← masked, divisible, signed_zero]
        exact represents_makeZero
    · refine ⟨digitToBignum (n.magnitude % digit) n.negative, ?_, represents_digitToBignum below _⟩
      simp only [remainder, split_n, reduceCtorEq, if_false, greater, split, if_pos power, if_neg divisible]
      rw [masked, magnitude]
  have large : 1 < digit := by
    by_contra one
    obtain rfl : digit = 1 := by omega
    exact power rfl
  by_cases small' : digit < radixRoot
  · obtain ⟨r, ran, represents⟩ := remainderUnsignedSmall_represents normal_n large small' n.negative
    refine ⟨r, ?_, represents⟩
    simp only [remainder, if_neg nonzero_n, greater, split, reduceCtorEq, if_false, if_neg power, if_pos small', ran, someBind]
  · obtain ⟨_, r, ran, -, remainders⟩ :=
      divideUnsignedMedium_represents normal_n nonzero_n positive small none (some n.negative)
    refine ⟨r n.negative, ?_, remainders _⟩
    simp only [remainder, if_neg nonzero_n, greater, split, reduceCtorEq, if_false, if_neg power, if_neg small', ran, someBind,
      Option.map_some]

theorem divide_digit (nonzero_n : n.digits ≠ []) {digit : Nat} (split : d.digits = [digit]) (small : digit < radix)
    (positive : 0 < digit) (greater : compareUnsigned n d = .greater) : ∃ q r, divide n d = some (some (q, r)) ∧
    quotient n d = some (some q) ∧ remainder n d = some (some r) ∧ Divides n d q r := by
  obtain ⟨q, r, divided, quotient, divides⟩ :=
    divide_digit_quotient normal_n nonzero_n split small positive greater
  obtain ⟨r', remainder, represents⟩ := divide_digit_remainder normal_n nonzero_n split small positive greater
  obtain rfl : r' = r := represents.unique divides.remainder
  exact ⟨q, r', divided, quotient, remainder, divides⟩

theorem divide_digits (normal_d : d.Normalized) (nonzero_n : n.digits ≠ []) (long : 1 < d.digits.length)
    (greater : compareUnsigned n d = .greater) : ∃ q r, divide n d = some (some (q, r)) ∧ quotient n d = some (some q) ∧
    remainder n d = some (some r) ∧ Divides n d q r := by
  have nonzero : d.digits ≠ [] := by
    rintro empty
    rw [empty] at long
    exact absurd long (by decide)
  have fits : d.digits.length ≤ n.digits.length := by
    by_contra shorter
    rw [compareUnsigned, if_pos (not_le.mp shorter)] at greater
    cases greater
  have large {α : Type} (f : Nat → α) (g : α) : (match d.digits with | [digit] => f digit | _ => g) = g := by
    match d.digits, long with
    | _ :: _ :: _, _ => rfl
  generalize sign_eq : (if d.negative then !n.negative else n.negative) = sign
  obtain ⟨q, r, ran, quotients, remainders⟩ :=
    divideUnsignedLarge_represents normal_n normal_d long fits (some sign) (some n.negative)
  obtain ⟨q', _, ran_q, quotients', -⟩ := divideUnsignedLarge_represents normal_n normal_d long fits (some sign) none
  obtain ⟨_, r', ran_r, -, remainders'⟩ :=
    divideUnsignedLarge_represents normal_n normal_d long fits none (some n.negative)
  have same_q : q' sign = q sign := (quotients' sign).unique (quotients sign)
  have same_r : r' n.negative = r n.negative := (remainders' rfl _).unique (remainders rfl _)
  refine ⟨q sign, r n.negative, ?_, ?_, ?_, by rw [sign_eq]; exact quotients sign, remainders rfl _⟩
  · simp only [divide, if_neg nonzero, if_neg nonzero_n, greater, large, sign_eq, ran, someBind, Option.map_some]
  · simp only [quotient, if_neg nonzero, if_neg nonzero_n, greater, large, sign_eq, ran_q, someBind, Option.map_some,
      same_q]
  · simp only [remainder, if_neg nonzero, if_neg nonzero_n, greater, large, ran_r, someBind, Option.map_some, same_r]

theorem divide_divides (normal_d : d.Normalized) (nonzero : d.digits ≠ []) : ∃ q r, divide n d = some (some (q, r)) ∧
    quotient n d = some (some q) ∧ remainder n d = some (some r) ∧ Divides n d q r := by
  have positive := normal_d.magnitude_pos nonzero
  by_cases zero : n.digits = []
  · have none : n.magnitude = 0 := normal_n.magnitude_eq_zero.mpr zero
    have represents : n.Represents 0 := ⟨normal_n, toInt_of_zero zero⟩
    refine ⟨n, n, by rw [divide, if_neg nonzero, if_pos zero], by rw [quotient, if_neg nonzero, if_pos zero],
      by rw [remainder, if_neg nonzero, if_pos zero], ?_, ?_⟩
    · rwa [none, Nat.zero_div, signed_zero]
    · rwa [none, zero_mod, signed_zero]
  have order := compareUnsigned_holds normal_n normal_d
  generalize sign_eq : (if d.negative then !n.negative else n.negative) = sign
  have finish : ∀ {q r : Bignum}, q.Represents (signed sign (n.magnitude / d.magnitude : Nat)) →
      r.Represents (signed n.negative (n.magnitude % d.magnitude : Nat)) → Divides n d q r := by
    intro q r quotient remainder
    exact ⟨by rwa [sign_eq], remainder⟩
  cases compared : compareUnsigned n d with
  | equal =>
    rw [compared] at order
    have same : n.magnitude = d.magnitude := order
    refine ⟨makeOne sign, makeZero, by simp [divide, if_neg nonzero, if_neg zero, compared, sign_eq],
      by simp [quotient, if_neg nonzero, if_neg zero, compared, sign_eq],
      by simp [remainder, if_neg nonzero, if_neg zero, compared], finish ?_ ?_⟩
    · rw [same, Nat.div_self positive]
      exact represents_makeOne sign
    · rw [same, mod_self, signed_zero]
      exact represents_makeZero
  | less =>
    rw [compared] at order
    have less : n.magnitude < d.magnitude := order
    refine ⟨makeZero, n, by simp [divide, if_neg nonzero, if_neg zero, compared], by simp [quotient, if_neg nonzero,
      if_neg zero, compared], by simp [remainder, if_neg nonzero, compared], finish ?_ ?_⟩
    · rw [div_eq_of_lt less, signed_zero]
      exact represents_makeZero
    · rw [mod_eq_of_lt less]
      exact normal_n.represents
  | greater =>
    rcases lt_or_ge 1 d.digits.length with long | short
    · exact divide_digits normal_n normal_d zero long compared
    · obtain ⟨digit, split⟩ := length_eq_one_iff.mp (short.antisymm (length_pos_iff.mpr nonzero))
      rw [magnitude, split] at positive
      exact divide_digit normal_n zero split (normal_d.digits digit (by simp [split])) positive compared

end

/-- Division is exact, the three operations agree, the guess of the schoolbook loop is at most one
too large, and no word on the way leaves its range. -/
theorem division_exact (normal_n : n.Normalized) (normal_d : d.Normalized) (nonzero : d.digits ≠ []) :
    (∃ q r, divide n d = some (some (q, r)) ∧ q.Normalized ∧ r.Normalized ∧
      n.toInt = q.toInt * d.toInt + r.toInt ∧ r.toInt.natAbs < d.toInt.natAbs ∧
      (r.toInt = 0 ∨ (r.toInt < 0 ↔ n.toInt < 0)) ∧
      quotient n d = some (some q) ∧ remainder n d = some (some r)) ∧
    ∀ shift u v, largeOperands n d = some (shift, u, v) → ∀ passes < u.length - v.length,
      let start := u.length - v.length - (passes + 1)
      ∃ state guess next, divideRun v u passes = some state ∧ windowGuess v state.u start = some guess ∧
        state.window v start / Nat.ofDigits radix v ≤ guess ∧
        guess ≤ state.window v start / Nat.ofDigits radix v + 1 ∧
        divideStep v state start = some next ∧ next.q = state.window v start / Nat.ofDigits radix v :: state.q ∧
        next.window v start = state.window v start % Nat.ofDigits radix v := by
  constructor
  · obtain ⟨q, r, divided, quotient, remainder, divides⟩ := divide_divides normal_n normal_d nonzero
    obtain ⟨whole, less, sign⟩ := divides.exact (normal_d.magnitude_pos nonzero)
    exact ⟨q, r, divided, divides.quotient.normalized, divides.remainder.normalized, whole, less, sign, quotient,
      remainder⟩
  · intro shift u v operands passes more
    have long : 1 < d.digits.length := by
      by_contra short
      rw [largeOperands, if_neg short] at operands
      cases operands
    obtain ⟨s, u', v', operands', -, digits_u, length_u, -, denominator, length_v, -, below⟩ :=
      largeOperands_spec normal_n normal_d long
    rw [operands] at operands'
    cases operands'
    exact divideRun_guess denominator digits_u (below (by omega)) more

theorem division_exact_three_digits :
    let n : Bignum := { negative := true, digits := [0, 0, radix / 2] }
    let d : Bignum := { negative := false, digits := [1, radix / 2] }
    (∃ q r, divide n d = some (some (q, r)) ∧ q.Normalized ∧ r.Normalized ∧
      n.toInt = q.toInt * d.toInt + r.toInt ∧ r.toInt.natAbs < d.toInt.natAbs ∧
      (r.toInt = 0 ∨ (r.toInt < 0 ↔ n.toInt < 0)) ∧
      quotient n d = some (some q) ∧ remainder n d = some (some r)) ∧
    ∀ shift u v, largeOperands n d = some (shift, u, v) → ∀ passes < u.length - v.length,
      let start := u.length - v.length - (passes + 1)
      ∃ state guess next, divideRun v u passes = some state ∧ windowGuess v state.u start = some guess ∧
        state.window v start / Nat.ofDigits radix v ≤ guess ∧
        guess ≤ state.window v start / Nat.ofDigits radix v + 1 ∧
        divideStep v state start = some next ∧ next.q = state.window v start / Nat.ofDigits radix v :: state.q ∧
        next.window v start = state.window v start % Nat.ofDigits radix v :=
  division_exact (by decide) (by decide) (by decide)

end

end MitScheme.Microcode.Bignum
