import MitScheme.Microcode.Bignum.Add
import MitScheme.Microcode.Bignum.WordRange
import Mathlib.Data.Nat.Size

/-!
The length of a result is computed before its digits are written. A digit that is read outside of its operand, a digit
that is written outside of the result or is left out, and a failed assertion are `none`.
-/

namespace MitScheme.Microcode.Bignum

open Library List
open Nat (div_eq_of_lt ofDigits ofDigits_cons shiftLeft_eq shiftRight_eq_div_pow size_le sub_le)

def lengthMax : Nat := radix / digitLength - digitLength

def filled (length : Int) (negative : Bool) (digits : List Nat) : Option Bignum :=
  if (0 ≤ length ∧ length ≤ lengthMax) ∧ digits.length = length then some { negative, digits } else none

def digitMask : Nat := radix - 1

def digitOnes (n : Nat) : Nat := 2 ^ n - 1

/-- The bits that the shift moves out of a word are not under the mask. -/
def shiftLeftLoop (shift : Nat) : List Nat → (temp : Nat) → List Nat
  | [], temp => if temp ≠ 0 then [temp] else []
  | digit :: digits, temp =>
    (digit <<< shift &&& digitMask ||| temp) :: shiftLeftLoop shift digits (digit >>> (digitLength - shift))

def shiftLeft (x : Bignum) (m : Nat) : Option Bignum :=
  match x.digits.getLast? with
  | none => some x
  | some msd =>
    if m = 0 then some x
    else
      let total := (msd.size + m) % 2 ^ 64
      let zeroes := m / digitLength
      let shift := m % digitLength
      let length := x.digits.length - 1 + total / digitLength + if total % digitLength ≠ 0 then 1 else 0
      filled length x.negative <| List.replicate zeroes 0 ++
        if shift = 0 then x.digits else shiftLeftLoop shift x.digits 0

def wordDigits (n : Nat) : List Nat :=
  if 0 < n then (n &&& digitMask) :: wordDigits (n >>> digitLength) else []
decreasing_by
  rw [shiftRight_eq_div_pow]
  exact Nat.div_lt_self ‹_› (by decide)

def unsignedLongToShiftedBignum (n m : Nat) (sign : Bool) : Option Bignum :=
  if n = 0 then some makeZero
  else
    let total := (n.size + m) % 2 ^ 64
    let zeroes := m / digitLength
    let shift := m % digitLength
    let length := total / digitLength + if total % digitLength ≠ 0 then 1 else 0
    filled length sign <| List.replicate zeroes 0 ++
      (n <<< shift &&& digitMask) :: wordDigits (n >>> (digitLength - shift))

def bitwiseNot (x : Bignum) : Option Bignum := subtract (makeOne true) x

def shiftRightLoop (bits : Nat) : List Nat → (extra : Nat) → List Nat
  | [], extra => if extra ≠ 0 then [extra] else []
  | digit :: digits, extra =>
    ((digit &&& digitOnes bits) <<< (digitLength - bits) ||| extra) :: shiftRightLoop bits digits (digit >>> bits)

def shiftRightUnsigned (x : Bignum) (digits bits : Nat) : Option Bignum :=
  let length : Int := x.digits.length - digits - if x.digits.getLast?.any (· >>> bits = 0) then 1 else 0
  if bits = 0 then filled length false (x.digits.drop digits)
  else do
    let digit ← x.digits[digits]?
    filled length false (shiftRightLoop bits (x.digits.drop (digits + 1)) (digit >>> bits))

def shiftRight (x : Bignum) (m : Nat) : Option Bignum :=
  let digits := m / digitLength
  let bits := m % digitLength
  if digits ≥ x.digits.length then some (if x.negative then makeOne true else makeZero)
  else if x.negative then do bitwiseNot (← shiftRightUnsigned (← bitwiseNot x) digits bits)
  else shiftRightUnsigned x digits bits

section
variable {x : Bignum} {ds : List Nat} {n m k d shift bits temp : Nat}

theorem lt_radix_pow : n < radix ^ k ↔ n.size ≤ k * digitLength := by rw [radix_pow, size_le]

theorem length_eq_bitsToDigits (digits : Digits radix ds) (leading : Leading ds) :
    ds.length = bitsToDigits (ofDigits radix ds).size := by
  have upper := lt_radix_pow.mp (Nat.ofDigits_lt_base_pow_length one_lt_radix digits)
  have length : digitLength = 62 := rfl
  rcases eq_nil_or_concat ds with rfl | ⟨init, d, rfl⟩
  · simp [bitsToDigits, length]
  · have lower := (pow_le_ofDigits (b := radix) leading (by simp)).not_gt
    rw [lt_radix_pow] at lower
    rw [length] at upper lower
    rw [bitsToDigits, length]
    omega

theorem size_mul_two_pow (positive : 0 < n) : (n * 2 ^ m).size = n.size + m := by
  rw [← shiftLeft_eq, Nat.size_shiftLeft (pos_iff_ne_zero.mp positive)]

theorem size_concat (digits : Digits radix ds) (positive : 0 < d) :
    (ofDigits radix (ds ++ [d])).size = ds.length * digitLength + d.size := by
  have small := Nat.ofDigits_lt_base_pow_length one_lt_radix digits
  rw [radix_pow] at small
  rw [Nat.ofDigits_append, Nat.ofDigits_singleton, radix_pow]
  have upper := Nat.lt_size_self d
  have lower : 2 ^ (d.size - 1) ≤ d := Nat.lt_size.mp (Nat.sub_lt (Nat.size_pos.mpr positive) one_pos)
  apply le_antisymm
  · rw [size_le, pow_add]
    have step : 2 ^ (ds.length * digitLength) * (d + 1) ≤ 2 ^ (ds.length * digitLength) * 2 ^ d.size := Nat.mul_le_mul_left _ upper
    rw [Nat.mul_succ] at step
    omega
  · have last : ds.length * digitLength + (d.size - 1) < (ofDigits radix ds + 2 ^ (ds.length * digitLength) * d).size := by
      rw [Nat.lt_size, pow_add]
      exact (Nat.mul_le_mul_left _ lower).trans (Nat.le_add_left _ _)
    omega

section
variable (small : shift ≤ digitLength)
include small

theorem radix_split : radix = 2 ^ shift * 2 ^ (digitLength - shift) := by
  rw [radix, ← pow_add, Nat.add_sub_of_le small]

theorem shift_digit (below : temp < 2 ^ shift) :
    (d <<< shift &&& digitMask ||| temp) + radix * (d >>> (digitLength - shift)) = temp + 2 ^ shift * d := by
  have kept : d <<< shift &&& digitMask = 2 ^ shift * (d % 2 ^ (digitLength - shift)) := by
    rw [digitMask, radix, Nat.and_two_pow_sub_one_eq_mod, shiftLeft_eq, mul_comm]
    change 2 ^ shift * d % radix = _
    rw [radix_split small, Nat.mul_mod_mul_left]
  rw [kept, ← Nat.two_pow_add_eq_or_of_lt below, shiftRight_eq_div_pow, radix_split small]
  have whole := Nat.div_add_mod d (2 ^ (digitLength - shift))
  calc 2 ^ shift * (d % 2 ^ (digitLength - shift)) + temp + 2 ^ shift * 2 ^ (digitLength - shift) * (d / 2 ^ (digitLength - shift))
      = temp + 2 ^ shift * (2 ^ (digitLength - shift) * (d / 2 ^ (digitLength - shift)) + d % 2 ^ (digitLength - shift)) := by ring
    _ = temp + 2 ^ shift * d := by rw [whole]

theorem shiftLeftLoop_spec (digits : Digits radix ds) (below : temp < 2 ^ shift) :
    Digits radix (shiftLeftLoop shift ds temp) ∧
      ofDigits radix (shiftLeftLoop shift ds temp) = temp + 2 ^ shift * ofDigits radix ds := by
  have room : 2 ^ shift ≤ radix := Nat.pow_le_pow_right (by decide) small
  induction ds generalizing temp with
  | nil =>
    rw [shiftLeftLoop]
    split
    · refine ⟨digits_cons.mpr ⟨below.trans_le room, digits_nil⟩, ?_⟩
      simp
    · next zero =>
      refine ⟨digits_nil, ?_⟩
      simpa using (not_not.mp zero).symm
  | cons d ds ih =>
    rw [digits_cons] at digits
    have next : d >>> (digitLength - shift) < 2 ^ shift := by
      rw [shiftRight_eq_div_pow, Nat.div_lt_iff_lt_mul (Nat.pow_pos (by decide)), ← radix_split small]
      exact digits.1
    obtain ⟨rest, value⟩ := ih digits.2 next
    have step := shift_digit (d := d) small below
    have digit : d <<< shift &&& digitMask ||| temp < radix := by
      apply Nat.or_lt_two_pow
      · rw [digitMask, radix, Nat.and_two_pow_sub_one_eq_mod]
        exact Nat.mod_lt _ (by decide)
      · exact below.trans_le room
    rw [shiftLeftLoop]
    refine ⟨digits_cons.mpr ⟨digit, rest⟩, ?_⟩
    rw [ofDigits_cons, value, ofDigits_cons]
    linear_combination step

theorem leading_shiftLeftLoop (leading : Leading ds) : Leading (shiftLeftLoop shift ds temp) := by
  induction ds generalizing temp with
  | nil =>
    rw [shiftLeftLoop]
    split
    · next nonzero => simpa [Leading] using nonzero
    · simp
  | cons d ds ih =>
    rw [shiftLeftLoop]
    cases ds with
    | nil =>
      have nonzero : d ≠ 0 := by simpa [Leading] using leading
      rw [shiftLeftLoop]
      split
      · next handed => simpa [Leading] using handed
      · next kept =>
        -- Nothing of the leading digit was handed on, so all of it is in the last digit that is written.
        intro zero
        have last : d <<< shift &&& digitMask ||| temp = 0 := by simpa using zero
        have no_temp : temp = 0 := (Nat.or_eq_zero_iff.mp last).2
        have step := shift_digit (d := d) small (no_temp ▸ Nat.pow_pos (by decide) : temp < 2 ^ shift)
        rw [last, not_not.mp kept] at step
        have product : 2 ^ shift * d = 0 := by omega
        rcases mul_eq_zero.mp product with power | zero
        · exact absurd power (pos_iff_ne_zero.mp (Nat.pow_pos (by decide)))
        · exact nonzero zero
    | cons d' ds =>
      have rest : Leading (shiftLeftLoop shift (d' :: ds) (d >>> (digitLength - shift))) := ih (by simpa [Leading] using leading)
      rw [Leading, getLast?_cons_of_ne_nil]
      · exact rest
      · simp [shiftLeftLoop]

end

theorem shiftRightLoop_eq (small : bits ≤ digitLength) :
    shiftRightLoop bits ds temp = shiftLeftLoop (digitLength - bits) ds temp := by
  induction ds generalizing temp with
  | nil => rfl
  | cons d ds ih =>
    have back : digitLength - (digitLength - bits) = bits := by omega
    have digit : (d &&& digitOnes bits) <<< (digitLength - bits) = d <<< (digitLength - bits) &&& digitMask := by
      rw [digitOnes, digitMask, radix, Nat.and_two_pow_sub_one_eq_mod, Nat.and_two_pow_sub_one_eq_mod, shiftLeft_eq,
        shiftLeft_eq]
      change _ = _ % radix
      rw [radix_split small, Nat.mul_mod_mul_right]
    rw [shiftRightLoop, shiftLeftLoop, ih, digit, back]

theorem filled_of_length {length : Int} {negative : Bool} (same : length = ds.length) :
    filled length negative ds = if ds.length ≤ lengthMax then some { negative, digits := ds } else none := by
  have fits : ((0 ≤ length ∧ length ≤ lengthMax) ∧ ds.length = length) ↔ ds.length ≤ lengthMax := by omega
  rw [filled]
  simp [fits]

theorem filled_of_ne {length : Int} {negative : Bool} (different : length ≠ ds.length) : filled length negative ds = none := by
  rw [filled, if_neg]
  exact fun fits => different fits.2.symm

theorem represents_zeroes (negative : Bool) (digits : Digits radix ds) (leading : Leading ds) (nonempty : ds ≠ []) (zeroes : Nat) :
    ({ negative, digits := List.replicate zeroes 0 ++ ds } : Bignum).Represents
      (signed negative (radix ^ zeroes * ofDigits radix ds : Nat)) := by
  refine ⟨⟨?_, ?_, fun empty => ?_⟩, ?_⟩
  · apply Digits.append _ digits
    intro d member
    rw [eq_of_mem_replicate member]
    decide
  · rw [Leading, getLast?_append_of_ne_nil _ nonempty]
    exact leading
  · exact absurd (append_eq_nil_iff.mp empty).2 nonempty
  · rw [toInt_eq_signed, magnitude, Nat.ofDigits_append, Nat.ofDigits_replicate_zero, length_replicate, zero_add]

theorem bitsToDigits_eq (n : Nat) : bitsToDigits n = n / digitLength + if n % digitLength ≠ 0 then 1 else 0 := by
  have length : digitLength = 62 := rfl
  rw [bitsToDigits, length]
  split <;> omega

theorem bitsToDigits_add (n : Nat) : bitsToDigits (k * digitLength + n) = k + bitsToDigits n := by
  have length : digitLength = 62 := rfl
  rw [bitsToDigits, bitsToDigits, length]
  omega

theorem size_magnitude (normalized : x.Normalized) {msd : Nat} (last : x.digits.getLast? = some msd) :
    0 < msd.size ∧ msd.size ≤ digitLength ∧ x.magnitude.size = (x.digits.length - 1) * digitLength + msd.size := by
  obtain ⟨init, split⟩ := getLast?_eq_some_iff.mp last
  have digits := normalized.digits
  have positive : 0 < msd := by
    apply pos_of_ne_zero
    rintro rfl
    exact normalized.leading last
  rw [split] at digits
  refine ⟨Nat.size_pos.mpr positive, size_le.mpr (digits msd (by simp)), ?_⟩
  rw [magnitude, split, size_concat (fun d member => digits d (mem_append_left _ member)) positive]
  simp

def shiftedDigits (ds : List Nat) (shift : Nat) : List Nat := if shift = 0 then ds else shiftLeftLoop shift ds 0

theorem shiftedDigits_spec (digits : Digits radix ds) (leading : Leading ds) (small : shift ≤ digitLength) :
    Digits radix (shiftedDigits ds shift) ∧ Leading (shiftedDigits ds shift) ∧
      ofDigits radix (shiftedDigits ds shift) = 2 ^ shift * ofDigits radix ds := by
  unfold shiftedDigits
  split
  · next zero =>
    refine ⟨digits, leading, ?_⟩
    rw [zero, pow_zero, one_mul]
  · obtain ⟨digits', value⟩ := shiftLeftLoop_spec small digits (Nat.pow_pos (by decide) : 0 < 2 ^ shift)
    exact ⟨digits', leading_shiftLeftLoop small leading, value.trans (zero_add _)⟩

theorem length_shifted (digits : Digits radix ds) (leading : Leading ds) (value : ofDigits radix ds = 2 ^ shift * n)
    (positive : 0 < n) (zeroes : Nat) :
    (List.replicate zeroes 0 ++ ds).length = bitsToDigits (n.size + (zeroes * digitLength + shift)) := by
  have bits : n.size + (zeroes * digitLength + shift) = zeroes * digitLength + (n.size + shift) := by omega
  rw [length_append, length_replicate, length_eq_bitsToDigits digits leading, value, mul_comm,
    size_mul_two_pow positive, bits, bitsToDigits_add]

theorem lengthMax_eq : lengthMax = 74382032555280388 := by decide

/-- When the sum of the bits does not fit in a word, the result that is allocated is too short, and it would be too
long. -/
theorem short_of_wrap {size : Nat} (small : size ≤ 64) (range : m < 2 ^ 64) (wraps : 2 ^ 64 ≤ size + m) :
    bitsToDigits ((size + m) % 2 ^ 64) < bitsToDigits (size + m) ∧ lengthMax < bitsToDigits (size + m) := by
  have length : digitLength = 62 := rfl
  rw [bitsToDigits, bitsToDigits, length, lengthMax_eq]
  omega

theorem filled_shifted (negative : Bool) {size k : Nat} (small : size ≤ 64) (range : m < 2 ^ 64)
    (written : ds.length = k + bitsToDigits (size + m)) :
    filled ((k + bitsToDigits ((size + m) % 2 ^ 64) : Nat) : Int) negative ds =
      if ds.length ≤ lengthMax then some { negative, digits := ds } else none := by
  by_cases wraps : 2 ^ 64 ≤ size + m
  · obtain ⟨short, long⟩ := short_of_wrap small range wraps
    rw [filled_of_ne (by omega), if_neg (by omega)]
  · rw [Nat.mod_eq_of_lt (not_le.mp wraps), ← written, filled_of_length rfl]

theorem shiftLeft_eq (normalized : x.Normalized) (nonzero : x.digits ≠ []) (moves : m ≠ 0) (range : m < 2 ^ 64) :
    ∃ ds, ds.length = bitsToDigits (x.magnitude.size + m) ∧
      ({ negative := x.negative, digits := ds } : Bignum).Represents (x.toInt * 2 ^ m) ∧
      shiftLeft x m = if ds.length ≤ lengthMax then some { negative := x.negative, digits := ds } else none := by
  obtain ⟨msd, last⟩ : ∃ msd, x.digits.getLast? = some msd := ⟨_, getLast?_eq_some_getLast nonzero⟩
  obtain ⟨positive, size, bits⟩ := size_magnitude normalized last
  obtain ⟨digits, leading, value⟩ :=
    shiftedDigits_spec normalized.digits normalized.leading (Nat.mod_lt m (by decide : 0 < digitLength)).le
  change _ = _ * x.magnitude at value
  have split : m / digitLength * digitLength + m % digitLength = m := Nat.div_add_mod' m digitLength
  have length := length_shifted digits leading value (normalized.magnitude_pos nonzero) (m / digitLength)
  have nonempty : shiftedDigits x.digits (m % digitLength) ≠ [] := by
    intro empty
    rw [empty, Nat.ofDigits_nil] at value
    have large := mul_pos (pow_pos (n := m % digitLength) (by decide : 0 < 2)) (normalized.magnitude_pos nonzero)
    omega
  have represents := represents_zeroes x.negative digits leading nonempty (m / digitLength)
  refine ⟨_, by rw [length, split], ?_, ?_⟩
  · have power : radix ^ (m / digitLength) * (2 ^ (m % digitLength) * x.magnitude) = x.magnitude * 2 ^ m := by
      rw [radix_pow, ← mul_assoc, ← pow_add, split, mul_comm]
    have whole : x.toInt * 2 ^ m = signed x.negative (x.magnitude * 2 ^ m : Nat) := by
      rw [toInt_eq_signed, signed, signed]
      split <;> push_cast <;> ring
    rw [value] at represents
    rw [whole, ← power]
    exact represents
  · have written : (replicate (m / digitLength) 0 ++ shiftedDigits x.digits (m % digitLength)).length =
        x.digits.length - 1 + bitsToDigits (msd.size + m) := by
      rw [length, split, bits, add_assoc, bitsToDigits_add]
    have result := filled_shifted x.negative (size.trans (by decide)) range written
    rw [bitsToDigits_eq, ← add_assoc] at result
    rw [shiftLeft, last]
    dsimp only
    rw [if_neg moves]
    exact_mod_cast result

theorem wordDigits_spec (n : Nat) :
    Digits radix (wordDigits n) ∧ Leading (wordDigits n) ∧ ofDigits radix (wordDigits n) = n := by
  induction n using wordDigits.induct with
  | case1 n positive ih =>
    obtain ⟨digits, leading, value⟩ := ih
    have low : n &&& digitMask = n % radix := Nat.and_two_pow_sub_one_eq_mod n digitLength
    have high : n >>> digitLength = n / radix := shiftRight_eq_div_pow n digitLength
    rw [wordDigits, if_pos positive]
    refine ⟨digits_cons.mpr ⟨low ▸ Nat.mod_lt _ (by decide), digits⟩, ?_, ?_⟩
    · cases rest : wordDigits (n >>> digitLength) with
      | nil =>
        rw [rest, Nat.ofDigits_nil] at value
        rw [Leading, getLast?_singleton, low]
        intro zero
        have whole := Nat.div_add_mod n radix
        rw [← high, ← value, Option.some.inj zero] at whole
        omega
      | cons d ds =>
        rw [Leading, getLast?_cons_of_ne_nil (cons_ne_nil d ds), ← rest]
        exact leading
    · rw [ofDigits_cons, value, low, high]
      exact Nat.mod_add_div n radix
  | case2 n zero =>
    rw [wordDigits, if_neg zero]
    refine ⟨digits_nil, by simp, ?_⟩
    rw [Nat.ofDigits_nil]
    omega

theorem shiftedWord_spec (positive : 0 < n) (small : shift ≤ digitLength) :
    let ds := (n <<< shift &&& digitMask) :: wordDigits (n >>> (digitLength - shift))
    Digits radix ds ∧ Leading ds ∧ ofDigits radix ds = 2 ^ shift * n := by
  intro ds
  obtain ⟨digits, leading, value⟩ := wordDigits_spec (n >>> (digitLength - shift))
  have step := shift_digit (d := n) small (Nat.pow_pos (by decide) : 0 < 2 ^ shift)
  rw [Nat.or_zero, zero_add] at step
  refine ⟨digits_cons.mpr ⟨?_, digits⟩, ?_, ?_⟩
  · rw [digitMask, radix, Nat.and_two_pow_sub_one_eq_mod]
    exact Nat.mod_lt _ (by decide)
  · cases rest : wordDigits (n >>> (digitLength - shift)) with
    | nil =>
      rw [rest, Nat.ofDigits_nil] at value
      rw [← value, mul_zero, add_zero] at step
      change Leading ((n <<< shift &&& digitMask) :: wordDigits (n >>> (digitLength - shift)))
      rw [rest, Leading, step]
      simpa using (pos_iff_ne_zero.mp positive)
    | cons d ds =>
      change Leading ((n <<< shift &&& digitMask) :: wordDigits (n >>> (digitLength - shift)))
      rw [rest, Leading, getLast?_cons_of_ne_nil (cons_ne_nil d ds), ← rest]
      exact leading
  · rw [ofDigits_cons, value]
    exact step

theorem unsignedLongToShiftedBignum_eq (positive : 0 < n) (word : n < 2 ^ 64) (range : m < 2 ^ 64) (sign : Bool) :
    ∃ ds, ds.length = bitsToDigits (n.size + m) ∧
      ({ negative := sign, digits := ds } : Bignum).Represents (signed sign (n * 2 ^ m : Nat)) ∧
      unsignedLongToShiftedBignum n m sign =
        if ds.length ≤ lengthMax then some { negative := sign, digits := ds } else none := by
  obtain ⟨digits, leading, value⟩ := shiftedWord_spec positive (Nat.mod_lt m (by decide : 0 < digitLength)).le
  have split : m / digitLength * digitLength + m % digitLength = m := Nat.div_add_mod' m digitLength
  have length := length_shifted digits leading value positive (m / digitLength)
  rw [split] at length
  have represents := represents_zeroes sign digits leading (cons_ne_nil _ _) (m / digitLength)
  have power : radix ^ (m / digitLength) * (2 ^ (m % digitLength) * n) = n * 2 ^ m := by
    rw [radix_pow, ← mul_assoc, ← pow_add, split, mul_comm]
  rw [value, power] at represents
  refine ⟨_, length, represents, ?_⟩
  have result := filled_shifted sign (k := 0) (size_le.mpr word) range (by rw [length, zero_add])
  rw [bitsToDigits_eq, zero_add] at result
  rw [unsignedLongToShiftedBignum, if_neg (pos_iff_ne_zero.mp positive)]
  exact_mod_cast result

theorem bitwiseNot_represents (normalized : x.Normalized) :
    ∃ r, bitwiseNot x = some r ∧ r.Represents (-1 - x.toInt) := by
  have one := represents_makeOne true
  obtain ⟨r, returns, represents⟩ := subtract_represents one.normalized normalized
  exact ⟨r, returns, represents⟩

theorem size_div_two_pow : (n / 2 ^ m).size = n.size - m := by
  apply eq_of_forall_ge_iff
  intro k
  rw [size_le, Nat.div_lt_iff_lt_mul (Nat.pow_pos (by decide)), ← pow_add, ← size_le]
  omega

theorem leading_drop (leading : Leading ds) : Leading (ds.drop k) := by
  rw [Leading, getLast?_drop]
  split
  · nofun
  · exact leading

theorem ofDigits_drop (digits : Digits radix ds) (inside : k ≤ ds.length) :
    ofDigits radix (ds.drop k) = ofDigits radix ds / radix ^ k := by
  have low := Nat.ofDigits_lt_base_pow_length one_lt_radix (digits.take k)
  rw [length_take, min_eq_left inside] at low
  rw [ofDigits_take_add_drop ds inside, Nat.add_mul_div_left _ _ (Nat.pow_pos (by decide)), div_eq_of_lt low, zero_add]

theorem shiftedRight_spec (digits : Digits radix ds) (leading : Leading ds) (held : ds[k]? = some d) (small : bits < digitLength) :
    let written := if bits = 0 then ds.drop k else shiftRightLoop bits (ds.drop (k + 1)) (d >>> bits)
    Digits radix written ∧ Leading written ∧
      ofDigits radix written = ofDigits radix ds / 2 ^ (k * digitLength + bits) := by
  intro written
  obtain ⟨inside, same⟩ := List.getElem?_eq_some_iff.mp held
  have whole := ofDigits_drop digits inside.le
  have quotient : ofDigits radix ds / 2 ^ (k * digitLength + bits) = ofDigits radix (ds.drop k) / 2 ^ bits := by
    rw [whole, radix_pow, Nat.div_div_eq_div_mul, pow_add]
  rw [quotient]
  by_cases none : bits = 0
  · have all : written = ds.drop k := if_pos none
    rw [all, none, pow_zero, Nat.div_one]
    exact ⟨digits.drop k, (leading_drop leading), rfl⟩
  · have all : written = shiftLeftLoop (digitLength - bits) (ds.drop (k + 1)) (d >>> bits) :=
      (if_neg none).trans (shiftRightLoop_eq small.le)
    have part : d >>> bits < 2 ^ (digitLength - bits) := by
      rw [shiftRight_eq_div_pow, Nat.div_lt_iff_lt_mul (Nat.pow_pos (by decide)), mul_comm, ← radix_split small.le]
      exact digits d (mem_of_getElem? held)
    obtain ⟨digits', value⟩ := shiftLeftLoop_spec (sub_le _ _) (digits.drop (k + 1)) part
    rw [all]
    refine ⟨digits', leading_shiftLeftLoop (sub_le _ _) (leading_drop leading), value.trans ?_⟩
    rw [drop_eq_getElem_cons inside, same, ofDigits_cons, radix_split small.le, mul_assoc,
      Nat.add_mul_div_left _ _ (Nat.pow_pos (by decide)), shiftRight_eq_div_pow]

theorem shiftRightUnsigned_spec (normalized : x.Normalized) (sized : x.digits.length ≤ lengthMax)
    (inside : k < x.digits.length) (small : bits < digitLength) :
    ∃ r, shiftRightUnsigned x k bits = some r ∧ r.Represents (x.magnitude / 2 ^ (k * digitLength + bits) : Nat) := by
  have nonempty : x.digits ≠ [] := ne_nil_of_length_pos (Nat.zero_lt_of_lt inside)
  obtain ⟨msd, last⟩ : ∃ msd, x.digits.getLast? = some msd := ⟨_, getLast?_eq_some_getLast nonempty⟩
  obtain ⟨positive, size, bits_x⟩ := size_magnitude normalized last
  obtain ⟨d, held⟩ : ∃ d, x.digits[k]? = some d := ⟨_, getElem?_eq_getElem inside⟩
  obtain ⟨digits, leading, value⟩ := shiftedRight_spec normalized.digits normalized.leading held small
  obtain ⟨written, all⟩ : ∃ written,
      (if bits = 0 then x.digits.drop k else shiftRightLoop bits (x.digits.drop (k + 1)) (d >>> bits)) = written := ⟨_, rfl⟩
  rw [all] at digits leading value
  have length := length_eq_bitsToDigits digits leading
  change _ = x.magnitude / _ at value
  rw [value, size_div_two_pow, bits_x] at length
  have shifted : msd >>> bits = 0 ↔ msd.size ≤ bits := by
    rw [shiftRight_eq_div_pow, size_le]
    simp
  have predicted : ((x.digits.length : Int) - k - if x.digits.getLast?.any (· >>> bits = 0) then 1 else 0) = written.length := by
    have length62 : digitLength = 62 := rfl
    rw [last, Option.any_some]
    simp only [decide_eq_true_eq, shifted]
    rw [length, bitsToDigits, length62]
    omega
  have fits : written.length ≤ lengthMax := by
    omega
  refine ⟨{ negative := false, digits := written }, ?_, ⟨digits, leading, fun _ => rfl⟩, ?_⟩
  · have result : filled (written.length : Int) false written = some { negative := false, digits := written } := by
      rw [filled_of_length rfl, if_pos fits]
    rw [shiftRightUnsigned, predicted]
    split
    · next none =>
      rw [if_pos none] at all
      rw [all]
      exact result
    · next some =>
      rw [if_neg some] at all
      rw [held, someBind, all]
      exact result
  · rw [toInt_eq_signed, magnitude, value]
    rfl

theorem floor_negative (positive : 0 < n) (m : Nat) : (-(n : Int)) / 2 ^ m = -1 - ((n - 1) / 2 ^ m : Nat) := by
  obtain ⟨k, rfl⟩ : ∃ k, n = k + 1 := ⟨n - 1, by omega⟩
  have power : (0 : Int) < 2 ^ m := by positivity
  change Int.negSucc k / 2 ^ m = _
  rw [Int.negSucc_ediv k power]
  push_cast
  change -((k : Int) / 2 ^ m + 1) = _
  ring

theorem complement_negative {y : Bignum} (sign : x.negative = true) (positive : 0 < x.magnitude)
    (represents : y.Represents (-1 - x.toInt)) : y.magnitude = x.magnitude - 1 := by
  rw [← toInt_natAbs y, represents.value, toInt_of_negative sign]
  omega

theorem complement_short_iff {y : Bignum} (normalized : x.Normalized) (sign : x.negative = true) (inside : k < x.digits.length)
    (represents : y.Represents (-1 - x.toInt)) : y.digits.length ≤ k ↔ x.magnitude = radix ^ k := by
  have lower := normalized.pow_le_magnitude inside
  have power : 0 < radix ^ k := Nat.pow_pos (by decide)
  rw [represents.normalized.length_le_iff, complement_negative sign (by omega) represents]
  omega

theorem shiftRight_of_large (normalized : x.Normalized) (large : x.digits.length ≤ m / digitLength) :
    ∃ r, shiftRight x m = some r ∧ r.Represents (x.toInt / 2 ^ m) := by
  have below : x.magnitude < 2 ^ m := by
    apply normalized.magnitude_lt.trans_le
    rw [radix_pow]
    apply Nat.pow_le_pow_right (by decide)
    exact (Nat.mul_le_mul_right _ large).trans (Nat.div_mul_le_self m digitLength)
  refine ⟨_, by rw [shiftRight, if_pos large], ?_⟩
  cases sign : x.negative with
  | false =>
    have zero : x.toInt / 2 ^ m = 0 := by
      rw [toInt_of_nonnegative sign]
      exact_mod_cast div_eq_of_lt below
    rw [zero]
    exact represents_makeZero
  | true =>
    have positive : 0 < x.magnitude := by
      apply normalized.magnitude_pos
      intro empty
      rw [normalized.zero empty] at sign
      cases sign
    have minus_one : x.toInt / 2 ^ m = -1 := by
      rw [toInt_of_negative sign, floor_negative positive, div_eq_of_lt (by omega)]
      rfl
    rw [minus_one]
    exact represents_makeOne true

/-- A shift of a negative power of the radix goes wrong when it begins inside of the digit that its complement lacks. -/
def Overruns (x : Bignum) (m : Nat) : Prop := x.toInt = -2 ^ (m / digitLength * digitLength) ∧ m % digitLength ≠ 0

theorem shiftRightUnsigned_all (normalized : x.Normalized) (value : x.magnitude = radix ^ k - 1) (short : x.digits.length ≤ k) :
    shiftRightUnsigned x k 0 = some makeZero := by
  have full : x.digits.length = k := by
    by_contra fewer
    have upper := normalized.magnitude_lt
    have less : radix ^ x.digits.length < radix ^ k := Nat.pow_lt_pow_right one_lt_radix (by omega)
    omega
  have leading : x.digits.getLast?.any (· >>> 0 = 0) = false := by
    have nonzero := normalized.leading
    cases last : x.digits.getLast? with
    | none => rfl
    | some msd =>
      rw [Leading, last] at nonzero
      simpa using nonzero
  rw [shiftRightUnsigned, leading, full, drop_eq_nil_of_le full.le, filled_of_length (by simp)]
  rfl

theorem overruns_iff (sign : x.negative = true) :
    Overruns x m ↔ x.magnitude = radix ^ (m / digitLength) ∧ m % digitLength ≠ 0 := by
  have cast : ((radix ^ (m / digitLength) : Nat) : Int) = 2 ^ (m / digitLength * digitLength) := by
    rw [radix_pow]
    rfl
  rw [Overruns, toInt_of_negative sign]
  refine and_congr_left fun _ => ?_
  omega

theorem shiftRight_of_negative (normalized : x.Normalized) (sized : x.digits.length ≤ lengthMax) (sign : x.negative = true)
    (inside : m / digitLength < x.digits.length) :
    (Overruns x m → shiftRight x m = none) ∧
      (¬Overruns x m → ∃ r, shiftRight x m = some r ∧ r.Represents (x.toInt / 2 ^ m)) := by
  have positive : 0 < x.magnitude :=
    normalized.magnitude_pos (ne_nil_of_length_pos (Nat.zero_lt_of_lt inside))
  obtain ⟨y, complement, represents⟩ := bitwiseNot_represents normalized
  have value := complement_negative sign positive represents
  have short := complement_short_iff normalized sign inside represents
  have split : m / digitLength * digitLength + m % digitLength = m := Nat.div_add_mod' m digitLength
  have runs : shiftRight x m = (shiftRightUnsigned y (m / digitLength) (m % digitLength)).bind bitwiseNot := by
    rw [shiftRight, if_neg (inside.not_ge), if_pos sign, complement]
    rfl
  have goal : x.toInt / 2 ^ m = -1 - ((x.magnitude - 1) / 2 ^ m : Nat) := by
    rw [toInt_of_negative sign, floor_negative positive]
  rw [runs, overruns_iff sign, ← short, goal]
  refine ⟨fun overruns => ?_, fun settled => ?_⟩
  · rw [shiftRightUnsigned, if_neg overruns.2, getElem?_eq_none overruns.1]
    rfl
  · by_cases missing : y.digits.length ≤ m / digitLength
    · have whole : m % digitLength = 0 := by
        by_contra part
        exact settled ⟨missing, part⟩
      have power : x.magnitude = 2 ^ m := by
        rw [short.mp missing, radix_pow, ← split, whole, add_zero, Nat.mul_div_cancel _ (by decide)]
      have none_left : (x.magnitude - 1) / 2 ^ m = 0 := by
        apply div_eq_of_lt
        omega
      obtain ⟨r, negated, represents'⟩ := bitwiseNot_represents represents_makeZero.normalized
      rw [whole, shiftRightUnsigned_all represents.normalized (short.mp missing ▸ value) missing, none_left]
      exact ⟨r, negated, represents'⟩
    · have sized' : y.digits.length ≤ lengthMax := by
        refine (represents.normalized.length_le_iff.mpr ?_).trans sized
        have upper := normalized.magnitude_lt
        omega
      obtain ⟨r, returns, quotient⟩ :=
        shiftRightUnsigned_spec represents.normalized sized' (not_le.mp missing) (Nat.mod_lt m (by decide))
      obtain ⟨r', negated, represents'⟩ := bitwiseNot_represents quotient.normalized
      rw [quotient.value, split, value] at represents'
      exact ⟨r', by rw [returns, Option.bind_some, negated], represents'⟩

theorem shiftRight_iff (normalized : x.Normalized) (sized : x.digits.length ≤ lengthMax) :
    (∃ r, shiftRight x m = some r ∧ r.Represents (x.toInt / 2 ^ m)) ↔ ¬Overruns x m := by
  have power : (0 : Int) < 2 ^ (m / digitLength * digitLength) := by positivity
  by_cases large : x.digits.length ≤ m / digitLength
  · refine iff_of_true (shiftRight_of_large normalized large) fun overruns => ?_
    have negative : x.negative = true := normalized.negative_iff.mpr (by rw [overruns.1]; omega)
    have upper := normalized.length_le_iff.mp large
    have same := ((overruns_iff negative).mp overruns).1
    omega
  · have inside := not_le.mp large
    cases sign : x.negative with
    | true =>
      obtain ⟨overruns, settled⟩ := shiftRight_of_negative normalized sized sign inside
      refine ⟨fun exact overrun => ?_, settled⟩
      obtain ⟨r, returns, -⟩ := exact
      rw [overruns overrun] at returns
      cases returns
    | false =>
      refine iff_of_true ?_ fun overruns => ?_
      · obtain ⟨r, returns, represents⟩ := shiftRightUnsigned_spec normalized sized inside (Nat.mod_lt m (by decide))
        rw [Nat.div_add_mod' m digitLength] at represents
        refine ⟨r, ?_, ?_⟩
        · rw [shiftRight, if_neg large, sign]
          exact returns
        · rw [toInt_of_nonnegative sign]
          exact_mod_cast represents
      · have value := overruns.1
        rw [toInt_of_nonnegative sign] at value
        omega

theorem shiftLeft_iff (normalized : x.Normalized) (range : m < 2 ^ 64) :
    (∃ r, shiftLeft x m = some r ∧ r.Represents (x.toInt * 2 ^ m)) ↔
      m = 0 ∨ x.digits = [] ∨ bitsToDigits (x.magnitude.size + m) ≤ lengthMax := by
  by_cases zero : x.digits = []
  · refine iff_of_true ⟨x, by simp [shiftLeft, zero], normalized, ?_⟩ (.inr (.inl zero))
    rw [toInt_of_zero zero, zero_mul]
  · by_cases still : m = 0
    · refine iff_of_true ⟨x, ?_, normalized, by rw [still, pow_zero, mul_one]⟩ (.inl still)
      rw [shiftLeft, getLast?_eq_some_getLast zero]
      exact if_pos still
    · obtain ⟨ds, length, represents, returns⟩ := shiftLeft_eq normalized zero still range
      rw [returns, length]
      simp only [zero, still, false_or]
      split
      · next fits => exact iff_of_true ⟨_, rfl, represents⟩ fits
      · next long => exact iff_of_false (fun ⟨r, nothing, _⟩ => nomatch nothing) long

theorem unsignedLongToShiftedBignum_iff (word : n < 2 ^ 64) (range : m < 2 ^ 64) (sign : Bool) :
    (∃ r, unsignedLongToShiftedBignum n m sign = some r ∧ r.Represents (signed sign (n * 2 ^ m : Nat))) ↔
      n = 0 ∨ bitsToDigits (n.size + m) ≤ lengthMax := by
  rcases eq_zero_or_pos n with rfl | positive
  · refine iff_of_true ⟨makeZero, rfl, ?_⟩ (.inl rfl)
    rw [zero_mul, signed_zero]
    exact represents_makeZero
  · obtain ⟨ds, length, represents, returns⟩ := unsignedLongToShiftedBignum_eq positive word range sign
    rw [returns, length]
    simp only [pos_iff_ne_zero.mp positive, false_or]
    split
    · next fits => exact iff_of_true ⟨_, rfl, represents⟩ fits
    · next long => exact iff_of_false (fun ⟨r, nothing, _⟩ => nomatch nothing) long

/-- Left shifts are exact where the result is not longer than a bignum can be; right shifts where they do not overrun the
complement of a negative number. -/
theorem shifts_exact_iff (normalized : x.Normalized) (sized : x.digits.length ≤ lengthMax) (range : m < 2 ^ 64) :
    ((∃ r, shiftLeft x m = some r ∧ r.Represents (x.toInt * 2 ^ m)) ↔
      m = 0 ∨ x.digits = [] ∨ bitsToDigits (x.magnitude.size + m) ≤ lengthMax) ∧
    ((∃ r, shiftRight x m = some r ∧ r.Represents (x.toInt / 2 ^ m)) ↔ ¬Overruns x m) ∧
    ∀ u < 2 ^ 64, ∀ sign,
      (∃ r, unsignedLongToShiftedBignum u m sign = some r ∧ r.Represents (signed sign (u * 2 ^ m : Nat))) ↔
        u = 0 ∨ bitsToDigits (u.size + m) ≤ lengthMax :=
  ⟨shiftLeft_iff normalized range, shiftRight_iff normalized sized,
    fun _ word sign => unsignedLongToShiftedBignum_iff word range sign⟩

end

theorem shifts_exact_iff_two_digits :
    let x : Bignum := { negative := true, digits := [1, 1] }
    ((∃ r, shiftLeft x 63 = some r ∧ r.Represents (x.toInt * 2 ^ 63)) ↔
      63 = 0 ∨ x.digits = [] ∨ bitsToDigits (x.magnitude.size + 63) ≤ lengthMax) ∧
    ((∃ r, shiftRight x 63 = some r ∧ r.Represents (x.toInt / 2 ^ 63)) ↔ ¬Overruns x 63) ∧
    ∀ u < 2 ^ 64, ∀ sign,
      (∃ r, unsignedLongToShiftedBignum u 63 sign = some r ∧ r.Represents (signed sign (u * 2 ^ 63 : Nat))) ↔
        u = 0 ∨ bitsToDigits (u.size + 63) ≤ lengthMax :=
  shifts_exact_iff (by decide) (by decide) (by decide)

theorem shiftRight_overruns :
    let x : Bignum := { negative := true, digits := [0, 1] }
    x.Normalized ∧ x.toInt = -2 ^ 62 ∧ (bitwiseNot x).map (·.digits.length) = some 1 ∧ shiftRight x 63 = none := by
  decide

end MitScheme.Microcode.Bignum
