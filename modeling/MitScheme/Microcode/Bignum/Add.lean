import MitScheme.Microcode.Bignum.Representation

namespace MitScheme.Microcode.Bignum

open Library
open Nat (ofDigits ofDigits_cons zero_le)

def addDigits : List Nat → List Nat → Nat → Option (List Nat × Nat)
  | x :: xs, y :: ys, carry => do
    let sum ← word (x + y + carry)
    if sum < radix then
      let (rest, carry) ← addDigits xs ys 0
      some (sum :: rest, carry)
    else
      let (rest, carry) ← addDigits xs ys 1
      some ((sum - radix) :: rest, carry)
  | _, _, carry => some ([], carry)

def carryDigits : List Nat → Option (List Nat × Nat)
  | [] => some ([], 1)
  | x :: xs => do
    let sum ← word (x + 1)
    if sum < radix then some (sum :: xs, 0)
    else
      let (rest, carry) ← carryDigits xs
      some ((sum - radix) :: rest, carry)

def carryRest (xs : List Nat) (carry : Nat) : Option (List Nat × Nat) :=
  if carry ≠ 0 then carryDigits xs else some (xs, 0)

def subtractDigits : List Nat → List Nat → Nat → Option (List Nat × Nat)
  | x :: xs, y :: ys, borrow => do
    let difference ← difference ((x : Int) - y - borrow)
    if difference < 0 then
      let digit ← wordOfInt (difference + radix)
      let (rest, borrow) ← subtractDigits xs ys 1
      some (digit :: rest, borrow)
    else
      let (rest, borrow) ← subtractDigits xs ys 0
      some (difference.toNat :: rest, borrow)
  | _, _, borrow => some ([], borrow)

def borrowDigits : List Nat → Option (List Nat × Nat)
  | [] => some ([], 1)
  | x :: xs => do
    let difference ← difference ((x : Int) - 1)
    if difference < 0 then
      let digit ← wordOfInt (difference + radix)
      let (rest, borrow) ← borrowDigits xs
      some (digit :: rest, borrow)
    else some (difference.toNat :: xs, 0)

def borrowRest (xs : List Nat) (borrow : Nat) : Option (List Nat × Nat) :=
  if borrow ≠ 0 then borrowDigits xs else some (xs, 0)

def addUnsigned (x y : Bignum) (negative : Bool) : Option Bignum := do
  let (x, y) := if y.digits.length > x.digits.length then (y, x) else (x, y)
  let (low, carry) ← addDigits x.digits y.digits 0
  let (high, carry) ← carryRest (x.digits.drop y.digits.length) carry
  let r : Bignum := { negative, digits := low ++ high ++ [carry] }
  some (if carry ≠ 0 then r else shortenLength r x.digits.length)

/-- `bignum_subtract_unsigned` after the comparison, with the greater operand first. -/
def subtractLess (x y : Bignum) (negative : Bool) : Option Bignum := do
  let (low, borrow) ← subtractDigits x.digits y.digits 0
  let (high, borrow) ← borrowRest (x.digits.drop y.digits.length) borrow
  if borrow = 0 then some (trim { negative, digits := low ++ high }) else none

def subtractUnsigned (x y : Bignum) : Option Bignum :=
  match compareUnsigned x y with
  | .equal => some makeZero
  | .less => subtractLess y x true
  | .greater => subtractLess x y false

def add (x y : Bignum) : Option Bignum :=
  if x.digits = [] then some y
  else if y.digits = [] then some x
  else if x.negative then
    if y.negative then addUnsigned x y true else subtractUnsigned y x
  else if y.negative then subtractUnsigned x y
  else addUnsigned x y false

def subtract (x y : Bignum) : Option Bignum :=
  if x.digits = [] then
    if y.digits = [] then some y else some (newSign y !y.negative)
  else if y.digits = [] then some x
  else if x.negative then
    if y.negative then subtractUnsigned y x else addUnsigned x y true
  else if y.negative then addUnsigned x y false
  else subtractUnsigned x y

theorem addDigits_spec {xs ys : List Nat} {carry : Nat} (digits_x : Digits radix xs) (digits_y : Digits radix ys)
    (longer : ys.length ≤ xs.length) (bit : carry ≤ 1) : ∃ rs carry', addDigits xs ys carry = some (rs, carry') ∧
    Digits radix rs ∧ rs.length = ys.length ∧ carry' ≤ 1 ∧ ofDigits radix rs + radix ^ ys.length * carry' =
    ofDigits radix (xs.take ys.length) + ofDigits radix ys + carry := by
  induction ys generalizing xs carry with
  | nil =>
    refine ⟨[], carry, ?_, digits_nil, rfl, bit, by simp⟩
    cases xs <;> rfl
  | cons y ys ih =>
    cases xs with
    | nil => exact absurd longer (by simp)
    | cons x xs =>
      rw [digits_cons] at digits_x digits_y
      have longer : ys.length ≤ xs.length := Nat.le_of_succ_le_succ longer
      have small : x + y + carry < 2 * radix := by omega
      have sum := word_eq (n := x + y + carry) (by rw [radix_eq] at small; omega)
      by_cases fits : x + y + carry < radix
      · obtain ⟨rs, carry', rest, digits, length, bit', value⟩ := ih digits_x.2 digits_y.2 longer (zero_le 1)
        refine ⟨(x + y + carry) :: rs, carry', by simp [addDigits, sum, fits, rest], digits_cons.mpr ⟨fits, digits⟩,
          by simp [length], bit', ?_⟩
        rw [List.length_cons, List.take_succ_cons, ofDigits_cons, ofDigits_cons, ofDigits_cons]
        linear_combination radix * value
      · obtain ⟨rs, carry', rest, digits, length, bit', value⟩ := ih digits_x.2 digits_y.2 longer (le_refl 1)
        refine ⟨(x + y + carry - radix) :: rs, carry', by simp [addDigits, sum, fits, rest],
          digits_cons.mpr ⟨by omega, digits⟩, by simp [length], bit', ?_⟩
        have digit : x + y + carry - radix + radix = x + y + carry := Nat.sub_add_cancel (not_lt.mp fits)
        rw [List.length_cons, List.take_succ_cons, ofDigits_cons, ofDigits_cons, ofDigits_cons]
        linear_combination radix * value + digit

theorem carryDigits_spec {xs : List Nat} (digits_x : Digits radix xs) :
    ∃ rs carry', carryDigits xs = some (rs, carry') ∧ Digits radix rs ∧ rs.length = xs.length ∧ carry' ≤ 1 ∧
      ofDigits radix rs + radix ^ xs.length * carry' = ofDigits radix xs + 1 := by
  induction xs with
  | nil => exact ⟨[], 1, rfl, digits_nil, rfl, le_refl 1, by simp⟩
  | cons x xs ih =>
    rw [digits_cons] at digits_x
    have sum := word_eq (n := x + 1) (by have := digits_x.1; rw [radix_eq] at this; omega)
    by_cases fits : x + 1 < radix
    · refine ⟨(x + 1) :: xs, 0, by simp [carryDigits, sum, fits], digits_cons.mpr ⟨fits, digits_x.2⟩, rfl,
        zero_le 1, ?_⟩
      rw [ofDigits_cons, ofDigits_cons]
      ring
    · obtain ⟨rs, carry', rest, digits, length, bit', value⟩ := ih digits_x.2
      refine ⟨(x + 1 - radix) :: rs, carry', by simp [carryDigits, sum, fits, rest],
        digits_cons.mpr ⟨by omega, digits⟩, by simp [length], bit', ?_⟩
      have digit : x + 1 - radix + radix = x + 1 := Nat.sub_add_cancel (not_lt.mp fits)
      rw [List.length_cons, ofDigits_cons, ofDigits_cons]
      linear_combination radix * value + digit

theorem difference_digit {x y borrow : Nat} (small_x : x < radix) (small_y : y < radix) (bit : borrow ≤ 1) :
    difference ((x : Int) - y - borrow) = some ((x : Int) - y - borrow) ∧
      ((x : Int) - y - borrow < 0 →
        wordOfInt ((x : Int) - y - borrow + radix) = some ((x : Int) - y - borrow + radix).toNat ∧
        ((x : Int) - y - borrow + radix).toNat < radix ∧
        ((x : Int) - y - borrow + radix).toNat + y + borrow = x + radix) ∧
      (¬(x : Int) - y - borrow < 0 →
        ((x : Int) - y - borrow).toNat < radix ∧ ((x : Int) - y - borrow).toNat + y + borrow = x) := by
  rw [radix_eq] at *
  refine ⟨difference_eq (by omega), fun negative => ⟨wordOfInt_eq (by omega), by omega, by omega⟩,
    fun negative => ⟨by omega, by omega⟩⟩

theorem subtractDigits_spec {xs ys : List Nat} {borrow : Nat} (digits_x : Digits radix xs)
    (digits_y : Digits radix ys) (longer : ys.length ≤ xs.length) (bit : borrow ≤ 1) :
    ∃ rs borrow', subtractDigits xs ys borrow = some (rs, borrow') ∧ Digits radix rs ∧ rs.length = ys.length ∧
      borrow' ≤ 1 ∧ ofDigits radix rs + ofDigits radix ys + borrow =
        ofDigits radix (xs.take ys.length) + radix ^ ys.length * borrow' := by
  induction ys generalizing xs borrow with
  | nil =>
    refine ⟨[], borrow, ?_, digits_nil, rfl, bit, by simp⟩
    cases xs <;> rfl
  | cons y ys ih =>
    cases xs with
    | nil => exact absurd longer (by simp)
    | cons x xs =>
      rw [digits_cons] at digits_x digits_y
      have longer : ys.length ≤ xs.length := Nat.le_of_succ_le_succ longer
      obtain ⟨tested, below, above⟩ := difference_digit digits_x.1 digits_y.1 bit
      by_cases negative : (x : Int) - y - borrow < 0
      · obtain ⟨stored, small, digit⟩ := below negative
        obtain ⟨rs, borrow', rest, digits, length, bit', value⟩ := ih digits_x.2 digits_y.2 longer (le_refl 1)
        refine ⟨((x : Int) - y - borrow + radix).toNat :: rs, borrow', by simp [subtractDigits, tested, negative,
          stored, rest], digits_cons.mpr ⟨small, digits⟩, by simp [length], bit', ?_⟩
        rw [List.length_cons, List.take_succ_cons, ofDigits_cons, ofDigits_cons, ofDigits_cons]
        linear_combination radix * value + digit
      · obtain ⟨small, digit⟩ := above negative
        obtain ⟨rs, borrow', rest, digits, length, bit', value⟩ := ih digits_x.2 digits_y.2 longer (zero_le 1)
        refine ⟨((x : Int) - y - borrow).toNat :: rs, borrow', by simp [subtractDigits, tested, negative, rest],
          digits_cons.mpr ⟨small, digits⟩, by simp [length], bit', ?_⟩
        rw [List.length_cons, List.take_succ_cons, ofDigits_cons, ofDigits_cons, ofDigits_cons]
        linear_combination radix * value + digit

theorem borrowDigits_spec {xs : List Nat} (digits_x : Digits radix xs) :
    ∃ rs borrow', borrowDigits xs = some (rs, borrow') ∧ Digits radix rs ∧ rs.length = xs.length ∧ borrow' ≤ 1 ∧
      ofDigits radix rs + 1 = ofDigits radix xs + radix ^ xs.length * borrow' := by
  induction xs with
  | nil => exact ⟨[], 1, rfl, digits_nil, rfl, le_refl 1, by simp⟩
  | cons x xs ih =>
    rw [digits_cons] at digits_x
    obtain ⟨tested, below, above⟩ := difference_digit (y := 0) digits_x.1 (by decide) (le_refl 1)
    simp only [Nat.cast_zero, Nat.cast_one, sub_zero, add_zero] at tested below above
    by_cases negative : (x : Int) - 1 < 0
    · obtain ⟨stored, small, digit⟩ := below negative
      obtain ⟨rs, borrow', rest, digits, length, bit', value⟩ := ih digits_x.2
      refine ⟨((x : Int) - 1 + radix).toNat :: rs, borrow', by simp [borrowDigits, tested, negative, stored, rest],
        digits_cons.mpr ⟨small, digits⟩, by simp [length], bit', ?_⟩
      rw [List.length_cons, ofDigits_cons, ofDigits_cons]
      linear_combination radix * value + digit
    · obtain ⟨small, digit⟩ := above negative
      refine ⟨((x : Int) - 1).toNat :: xs, 0, by simp [borrowDigits, tested, negative], digits_cons.mpr ⟨small, digits_x.2⟩, rfl, zero_le 1, ?_⟩
      rw [ofDigits_cons, ofDigits_cons]
      linear_combination digit

variable {x y : Bignum}

theorem addUnsigned_of_longer (normal_x : x.Normalized) (normal_y : y.Normalized)
    (longer : y.digits.length ≤ x.digits.length) (nonzero : x.digits ≠ []) (negative : Bool) :
    ∃ r, addUnsigned x y negative = some r ∧ r.Represents (signed negative (x.magnitude + y.magnitude : Nat)) := by
  obtain ⟨low, carry, first, digits_low, length_low, bit, value_low⟩ :=
    addDigits_spec normal_x.digits normal_y.digits longer (zero_le 1)
  -- the rest of the longer operand, with the carry
  obtain ⟨high, carry', second, digits_high, length_high, bit', value_high⟩ :
      ∃ high carry', carryRest (x.digits.drop y.digits.length) carry = some (high, carry') ∧
        Digits radix high ∧ high.length = x.digits.length - y.digits.length ∧ carry' ≤ 1 ∧
        ofDigits radix high + radix ^ (x.digits.length - y.digits.length) * carry' =
          ofDigits radix (x.digits.drop y.digits.length) + carry := by
    have digits_rest := normal_x.digits.drop y.digits.length
    rcases Nat.le_one_iff_eq_zero_or_eq_one.mp bit with rfl | rfl
    · exact ⟨_, 0, rfl, digits_rest, List.length_drop, zero_le 1, by simp⟩
    · obtain ⟨rs, carry', ran, digits, length, bit', value⟩ := carryDigits_spec digits_rest
      rw [List.length_drop] at length value
      exact ⟨rs, carry', ran, digits, length, bit', value⟩
  have length : (low ++ high).length = x.digits.length := by
    rw [List.length_append]
    omega
  have digits : Digits radix (low ++ high) := digits_low.append digits_high
  have total : ofDigits radix (low ++ high) + radix ^ x.digits.length * carry' = x.magnitude + y.magnitude := by
    have whole := ofDigits_take_add_drop (b := radix) x.digits longer
    have weight : radix ^ x.digits.length = radix ^ y.digits.length * radix ^ (x.digits.length - y.digits.length) := by
      rw [← pow_add, Nat.add_sub_cancel' longer]
    rw [magnitude, magnitude, whole, Nat.ofDigits_append, length_low, weight]
    linear_combination value_low + radix ^ y.digits.length * value_high
  simp only [addUnsigned, if_neg (longer.not_gt), first, second, Option.bind_eq_bind, Option.bind_some]
  rcases Nat.le_one_iff_eq_zero_or_eq_one.mp bit' with rfl | rfl
  · refine ⟨_, rfl, ?_⟩
    have positive : x.digits.length ≠ 0 := by simpa using nonzero
    have nonempty : low ++ high ≠ [] := by
      rw [← List.length_pos_iff, length]
      exact pos_of_ne_zero positive
    rw [if_neg (by simp), ← length, shortenLength_concat negative nonempty]
    rw [mul_zero, add_zero] at total
    refine ⟨⟨digits, leading_of_pow_le one_lt_radix digits ?_, fun zero => absurd zero nonempty⟩,
      by rw [toInt_eq_signed, magnitude, total]⟩
    rw [total, length]
    exact (pow_le_ofDigits normal_x.leading nonzero).trans (Nat.le_add_right _ _)
  · refine ⟨_, rfl, ?_⟩
    have last : Digits radix [1] := by decide
    refine ⟨⟨digits.append last, by simp, by simp⟩, ?_⟩
    change signed negative (ofDigits radix (low ++ high ++ [1])) = _
    rw [Nat.ofDigits_append, length, Nat.ofDigits_singleton, total]

theorem addUnsigned_represents (normal_x : x.Normalized) (normal_y : y.Normalized) (nonzero_x : x.digits ≠ [])
    (nonzero_y : y.digits ≠ []) (negative : Bool) :
    ∃ r, addUnsigned x y negative = some r ∧ r.Represents (signed negative (x.magnitude + y.magnitude : Nat)) := by
  by_cases longer : y.digits.length ≤ x.digits.length
  · exact addUnsigned_of_longer normal_x normal_y longer nonzero_x negative
  · have shorter : x.digits.length < y.digits.length := not_le.mp longer
    have swapped : addUnsigned x y negative = addUnsigned y x negative := by
      simp [addUnsigned, if_pos shorter, if_neg (shorter.le.not_gt)]
    rw [swapped, add_comm]
    exact addUnsigned_of_longer normal_y normal_x shorter.le nonzero_y negative

theorem subtractLess_represents (normal_x : x.Normalized) (normal_y : y.Normalized)
    (less : y.magnitude < x.magnitude) (negative : Bool) :
    ∃ r, subtractLess x y negative = some r ∧ r.Represents (signed negative (x.magnitude - y.magnitude : Nat)) := by
  have longer : y.digits.length ≤ x.digits.length := by
    by_contra shorter
    have greater := ofDigits_lt_of_length_lt one_lt_radix normal_x.digits normal_y.leading (not_le.mp shorter)
    exact absurd less (greater.le.not_gt)
  obtain ⟨low, borrow, first, digits_low, length_low, bit, value_low⟩ :=
    subtractDigits_spec normal_x.digits normal_y.digits longer (zero_le 1)
  obtain ⟨high, borrow', second, digits_high, length_high, bit', value_high⟩ :
      ∃ high borrow', borrowRest (x.digits.drop y.digits.length) borrow = some (high, borrow') ∧
        Digits radix high ∧ high.length = x.digits.length - y.digits.length ∧ borrow' ≤ 1 ∧
        ofDigits radix high + borrow = ofDigits radix (x.digits.drop y.digits.length) +
          radix ^ (x.digits.length - y.digits.length) * borrow' := by
    have digits_rest := normal_x.digits.drop y.digits.length
    rcases Nat.le_one_iff_eq_zero_or_eq_one.mp bit with rfl | rfl
    · exact ⟨_, 0, rfl, digits_rest, List.length_drop, zero_le 1, by simp⟩
    · obtain ⟨rs, borrow', ran, digits, length, bit', value⟩ := borrowDigits_spec digits_rest
      rw [List.length_drop] at length value
      exact ⟨rs, borrow', ran, digits, length, bit', value⟩
  have digits : Digits radix (low ++ high) := digits_low.append digits_high
  have length : (low ++ high).length = x.digits.length := by
    rw [List.length_append]
    omega
  have total : ofDigits radix (low ++ high) + y.magnitude = x.magnitude + radix ^ x.digits.length * borrow' := by
    have whole := ofDigits_take_add_drop (b := radix) x.digits longer
    have weight : radix ^ x.digits.length = radix ^ y.digits.length * radix ^ (x.digits.length - y.digits.length) := by
      rw [← pow_add, Nat.add_sub_cancel' longer]
    rw [magnitude, magnitude, whole, Nat.ofDigits_append, length_low, weight]
    linear_combination value_low + radix ^ y.digits.length * value_high
  -- a borrow out of the last digit would make the difference negative
  have settled : borrow' = 0 := by
    have small := Nat.ofDigits_lt_base_pow_length one_lt_radix digits
    rw [length] at small
    rcases Nat.le_one_iff_eq_zero_or_eq_one.mp bit' with zero | rfl
    · exact zero
    · omega
  subst settled
  have nonempty : low ++ high ≠ [] := by
    intro empty
    rw [empty] at total
    simp only [Nat.ofDigits_nil, mul_zero] at total
    omega
  refine ⟨_, by simp only [subtractLess, first, second, Option.bind_eq_bind, Option.bind_some, if_true]; rfl, ?_⟩
  have trimmed := represents_trim (x := { negative, digits := low ++ high }) digits nonempty
  have value : ({ negative, digits := low ++ high } : Bignum).magnitude = x.magnitude - y.magnitude := by
    change ofDigits radix (low ++ high) = _
    omega
  rwa [value] at trimmed

theorem subtractUnsigned_represents (normal_x : x.Normalized) (normal_y : y.Normalized) :
    ∃ r, subtractUnsigned x y = some r ∧ r.Represents (x.magnitude - y.magnitude) := by
  have compared := compareUnsigned_holds normal_x normal_y
  unfold subtractUnsigned
  cases order : compareUnsigned x y <;> rw [order] at compared <;> simp only [Comparison.Holds] at compared
  · rw [compared, sub_self]
    exact ⟨_, rfl, represents_makeZero⟩
  · obtain ⟨r, ran, represents⟩ := subtractLess_represents normal_y normal_x compared true
    refine ⟨r, ran, ?_⟩
    rwa [show signed true (y.magnitude - x.magnitude : Nat) = (x.magnitude : Int) - y.magnitude by
      simp only [signed, if_true]; omega] at represents
  · obtain ⟨r, ran, represents⟩ := subtractLess_represents normal_x normal_y compared false
    refine ⟨r, ran, ?_⟩
    rwa [show signed false (x.magnitude - y.magnitude : Nat) = (x.magnitude : Int) - y.magnitude by
      simp only [signed, Bool.false_eq_true, if_false]; omega] at represents

theorem toInt_of_zero (zero : x.digits = []) : x.toInt = 0 := by
  simp [toInt, magnitude, zero]

theorem add_represents (normal_x : x.Normalized) (normal_y : y.Normalized) :
    ∃ r, add x y = some r ∧ r.Represents (x.toInt + y.toInt) := by
  unfold add
  by_cases zero_x : x.digits = []
  · rw [if_pos zero_x, toInt_of_zero zero_x, zero_add]
    exact ⟨y, rfl, normal_y.represents⟩
  by_cases zero_y : y.digits = []
  · rw [if_neg zero_x, if_pos zero_y, toInt_of_zero zero_y, add_zero]
    exact ⟨x, rfl, normal_x.represents⟩
  have sum := addUnsigned_represents normal_x normal_y zero_x zero_y
  have left := subtractUnsigned_represents normal_x normal_y
  have right := subtractUnsigned_represents normal_y normal_x
  rw [if_neg zero_x, if_neg zero_y, toInt_eq_signed, toInt_eq_signed]
  cases x.negative <;> cases y.negative <;> simp only [signed, Bool.false_eq_true, if_true, if_false]
  · simpa [signed] using sum false
  · simpa [sub_eq_add_neg] using left
  · simpa [sub_eq_add_neg, add_comm] using right
  · simpa [signed, add_comm] using sum true

theorem subtract_represents (normal_x : x.Normalized) (normal_y : y.Normalized) :
    ∃ r, subtract x y = some r ∧ r.Represents (x.toInt - y.toInt) := by
  unfold subtract
  by_cases zero_x : x.digits = []
  · by_cases zero_y : y.digits = []
    · rw [if_pos zero_x, if_pos zero_y, toInt_of_zero zero_x, toInt_of_zero zero_y]
      exact ⟨y, rfl, normal_y, toInt_of_zero zero_y⟩
    · rw [if_pos zero_x, if_neg zero_y, toInt_of_zero zero_x, zero_sub]
      refine ⟨_, rfl, ?_⟩
      have turned := represents_newSign normal_y zero_y !y.negative
      rwa [signed_not] at turned
  by_cases zero_y : y.digits = []
  · rw [if_neg zero_x, if_pos zero_y, toInt_of_zero zero_y, sub_zero]
    exact ⟨x, rfl, normal_x.represents⟩
  have sum := addUnsigned_represents normal_x normal_y zero_x zero_y
  have left := subtractUnsigned_represents normal_x normal_y
  have right := subtractUnsigned_represents normal_y normal_x
  rw [if_neg zero_x, if_neg zero_y, toInt_eq_signed, toInt_eq_signed]
  cases x.negative <;> cases y.negative <;> simp only [signed, Bool.false_eq_true, if_true, if_false]
  · simpa using left
  · simpa [signed] using sum false
  · simpa [signed, sub_eq_add_neg, add_comm] using sum true
  · simpa [sub_eq_add_neg, add_comm] using right

end MitScheme.Microcode.Bignum
