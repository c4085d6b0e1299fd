import MitScheme.Library.LongDivision
import MitScheme.Microcode.Bignum.Add

namespace MitScheme.Microcode.Bignum

open Library List Nat

/-- The product of two digits by halves, with a digit and a carry added: the digit to store and
the carry. -/
def multiplyHalves (digit x y carry : Nat) : Option (Nat × Nat) := do
  let productLow ← word (digit + hdLow x * hdLow y + hdLow carry)
  let productHigh ← word (hdHigh x * hdLow y + hdLow x * hdHigh y + hdHigh productLow + hdHigh carry)
  let carry ← word (hdHigh x * hdHigh y + hdHigh productHigh)
  some (hdCons (hdLow productHigh) (hdLow productLow), carry)

def multiplyRow (x : Nat) : List Nat → List Nat → Nat → Option (List Nat)
  | y :: ys, r :: rs, carry => do
    let (digit, carry) ← multiplyHalves r x y carry
    let rest ← multiplyRow x ys rs carry
    some (digit :: rest)
  | [], r :: rs, carry => do
    let sum ← word (r + carry)
    some (sum :: rs)
  | _, [], _ => none

/-- The outer loop, which leaves one more digit of the result alone each time. -/
def multiplyRows (ys : List Nat) : List Nat → List Nat → Option (List Nat)
  | [], rs => some rs
  | x :: xs, rs => do
    match ← multiplyRow x ys rs 0 with
    | [] => none
    | digit :: rs =>
      let rest ← multiplyRows ys xs rs
      some (digit :: rest)

def multiplyUnsigned (x y : Bignum) (negative : Bool) : Option Bignum := do
  let (x, y) := if y.digits.length > x.digits.length then (y, x) else (x, y)
  let digits ← multiplyRows y.digits x.digits (List.replicate (x.digits.length + y.digits.length) 0)
  some (trim { negative, digits })

def scaleUpDigits (factor : Nat) : List Nat → Nat → Option (List Nat × Nat)
  | [], carry => some ([], carry)
  | twoDigits :: rest, carry => do
    let productLow ← word (factor * hdLow twoDigits + hdLow carry)
    let productHigh ← word (factor * hdHigh twoDigits + hdHigh productLow + hdHigh carry)
    let (rest, carry) ← scaleUpDigits factor rest (hdHigh productHigh)
    some (hdCons (hdLow productHigh) (hdLow productLow) :: rest, carry)

def scaleUp (digits : List Nat) (factor : Nat) : Option (List Nat) :=
  if 1 < factor ∧ factor < radixRoot then do
    let (digits, carry) ← scaleUpDigits factor digits 0
    if carry = 0 then some digits else none
  else none

def multiplyUnsignedSmallFactor (x : Bignum) (y : Nat) (negative : Bool) : Option Bignum := do
  let digits ← scaleUp (x.digits ++ [0]) y
  some (trim { negative, digits })

def smallFactor (x : Bignum) : Option Nat :=
  match x.digits with
  | [digit] => if digit < radixRoot then some digit else none
  | _ => none

def multiplyByDigit (x : Bignum) (digit : Nat) (negative : Bool) : Option Bignum :=
  if digit = 1 then some (maybeNewSign x negative) else multiplyUnsignedSmallFactor x digit negative

def multiply (x y : Bignum) : Option Bignum :=
  let negative := if x.negative then !y.negative else y.negative
  if x.digits = [] then some x
  else if y.digits = [] then some y
  else
    match smallFactor x with
    | some digit => multiplyByDigit y digit negative
    | none =>
      match smallFactor y with
      | some digit => multiplyByDigit x digit negative
      | none => multiplyUnsigned x y negative

theorem halves_mul_le {m n : Nat} (small_m : m < radixRoot) (small_n : n < radixRoot) :
    m * n ≤ 2147483647 * 2147483647 :=
  Nat.mul_le_mul (by rw [radixRoot_eq] at small_m; omega) (by rw [radixRoot_eq] at small_n; omega)

theorem digits_mul_le {m n : Nat} (small_m : m < radix) (small_n : n < radix) :
    m * n ≤ 4611686018427387903 * 4611686018427387903 :=
  Nat.mul_le_mul (by rw [radix_eq] at small_m; omega) (by rw [radix_eq] at small_n; omega)

theorem multiplyHalves_spec {digit x y carry : Nat} (small_digit : digit < radix) (small_x : x < radix)
    (small_y : y < radix) (small_carry : carry < radix) : ∃ low carry', multiplyHalves digit x y carry =
    some (low, carry') ∧ low < radix ∧ carry' < radix ∧ low + radix * carry' = digit + x * y + carry := by
  have low_low := halves_mul_le (hdLow_lt x) (hdLow_lt y)
  have high_low := halves_mul_le (hdHigh_lt small_x) (hdLow_lt y)
  have low_high := halves_mul_le (hdLow_lt x) (hdHigh_lt small_y)
  have product := digits_mul_le small_x small_y
  obtain ⟨productLow, low_eq⟩ : ∃ low, low = digit + x % radixRoot * (y % radixRoot) + carry % radixRoot := ⟨_, rfl⟩
  obtain ⟨productHigh, high_eq⟩ : ∃ high, high = x / radixRoot * (y % radixRoot) + x % radixRoot * (y / radixRoot) +
    productLow / radixRoot + carry / radixRoot := ⟨_, rfl⟩
  have exact := halfProduct low_eq high_eq
  have digit_low := hdLow_lt productLow
  rw [← hdCons_eq _ digit_low, radixRoot_mul_self] at exact
  have small : hdCons (productHigh % radixRoot) (productLow % radixRoot) < radix := by
    rw [hdCons_eq _ digit_low]
    rw [radix_eq, radixRoot_eq] at *
    omega
  have small_carry' : x / radixRoot * (y / radixRoot) + productHigh / radixRoot < radix := by
    rw [radix_eq] at *
    omega
  refine ⟨_, _, ?_, small, small_carry', exact⟩
  have low_word := word_eq (n := productLow) (by rw [radix_eq, radixRoot_eq] at *; omega)
  have high_word := word_eq (n := productHigh) (by rw [radix_eq, radixRoot_eq] at *; omega)
  have carry_word := word_eq (small_carry'.trans (by decide : radix < 2 ^ 63))
  simp [multiplyHalves, hdHigh_eq, ← low_eq, low_word, ← high_eq, high_word, carry_word]

theorem multiplyRow_spec {x : Nat} {ys lows : List Nat} (zeros : List Nat) {carry : Nat} (small : x < radix)
    (digits_y : Digits radix ys) (digits_low : Digits radix lows) (same : lows.length = ys.length)
    (small_carry : carry < radix) : ∃ rs top, multiplyRow x ys (lows ++ 0 :: zeros) carry = some (rs ++ top :: zeros) ∧
    Digits radix rs ∧ top < radix ∧ rs.length = ys.length ∧ Nat.ofDigits radix rs + radix ^ ys.length * top =
    Nat.ofDigits radix lows + x * Nat.ofDigits radix ys + carry := by
  induction ys generalizing lows carry with
  | nil =>
    rw [eq_nil_of_length_eq_zero same]
    have sum := word_eq (n := carry) (by rw [radix_eq] at small_carry; omega)
    exact ⟨[], carry, by simp [multiplyRow, sum], digits_nil, small_carry, rfl, by simp⟩
  | cons y ys ih =>
    cases lows with
    | nil => cases same
    | cons low lows =>
      rw [digits_cons] at digits_y digits_low
      obtain ⟨digit, carry', product, small_digit, small_carry', exact⟩ :=
        multiplyHalves_spec digits_low.1 small digits_y.1 small_carry
      obtain ⟨rs, top, rest, digits, small_top, length, value⟩ :=
        ih digits_y.2 digits_low.2 (succ.inj same) small_carry'
      refine ⟨digit :: rs, top, by simp [multiplyRow, product, rest], digits_cons.mpr ⟨small_digit, digits⟩,
        small_top, by simp [length], ?_⟩
      rw [length_cons, ofDigits_cons, ofDigits_cons, ofDigits_cons]
      generalize radix = b at exact value ⊢
      linear_combination b * value + exact

theorem multiplyRows_spec {xs ys : List Nat} (lows : List Nat) (digits_x : Digits radix xs) (digits_y : Digits radix ys)
    (digits_low : Digits radix lows) (same : lows.length = ys.length) :
    ∃ rs, multiplyRows ys xs (lows ++ List.replicate xs.length 0) = some rs ∧ Digits radix rs ∧
      rs.length = xs.length + ys.length ∧
      Nat.ofDigits radix rs = Nat.ofDigits radix lows + Nat.ofDigits radix xs * Nat.ofDigits radix ys := by
  induction xs generalizing lows with
  | nil => exact ⟨lows, by simp [multiplyRows], digits_low, by simp [same], by simp⟩
  | cons x xs ih =>
    rw [digits_cons] at digits_x
    obtain ⟨rs, top, row, digits_row, small_top, length_row, value_row⟩ :=
      multiplyRow_spec (replicate xs.length 0) digits_x.1 digits_y digits_low same (by decide : 0 < radix)
    -- the lowest digit is final
    obtain ⟨digit, rs', split⟩ := exists_cons_of_ne_nil (show rs ++ [top] ≠ [] by simp)
    have digits_split : Digits radix (digit :: rs') := by
      rw [← split]
      exact digits_row.append fun d member => mem_singleton.mp member ▸ small_top
    rw [digits_cons] at digits_split
    have length_split : rs'.length = ys.length := by
      have lengths := congrArg length split
      rw [length_append, length_row] at lengths
      exact (succ.inj lengths).symm
    have value_split : digit + radix * ofDigits radix rs' = ofDigits radix lows + x * ofDigits radix ys := by
      have values := congrArg (ofDigits radix) split
      rw [ofDigits_append, length_row] at values
      exact values.symm.trans value_row
    obtain ⟨rest, ran, digits, length, value⟩ := ih rs' digits_x.2 digits_split.2 length_split
    have whole : rs ++ top :: replicate xs.length 0 = digit :: (rs' ++ replicate xs.length 0) := by
      rw [append_cons, split, cons_append]
    refine ⟨digit :: rest, ?_, digits_cons.mpr ⟨digits_split.1, digits⟩, by simp [length]; omega, ?_⟩
    · rw [length_cons, replicate_succ]
      simp [multiplyRows, row, whole, ran]
    · rw [ofDigits_cons, ofDigits_cons]
      generalize radix = b at value value_split ⊢
      linear_combination b * value + value_split

theorem scaleUpDigits_spec {factor : Nat} (xs : List Nat) {carry : Nat} (small : factor < radixRoot)
    (digits_x : Digits radix xs) (small_carry : carry < radixRoot) :
    ∃ rs carry', scaleUpDigits factor xs carry = some (rs, carry') ∧ Digits radix rs ∧ rs.length = xs.length ∧
      Nat.ofDigits radix rs + radix ^ xs.length * carry' = factor * Nat.ofDigits radix xs + carry := by
  induction xs generalizing carry with
  | nil => exact ⟨[], carry, rfl, digits_nil, rfl, by simp⟩
  | cons x xs ih =>
    rw [digits_cons] at digits_x
    have low_low := halves_mul_le small (hdLow_lt x)
    have low_high := halves_mul_le small (hdHigh_lt digits_x.1)
    have whole : factor % radixRoot = factor := mod_eq_of_lt small
    have no_high : factor / radixRoot = 0 := div_eq_of_lt small
    obtain ⟨productLow, low_eq⟩ : ∃ low, low = factor * (x % radixRoot) + carry % radixRoot := ⟨_, rfl⟩
    obtain ⟨productHigh, high_eq⟩ : ∃ high, high = factor * (x / radixRoot) + productLow / radixRoot +
      carry / radixRoot := ⟨_, rfl⟩
    have exact := halfProduct
      (show productLow = 0 + factor % radixRoot * (x % radixRoot) + carry % radixRoot by rw [low_eq, whole, zero_add])
      (show productHigh = factor / radixRoot * (x % radixRoot) + factor % radixRoot * (x / radixRoot) +
        productLow / radixRoot + carry / radixRoot by rw [high_eq, whole, no_high]; ring)
    have digit_low := hdLow_lt productLow
    rw [← hdCons_eq _ digit_low, radixRoot_mul_self, no_high, zero_mul] at exact
    have small_digit : hdCons (productHigh % radixRoot) (productLow % radixRoot) < radix := by
      rw [hdCons_eq _ digit_low]
      rw [radix_eq, radixRoot_eq] at *
      omega
    have small_next : productHigh / radixRoot < radixRoot := by
      rw [radixRoot_eq] at *
      omega
    obtain ⟨rs, carry', rest, digits, length, value⟩ := ih digits_x.2 small_next
    have low_word := word_eq (n := productLow) (by rw [radixRoot_eq] at *; omega)
    have high_word := word_eq (n := productHigh) (by rw [radixRoot_eq] at *; omega)
    refine ⟨hdCons (productHigh % radixRoot) (productLow % radixRoot) :: rs, carry', ?_,
      digits_cons.mpr ⟨small_digit, digits⟩, by simp [length], ?_⟩
    · simp [scaleUpDigits, ← low_eq, low_word, ← high_eq, high_word, rest]
    · rw [length_cons, ofDigits_cons, ofDigits_cons]
      generalize radix = b at exact value ⊢
      linear_combination b * value + exact

variable {x y : Bignum}

section
variable (normal_x : x.Normalized)
include normal_x

theorem multiplyUnsigned_represents (normal_y : y.Normalized) (nonzero : x.digits ≠ []) (negative : Bool) :
    ∃ r, multiplyUnsigned x y negative = some r ∧ r.Represents (signed negative (x.magnitude * y.magnitude : Nat)) := by
  have rows : ∀ {x y : Bignum}, x.Normalized → y.Normalized → x.digits.length + y.digits.length ≠ 0 →
      ∃ rs, multiplyRows y.digits x.digits (replicate (x.digits.length + y.digits.length) 0) = some rs ∧
        (trim { negative, digits := rs }).Represents (signed negative (x.magnitude * y.magnitude : Nat)) := by
    intro x y normal_x normal_y nonempty
    obtain ⟨rs, ran, digits, length, value⟩ := multiplyRows_spec (replicate y.digits.length 0)
      normal_x.digits normal_y.digits (fun d member => eq_of_mem_replicate member ▸ (by decide : 0 < radix))
      length_replicate
    rw [← replicate_add, add_comm] at ran
    rw [ofDigits_replicate_zero, zero_add] at value
    have trimmed := represents_trim (x := { negative, digits := rs }) digits (by
      rintro rfl
      exact nonempty length.symm)
    refine ⟨rs, ran, ?_⟩
    rwa [show ({ negative, digits := rs } : Bignum).magnitude = x.magnitude * y.magnitude from value] at trimmed
  have positive : x.digits.length ≠ 0 := by simpa using nonzero
  unfold multiplyUnsigned
  by_cases longer : y.digits.length > x.digits.length
  · obtain ⟨rs, ran, represents⟩ := rows normal_y normal_x (by omega)
    rw [mul_comm] at represents
    exact ⟨_, by simp [if_pos longer, ran], represents⟩
  · obtain ⟨rs, ran, represents⟩ := rows normal_x normal_y (by omega)
    exact ⟨_, by simp [if_neg longer, ran], represents⟩

theorem multiplyUnsignedSmallFactor_represents {factor : Nat} (large : 1 < factor)
    (small : factor < radixRoot) (negative : Bool) : ∃ r, multiplyUnsignedSmallFactor x factor negative = some r ∧
    r.Represents (signed negative (x.magnitude * factor : Nat)) := by
  obtain ⟨rs, carry, ran, digits, length, value⟩ := scaleUpDigits_spec (x.digits ++ [0]) small
    (normal_x.digits.append (by decide)) (by decide : 0 < radixRoot)
  rw [ofDigits_append_zero] at value
  -- the additional digit has room for the carry
  have room : factor * x.magnitude < radix ^ (x.digits ++ [0]).length := by
    rw [length_append, length_singleton, mul_comm]
    exact mul_lt_mul'' normal_x.magnitude_lt
      (small.trans (by decide))
  have settled : carry = 0 := by
    by_contra nonzero
    have large : radix ^ (x.digits ++ [0]).length * 1 ≤ radix ^ (x.digits ++ [0]).length * carry :=
      mul_le_mul_left _ (one_le_iff_ne_zero.mpr nonzero)
    rw [magnitude] at room
    omega
  subst settled
  have scaled : scaleUp (x.digits ++ [0]) factor = some rs := by
    rw [scaleUp, if_pos ⟨large, small⟩, ran]
    rfl
  have trimmed := represents_trim (x := { negative, digits := rs }) digits (by
    rintro rfl
    simp at length)
  refine ⟨_, by rw [multiplyUnsignedSmallFactor, scaled]; rfl, ?_⟩
  rwa [show ({ negative, digits := rs } : Bignum).magnitude = x.magnitude * factor by
    rw [mul_comm]
    exact value] at trimmed

theorem smallFactor_eq_some {digit : Nat} (small : smallFactor x = some digit) :
    x.magnitude = digit ∧ 0 < digit ∧ digit < radixRoot := by
  obtain ⟨negative, digits⟩ := x
  cases digits with
  | nil => cases small
  | cons d rest =>
    cases rest with
    | cons => cases small
    | nil =>
      simp only [smallFactor] at small
      split at small
      · rename_i below
        obtain rfl := Option.some.inj small
        refine ⟨ofDigits_singleton, pos_of_ne_zero ?_, below⟩
        rintro rfl
        exact normal_x.leading rfl
      · cases small

theorem multiplyByDigit_represents (nonzero : x.digits ≠ []) {digit : Nat}
    (positive : 0 < digit) (small : digit < radixRoot) (negative : Bool) :
    ∃ r, multiplyByDigit x digit negative = some r ∧ r.Represents (signed negative (x.magnitude * digit : Nat)) := by
  unfold multiplyByDigit
  by_cases one : digit = 1
  · rw [one, mul_one, maybeNewSign_eq]
    exact ⟨_, rfl, represents_newSign normal_x nonzero negative⟩
  · rw [if_neg one]
    exact multiplyUnsignedSmallFactor_represents normal_x (by omega) small negative

theorem multiply_represents (normal_y : y.Normalized) :
    ∃ r, multiply x y = some r ∧ r.Represents (x.toInt * y.toInt) := by
  unfold multiply
  by_cases zero_x : x.digits = []
  · rw [if_pos zero_x, toInt_of_zero zero_x, zero_mul]
    exact ⟨x, rfl, normal_x, toInt_of_zero zero_x⟩
  by_cases zero_y : y.digits = []
  · rw [if_neg zero_x, if_pos zero_y, toInt_of_zero zero_y, mul_zero]
    exact ⟨y, rfl, normal_y, toInt_of_zero zero_y⟩
  rw [if_neg zero_x, if_neg zero_y]
  have signs : x.toInt * y.toInt =
      signed (if x.negative then !y.negative else y.negative) (x.magnitude * y.magnitude : Nat) := by
    rw [toInt_eq_signed, toInt_eq_signed]
    cases x.negative <;> cases y.negative <;> simp [signed]
  rw [signs]
  generalize (if x.negative then !y.negative else y.negative) = negative
  cases small_x : smallFactor x with
  | some digit =>
    obtain ⟨value, positive, below⟩ := smallFactor_eq_some normal_x small_x
    rw [value, mul_comm]
    exact multiplyByDigit_represents normal_y zero_y positive below negative
  | none =>
    cases small_y : smallFactor y with
    | some digit =>
      obtain ⟨value, positive, below⟩ := smallFactor_eq_some normal_y small_y
      rw [value]
      exact multiplyByDigit_represents normal_x zero_x positive below negative
    | none => exact multiplyUnsigned_represents normal_x normal_y zero_x negative

end

/-- Sums, differences and products are exact, and no word on the way leaves its range. -/
theorem arithmetic_exact (normal_x : x.Normalized) (normal_y : y.Normalized) :
    (∃ r, add x y = some r ∧ r.Represents (x.toInt + y.toInt)) ∧
      (∃ r, subtract x y = some r ∧ r.Represents (x.toInt - y.toInt)) ∧
      ∃ r, multiply x y = some r ∧ r.Represents (x.toInt * y.toInt) :=
  ⟨add_represents normal_x normal_y, subtract_represents normal_x normal_y, multiply_represents normal_x normal_y⟩

theorem arithmetic_exact_two_digits :
    let x : Bignum := { negative := false, digits := [radix - 1, radix - 1] }
    let y : Bignum := { negative := true, digits := [1, radix - 1] }
    (∃ r, add x y = some r ∧ r.Represents (x.toInt + y.toInt)) ∧
      (∃ r, subtract x y = some r ∧ r.Represents (x.toInt - y.toInt)) ∧
      ∃ r, multiply x y = some r ∧ r.Represents (x.toInt * y.toInt) :=
  arithmetic_exact (by decide) (by decide)

end MitScheme.Microcode.Bignum
