import MitScheme.Library.Positional
import Mathlib.Tactic.LinearCombination

/-!
A bignum is a sign and a list of 62-bit digits, least significant first. Digits are held in signed
64-bit words; an operation that would leave their range, or fail an assertion, is `none`.
Allocation always succeeds.
-/

namespace MitScheme.Microcode

open Library

structure Bignum where
  negative : Bool
  digits : List Nat
  deriving DecidableEq, Repr

namespace Bignum

def digitLength : Nat := 62

def halfDigitLength : Nat := digitLength / 2

def radix : Nat := 2 ^ digitLength

def radixRoot : Nat := 2 ^ halfDigitLength

def word (n : Nat) : Option Nat := if n < 2 ^ 63 then some n else none

def wordOfInt (n : Int) : Option Nat := if 0 ≤ n ∧ n < 2 ^ 63 then some n.toNat else none

/-- A difference of digits in a signed word, which the code tests for being negative. -/
def difference (n : Int) : Option Int := if -2 ^ 63 ≤ n ∧ n < 2 ^ 63 then some n else none

def hdLow (digit : Nat) : Nat := digit &&& (radixRoot - 1)

def hdHigh (digit : Nat) : Nat := digit >>> halfDigitLength

def hdCons (high low : Nat) : Nat := high <<< halfDigitLength ||| low

theorem radix_eq : radix = 4611686018427387904 := by decide

theorem radixRoot_eq : radixRoot = 2147483648 := by decide

theorem radixRoot_mul_self : radixRoot * radixRoot = radix := by decide

theorem one_lt_radix : 1 < radix := by decide

theorem word_eq {n : Nat} (small : n < 2 ^ 63) : word n = some n := if_pos small

theorem wordOfInt_eq {n : Int} (range : 0 ≤ n ∧ n < 2 ^ 63) : wordOfInt n = some n.toNat := if_pos range

theorem difference_eq {n : Int} (range : -2 ^ 63 ≤ n ∧ n < 2 ^ 63) : difference n = some n := if_pos range

theorem someBind {α β : Type} (a : α) (f : α → Option β) : (some a >>= f) = f a := by
  rw [Option.bind_eq_bind, Option.bind_some]

@[simp]
theorem hdLow_eq (digit : Nat) : hdLow digit = digit % radixRoot := Nat.and_two_pow_sub_one_eq_mod digit _

@[simp]
theorem hdHigh_eq (digit : Nat) : hdHigh digit = digit / radixRoot := Nat.shiftRight_eq_div_pow digit _

theorem hdLow_lt (digit : Nat) : digit % radixRoot < radixRoot := Nat.mod_lt _ (by decide)

theorem hdHigh_lt {digit : Nat} (small : digit < radix) : digit / radixRoot < radixRoot :=
  (Nat.div_lt_iff_lt_mul (by decide)).mpr (radixRoot_mul_self ▸ small)

theorem hdCons_eq {low : Nat} (high : Nat) (small : low < radixRoot) : hdCons high low = high * radixRoot + low := by
  rw [hdCons, ← Nat.shiftLeft_add_eq_or_of_lt small, Nat.shiftLeft_eq]
  rfl

def magnitude (x : Bignum) : Nat := Nat.ofDigits radix x.digits

def toInt (x : Bignum) : Int := if x.negative then -(x.magnitude : Int) else x.magnitude

structure Normalized (x : Bignum) : Prop where
  digits : Digits radix x.digits
  leading : Leading x.digits
  zero : x.digits = [] → x.negative = false

instance (x : Bignum) : Decidable x.Normalized :=
  decidable_of_iff (Digits radix x.digits ∧ Leading x.digits ∧ (x.digits = [] → x.negative = false))
    ⟨fun ⟨digits, leading, zero⟩ => ⟨digits, leading, zero⟩, fun ⟨digits, leading, zero⟩ => ⟨digits, leading, zero⟩⟩

structure Represents (x : Bignum) (n : Int) : Prop where
  normalized : x.Normalized
  value : x.toInt = n

variable {x y : Bignum}

theorem Normalized.represents (normalized : x.Normalized) : x.Represents x.toInt := ⟨normalized, rfl⟩

theorem toInt_natAbs (x : Bignum) : x.toInt.natAbs = x.magnitude := by
  unfold toInt
  split <;> simp

section
variable (normalized : x.Normalized)
include normalized

theorem Normalized.magnitude_eq_zero : x.magnitude = 0 ↔ x.digits = [] :=
  ofDigits_eq_zero (by decide) normalized.leading

theorem Normalized.magnitude_pos (nonzero : x.digits ≠ []) : 0 < x.magnitude :=
  pos_of_ne_zero fun zero => nonzero (normalized.magnitude_eq_zero.mp zero)

theorem Normalized.magnitude_lt : x.magnitude < radix ^ x.digits.length :=
  Nat.ofDigits_lt_base_pow_length one_lt_radix normalized.digits

theorem Normalized.length_le_iff {k : Nat} : x.digits.length ≤ k ↔ x.magnitude < radix ^ k := by
  constructor
  · intro short
    exact normalized.magnitude_lt.trans_le (Nat.pow_le_pow_right (by decide) short)
  · intro less
    by_contra long
    have nonempty : x.digits ≠ [] := List.ne_nil_of_length_pos (by omega)
    have large : radix ^ k ≤ x.magnitude :=
      (Nat.pow_le_pow_right (by decide) (by omega)).trans (pow_le_ofDigits normalized.leading nonempty)
    omega

theorem Normalized.pow_le_magnitude {k : Nat} (inside : k < x.digits.length) : radix ^ k ≤ x.magnitude := by
  apply not_lt.mp
  rw [← normalized.length_le_iff]
  exact inside.not_ge

end

theorem toInt_of_nonnegative (sign : x.negative = false) : x.toInt = x.magnitude := by
  simp [toInt, sign]

theorem toInt_of_negative (sign : x.negative = true) : x.toInt = -x.magnitude := by
  simp [toInt, sign]

theorem Normalized.negative_iff (normalized : x.Normalized) : x.negative = true ↔ x.toInt < 0 := by
  cases sign : x.negative with
  | false =>
    rw [toInt_of_nonnegative sign]
    simp
  | true =>
    have nonzero : x.digits ≠ [] := by
      intro zero
      rw [normalized.zero zero] at sign
      cases sign
    have positive := normalized.magnitude_pos nonzero
    rw [toInt_of_negative sign]
    simp
    omega

inductive Comparison where
  | equal
  | less
  | greater
  deriving DecidableEq, Repr

def compareDigits : List Nat → List Nat → Comparison
  | x :: xs, y :: ys => if x < y then .less else if x > y then .greater else compareDigits xs ys
  | _, _ => .equal

def compareUnsigned (x y : Bignum) : Comparison :=
  if x.digits.length < y.digits.length then .less
  else if x.digits.length > y.digits.length then .greater
  else compareDigits x.digits.reverse y.digits.reverse

def Comparison.Holds (m n : Nat) : Comparison → Prop
  | .equal => m = n
  | .less => m < n
  | .greater => n < m

theorem compareDigits_holds {xs ys : List Nat} (digits_x : Digits radix xs) (digits_y : Digits radix ys)
    (same : xs.length = ys.length) :
    (compareDigits xs ys).Holds (Nat.ofDigits radix xs.reverse) (Nat.ofDigits radix ys.reverse) := by
  induction xs generalizing ys with
  | nil =>
    rw [List.eq_nil_of_length_eq_zero same.symm]
    rfl
  | cons x xs ih =>
    cases ys with
    | nil => cases same
    | cons y ys =>
      rw [digits_cons] at digits_x digits_y
      have lengths : xs.length = ys.length := Nat.succ.inj same
      have reversed : xs.reverse.length = ys.reverse.length := by simpa using lengths
      have digits_x' : Digits radix xs.reverse := fun d member => digits_x.2 d (List.mem_reverse.mp member)
      have digits_y' : Digits radix ys.reverse := fun d member => digits_y.2 d (List.mem_reverse.mp member)
      rw [compareDigits, List.reverse_cons, List.reverse_cons]
      split
      · rename_i less
        exact ofDigits_concat_lt one_lt_radix digits_x' reversed less
      · split
        · rename_i greater
          exact ofDigits_concat_lt one_lt_radix digits_y' reversed.symm greater
        · obtain rfl : x = y := by omega
          have rest := ih digits_x.2 digits_y.2 lengths
          rw [Nat.ofDigits_append, Nat.ofDigits_append, reversed]
          cases compared : compareDigits xs ys <;> rw [compared] at rest <;> simp only [Comparison.Holds] at rest ⊢ <;>
            omega

theorem compareUnsigned_holds (normal_x : x.Normalized) (normal_y : y.Normalized) :
    (compareUnsigned x y).Holds x.magnitude y.magnitude := by
  unfold compareUnsigned
  split
  · rename_i shorter
    exact ofDigits_lt_of_length_lt one_lt_radix normal_x.digits normal_y.leading shorter
  · split
    · rename_i longer
      exact ofDigits_lt_of_length_lt one_lt_radix normal_y.digits normal_x.leading longer
    · have holds := compareDigits_holds (fun d member => normal_x.digits d (List.mem_reverse.mp member))
        (fun d member => normal_y.digits d (List.mem_reverse.mp member))
        (by rw [List.length_reverse, List.length_reverse]; omega)
      rwa [List.reverse_reverse, List.reverse_reverse] at holds

theorem digits_eq_of_ofDigits_eq {xs ys : List Nat} (digits_x : Digits radix xs) (leading_x : Leading xs)
    (digits_y : Digits radix ys) (leading_y : Leading ys) (same : Nat.ofDigits radix xs = Nat.ofDigits radix ys) :
    xs = ys := by
  rcases lt_trichotomy xs.length ys.length with shorter | equal | longer
  · have less := ofDigits_lt_of_length_lt one_lt_radix digits_x leading_y shorter
    omega
  · exact Nat.ofDigits_inj_of_len_eq one_lt_radix equal digits_x digits_y same
  · have less := ofDigits_lt_of_length_lt one_lt_radix digits_y leading_x longer
    omega

theorem Represents.unique {n : Int} (left : x.Represents n) (right : y.Represents n) : x = y := by
  have signs : x.negative = y.negative := by
    rw [Bool.eq_iff_iff, left.normalized.negative_iff, right.normalized.negative_iff, left.value, right.value]
  have magnitudes : x.magnitude = y.magnitude := by
    rw [← toInt_natAbs, ← toInt_natAbs, left.value, right.value]
  have digits := digits_eq_of_ofDigits_eq left.normalized.digits left.normalized.leading right.normalized.digits
    right.normalized.leading magnitudes
  cases x
  cases y
  simp_all

def makeZero : Bignum := { negative := false, digits := [] }

def makeOne (negative : Bool) : Bignum := { negative, digits := [1] }

def newSign (x : Bignum) (negative : Bool) : Bignum := { negative, digits := x.digits }

def maybeNewSign (x : Bignum) (negative : Bool) : Bignum :=
  if x.negative = negative then x else { negative, digits := x.digits }

def shortenLength (x : Bignum) (length : Nat) : Bignum :=
  if length < x.digits.length then
    { negative := length ≠ 0 && x.negative, digits := x.digits.take length }
  else x

/-- The scan goes down to the first digit that is not zero, or to the header. The header is set when the length changes.
-/
def trim (x : Bignum) : Bignum :=
  let digits := x.digits.rdropWhile (· = 0)
  if digits.length < x.digits.length then
    { negative := digits.length ≠ 0 && x.negative, digits }
  else x

def digitToBignum (digit : Nat) (negative : Bool) : Bignum :=
  if digit = 0 then makeZero else { negative, digits := [digit] }

def signed (negative : Bool) (n : Nat) : Int := if negative then -n else n

@[simp]
theorem signed_zero (negative : Bool) : signed negative 0 = 0 := by cases negative <;> rfl

theorem signed_not (negative : Bool) (n : Nat) : signed (!negative) n = -signed negative n := by
  cases negative <;> simp [signed]

theorem toInt_eq_signed (x : Bignum) : x.toInt = signed x.negative x.magnitude := rfl

theorem represents_makeZero : makeZero.Represents 0 := ⟨⟨by decide, by decide, fun _ => rfl⟩, rfl⟩

theorem represents_makeOne (negative : Bool) : (makeOne negative).Represents (signed negative 1) := by
  cases negative <;> exact ⟨by decide, by decide⟩

theorem represents_newSign (normalized : x.Normalized) (nonzero : x.digits ≠ []) (negative : Bool) :
    (newSign x negative).Represents (signed negative x.magnitude) :=
  ⟨⟨normalized.digits, normalized.leading, fun zero => absurd zero nonzero⟩, rfl⟩

theorem maybeNewSign_eq (x : Bignum) (negative : Bool) : maybeNewSign x negative = newSign x negative := by
  unfold maybeNewSign newSign
  split
  · rename_i same
    rw [← same]
  · rfl

theorem shortenLength_concat (negative : Bool) {ds : List Nat} (nonempty : ds ≠ []) (d : Nat) :
    shortenLength { negative, digits := ds ++ [d] } ds.length = { negative, digits := ds } := by
  simp [shortenLength, nonempty]

theorem represents_trim (digits : Digits radix x.digits) (nonempty : x.digits ≠ []) :
    (trim x).Represents (signed x.negative x.magnitude) := by
  have kept : Nat.ofDigits radix (x.digits.rdropWhile (· = 0)) = x.magnitude := ofDigits_rdropWhile x.digits
  unfold trim
  dsimp only
  split
  · refine ⟨⟨digits.rdropWhile, leading_rdropWhile _, fun zero => ?_⟩, ?_⟩
    · simp [show x.digits.rdropWhile (· = 0) = [] from zero]
    · rw [toInt_eq_signed, magnitude, kept]
      by_cases zero : x.digits.rdropWhile (· = 0) = []
      · rw [zero] at kept
        rw [← kept, Nat.ofDigits_nil, signed_zero, signed_zero]
      · simp [zero]
  · rename_i full
    have all : x.digits.rdropWhile (· = 0) = x.digits :=
      (List.rdropWhile_prefix _ x.digits).eq_of_length_le (not_lt.mp full)
    refine ⟨⟨digits, ?_, fun empty => absurd empty nonempty⟩, rfl⟩
    rw [← all]
    exact leading_rdropWhile _

theorem represents_digitToBignum {digit : Nat} (small : digit < radix) (negative : Bool) :
    (digitToBignum digit negative).Represents (signed negative digit) := by
  unfold digitToBignum
  split
  · rename_i zero
    subst zero
    cases negative <;> exact represents_makeZero
  · rename_i nonzero
    refine ⟨⟨fun d member => List.mem_singleton.mp member ▸ small, by simpa [Leading] using nonzero, nofun⟩, ?_⟩
    rw [toInt_eq_signed, magnitude, Nat.ofDigits_singleton]

end Bignum

end MitScheme.Microcode
