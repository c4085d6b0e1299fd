import Mathlib.Data.Int.Bitwise
import Mathlib.Tactic.Positivity
import Mathlib.Tactic.Ring

namespace MitScheme.Library.IntegerBits

open Nat
open Int (lnot negSucc ofNat testBit xor)

theorem testBit_nonnegative (n k : ℕ) : testBit (ofNat n) k = n.testBit k := rfl

theorem testBit_negative (n k : ℕ) : testBit (negSucc n) k = !n.testBit k := rfl

@[simp] theorem testBit_zero (k : ℕ) : (0 : ℤ).testBit k = false := zero_testBit k

theorem signs_differ (m n : ℕ) : ∃ k, testBit (ofNat m) k ≠ testBit (negSucc n) k := by
  have small : ∀ i ≤ m + n, i.testBit (m + n) = false := fun i bound =>
    testBit_eq_false_of_lt (bound.trans_lt Nat.lt_two_pow_self)
  refine ⟨m + n, ?_⟩
  rw [testBit_nonnegative, testBit_negative, small m (by omega), small n (by omega)]
  simp

theorem eq_of_testBit {x y : ℤ} (same : ∀ k, x.testBit k = y.testBit k) : x = y := by
  cases x with
  | ofNat m =>
    cases y with
    | ofNat n => exact congrArg ofNat (eq_of_testBit_eq same)
    | negSucc n =>
      obtain ⟨k, differ⟩ := signs_differ m n
      exact absurd (same k) differ
  | negSucc m =>
    cases y with
    | ofNat n =>
      obtain ⟨k, differ⟩ := signs_differ n m
      exact absurd (same k).symm differ
    | negSucc n =>
      refine congrArg negSucc (eq_of_testBit_eq fun k => ?_)
      simpa [testBit_negative] using same k

theorem land_assoc (x y z : ℤ) : (x.land y).land z = x.land (y.land z) := by
  apply eq_of_testBit
  intro k
  simp [Bool.and_assoc]

theorem lor_assoc (x y z : ℤ) : (x.lor y).lor z = x.lor (y.lor z) := by
  apply eq_of_testBit
  intro k
  simp [Bool.or_assoc]

theorem xor_assoc (x y z : ℤ) : (x.xor y).xor z = x.xor (y.xor z) := by
  apply eq_of_testBit
  intro k
  simp

theorem lnot_xor_assoc (x y z : ℤ) :
    lnot (xor (lnot (xor x y)) z) = lnot (xor x (lnot (xor y z))) := by
  apply eq_of_testBit
  intro k
  simp

theorem testBit_mul_two_pow (x : ℤ) (m k : ℕ) : (x * 2 ^ m).testBit k = (decide (m ≤ k) && x.testBit (k - m)) := by
  cases x with
  | ofNat n =>
    have cast : ofNat n * 2 ^ m = ofNat (n * 2 ^ m) := by simp
    rw [cast, testBit_nonnegative, testBit_nonnegative, Nat.testBit_mul_two_pow]
  | negSucc n =>
    have positive : 0 < 2 ^ m := Nat.two_pow_pos m
    -- The complement is multiplied too, with ones below.
    have complement : negSucc n * 2 ^ m = negSucc (2 ^ m * n + (2 ^ m - 1)) := by
      rw [Int.negSucc_eq, Int.negSucc_eq]
      push_cast [one_le_iff_ne_zero.mpr positive.ne']
      ring
    rw [complement, testBit_negative, testBit_negative, testBit_two_pow_mul_add n (by omega)]
    by_cases below : k < m
    · simp [below.not_ge]
    · simp [Nat.le_of_not_lt below]

theorem testBit_div_two_pow (x : ℤ) (m k : ℕ) : (x / 2 ^ m).testBit k = x.testBit (k + m) := by
  cases x with
  | ofNat n =>
    exact Nat.testBit_div_two_pow n k
  | negSucc n =>
    have quotient : negSucc n / 2 ^ m = negSucc (n / 2 ^ m) := by
      rw [Int.negSucc_ediv n (by positivity)]
      rfl
    rw [quotient, testBit_negative, testBit_negative, Nat.testBit_div_two_pow]

theorem testBit_ones (n m k : ℕ) : ((2 ^ n - 1) * 2 ^ m : ℤ).testBit k = (decide (m ≤ k) && decide (k < m + n)) := by
  have cast : (2 ^ n - 1 : ℤ) = ofNat (2 ^ n - 1) := by
    have positive := Nat.two_pow_pos n
    simp only [Int.ofNat_eq_natCast]
    push_cast [one_le_iff_ne_zero.mpr positive.ne']
    rfl
  rw [testBit_mul_two_pow, cast, testBit_nonnegative, testBit_two_pow_sub_one]
  by_cases below : m ≤ k
  · simp only [below, decide_true, Bool.true_and, decide_eq_decide]
    omega
  · simp [below]

theorem testBit_mod_two_pow (x : ℤ) (n k : ℕ) : (x % 2 ^ n).testBit k = (decide (k < n) && x.testBit k) := by
  have cast : (2 ^ n : ℤ) = (2 ^ n : ℕ) := by simp
  cases x with
  | ofNat m =>
    exact Nat.testBit_mod_two_pow m n k
  | negSucc m =>
    have less : m % 2 ^ n < 2 ^ n := mod_lt m (Nat.two_pow_pos n)
    have remainder : negSucc m % 2 ^ n = ofNat (2 ^ n - (m % 2 ^ n + 1)) := by
      rw [Int.negSucc_emod m (by positivity), cast, Int.ofNat_eq_natCast]
      omega
    rw [remainder, testBit_nonnegative, testBit_negative, testBit_two_pow_sub_succ less]
    by_cases below : k < n <;> simp [below]

theorem size_two_pow_sub_one (k : ℕ) : (2 ^ k - 1).size = k := by
  have positive := Nat.two_pow_pos k
  apply le_antisymm
  · exact size_le.mpr (by omega)
  · cases k with
    | zero => exact zero_le _
    | succ k =>
      exact lt_size.mpr (by omega)

end MitScheme.Library.IntegerBits
