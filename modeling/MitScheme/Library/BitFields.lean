import Mathlib.Tactic.Ring

namespace MitScheme.Library

def lsh (word : ℕ) : ℤ → ℕ
  | .ofNat count => word <<< count
  | .negSucc count => word >>> (count + 1)

theorem lsh_left (word count : ℕ) : lsh word count = word * 2 ^ count := Nat.shiftLeft_eq ..

theorem lsh_right (word count : ℕ) : lsh word (-count) = word / 2 ^ count := by
  cases count with
  | zero => show word <<< 0 = _; simp
  | succ count => exact Nat.shiftRight_eq_div_pow ..

theorem land_mask (word width low : ℕ) :
    word &&& ((2 ^ width - 1) * 2 ^ low) = word / 2 ^ low % 2 ^ width * 2 ^ low := by
  rw [← Nat.shiftLeft_eq, ← Nat.shiftLeft_eq, ← Nat.shiftRight_eq_div_pow]
  apply Nat.eq_of_testBit_eq
  intro i
  by_cases below : i < low
  · simp [below.not_ge]
  · simp [not_lt.mp below, Bool.and_comm]

theorem land_ones (word width : ℕ) : word &&& (2 ^ width - 1) = word % 2 ^ width :=
  Nat.and_two_pow_sub_one_eq_mod word width

theorem lor_add (high low width : ℕ) (fits : low < 2 ^ width) :
    (high * 2 ^ width) ||| low = high * 2 ^ width + low := by
  rw [mul_comm, Nat.two_pow_add_eq_or_of_lt fits]

end MitScheme.Library
