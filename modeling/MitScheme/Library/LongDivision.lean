import Mathlib.Tactic.Ring
import Mathlib.Tactic.LinearCombination
import Mathlib.Tactic.Linarith

namespace MitScheme.Library

open Nat (div_add_mod)

/-- The product of two digits, with a digit and a carry added, from the products of their halves. -/
theorem halfProduct {b x y digit carry low high : ℕ} (low_eq : low = digit + x % b * (y % b) + carry % b)
    (high_eq : high = x / b * (y % b) + x % b * (y / b) + low / b + carry / b) :
    high % b * b + low % b + b * b * (x / b * (y / b) + high / b) = digit + x * y + carry := by
  have x_split := div_add_mod x b
  have y_split := div_add_mod y b
  have carry_split := div_add_mod carry b
  have low_split := div_add_mod low b
  have high_split := div_add_mod high b
  calc high % b * b + low % b + b * b * (x / b * (y / b) + high / b)
      = b * (b * (high / b) + high % b) + low % b + b * b * (x / b * (y / b)) := by ring
    _ = b * (x / b * (y % b) + x % b * (y / b) + carry / b) + (b * (low / b) + low % b) +
          b * b * (x / b * (y / b)) := by rw [high_split, high_eq]; ring
    _ = digit + (b * (x / b) + x % b) * (b * (y / b) + y % b) + (b * (carry / b) + carry % b) := by
          rw [low_split, low_eq]; ring
    _ = _ := by rw [x_split, y_split, carry_split]

/-! ### The estimate of a quotient digit

`p` is the weight of the digits that the estimate leaves out: `top` are the leading digits of the
numerator `u`, `lead` those of the denominator `v`. -/

section
variable {u v p top lead : ℕ}

theorem quotient_le_of_leading (below : u < (top + 1) * p) (above : lead * p ≤ v) (positive : 0 < lead) :
    u / v ≤ top / lead := by
  rw [Nat.le_div_iff_mul_le positive]
  have product : u / v * lead * p ≤ u := by
    calc u / v * lead * p = u / v * (lead * p) := mul_assoc _ _ _
      _ ≤ u / v * v := Nat.mul_le_mul_left _ above
      _ ≤ u := Nat.div_mul_le_self u v
  exact Nat.lt_succ_iff.mp (Nat.lt_of_mul_lt_mul_right (product.trans_lt below))

theorem quotient_lt_of_exceeds (below : u < (top + 1) * p) (above : lead * p ≤ v) (positive : 0 < lead)
    {guess : ℕ} (exceeds : top < guess * lead) : u / v < guess :=
  (quotient_le_of_leading below above positive).trans_lt ((Nat.div_lt_iff_lt_mul positive).mpr exceeds)

theorem guess_le_of_fits (above : top * p ≤ u) (below : v < (lead + 1) * p) (exact : lead * p ≤ v)
    (positive : 0 < v) {guess : ℕ} (fits : guess * lead ≤ top) (small : guess ≤ lead) : guess ≤ u / v + 1 := by
  rw [← Nat.sub_le_iff_le_add, Nat.le_div_iff_mul_le positive, Nat.sub_mul, one_mul, Nat.sub_le_iff_le_add]
  calc guess * v ≤ guess * (lead * p + p) := Nat.mul_le_mul_left _ (by linarith)
    _ = guess * lead * p + guess * p := by ring
    _ ≤ top * p + lead * p := add_le_add (Nat.mul_le_mul_right _ fits) (Nat.mul_le_mul_right _ small)
    _ ≤ u + v := add_le_add above exact

end

/-! ### The subtraction of a guess

The lower digits `low` of a window, of weight less than `p`, and the digit `top` above them; the
product of the guess and the denominator `v` was subtracted from `low`, which left `rest` and a
borrow `carry` of weight `p`. -/

section
variable {v p low top rest carry guess : ℕ}

theorem subtract_fits (subtracted : low + p * carry = rest + guess * v) (small : v ≤ p) (positive : 0 < v)
    (enough : (low + p * top) / v ≤ guess) (fits : carry ≤ top) :
    guess = (low + p * top) / v ∧ rest = (low + p * top) % v ∧ top = carry := by
  obtain ⟨excess, rfl⟩ := Nat.exists_eq_add_of_le fits
  have whole : low + p * (carry + excess) = rest + p * excess + v * guess := by
    linear_combination subtracted
  have exact : guess = (low + p * (carry + excess)) / v := by
    refine le_antisymm ?_ enough
    rw [Nat.le_div_iff_mul_le positive, whole, mul_comm]
    exact Nat.le_add_left _ _
  have remainder : rest + p * excess = (low + p * (carry + excess)) % v := by
    have split := div_add_mod (low + p * (carry + excess)) v
    rw [← exact] at split
    omega
  have bound := Nat.mod_lt (low + p * (carry + excess)) positive
  have nothing : excess = 0 := by
    by_contra nonzero
    have large : p * 1 ≤ p * excess := Nat.mul_le_mul_left _ (Nat.one_le_iff_ne_zero.mpr nonzero)
    omega
  subst nothing
  exact ⟨exact, by rw [← remainder, mul_zero, add_zero], rfl⟩

/-- The digit above is too small: the guess was one too large, and adding the denominator back
gives the remainder and a carry. -/
theorem subtract_exceeds (subtracted : low + p * carry = rest + guess * v) (small : v ≤ p) (positive : 0 < v)
    (small_rest : rest < p) (close : guess ≤ (low + p * top) / v + 1) (exceeds : top < carry) :
    guess = (low + p * top) / v + 1 ∧ rest + v = (low + p * top) % v + p ∧ carry = top + 1 := by
  obtain ⟨under, rfl⟩ := Nat.exists_eq_add_of_lt exceeds
  have split := div_add_mod (low + p * top) v
  have larger : (low + p * top) / v < guess := by
    rw [Nat.div_lt_iff_lt_mul positive]
    have weight : p * (top + under + 1) = p * top + p * under + p := by ring
    omega
  have exact : guess = (low + p * top) / v + 1 := close.antisymm larger
  have back : rest + v = (low + p * top) % v + p * (under + 1) := by
    have weight : p * (top + under + 1) = p * top + p * (under + 1) := by ring
    have product : ((low + p * top) / v + 1) * v = v * ((low + p * top) / v) + v := by ring
    rw [exact] at subtracted
    omega
  have nothing : under = 0 := by
    by_contra nonzero
    have large : p * 2 ≤ p * (under + 1) := Nat.mul_le_mul_left _ (by omega)
    omega
  subst nothing
  exact ⟨exact, by rw [back, Nat.mul_one], rfl⟩

end

end MitScheme.Library
