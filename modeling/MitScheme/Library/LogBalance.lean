import Mathlib.Data.Nat.Size
import Mathlib.Algebra.Order.Ring.Nat

/-!
Sizes that are balanced when their bit lengths differ by at most one, and the rotations that
restore the balance of sizes whose bit lengths differ by two.
-/

namespace MitScheme.Library

open Nat

/-- The bit lengths differ by at most `d`. -/
def Near (d a b : ℕ) : Prop := Nat.size a ≤ Nat.size b + d ∧ Nat.size b ≤ Nat.size a + d

section
variable {a b c : ℕ}

theorem size_node_le {k : ℕ} (left : Nat.size a ≤ k) (right : Nat.size b ≤ k) : Nat.size (1 + a + b) ≤ k + 1 := by
  rw [size_le] at *
  omega

theorem le_size_node {k : ℕ} (left : k ≤ Nat.size a ∨ k ≤ Nat.size b) : k ≤ Nat.size (1 + a + b) := by
  rcases left with left | right
  · exact left.trans (size_le_size (by omega))
  · exact right.trans (size_le_size (by omega))

theorem succ_le_size_node {k : ℕ} (left : k ≤ Nat.size a) (right : k ≤ Nat.size b) : k + 1 ≤ Nat.size (1 + a + b) := by
  cases k with
  | zero => exact lt_size.mpr (by omega)
  | succ k =>
    rw [succ_le_iff, lt_size] at *
    omega

theorem size_node_three {k : ℕ} (first : k + 2 ≤ Nat.size a) (second : k + 1 ≤ Nat.size b)
    (third : k + 1 ≤ Nat.size c) : k + 3 ≤ Nat.size (1 + (1 + a + b) + c) := by
  rw [succ_le_iff, lt_size] at *
  rw [pow_succ]
  omega

theorem Near.symm {d : ℕ} (near : Near d a b) : Near d b a := ⟨near.2, near.1⟩

theorem Near.mono {d e : ℕ} (near : Near d a b) (le : d ≤ e) : Near e a b :=
  ⟨near.1.trans (by omega), near.2.trans (by omega)⟩

theorem size_succ (a : ℕ) : Nat.size a ≤ Nat.size (a + 1) ∧ Nat.size (a + 1) ≤ Nat.size a + 1 := by
  have small := size_node_le (le_refl (size a)) (show size 0 ≤ size a by simp)
  rw [add_comm 1] at small
  exact ⟨size_le_size (le_succ a), small⟩

theorem Near.succ_left {d : ℕ} (near : Near d a b) : Near (d + 1) (a + 1) b := by
  obtain ⟨above, below⟩ := near
  have grown := size_succ a
  exact ⟨by omega, by omega⟩

theorem Near.pred_left {d : ℕ} (near : Near d (a + 1) b) : Near (d + 1) a b := by
  obtain ⟨above, below⟩ := near
  have grown := size_succ a
  exact ⟨by omega, by omega⟩

end

section
variable {x y z y1 y2 : ℕ}

theorem near_single (far : Nat.size (1 + y + z) = Nat.size x + 2) (inner : Near 1 y z)
    (single : Nat.size y ≤ Nat.size z) : Near 1 x y ∧ Near 1 (1 + x + y) z := by
  obtain ⟨-, inner⟩ := inner
  have large := size_node_le single (le_refl (size z))
  have small := succ_le_size_node (le_refl (size y)) single
  have near : Near 1 x y := ⟨by omega, by omega⟩
  refine ⟨near, ?_⟩
  by_cases same : size y = size x
  · have above := size_node_le (le_refl (size x)) same.le
    have below := succ_le_size_node (le_refl (size x)) same.ge
    exact ⟨by omega, by omega⟩
  · have above := size_node_le (show size x ≤ size y by omega) (le_refl (size y))
    have below := le_size_node (a := x) (.inr (le_refl (size y)))
    exact ⟨by omega, by omega⟩

theorem near_double (far : Nat.size (1 + (1 + y1 + y2) + z) = Nat.size x + 2) (inner : Near 1 (1 + y1 + y2) z)
    (inner' : Near 1 y1 y2) (double : Nat.size z < Nat.size (1 + y1 + y2)) :
    Near 1 x y1 ∧ Near 1 y2 z ∧ Near 1 (1 + x + y1) (1 + y2 + z) := by
  obtain ⟨inner, -⟩ := inner
  obtain ⟨left, right⟩ := inner'
  have large := size_node_le (le_refl (size (1 + y1 + y2))) double.le
  have small := le_size_node (b := z) (.inl (le_refl (size (1 + y1 + y2))))
  have large_y := size_node_le (le_max_left (size y1) (size y2)) (le_max_right (size y1) (size y2))
  have max_y := le_size_node (a := y1) (b := y2) (le_max_iff.mp (le_refl _))
  -- the parts of the middle are not both as long as the outer part allows
  have short_1 : ¬(size x + 2 ≤ size y1 ∧ size x + 1 ≤ size y2 ∧ size x + 1 ≤ size z) := by
    rintro ⟨first, second, third⟩
    have long := size_node_three first second third
    omega
  have short_2 : ¬(size x + 2 ≤ size y2 ∧ size x + 1 ≤ size y1 ∧ size x + 1 ≤ size z) := by
    rintro ⟨first, second, third⟩
    have long := size_node_three first second third
    rw [show 1 + y2 + y1 = 1 + y1 + y2 by omega] at long
    omega
  have near_left : Near 1 x y1 := ⟨by omega, by omega⟩
  have near_right : Near 1 y2 z := ⟨by omega, by omega⟩
  refine ⟨near_left, near_right, ?_⟩
  have above := size_node_le (le_max_left (size x) (size y1)) (le_max_right (size x) (size y1))
  have below := succ_le_size_node (min_le_left (Nat.size x) (size y1)) (min_le_right (Nat.size x) (Nat.size y1))
  have most := le_size_node (a := x) (b := y1) (le_max_iff.mp (le_refl _))
  have above' := size_node_le (le_max_left (size y2) (size z)) (le_max_right (size y2) (size z))
  have below' := succ_le_size_node (min_le_left (size y2) (size z)) (min_le_right (size y2) (size z))
  have most' := le_size_node (a := y2) (b := z) (le_max_iff.mp (le_refl _))
  exact ⟨by omega, by omega⟩

theorem near_join (far : Nat.size x + 2 ≤ Nat.size (1 + y + z)) (inner : Near 1 y z) : Near 2 (1 + x + y) z := by
  obtain ⟨left, right⟩ := inner
  have large := size_node_le left (le_succ (size z))
  have above := size_node_le (a := x) (b := y) (k := size z + 1) (by omega) left
  have below := le_size_node (a := x) (.inr (le_refl (size y)))
  exact ⟨by omega, by omega⟩

end

end MitScheme.Library
