import Mathlib.Data.List.Infix

namespace MitScheme.Library

open List

variable {α : Type*} {p w : List α}

/-- The longest prefix of the pattern that ends the text, among those of at most `bound` elements,
has `n` elements. -/
structure Longest (p w : List α) (bound n : ℕ) : Prop where
  le : n ≤ bound
  suffix : p.take n <:+ w
  longest : ∀ k ≤ bound, p.take k <:+ w → k ≤ n

theorem longest_nil (nonempty : p ≠ []) (bound : ℕ) : Longest p [] bound 0 := by
  refine ⟨Nat.zero_le _, by rw [take_zero], ?_⟩
  intro k small suffix
  have empty := suffix_nil.mp suffix
  rw [take_eq_nil_iff] at empty
  exact (empty.resolve_right nonempty).le

theorem take_succ_suffix_concat {n : ℕ} (short : n < p.length) (c : α) :
    p.take (n + 1) <:+ w ++ [c] ↔ p.take n <:+ w ∧ p[n]? = some c := by
  rw [take_succ_eq_append_getElem short, getElem?_eq_getElem short]
  constructor
  · rintro ⟨t, same⟩
    rw [← append_assoc] at same
    obtain ⟨rest, last⟩ := append_inj' same rfl
    exact ⟨⟨t, rest⟩, congrArg some (singleton_injective last)⟩
  · rintro ⟨⟨t, rfl⟩, last⟩
    rw [Option.some.inj last, append_assoc]
    exact suffix_append _ _

theorem take_suffix_take {k n : ℕ} (below : k ≤ n) (left : p.take k <:+ w) (right : p.take n <:+ w) :
    p.take k <:+ p.take n :=
  suffix_of_suffix_length_le left right (by rw [length_take, length_take]; omega)

theorem take_suffix_tail {k n : ℕ} (below : k ≤ n) (short : n < p.length) :
    p.take k <:+ p.take (n + 1) ↔ p.take k <:+ p.tail.take n := by
  cases p with
  | nil => exact absurd short (Nat.not_lt_zero _)
  | cons x p =>
    rw [tail_cons]
    refine ⟨fun suffix => ?_, fun suffix => suffix.trans (suffix_cons _ _)⟩
    refine suffix_of_suffix_length_le suffix (suffix_cons _ _) ?_
    rw [length_cons] at short
    rw [length_take, length_take]
    omega

section
variable {c : α} {bound n : ℕ}

/-- No longer prefix than the one of `n` elements can be extended. -/
structure Extendable (p w : List α) (c : α) (bound n : ℕ) : Prop where
  le : n ≤ bound
  suffix : p.take n <:+ w
  longest : ∀ k ≤ bound, p.take (k + 1) <:+ w ++ [c] → k ≤ n

theorem Longest.extendable (longest : Longest p w bound n) (short : bound < p.length) (c : α) :
    Extendable p w c bound n :=
  ⟨longest.le, longest.suffix, fun k small suffix =>
    longest.longest k small ((take_succ_suffix_concat (by omega) c).mp suffix).1⟩

theorem Extendable.extend (extendable : Extendable p w c bound n) (short : bound < p.length)
    (next : p[n]? = some c) : Longest p (w ++ [c]) (bound + 1) (n + 1) := by
  have small := extendable.le
  refine ⟨Nat.succ_le_succ small, (take_succ_suffix_concat (by omega) c).mpr ⟨extendable.suffix, next⟩, ?_⟩
  intro k below suffix
  cases k with
  | zero => exact Nat.zero_le _
  | succ k => exact Nat.succ_le_succ (extendable.longest k (Nat.le_of_succ_le_succ below) suffix)

theorem Extendable.fall {link : ℕ} (extendable : Extendable p w c bound (n + 1)) (short : bound < p.length)
    (mismatch : p[n + 1]? ≠ some c) (border : Longest p (p.tail.take n) n link) : Extendable p w c bound link := by
  have small := extendable.le
  have inside : n < p.length := by omega
  refine ⟨border.le.trans (by omega), ?_, ?_⟩
  · exact ((take_suffix_tail border.le inside).mpr border.suffix).trans extendable.suffix
  · intro k below suffix
    have close := extendable.longest k below suffix
    obtain ⟨ends, next⟩ := (take_succ_suffix_concat (by omega) c).mp suffix
    have less : k ≤ n := by
      refine Nat.lt_succ_iff.mp (lt_of_le_of_ne close ?_)
      rintro rfl
      exact mismatch next
    refine border.longest k less ((take_suffix_tail less inside).mp ?_)
    exact take_suffix_take (by omega) ends extendable.suffix

theorem Extendable.none (extendable : Extendable p w c bound 0) (short : bound < p.length)
    (mismatch : p[0]? ≠ some c) : Longest p (w ++ [c]) (bound + 1) 0 := by
  refine ⟨Nat.zero_le _, by exact nil_suffix, ?_⟩
  intro k below suffix
  cases k with
  | zero => exact le_refl 0
  | succ k =>
    obtain rfl : k = 0 := Nat.le_zero.mp (extendable.longest k (Nat.le_of_succ_le_succ below) suffix)
    exact absurd ((take_succ_suffix_concat (by omega) c).mp suffix).2 mismatch

end

theorem Longest.proper {n : ℕ} (longest : Longest p w p.length n) (partly : n < p.length) :
    Longest p w (p.length - 1) n :=
  ⟨by omega, longest.suffix, fun k small => longest.longest k (by omega)⟩

theorem Longest.restart {link : ℕ} (ends : p <:+ w) (nonempty : p ≠ [])
    (border : Longest p (p.tail.take (p.length - 1)) (p.length - 1) link) : Longest p w (p.length - 1) link := by
  have positive := length_pos_iff.mpr nonempty
  have inside : p.length - 1 < p.length := by omega
  have whole : p.take (p.length - 1 + 1) = p := by rw [Nat.sub_add_cancel positive, take_length]
  refine ⟨border.le, ?_, fun k small suffix => border.longest k small ?_⟩
  · have short := (take_suffix_tail border.le inside).mpr border.suffix
    rw [whole] at short
    exact short.trans ends
  · refine (take_suffix_tail small inside).mp ?_
    rw [whole]
    exact suffix_of_suffix_length_le suffix ends (by rw [length_take]; omega)

theorem Longest.complete_iff {n : ℕ} (longest : Longest p w p.length n) : n = p.length ↔ p <:+ w := by
  constructor
  · rintro rfl
    simpa using longest.suffix
  · intro ends
    exact longest.le.antisymm (longest.longest _ (le_refl _) (by rwa [take_length]))

end MitScheme.Library
