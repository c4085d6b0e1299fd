import Mathlib.Data.Nat.Digits.Lemmas
import Mathlib.Data.List.DropRight

namespace MitScheme.Library

open List Nat
open Nat (digits digitsAppend ofDigits)

section
variable {b : ℕ}

abbrev Digits (b : ℕ) (ds : List ℕ) : Prop := ∀ d ∈ ds, d < b

abbrev Leading (ds : List ℕ) : Prop := ds.getLast? ≠ some 0

variable {xs ys ds : List ℕ} {k n : ℕ}

theorem Digits.append (left : Digits b xs) (right : Digits b ys) : Digits b (xs ++ ys) := by
  intro d member
  rcases mem_append.mp member with member | member
  · exact left d member
  · exact right d member

theorem Digits.take (digits : Digits b ds) (k : ℕ) : Digits b (ds.take k) :=
  fun d member => digits d (mem_of_mem_take member)

theorem Digits.drop (digits : Digits b ds) (k : ℕ) : Digits b (ds.drop k) :=
  fun d member => digits d (mem_of_mem_drop member)

theorem digits_nil : Digits b [] := forall_mem_nil _

theorem digits_cons {d : ℕ} : Digits b (d :: ds) ↔ d < b ∧ Digits b ds := by
  simp [Digits]

theorem ofDigits_take_add_drop (ds : List ℕ) {k : ℕ} (short : k ≤ ds.length) :
    ofDigits b ds = ofDigits b (ds.take k) + b ^ k * ofDigits b (ds.drop k) := by
  conv_lhs => rw [← take_append_drop k ds, ofDigits_append, length_take, min_eq_left short]

theorem ofDigits_drop_eq_zero (ds : List ℕ) {k : ℕ} (short : k ≤ ds.length) (small : ofDigits b ds < b ^ k) :
    ofDigits b (ds.drop k) = 0 := by
  by_contra nonzero
  have whole := ofDigits_take_add_drop (b := b) ds short
  have large : b ^ k * 1 ≤ b ^ k * ofDigits b (ds.drop k) :=
    mul_le_mul_left _ (one_le_iff_ne_zero.mpr nonzero)
  omega

theorem ofDigits_rdropWhile (ds : List ℕ) : ofDigits b (ds.rdropWhile (· = 0)) = ofDigits b ds := by
  induction ds using reverseRecOn with
  | nil => rfl
  | append_singleton ds d ih =>
    by_cases zero : d = 0
    · subst zero
      rw [rdropWhile_concat_pos _ _ _ (by simp), ih, ofDigits_append_zero]
    · rw [rdropWhile_concat_neg _ _ _ (by simpa using zero)]

theorem leading_rdropWhile (ds : List ℕ) : Leading (ds.rdropWhile (· = 0)) := by
  intro zero
  have nonempty : ds.rdropWhile (· = 0) ≠ [] := by
    rintro empty
    rw [empty] at zero
    cases zero
  have last := rdropWhile_last_not _ _ nonempty
  rw [getLast?_eq_some_getLast nonempty] at zero
  simp [Option.some.inj zero] at last

theorem Digits.rdropWhile (digits : Digits b ds) : Digits b (ds.rdropWhile (· = 0)) :=
  fun d member => digits d ((List.rdropWhile_prefix _ ds).subset member)

theorem pow_le_ofDigits (leading : Leading ds) (nonempty : ds ≠ []) : b ^ (ds.length - 1) ≤ ofDigits b ds := by
  induction ds using reverseRecOn with
  | nil => exact absurd rfl nonempty
  | append_singleton ds d =>
    have nonzero : d ≠ 0 := by
      rintro rfl
      exact leading (by simp)
    rw [ofDigits_append, length_append, length_singleton]
    calc b ^ ds.length = b ^ ds.length * 1 := (mul_one _).symm
      _ ≤ b ^ ds.length * d := mul_le_mul_left _ (one_le_iff_ne_zero.mpr nonzero)
      _ ≤ _ := le_add_left _ _

theorem le_getLast_of_le (base : 1 < b) (digits : Digits b ds) {c d : ℕ}
    (last : ds.getLast? = some d) (large : c * b ^ (ds.length - 1) ≤ ofDigits b ds) : c ≤ d := by
  obtain ⟨init, rfl⟩ := getLast?_eq_some_iff.mp last
  have small := ofDigits_lt_base_pow_length base fun d member => digits d (mem_append_left _ member)
  rw [ofDigits_append, ofDigits_singleton, length_append, length_singleton, Nat.add_sub_cancel] at large
  refine Nat.lt_succ_iff.mp (Nat.lt_of_mul_lt_mul_right (a := b ^ init.length) ?_)
  rw [succ_mul, mul_comm d]
  omega

theorem leading_of_pow_le (base : 1 < b) (digits : Digits b ds)
    (large : b ^ (ds.length - 1) ≤ ofDigits b ds) : Leading ds := by
  intro zero
  obtain ⟨init, rfl⟩ := getLast?_eq_some_iff.mp zero
  have small := ofDigits_lt_base_pow_length base fun d member => digits d (mem_append_left _ member)
  rw [ofDigits_append_zero, length_append, length_singleton, Nat.add_sub_cancel] at large
  omega

theorem ofDigits_eq_zero (base : 0 < b) (leading : Leading ds) : ofDigits b ds = 0 ↔ ds = [] := by
  constructor
  · intro zero
    by_contra nonempty
    have large := pow_le_ofDigits (b := b) leading nonempty
    have positive := pow_pos (n := ds.length - 1) base
    omega
  · rintro rfl
    rfl

theorem ofDigits_lt_of_length_lt (base : 1 < b) (digits : Digits b xs) (leading : Leading ys)
    (shorter : xs.length < ys.length) : ofDigits b xs < ofDigits b ys := by
  have nonempty : ys ≠ [] := by
    rintro rfl
    exact absurd shorter (not_lt_zero _)
  calc ofDigits b xs < b ^ xs.length := ofDigits_lt_base_pow_length base digits
    _ ≤ b ^ (ys.length - 1) := Nat.pow_le_pow_right (by omega) (by omega)
    _ ≤ ofDigits b ys := pow_le_ofDigits leading nonempty

theorem ofDigits_concat_lt (base : 1 < b) (digits : Digits b xs) (same : xs.length = ys.length) {x y : ℕ}
    (less : x < y) : ofDigits b (xs ++ [x]) < ofDigits b (ys ++ [y]) := by
  rw [ofDigits_append, ofDigits_append, ofDigits_singleton, ofDigits_singleton, ← same]
  have small := ofDigits_lt_base_pow_length base digits
  have step : b ^ xs.length * (x + 1) ≤ b ^ xs.length * y := mul_le_mul_left _ less
  rw [mul_succ] at step
  omega

theorem digitsAppend_zero (k : ℕ) : digitsAppend b k 0 = List.replicate k 0 := by
  unfold digitsAppend
  rw [digits_zero, nil_append, length_nil, Nat.sub_zero]

theorem digitsAppend_of_le (long : k ≤ (digits b n).length) : digitsAppend b k n = digits b n := by
  unfold digitsAppend
  rw [Nat.sub_eq_zero_of_le long, replicate_zero, append_nil]

theorem digitsAppend_cons (base : 1 < b) (nonzero : n ≠ 0) :
    digitsAppend b k n = n % b :: digitsAppend b (k - 1) (n / b) := by
  unfold digitsAppend
  rw [digits_def' base (pos_of_ne_zero nonzero), length_cons, cons_append, sub_add_eq, Nat.sub_right_comm]

theorem ofDigits_digitsAppend (k n : ℕ) : ofDigits b (digitsAppend b k n) = n := by
  unfold digitsAppend
  rw [ofDigits_append_replicate_zero, ofDigits_digits]

theorem digitsAppend_append_digits (base : 1 < b) (large : b ^ k ≤ n) :
    digitsAppend b k (n % b ^ k) ++ digits b (n / b ^ k) = digits b n := by
  have power : 0 < b ^ k := Nat.pow_pos (by omega)
  have short := (digits_length_le_iff base _).mpr (mod_lt n power)
  unfold digitsAppend
  rw [digits_append_zeroes_append_digits base (div_pos large power), Nat.add_sub_cancel' short, mod_add_div]

theorem digitsAppend_append {k j n : ℕ} (base : 1 < b) (small : n < b ^ (j + k)) :
    digitsAppend b k (n % b ^ k) ++ digitsAppend b j (n / b ^ k) = digitsAppend b (j + k) n := by
  have power : 0 < b ^ k := Nat.pow_pos (by omega)
  have low := length_digitsAppend base k (mod_lt n power)
  have high := length_digitsAppend base j (Nat.div_lt_of_lt_mul (by rwa [← pow_add, add_comm]) : n / b ^ k < b ^ j)
  have digits : ∀ l m, Digits b (digitsAppend b l m) := fun l m => lt_of_mem_digitsAppend base l
  refine ofDigits_inj_of_len_eq base ?_ ((digits _ _).append (digits _ _)) (digits _ _) ?_
  · rw [length_append, low, high, length_digitsAppend base _ small, add_comm]
  · rw [ofDigits_append, low, ofDigits_digitsAppend, ofDigits_digitsAppend, ofDigits_digitsAppend, mod_add_div]

end

end MitScheme.Library
