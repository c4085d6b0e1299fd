import Mathlib.Data.Int.Log
import Mathlib.Data.Rat.Floor

/-!
The magnitudes of a binary interchange format as words, the rationals for which they stand, and
rounding to the nearest of them. A rational that the format holds is rounded to itself.
-/

namespace MitScheme.Library

open Nat (cast_zero log two_pow_pos)

def roundHalfEven (q : ℚ) : ℤ :=
  if q - ⌊q⌋ < 1 / 2 then ⌊q⌋
  else if 1 / 2 < q - ⌊q⌋ then ⌊q⌋ + 1
  else if ⌊q⌋ % 2 = 0 then ⌊q⌋
  else ⌊q⌋ + 1

@[simp]
theorem roundHalfEven_intCast (n : ℤ) : roundHalfEven n = n := by
  unfold roundHalfEven
  rw [Int.floor_intCast, if_pos (by norm_num)]

@[simp]
theorem roundHalfEven_natCast (n : ℕ) : roundHalfEven n = n := roundHalfEven_intCast n

theorem roundHalfEven_le {q : ℚ} {n : ℤ} (le : q ≤ n) : roundHalfEven q ≤ n := by
  have floor := Int.floor_le q
  rcases (Int.floor_le_iff.mpr (by linarith : q < n + 1)).lt_or_eq with below | same
  · unfold roundHalfEven
    omega
  · have exactly : q = n := le.antisymm (by rw [← same]; exact floor)
    rw [exactly, roundHalfEven_intCast]

theorem roundHalfEven_le_add_half (q : ℚ) : (roundHalfEven q : ℚ) ≤ q + 1 / 2 := by
  have floor := Int.floor_le q
  unfold roundHalfEven
  split_ifs <;> push_cast <;> linarith

theorem two_zpow_pos (j : ℤ) : (0 : ℚ) < 2 ^ j := zpow_pos (by norm_num) j

theorem two_zpow_add (i j : ℤ) : (2 : ℚ) ^ (i + j) = 2 ^ i * 2 ^ j := zpow_add₀ (by norm_num) i j

theorem two_zpow_natCast {j : ℤ} (positive : 0 ≤ j) : (2 : ℚ) ^ j = ((2 ^ j.toNat : ℕ) : ℚ) := by
  obtain ⟨n, rfl⟩ := Int.eq_ofNat_of_zero_le positive
  push_cast
  rfl

theorem two_zpow_le {i j : ℤ} (le : i ≤ j) : (2 : ℚ) ^ i ≤ 2 ^ j := zpow_le_zpow_right₀ (by norm_num) le

theorem two_zpow_lt {i j : ℤ} (lt : i < j) : (2 : ℚ) ^ i < 2 ^ j := zpow_lt_zpow_right₀ (by norm_num) lt

theorem two_zpow_lt_iff {i j : ℤ} : (2 : ℚ) ^ i < 2 ^ j ↔ i < j := zpow_lt_zpow_iff_right₀ (by norm_num)

theorem log_eq {q : ℚ} {e : ℤ} (lower : (2 : ℚ) ^ e ≤ q) (upper : q < 2 ^ (e + 1)) : Int.log 2 q = e := by
  have positive : 0 < q := (two_zpow_pos e).trans_le lower
  have above : e ≤ Int.log 2 q := (Int.zpow_le_iff_le_log (by norm_num) positive).mp lower
  have below : Int.log 2 q < e + 1 := (Int.lt_zpow_iff_log_lt (by norm_num) positive).mp upper
  omega

/-- The width of the trailing significands, and the largest exponent. -/
structure BinaryFormat where
  trailing : ℕ
  emax : ℕ
  wide : 0 < emax

namespace BinaryFormat

variable (f : BinaryFormat)

def emin : ℤ := 1 - f.emax

def infinity : ℕ := (2 * f.emax + 1) * 2 ^ f.trailing

def magnitude (word : ℕ) : ℚ :=
  if word < 2 ^ f.trailing then word * 2 ^ (f.emin - f.trailing)
  else (2 ^ f.trailing + word % 2 ^ f.trailing : ℕ) * 2 ^ ((word / 2 ^ f.trailing : ℕ) - f.emax - f.trailing : ℤ)

/-- The word whose magnitude is nearest, and the even one of two that are as near; past the last
finite one it is that of the infinity. -/
def round (q : ℚ) : ℕ :=
  if q ≤ 0 then 0
  else
    let e := max (Int.log 2 q) f.emin
    min ((e - f.emin).toNat * 2 ^ f.trailing + (roundHalfEven (q / 2 ^ (e - f.trailing))).toNat) f.infinity

/-- The rational of a significand whose first of `trailing + 1` digits is at the exponent. -/
def scaled (n : ℕ) (e : ℤ) : ℚ := n * 2 ^ (e - f.trailing)

structure Holds (q : ℚ) (n : ℕ) (e : ℤ) : Prop where
  value : q = f.scaled n e
  short : n < 2 ^ (f.trailing + 1)
  lower : f.emin ≤ e
  upper : e ≤ f.emax
  full : e = f.emin ∨ 2 ^ f.trailing ≤ n

def Fits (q : ℚ) : Prop := ∃ n e, f.Holds q n e

variable {f} {q : ℚ} {n : ℕ} {e : ℤ}

def pack (f : BinaryFormat) (n : ℕ) (e : ℤ) : ℕ := (e - f.emin).toNat * 2 ^ f.trailing + n

theorem Holds.magnitude (holds : f.Holds q n e) : f.magnitude (f.pack n e) = q := by
  have positive : 0 < 2 ^ f.trailing := two_pow_pos _
  have short := holds.short
  unfold BinaryFormat.magnitude pack
  by_cases small : n < 2 ^ f.trailing
  · have least : e = f.emin := holds.full.resolve_right (by omega)
    rw [least, sub_self, Int.toNat_zero, zero_mul, zero_add, if_pos small, holds.value, least]
    rfl
  · obtain ⟨m, rfl⟩ : ∃ m, n = 2 ^ f.trailing + m := ⟨n - 2 ^ f.trailing, by omega⟩
    have rest : m < 2 ^ f.trailing := by omega
    have word : (e - f.emin).toNat * 2 ^ f.trailing + (2 ^ f.trailing + m) =
        2 ^ f.trailing * ((e - f.emin).toNat + 1) + m := by
      rw [Nat.mul_succ, mul_comm]
      omega
    have large : ¬(2 ^ f.trailing * ((e - f.emin).toNat + 1) + m < 2 ^ f.trailing) := by
      omega
    rw [word, if_neg large, Nat.mul_add_mod, Nat.mod_eq_of_lt rest, Nat.mul_add_div positive,
      Nat.div_eq_of_lt rest, holds.value, scaled]
    have lower := holds.lower
    have exponent : (((e - f.emin).toNat + 1 : ℕ) : ℤ) - f.emax - f.trailing = e - f.trailing := by
      have least : f.emin = 1 - f.emax := rfl
      omega
    rw [exponent]

theorem Holds.pack_lt (holds : f.Holds q n e) : f.pack n e < f.infinity := by
  have short := holds.short
  have upper := holds.upper
  have least : f.emin = 1 - f.emax := rfl
  have wide := f.wide
  have exponent : (e - f.emin).toNat + 2 ≤ 2 * f.emax + 1 := by omega
  calc (e - f.emin).toNat * 2 ^ f.trailing + n < ((e - f.emin).toNat + 2) * 2 ^ f.trailing := by
        rw [add_mul] at *
        omega
    _ ≤ _ := Nat.mul_le_mul_right _ exponent

theorem scaled_lt (short : n < 2 ^ (f.trailing + 1)) : f.scaled n e < 2 ^ (e + 1) := by
  calc f.scaled n e < (2 ^ (f.trailing + 1) : ℕ) * 2 ^ (e - f.trailing) :=
        mul_lt_mul_of_pos_right (by exact_mod_cast short) (two_zpow_pos _)
    _ = 2 ^ (e + 1) := by
      push_cast
      rw [← zpow_natCast, ← two_zpow_add]
      push_cast
      ring_nf

theorem le_scaled (normal : 2 ^ f.trailing ≤ n) : 2 ^ e ≤ f.scaled n e := by
  calc (2 : ℚ) ^ e = (2 ^ f.trailing : ℕ) * 2 ^ (e - f.trailing) := by
        push_cast
        rw [← zpow_natCast, ← two_zpow_add]
        ring_nf
    _ ≤ f.scaled n e := mul_le_mul_of_nonneg_right (by exact_mod_cast normal) (two_zpow_pos _).le

theorem scaled_mul (i : ℤ) : f.scaled n e * 2 ^ i = f.scaled n (e + i) := by
  unfold scaled
  rw [mul_assoc, ← two_zpow_add]
  congr 2
  ring

theorem scaled_pos (positive : 0 < n) : 0 < f.scaled n e :=
  mul_pos (by exact_mod_cast positive) (two_zpow_pos _)

theorem Holds.exponent (holds : f.Holds q n e) (positive : 0 < q) : max (Int.log 2 q) f.emin = e := by
  have below : q < 2 ^ (e + 1) := holds.value.trans_lt (scaled_lt holds.short)
  rcases holds.full with least | normal
  · have log_le : Int.log 2 q < e + 1 := (Int.lt_zpow_iff_log_lt (by norm_num) positive).mp below
    omega
  · have above : (2 : ℚ) ^ e ≤ q := (le_scaled normal).trans_eq holds.value.symm
    rw [log_eq above below]
    exact max_eq_left holds.lower

theorem Holds.round (holds : f.Holds q n e) (positive : 0 < q) : f.round q = f.pack n e := by
  have scaled : q / 2 ^ (e - f.trailing) = n := by
    rw [holds.value, scaled, mul_div_assoc, div_self (two_zpow_pos _).ne', mul_one]
  unfold BinaryFormat.round
  rw [if_neg (positive.not_ge)]
  dsimp only
  rw [holds.exponent positive, scaled, roundHalfEven_natCast]
  exact min_eq_left holds.pack_lt.le

theorem Fits.round (fits : f.Fits q) (nonnegative : 0 ≤ q) : f.round q < f.infinity ∧ f.magnitude (f.round q) = q := by
  rcases nonnegative.lt_or_eq with positive | zero
  · obtain ⟨n, e, holds⟩ := fits
    rw [holds.round positive]
    exact ⟨holds.pack_lt, holds.magnitude⟩
  · have none : f.round q = 0 := if_pos zero.symm.le
    rw [none]
    refine ⟨mul_pos (Nat.succ_pos _) (two_pow_pos _), ?_⟩
    unfold BinaryFormat.magnitude
    rw [if_pos (two_pow_pos _), ← zero, cast_zero, zero_mul]

theorem holds_word {word : ℕ} (finite : word < f.infinity) :
    f.Holds (f.magnitude word) (if word < 2 ^ f.trailing then word else 2 ^ f.trailing + word % 2 ^ f.trailing)
      (if word < 2 ^ f.trailing then f.emin else (word / 2 ^ f.trailing : ℕ) - f.emax) := by
  have positive : 0 < 2 ^ f.trailing := two_pow_pos _
  have wide := f.wide
  have least : f.emin = 1 - f.emax := rfl
  unfold BinaryFormat.magnitude
  by_cases small : word < 2 ^ f.trailing
  · simp only [small, if_true]
    exact ⟨rfl, small.trans (Nat.pow_lt_pow_right (by decide) (Nat.lt_succ_self _)), le_rfl, by omega, .inl rfl⟩
  · simp only [small, if_false]
    have first : 1 ≤ word / 2 ^ f.trailing := (Nat.one_le_div_iff positive).mpr (by omega)
    have last : word / 2 ^ f.trailing < 2 * f.emax + 1 := (Nat.div_lt_iff_lt_mul positive).mpr finite
    refine ⟨rfl, ?_, by omega, by omega, .inr (Nat.le_add_right _ _)⟩
    omega

theorem round_magnitude {word : ℕ} (finite : word < f.infinity) : f.round (f.magnitude word) = word := by
  have holds := holds_word finite
  have positive : 0 < 2 ^ f.trailing := two_pow_pos _
  have least : f.emin = 1 - f.emax := rfl
  rcases eq_zero_or_pos word with rfl | nonzero
  · have zero : f.magnitude 0 = 0 := by rw [BinaryFormat.magnitude, if_pos positive, cast_zero, zero_mul]
    rw [zero]
    exact if_pos le_rfl
  · by_cases small : word < 2 ^ f.trailing
    · simp only [small, if_true] at holds
      rw [holds.round (holds.value ▸ scaled_pos nonzero), pack, sub_self, Int.toNat_zero, zero_mul, zero_add]
    · simp only [small, if_false] at holds
      have first : 1 ≤ word / 2 ^ f.trailing := (Nat.one_le_div_iff positive).mpr (by omega)
      have exponent : (((word / 2 ^ f.trailing : ℕ) : ℤ) - f.emax - f.emin).toNat + 1 = word / 2 ^ f.trailing := by omega
      have split := Nat.div_add_mod word (2 ^ f.trailing)
      have whole : (((word / 2 ^ f.trailing : ℕ) : ℤ) - f.emax - f.emin).toNat * 2 ^ f.trailing +
          (2 ^ f.trailing + word % 2 ^ f.trailing) =
          2 ^ f.trailing * ((((word / 2 ^ f.trailing : ℕ) : ℤ) - f.emax - f.emin).toNat + 1) + word % 2 ^ f.trailing := by
        ring
      rw [holds.round (holds.value ▸ scaled_pos (positive.trans_le (Nat.le_add_right _ _))), pack, whole, exponent]
      exact split

theorem fits_of {k : ℕ} {j : ℤ} (short : k < 2 ^ (f.trailing + 1)) (lower : f.emin - f.trailing ≤ j)
    (upper : (k : ℚ) * 2 ^ j < 2 ^ (f.emax + 1 : ℤ)) : f.Fits (k * 2 ^ j) := by
  have wide := f.wide
  have least : f.emin = 1 - f.emax := rfl
  rcases eq_zero_or_pos k with none | positive
  · refine ⟨0, f.emin, ?_, two_pow_pos _, le_rfl, by omega, .inl rfl⟩
    rw [none, cast_zero, zero_mul, scaled, cast_zero, zero_mul]
  · have digits_low : 2 ^ log 2 k ≤ k := Nat.pow_log_le_self 2 positive.ne'
    have digits_high : k < 2 ^ (log 2 k + 1) := Nat.lt_pow_succ_log_self (by decide) k
    obtain ⟨e, top⟩ : ∃ e, e = max (j + log 2 k) f.emin := ⟨_, rfl⟩
    have room : log 2 k ≤ f.trailing := by
      have bound := digits_low.trans_lt short
      have := (Nat.pow_lt_pow_iff_right (by decide : 1 < 2)).mp bound
      omega
    have shift : 0 ≤ j - (e - f.trailing) := by omega
    obtain ⟨s, same⟩ := Int.eq_ofNat_of_zero_le shift
    have value : (k : ℚ) * 2 ^ j = ((k * 2 ^ s : ℕ) : ℚ) * 2 ^ (e - f.trailing) := by
      push_cast
      rw [← zpow_natCast, mul_assoc, ← two_zpow_add]
      congr 2
      omega
    have under : k * 2 ^ s < 2 ^ (log 2 k + 1 + s) := by
      rw [pow_add _ _ s]
      exact mul_lt_mul_of_pos_right digits_high (two_pow_pos _)
    refine ⟨k * 2 ^ s, e, value, ?_, by omega, ?_, ?_⟩
    · exact under.trans_le (Nat.pow_le_pow_right (by decide) (by omega))
    · have reached : (2 : ℚ) ^ (j + log 2 k) ≤ k * 2 ^ j := by
        rw [add_comm, two_zpow_add]
        exact mul_le_mul_of_nonneg_right (by exact_mod_cast digits_low) (two_zpow_pos _).le
      have below := two_zpow_lt_iff.mp (reached.trans_lt upper)
      omega
    · by_cases least' : e = f.emin
      · exact .inl least'
      · right
        have exponent : f.trailing = log 2 k + s := by omega
        rw [exponent, pow_add]
        exact Nat.mul_le_mul_right _ digits_low

theorem Fits.zero : f.Fits 0 := by
  have fits := @fits_of f 0 0 (two_pow_pos _)
    (by have := f.wide; have least : f.emin = 1 - f.emax := rfl; omega) (by rw [cast_zero, zero_mul]; exact two_zpow_pos _)
  rwa [cast_zero, zero_mul] at fits

theorem fits_two_zpow {j : ℤ} (lower : f.emin - f.trailing ≤ j) (upper : j ≤ f.emax) : f.Fits (2 ^ j) := by
  have fits := @fits_of f 1 j (Nat.one_lt_two_pow (Nat.succ_ne_zero _)) lower
    (by rw [Nat.cast_one, one_mul]; exact two_zpow_lt (by omega))
  rwa [Nat.cast_one, one_mul] at fits

end BinaryFormat

end MitScheme.Library
