import MitScheme.Library.Run
import MitScheme.Runtime.IntegerBits.Primitives
import Mathlib.Data.Nat.Factorization.Basic

/-!
# Counts of bits, and integers as lists of bits
-/

namespace MitScheme.Runtime.IntegerBits

open Library (loop loop_finished loop_step loop_unique loop_ends)
open Option (bind_some map_some)
open Nat (bit lt_size)
open Library.IntegerBits

def ffs (x : ℤ) : ℤ := 1 + firstSetBit x

def ctz (x : ℤ) : ℤ := ffs x

def smear (n : ℤ) : ℤ × ℤ → Option (Option (ℤ × ℤ))
  | (i, x) => if i < n then (shiftRight x i).map fun y => some (i * 2, bitwiseIor x y) else some none

def clz (n x : ℤ) (fuel : ℕ) : Option ℤ := do
  let limit ← shiftLeft 1 n
  if x < limit then (loop (smear n) fuel (1, x)).map fun s => n - bitCount s.2 else none

def oddP (n : ℤ) : Bool := n % 2 = 1

def nextBit : ℤ × List Bool → Option (Option (ℤ × List Bool))
  | (integer, bits) =>
    if integer = 0 then some none else (shiftRight integer 1).map fun rest => some (rest, oddP integer :: bits)

def integerToList (integer : ℤ) (fuel : ℕ) : Option (List Bool) := (loop nextBit fuel (integer, [])).map (·.2)

def integerToListLoop : (length : ℕ) → (integer : ℤ) → (bits : List Bool) → Option (List Bool)
  | 0, _, bits => some bits
  | length + 1, integer, bits => (shiftRight integer 1).bind fun rest => integerToListLoop length rest (oddP integer :: bits)

def integerToListOfLength (integer length : ℤ) : Option (List Bool) :=
  if 0 ≤ length ∧ length < 2 ^ 57 then integerToListLoop length.toNat integer [] else none

def listToIntegerLoop : (bits : List Bool) → (integer : ℤ) → Option ℤ
  | [], integer => some integer
  | bit :: bits, integer =>
    (shiftLeft integer 1).bind fun shifted => listToIntegerLoop bits (bitwiseIor shifted (if bit then 1 else 0))

def listToInteger (bits : List Bool) : Option ℤ := listToIntegerLoop bits 0

section
variable {n x y w k v : ℕ} {bits : List Bool}

def EndsWithZeros (x : ℤ) (k : ℕ) : Prop := 2 ^ k ∣ x ∧ ∀ j : ℕ, (2 ^ j : ℤ) ∣ x → j ≤ k

theorem size_xor_pred (m k : ℕ) : ((2 ^ k * (2 * m + 1) ^^^ (2 ^ k * (2 * m + 1) - 1)) >>> 1).size = k := by
  have less : 2 ^ k < 2 ^ (k + 1) := Nat.pow_lt_pow_right (by decide) (Nat.lt_succ_self k)
  have number : 2 ^ k * (2 * m + 1) = 2 ^ (k + 1) * m + 2 ^ k := by ring
  have pred : 2 ^ k * (2 * m + 1) - 1 = 2 ^ (k + 1) * m + (2 ^ k - 1) := by omega
  have ones : (2 ^ k * (2 * m + 1) ^^^ (2 ^ k * (2 * m + 1) - 1)) >>> 1 = 2 ^ k - 1 := by
    apply Nat.eq_of_testBit_eq
    intro i
    rw [Nat.testBit_shiftRight, Nat.testBit_xor, pred, number, Nat.testBit_two_pow_mul_add m less,
      Nat.testBit_two_pow_mul_add m (by omega)]
    by_cases inside : 1 + i < k + 1
    · by_cases last : k = 1 + i
      · simp [last]
      · simp [inside, last, show 1 + i < k by omega, show i < k by omega]
    · simp [inside, show ¬i < k by omega]
  rw [ones, size_two_pow_sub_one]

theorem firstSetBit_spec {x : ℤ} (nonzero : x ≠ 0) : ∃ k : ℕ, EndsWithZeros x k ∧ firstSetBit x = k := by
  obtain ⟨k, m, ⟨half, rfl⟩, factors⟩ := Nat.exists_eq_two_pow_mul_odd (Int.natAbs_ne_zero.mpr nonzero)
  have divides : ∀ j : ℕ, (2 ^ j : ℤ) ∣ x ↔ 2 ^ j ∣ 2 ^ k * (2 * half + 1) := fun j => by
    rw [← factors, ← Int.natAbs_dvd_natAbs]
    rfl
  refine ⟨k, ⟨(divides k).mpr (dvd_mul_right _ _), fun j divisor => ?_⟩, ?_⟩
  · by_contra beyond
    have next : 2 ^ k * 2 ∣ 2 ^ k * (2 * half + 1) := by
      rw [← pow_succ]
      exact (pow_dvd_pow 2 (by omega)).trans ((divides j).mp divisor)
    have even := Nat.dvd_of_mul_dvd_mul_left (Nat.two_pow_pos k) next
    omega
  · have positive : x.natAbs ≠ 0 := Int.natAbs_ne_zero.mpr nonzero
    simp only [firstSetBit, if_neg positive]
    rw [factors, size_xor_pred]

theorem ffs_right (x : ℤ) : if x = 0 then ffs x = 0 else ∃ k : ℕ, EndsWithZeros x k ∧ ffs x = k + 1 := by
  split
  · next zero =>
    subst zero
    rfl
  · next nonzero =>
    obtain ⟨k, zeros, first⟩ := firstSetBit_spec nonzero
    exact ⟨k, zeros, by rw [ffs, first, add_comm]⟩

theorem ctz_right_iff (x : ℤ) : (if x = 0 then ctz x = 0 else ∃ k : ℕ, EndsWithZeros x k ∧ ctz x = k) ↔ x = 0 := by
  split
  · next zero => exact iff_of_true (by subst zero; rfl) zero
  · next nonzero =>
    refine iff_of_false ?_ nonzero
    rintro ⟨k, zeros, counted⟩
    obtain ⟨k', zeros', first⟩ := firstSetBit_spec nonzero
    have lower := zeros'.2 k zeros.1
    rw [ctz, ffs] at counted
    omega

/-- The one number has a bit wherever the other has a bit not far above. -/
def Smeared (x y w : ℕ) : Prop := ∀ j, y.testBit j = true ↔ ∃ d < w, x.testBit (j + d) = true

theorem Smeared.start (x : ℕ) : Smeared x x 1 := fun j =>
  ⟨fun bit => ⟨0, one_pos, bit⟩, fun ⟨d, small, bit⟩ => by rwa [Nat.lt_one_iff.mp small] at bit⟩

theorem Smeared.double (smeared : Smeared x y w) : Smeared x (y ||| y / 2 ^ w) (w * 2) := by
  intro j
  rw [Nat.testBit_or, Nat.testBit_div_two_pow, Bool.or_eq_true, smeared j, smeared (j + w)]
  constructor
  · rintro (⟨d, near, bit⟩ | ⟨d, near, bit⟩)
    · exact ⟨d, by omega, bit⟩
    · exact ⟨w + d, by omega, by rwa [← add_assoc]⟩
  · rintro ⟨d, near, bit⟩
    by_cases first : d < w
    · exact .inl ⟨d, first, bit⟩
    · exact .inr ⟨d - w, by omega, by rwa [show j + w + (d - w) = j + d by omega]⟩

theorem testBit_leading (nonempty : 0 < x.size) : x.testBit (x.size - 1) = true := by
  obtain ⟨i, above, bit⟩ := Nat.exists_ge_and_testBit_of_ge_two_pow (lt_size.mp (Nat.sub_lt nonempty one_pos))
  have below : i < x.size := lt_size.mpr (Nat.ge_two_pow_of_testBit bit)
  rwa [show x.size - 1 = i by omega]

theorem Smeared.size (smeared : Smeared x y w) (positive : 0 < w) : y.size = x.size := by
  apply le_antisymm
  · by_contra longer
    have bit := testBit_leading (show 0 < y.size by omega)
    obtain ⟨d, -, beyond⟩ := (smeared _).mp bit
    have below := lt_size.mpr (Nat.ge_two_pow_of_testBit beyond)
    omega
  · rcases eq_zero_or_pos x.size with empty | nonempty
    · omega
    · have bit := (smeared (x.size - 1)).mpr ⟨0, positive, testBit_leading nonempty⟩
      have below := lt_size.mpr (Nat.ge_two_pow_of_testBit bit)
      omega

theorem bitCount_natCast (y : ℕ) : bitCount y = (List.range y.size).countP y.testBit := by
  have nonnegative : ¬(y : ℤ) < 0 := by omega
  simp [bitCount, if_neg nonnegative]

theorem Smeared.bitCount_eq (smeared : Smeared x y w) (positive : 0 < w) :
    bitCount y = x.size ↔ ∀ j < x.size, ∃ d < w, x.testBit (j + d) = true := by
  have all := List.countP_eq_length (p := y.testBit) (l := List.range x.size)
  rw [List.length_range] at all
  rw [bitCount_natCast, smeared.size positive, all]
  simp [smeared _]

/-- What the loop keeps: after every turn the bits reach twice as far, until the shift is by a bignum. -/
def Smearing (x : ℕ) (s : ℤ × ℤ) : Prop := ∃ k y : ℕ, s = (2 ^ k, (y : ℤ)) ∧ Smeared x y (2 ^ min k 57)

theorem smear_spec {s : ℤ × ℤ} (n : ℕ) (smearing : Smearing x s) (unfinished : s.1 < n) :
    ∃ s', smear n s = some (some s') ∧ Smearing x s' ∧ s.1 < s'.1 := by
  obtain ⟨k, y, rfl, smeared⟩ := smearing
  have positive : (0 : ℤ) < 2 ^ k := by positivity
  have further : (2 ^ k * 2 : ℤ) = 2 ^ (k + 1) := (pow_succ 2 k).symm
  have shifted := shiftRight_natCast y (2 ^ k)
  rw [Nat.cast_pow, Nat.cast_ofNat] at shifted
  by_cases near : k < 57
  · have small : 2 ^ k < 2 ^ 57 := Nat.pow_lt_pow_right (by decide) near
    rw [if_pos small] at shifted
    refine ⟨(2 ^ k * 2, bitwiseIor y (y / 2 ^ 2 ^ k)), ?_, ⟨k + 1, y ||| y / 2 ^ 2 ^ k, ?_, ?_⟩, by omega⟩
    · rw [smear, if_pos unfinished, shifted, map_some]
    · rfl
    · rw [min_eq_left near.le] at smeared
      rw [min_eq_left near]
      exact smeared.double
  · have large : ¬2 ^ k < 2 ^ 57 := (Nat.pow_le_pow_right (by decide) (Nat.le_of_not_lt near)).not_gt
    rw [if_neg large] at shifted
    refine ⟨(2 ^ k * 2, bitwiseIor y 0), ?_, ⟨k + 1, y, ?_, ?_⟩, by omega⟩
    · rw [smear, if_pos unfinished, shifted, map_some]
    · have kept : bitwiseIor y 0 = y := congrArg Int.ofNat (Nat.or_zero y)
      rw [further, kept]
    · rwa [min_eq_right (by omega)] at smeared ⊢

theorem smear_ends (n x : ℕ) : ∃ fuel k y : ℕ,
    loop (smear n) fuel (1, x) = some (2 ^ k, (y : ℤ)) ∧ n ≤ 2 ^ k ∧ Smeared x y (2 ^ min k 57) := by
  have steps : ∀ s, Smearing x s → smear n s = some none ∨ ∃ s', smear n s = some (some s') ∧ Smearing x s' ∧
      Prod.Lex (· < ·) (· < ·) (((n : ℤ) - s'.1).toNat, 0) (((n : ℤ) - s.1).toNat, 0) := by
    intro s smearing
    by_cases unfinished : s.1 < (n : ℤ)
    · obtain ⟨s', stepped, kept, further⟩ := smear_spec n smearing unfinished
      exact .inr ⟨s', stepped, kept, .left _ _ (by omega)⟩
    · exact .inl (if_neg unfinished)
  have start : Smearing x (1, x) := ⟨0, x, rfl, .start x⟩
  obtain ⟨fuel, t, ends, ⟨k, y, rfl, smeared⟩, finished⟩ := loop_ends (smear n) (Smearing x) _ steps start
  refine ⟨fuel, k, y, ends, ?_, smeared⟩
  by_contra unfinished
  have less : (2 ^ k : ℤ) < n := by exact_mod_cast Nat.lt_of_not_le unfinished
  obtain ⟨s', stepped, -⟩ := smear_spec n ⟨k, y, rfl, smeared⟩ less
  rw [finished] at stepped
  cases stepped

theorem reach_iff {n k : ℕ} (below : x < 2 ^ n) (covered : n ≤ 2 ^ k) :
    (∀ j < x.size, ∃ d < 2 ^ min k 57, x.testBit (j + d) = true) ↔ ∀ j < x.size, ∃ d < 2 ^ 57, x.testBit (j + d) = true := by
  rcases le_total k 57 with near | far
  · rw [min_eq_left near]
    have reach : 2 ^ k ≤ 2 ^ 57 := Nat.pow_le_pow_right (by decide) near
    have short : x.size ≤ n := Nat.size_le.mpr below
    have leading : ∀ j < x.size, ∃ d < 2 ^ k, x.testBit (j + d) = true := fun j inside => by
      refine ⟨x.size - 1 - j, by omega, ?_⟩
      rw [show j + (x.size - 1 - j) = x.size - 1 by omega]
      exact testBit_leading (by omega)
    refine iff_of_true leading fun j inside => ?_
    obtain ⟨d, near, bit⟩ := leading j inside
    exact ⟨d, by omega, bit⟩
  · rw [min_eq_right far]

/-- The loop counts the leading zeros of a word where the limit can be stored and the bits have no gap that is wider
than a fixnum. -/
theorem clz_iff {n x : ℕ} (nonempty : 0 < n) (below : x < 2 ^ n) : (∃ fuel, clz n x fuel = some ((n : ℤ) - x.size)) ↔
    1 + n ≤ maxBits ∧ ∀ j < x.size, ∃ d < 2 ^ 57, x.testBit (j + d) = true := by
  have bound := maxBits_lt
  have storable : n < 2 ^ 64 ∧ Storable 1 n ↔ 1 + n ≤ maxBits := by
    simp only [Storable, Int.natAbs_one, Nat.size_one]
    omega
  have limit := shiftLeft_natCast 1 n
  by_cases fits : 1 + n ≤ maxBits
  · obtain ⟨fuel, k, y, ends, covered, smeared⟩ := smear_ends n x
    rw [if_pos (storable.mpr fits), one_mul] at limit
    have within : (x : ℤ) < 2 ^ n := by exact_mod_cast below
    have returns : ∀ fuel', clz n x fuel' = (loop (smear n) fuel' (1, x)).map fun s => (n : ℤ) - bitCount s.2 := fun fuel' => by
      rw [clz, limit, Option.bind_eq_bind, bind_some, if_pos within]
    have counted := smeared.bitCount_eq (by positivity)
    rw [and_iff_right fits, ← reach_iff below covered, ← counted]
    constructor
    · rintro ⟨fuel', right⟩
      rw [returns, Option.map_eq_some_iff] at right
      obtain ⟨t, ends', right⟩ := right
      cases loop_unique ends ends'
      have same : (n : ℤ) - bitCount y = n - x.size := right
      omega
    · intro right
      refine ⟨fuel, ?_⟩
      rw [returns, ends, map_some, right]
  · rw [if_neg (mt storable.mp fits)] at limit
    refine iff_of_false ?_ fun both => fits both.1
    rintro ⟨fuel, returns⟩
    rw [clz, limit] at returns
    cases returns

theorem shiftRight_one (n : ℤ) : shiftRight n 1 = some (n / 2) := shiftRight_natCast n 1

theorem oddP_bit (b : Bool) (v : ℕ) : oddP (bit b v) = b := by
  cases b <;> simp [oddP]

theorem bit_half (b : Bool) (v : ℕ) : (bit b v : ℤ) / 2 = v := by
  cases b
  · simp
  · simp [bit]
    omega

theorem nextBit_forever (fuel : ℕ) {n : ℤ} (negative : n < 0) (bits : List Bool) : loop nextBit fuel (n, bits) = none := by
  induction fuel generalizing n bits with
  | zero => rfl
  | succ fuel ih =>
    have step : nextBit (n, bits) = some (some (n / 2, oddP n :: bits)) := by
      rw [nextBit, if_neg (by omega), shiftRight_one, map_some]
    rw [loop_step step]
    exact ih (by omega) _

theorem nextBit_loop (n : ℕ) (bits : List Bool) : ∃ fuel, loop nextBit fuel (n, bits) = some (0, n.bits.reverse ++ bits) := by
  induction n using Nat.binaryRec' generalizing bits with
  | zero => exact ⟨1, by simp [loop_finished, nextBit]⟩
  | bit b v leading ih =>
    obtain ⟨fuel, ends⟩ := ih (b :: bits)
    have nonzero : (bit b v : ℤ) ≠ 0 := by
      rw [Ne, Int.natCast_eq_zero, Nat.bit_eq_zero_iff]
      rintro ⟨zero, rfl⟩
      cases leading zero
    have step : nextBit ((bit b v : ℕ), bits) = some (some ((v : ℤ), b :: bits)) := by
      rw [nextBit, if_neg nonzero, shiftRight_one, bit_half, oddP_bit, map_some]
    refine ⟨fuel + 1, ?_⟩
    rw [loop_step step, ends, Nat.bits_append_bit v b leading, List.reverse_cons, List.append_assoc, List.singleton_append]

theorem integerToList_natCast (n : ℕ) : ∃ fuel, integerToList n fuel = some n.bits.reverse := by
  obtain ⟨fuel, ends⟩ := nextBit_loop n []
  exact ⟨fuel, by rw [integerToList, ends, map_some, List.append_nil]⟩

theorem integerToList_terminates_iff (n : ℤ) : (∃ fuel bits, integerToList n fuel = some bits) ↔ 0 ≤ n := by
  constructor
  · rintro ⟨fuel, bits, ends⟩
    by_contra negative
    rw [integerToList, nextBit_forever fuel (by omega)] at ends
    cases ends
  · intro nonnegative
    lift n to ℕ using nonnegative
    obtain ⟨fuel, ends⟩ := integerToList_natCast n
    exact ⟨fuel, _, ends⟩

/-- The number that the bits stand for, below the bits of another number. -/
def listValue (bits : List Bool) (v : ℕ) : ℕ := bits.foldl (fun v b => bit b v) v

theorem le_listValue (bits : List Bool) (v : ℕ) : v ≤ listValue bits v := by
  induction bits generalizing v with
  | nil => exact le_refl v
  | cons b bits ih =>
    have step : v ≤ bit b v := by
      rw [Nat.bit_val]
      omega
    exact step.trans (ih (bit b v))

theorem listValue_lt (bits : List Bool) (v : ℕ) : listValue bits v < (v + 1) * 2 ^ bits.length := by
  induction bits generalizing v with
  | nil => simp [listValue]
  | cons b bits ih =>
    have step : bit b v + 1 ≤ (v + 1) * 2 := by
      cases b <;> simp <;> omega
    calc listValue bits (bit b v) < (bit b v + 1) * 2 ^ bits.length := ih (bit b v)
      _ ≤ (v + 1) * 2 * 2 ^ bits.length := Nat.mul_le_mul_right _ step
      _ = (v + 1) * 2 ^ (bits.length + 1) := by ring

theorem storable_one (b : Bool) : Storable v 1 ↔ (bit b v).size ≤ maxBits := by
  have room : 1 ≤ maxBits := by decide
  rcases eq_zero_or_pos v with rfl | positive
  · refine iff_of_true (.inr (.inl rfl)) ?_
    cases b
    · exact Nat.zero_le _
    · exact room
  · have nonzero : bit b v ≠ 0 := by
      rw [Nat.bit_val]
      omega
    rw [Storable, Int.natAbs_natCast, Nat.size_bit nonzero]
    omega

theorem shiftLeft_bit (b : Bool) (v : ℕ) : bitwiseIor (v * 2) (if b then 1 else 0) = bit b v := by
  have even : (v * 2 : ℤ) = (2 * v : ℕ) := by
    push_cast
    ring
  rw [even]
  cases b
  · exact congrArg Int.ofNat (Nat.or_zero (2 * v))
  · have joined : 2 ^ 1 * v + 1 = 2 ^ 1 * v ||| 1 := Nat.two_pow_add_eq_or_of_lt (by decide) v
    exact congrArg Int.ofNat joined.symm

theorem listToIntegerLoop_eq_some {r : ℤ} : listToIntegerLoop bits v = some r ↔
    (bits = [] ∨ (listValue bits v).size ≤ maxBits) ∧ r = listValue bits v := by
  induction bits generalizing v with
  | nil => simp [listToIntegerLoop, listValue, eq_comm]
  | cons b bits ih =>
    have shifted := shiftLeft_natCast v 1
    rw [pow_one, Nat.cast_one] at shifted
    by_cases storable : (bit b v).size ≤ maxBits
    · rw [if_pos ⟨by decide, (storable_one b).mpr storable⟩] at shifted
      rw [listToIntegerLoop, shifted, bind_some, shiftLeft_bit, ih]
      refine and_congr_left fun _ => ?_
      simp only [reduceCtorEq, false_or]
      refine ⟨?_, .inr⟩
      rintro (rfl | fits)
      · exact storable
      · exact fits
    · rw [if_neg fun both => storable ((storable_one b).mp both.2)] at shifted
      rw [listToIntegerLoop, shifted]
      refine iff_of_false (fun impossible => by cases impossible) ?_
      rintro ⟨empty | fits, -⟩
      · cases empty
      · exact storable ((Nat.size_le_size (le_listValue bits (bit b v))).trans fits)

theorem listValue_bits (n : ℕ) : listValue n.bits.reverse 0 = n := by
  induction n using Nat.binaryRec' with
  | zero => rfl
  | bit b v leading ih =>
    rw [Nat.bits_append_bit v b leading, List.reverse_cons, listValue, List.foldl_append]
    exact congrArg (bit b) ih

theorem integerToList_unique {n : ℤ} {fuel fuel' : ℕ} {bits' : List Bool} (ends : integerToList n fuel = some bits)
    (ends' : integerToList n fuel' = some bits') : bits = bits' := by
  rw [integerToList, Option.map_eq_some_iff] at ends ends'
  obtain ⟨t, ends, rfl⟩ := ends
  obtain ⟨t', ends', rfl⟩ := ends'
  rw [loop_unique ends ends']

theorem listToInteger_integerToList_iff (n : ℕ) :
    (∃ fuel bits, integerToList n fuel = some bits ∧ listToInteger bits = some (n : ℤ)) ↔ n.size ≤ maxBits := by
  obtain ⟨fuel, ends⟩ := integerToList_natCast n
  have back := @listToIntegerLoop_eq_some 0 n.bits.reverse n
  rw [listValue_bits, and_iff_left rfl] at back
  have short : n.bits.reverse = [] ∨ n.size ≤ maxBits ↔ n.size ≤ maxBits := by
    rw [List.reverse_eq_nil_iff, ← List.length_eq_zero_iff, Nat.size_eq_bits_len]
    omega
  rw [short] at back
  rw [← back]
  constructor
  · rintro ⟨fuel', bits, ends', returns⟩
    cases integerToList_unique ends ends'
    exact returns
  · intro returns
    exact ⟨fuel, _, ends, returns⟩

theorem integerToListLoop_listValue (bits : List Bool) (rest : List Bool) :
    integerToListLoop bits.length (listValue bits 0) rest = some (bits ++ rest) := by
  induction bits using List.reverseRecOn generalizing rest with
  | nil => rfl
  | append_singleton bits b ih =>
    have value : listValue (bits ++ [b]) 0 = bit b (listValue bits 0) := by
      rw [listValue, List.foldl_append]
      rfl
    rw [value, List.length_append, List.length_singleton, integerToListLoop, shiftRight_one, bind_some, bit_half,
      oddP_bit, ih, List.append_assoc, List.singleton_append]

theorem integerToList_listToInteger_iff (bits : List Bool) :
    (∃ n, listToInteger bits = some n ∧ integerToListOfLength n bits.length = some bits) ↔ bits.length < 2 ^ 57 := by
  constructor
  · rintro ⟨n, -, returns⟩
    rw [integerToListOfLength] at returns
    split at returns
    · next range => exact_mod_cast range.2
    · cases returns
  · intro short
    have upper := listValue_lt bits 0
    rw [Nat.one_mul] at upper
    have room : 2 ^ 57 ≤ maxBits := by decide
    have fits : (listValue bits 0).size ≤ maxBits := (Nat.size_le.mpr upper).trans (by omega)
    refine ⟨listValue bits 0, ?_, ?_⟩
    · exact listToIntegerLoop_eq_some.mpr ⟨.inr fits, rfl⟩
    · rw [integerToListOfLength, if_pos ⟨Int.natCast_nonneg _, by exact_mod_cast short⟩, Int.toNat_natCast,
        integerToListLoop_listValue, List.append_nil]

/-- The counts of bits and the conversions to lists. -/
theorem bit_counts {n x : ℕ} (nonempty : 0 < n) (below : x < 2 ^ n) (z : ℤ) (m : ℕ) (bits : List Bool) :
    ((∃ fuel, clz n x fuel = some ((n : ℤ) - x.size)) ↔
      1 + n ≤ maxBits ∧ ∀ j < x.size, ∃ d < 2 ^ 57, x.testBit (j + d) = true) ∧
    ((if z = 0 then ctz z = 0 else ∃ k : ℕ, EndsWithZeros z k ∧ ctz z = k) ↔ z = 0) ∧
    (if z = 0 then ffs z = 0 else ∃ k : ℕ, EndsWithZeros z k ∧ ffs z = k + 1) ∧
    ((∃ fuel bits, integerToList z fuel = some bits) ↔ 0 ≤ z) ∧
    ((∃ fuel bits, integerToList m fuel = some bits ∧ listToInteger bits = some (m : ℤ)) ↔ m.size ≤ maxBits) ∧
    ((∃ v, listToInteger bits = some v ∧ integerToListOfLength v bits.length = some bits) ↔ bits.length < 2 ^ 57) :=
  ⟨clz_iff nonempty below, ctz_right_iff z, ffs_right z, integerToList_terminates_iff z, listToInteger_integerToList_iff m,
    integerToList_listToInteger_iff bits⟩

theorem bit_counts_five :
    ((∃ fuel, clz (5 : ℕ) (9 : ℕ) fuel = some ((5 : ℕ) - (9 : ℕ).size)) ↔
      1 + 5 ≤ maxBits ∧ ∀ j < (9 : ℕ).size, ∃ d < 2 ^ 57, Nat.testBit 9 (j + d) = true) ∧
    ((if (6 : ℤ) = 0 then ctz 6 = 0 else ∃ k : ℕ, EndsWithZeros 6 k ∧ ctz 6 = k) ↔ (6 : ℤ) = 0) ∧
    (if (6 : ℤ) = 0 then ffs 6 = 0 else ∃ k : ℕ, EndsWithZeros 6 k ∧ ffs 6 = k + 1) ∧
    ((∃ fuel bits, integerToList 6 fuel = some bits) ↔ (0 : ℤ) ≤ 6) ∧
    ((∃ fuel bits, integerToList (12 : ℕ) fuel = some bits ∧ listToInteger bits = some ((12 : ℕ) : ℤ)) ↔
      (12 : ℕ).size ≤ maxBits) ∧
    ((∃ v, listToInteger [false, true] = some v ∧ integerToListOfLength v [false, true].length = some [false, true]) ↔
      [false, true].length < 2 ^ 57) :=
  bit_counts (by decide) (by decide) 6 12 [false, true]

theorem ctz_eight : ctz 8 = 4 ∧ EndsWithZeros 8 3 ∧ ∀ fuel, integerToList (-1) fuel = none := by
  refine ⟨by decide +kernel, ⟨by decide, fun j divisor => ?_⟩, fun fuel => ?_⟩
  · have small := Int.le_of_dvd (by decide) divisor
    by_contra beyond
    have large : (2 : ℤ) ^ 4 ≤ 2 ^ j := pow_le_pow_right₀ (by decide) (by omega)
    omega
  · rw [integerToList, nextBit_forever fuel (by decide), Option.map_none]

end

end MitScheme.Runtime.IntegerBits
