import MitScheme.Runtime.IntegerBits.Primitives

/-!
# The operations of SRFI 60 on fields
-/

namespace MitScheme.Runtime.IntegerBits

open Library.IntegerBits Option

/-- `remainder`, which has the sign of the dividend. -/
def remainder (n d : ℤ) : Option ℤ := if d = 0 then none else some (n.tmod d)

def applyTwo (procedure : ℤ → ℤ → Option ℤ) : List ℤ → Option ℤ
  | [a, b] => procedure a b
  | _ => none

def applyFour (procedure : ℤ → ℤ → ℤ → ℤ → Option ℤ) : List ℤ → Option ℤ
  | [a, b, c, d] => procedure a b c d
  | _ => none

def bitField (integer start stop : ℤ) : Option ℤ := extractBitField (stop - start) start integer

def copyBitField (target source start stop : ℤ) : Option ℤ := replaceBitField (stop - start) start target source

def rotateBitField (integer count start stop : ℤ) : Option ℤ := do
  let size := stop - start
  let count ← remainder count size
  let bitField ← extractBitField size start integer
  let upper ← shiftLeft bitField count
  replaceBitField size start integer (bitwiseIor upper (← shiftRight bitField (size - count)))

def bitReverseLoop : (size : ℕ) → (integer result : ℤ) → Option ℤ
  | 0, _, result => some result
  | size + 1, integer, result => do
    bitReverseLoop size (← shiftRight integer 1) (bitwiseIor (← shiftLeft result 1) (bitwiseAnd integer 1))

def bitReverse (size integer : ℤ) : Option ℤ :=
  if integer < 0 then (bitReverseLoop size.toNat (bitwiseNot integer) 0).map bitwiseNot
  else bitReverseLoop size.toNat integer 0

/-- The width is not passed to the one procedure, nor the integer to the other. -/
def reverseBitField (integer start stop : ℤ) : Option ℤ := do
  let size := stop - start
  let field ← extractBitField size start integer
  applyFour replaceBitField [size, start, ← applyTwo bitReverse [field]]

section
variable {n r x w source count : ℤ} {start stop size position c i k : ℕ} {bit bit' : ℕ → Bool}

theorem Replaces.iff (replaces : Replaces r n position size bit) :
    Replaces r n position size bit' ↔ ∀ i < size, bit i = bit' i := by
  constructor
  · intro replaces' i inside
    have within : position ≤ position + i ∧ position + i < position + size := by omega
    have same := (replaces (position + i)).symm.trans (replaces' (position + i))
    simpa [within, and_self, if_true, add_sub_cancel_left] using same
  · intro same i
    rw [replaces i]
    split
    · next within => exact same _ (by omega)
    · rfl

theorem replaceBitField_iff {size position : ℕ} : (∃ r, replaceBitField size position n x = some r ∧ Replaces r n position size bit) ↔
    Maskable size position ∧ ∀ i < size, x.testBit i = bit i := by
  simp only [replaceBitField_eq_some]
  constructor
  · rintro ⟨_, ⟨maskable, rfl⟩, replaces⟩
    exact ⟨maskable, (replaces_field n x position size).iff.mp replaces⟩
  · rintro ⟨maskable, same⟩
    exact ⟨_, ⟨maskable, rfl⟩, (replaces_field n x position size).iff.mpr same⟩

def Extractable (n : ℤ) (start size : ℕ) : Prop := size ≤ maxBits ∧ (2 ^ 57 ≤ start → field n start size = 0)

theorem bitField_iff (n : ℤ) (ordered : start ≤ stop) :
    (∃ r, bitField n start stop = some r ∧ ∀ i, r.testBit i = (decide (i < stop - start) && n.testBit (i + start))) ↔
      Extractable n start (stop - start) := by
  have width : (stop : ℤ) - start = (stop - start : ℕ) := by omega
  simp only [bitField, width, extractBitField_eq_some, Extractable, ← fieldRead_eq_field]
  constructor
  · rintro ⟨_, ⟨fits, rfl⟩, bits⟩
    refine ⟨fits, eq_of_testBit fun i => ?_⟩
    rw [bits, testBit_field]
  · rintro ⟨fits, same⟩
    refine ⟨_, ⟨fits, rfl⟩, fun i => ?_⟩
    rw [same, testBit_field]

theorem copyBitField_iff (n source : ℤ) (bit : ℕ → Bool) (ordered : start ≤ stop) :
    (∃ r, copyBitField n source start stop = some r ∧ Replaces r n start (stop - start) bit) ↔
      Maskable (stop - start) start ∧ ∀ i < stop - start, source.testBit i = bit i := by
  have width : (stop : ℤ) - start = (stop - start : ℕ) := by omega
  rw [copyBitField, width]
  exact replaceBitField_iff

def rotatedFrom (count : ℤ) (size i : ℕ) : ℕ := ((i - count) % size).toNat

theorem rotatedFrom_eq (inside : i < size) (rest : count % size = c) :
    rotatedFrom count size i = if c ≤ i then i - c else i + size - c := by
  have less : c < size := by
    have bound := Int.emod_lt_of_pos count (show (0 : ℤ) < size by omega)
    omega
  have step : (i - count) % size = ((i : ℤ) - c) % size := by rw [← rest, Int.sub_emod_emod]
  rw [rotatedFrom, step]
  split
  · next above =>
    rw [Int.emod_eq_of_lt (by omega) (by omega)]
    omega
  · next below =>
    rw [← Int.add_emod_right, Int.emod_eq_of_lt (by omega) (by omega)]
    omega

/-- What the procedure puts in the field, of the field that it has read. -/
def rotated (w : ℤ) (size c : ℕ) : ℤ := bitwiseIor (w * 2 ^ c) (if size - c < 2 ^ 57 then w / 2 ^ (size - c) else 0)

theorem remainder_of_pos (nonempty : 0 < size) (rest : count % size = c) :
    remainder count size = some (if 0 ≤ count ∨ (size : ℤ) ∣ count then (c : ℤ) else c - size) := by
  have nonzero : (size : ℤ) ≠ 0 := by omega
  rw [remainder, if_neg nonzero, Int.tmod_eq_emod, rest]
  split <;> simp

theorem rotateBitField_eq_some (ordered : start ≤ stop) (width : stop - start = size) (nonempty : 0 < size)
    (rest : count % size = c) : rotateBitField n count start stop = some r ↔ (0 ≤ count ∨ (size : ℤ) ∣ count) ∧
    size ≤ maxBits ∧ Storable (fieldRead n start size) c ∧
    replaceBitField size start n (rotated (fieldRead n start size) size c) = some r := by
  have less : (c : ℤ) < size := rest ▸ Int.emod_lt_of_pos count (by omega)
  have cast : (stop : ℤ) - start = size := by omega
  have below : (size : ℤ) - c = (size - c : ℕ) := by omega
  rw [rotateBitField, cast, remainder_of_pos nonempty rest]
  by_cases upward : 0 ≤ count ∨ (size : ℤ) ∣ count
  · rw [if_pos upward]
    simp only [bind, bind_eq_some_iff, extractBitField_eq_some, some.injEq]
    constructor
    · rintro ⟨_, rfl, _, ⟨fits, rfl⟩, _, upper, _, lower, replaced⟩
      rw [shiftLeft_natCast, ite_none_right_eq_some, some.injEq] at upper
      rw [below, shiftRight_natCast, some.injEq] at lower
      obtain ⟨⟨-, storable⟩, rfl⟩ := upper
      subst lower
      exact ⟨upward, fits, storable, replaced⟩
    · rintro ⟨-, fits, storable, replaced⟩
      have bound := maxBits_lt
      have word : c < 2 ^ 64 := by
        omega
      refine ⟨_, rfl, _, ⟨fits, rfl⟩, _, ?_, _, ?_, replaced⟩
      · rw [shiftLeft_natCast, if_pos ⟨word, storable⟩]
      · rw [below, shiftRight_natCast]
  · rw [if_neg upward]
    simp only [bind, bind_eq_some_iff, some.injEq, upward, false_and]
    constructor
    · rintro ⟨_, rfl, _, -, _, shifted, -⟩
      rw [shiftLeft_of_negative (by omega)] at shifted
      cases shifted
    · exact False.elim

/-- The conditions of a right rotation: the two parts of the field have to be shifted to their places. -/
structure Rotatable (n count : ℤ) (start size : ℕ) : Prop where
  nonempty : 0 < size
  upward : 0 ≤ count ∨ (size : ℤ) ∣ count
  extractable : Extractable n start size
  maskable : Maskable size start
  upper : Storable (field n start size) (count % size).toNat
  lower : 2 ^ 57 ≤ size - (count % size).toNat → field n start size / 2 ^ (size - (count % size).toNat) = 0

theorem testBit_rotated (nothing : ∀ i, size ≤ i → w.testBit i = false) (less : c < size) : (rotated w size c).testBit i =
    if c ≤ i then w.testBit (i - c) else decide (size - c < 2 ^ 57) && w.testBit (i + size - c) := by
  have shift : i + (size - c) = i + size - c := by omega
  have lower : (if size - c < 2 ^ 57 then w / 2 ^ (size - c) else 0 : ℤ).testBit i =
      (decide (size - c < 2 ^ 57) && w.testBit (i + size - c)) := by
    split
    · next near => simp only [near, decide_true, Bool.true_and, testBit_div_two_pow, shift]
    · next far => simp only [far, decide_false, Bool.false_and, testBit_zero]
  rw [rotated, Int.testBit_lor, testBit_mul_two_pow, lower]
  by_cases above : c ≤ i
  · simp [nothing (i + size - c) (by omega)]
  · simp [above]

theorem exists_rotatedFrom (less : k < size) (rest : count % size = c) : ∃ i < size, rotatedFrom count size i = k := by
  have small : c < size := by
    have bound := Int.emod_lt_of_pos count (show (0 : ℤ) < size by omega)
    omega
  by_cases wraps : k + c < size
  · refine ⟨k + c, wraps, ?_⟩
    rw [rotatedFrom_eq wraps rest, if_pos (by omega)]
    omega
  · refine ⟨k + c - size, by omega, ?_⟩
    rw [rotatedFrom_eq (by omega) rest, if_neg (by omega)]
    omega

theorem rotated_iff (nonempty : 0 < size) (rest : count % size = c) :
    (∀ i < size, (rotated (fieldRead n start size) size c).testBit i = n.testBit (rotatedFrom count size i + start)) ↔
      (2 ^ 57 ≤ start → field n start size = 0) ∧ (2 ^ 57 ≤ size - c → field n start size / 2 ^ (size - c) = 0) := by
  have less : c < size := by
    have bound := Int.emod_lt_of_pos count (show (0 : ℤ) < size by omega)
    omega
  have bits := fun i => testBit_rotated (w := fieldRead n start size) (i := i) (fun _ => testBit_fieldRead_outside) less
  have quotient : ∀ i, (field n start size / 2 ^ (size - c)).testBit i =
      (decide (i < c) && n.testBit (i + size - c + start)) := fun i => by
    have shift : i + (size - c) = i + size - c := by omega
    have inside : i + size - c < size ↔ i < c := by omega
    rw [testBit_div_two_pow, testBit_field, shift, decide_eq_decide.mpr inside]
  constructor
  · intro right
    have read : 2 ^ 57 ≤ start → field n start size = 0 := by
      intro far
      have nothing : fieldRead n start size = 0 := if_neg (far.not_gt)
      refine field_eq_zero.mpr fun k within => ?_
      obtain ⟨i, inside, same⟩ := exists_rotatedFrom within rest
      have bit := right i inside
      rw [bits, nothing, same] at bit
      simpa using bit.symm
    refine ⟨read, fun far => eq_of_testBit fun i => ?_⟩
    rw [quotient, testBit_zero]
    by_cases below : i < c
    · have bit := right i (below.trans less)
      rw [bits, rotatedFrom_eq (below.trans less) rest, if_neg (below.not_ge), if_neg (below.not_ge)] at bit
      rw [decide_eq_false (far.not_gt), Bool.false_and] at bit
      rw [← bit, Bool.and_false]
    · simp [below]
  · rintro ⟨read, lower⟩ i inside
    rw [bits, fieldRead_eq_field.mpr read, rotatedFrom_eq inside rest]
    split
    · next above => simp [show i - c < size by omega]
    · next below =>
      rw [testBit_field]
      by_cases near : size - c < 2 ^ 57
      · rw [decide_eq_true near, Bool.true_and, decide_eq_true (by omega), Bool.true_and]
      · have zero := quotient i
        rw [lower (Nat.le_of_not_lt near), testBit_zero, decide_eq_true (Nat.lt_of_not_le below), Bool.true_and] at zero
        rw [decide_eq_false near, Bool.false_and, zero]

theorem rotateBitField_iff (n count : ℤ) (ordered : start ≤ stop) :
    (∃ r, rotateBitField n count start stop = some r ∧
      Replaces r n start (stop - start) fun i => n.testBit (rotatedFrom count (stop - start) i + start)) ↔
        Rotatable n count start (stop - start) := by
  rcases eq_zero_or_pos (stop - start) with empty | nonempty
  · have nothing : rotateBitField n count start stop = none := by
      have width : (stop : ℤ) - start = 0 := by omega
      have failed : remainder count 0 = none := if_pos rfl
      rw [rotateBitField, width, failed, bind_eq_bind, bind_none]
    rw [nothing, empty]
    exact iff_of_false nofun fun rotatable => absurd rotatable.nonempty (lt_irrefl 0)
  · obtain ⟨c, rest⟩ : ∃ c : ℕ, count % (stop - start : ℕ) = c := Int.eq_ofNat_of_zero_le (Int.emod_nonneg count (by omega))
    simp only [rotateBitField_eq_some ordered rfl nonempty rest, and_assoc, exists_and_left]
    rw [replaceBitField_iff, rotated_iff nonempty rest]
    constructor
    · rintro ⟨upward, fits, storable, maskable, read, lower⟩
      rw [fieldRead_eq_field.mpr read] at storable
      exact ⟨nonempty, upward, ⟨fits, read⟩, maskable, by rwa [rest], by rwa [rest]⟩
    · rintro ⟨-, upward, ⟨fits, read⟩, maskable, upper, lower⟩
      rw [rest] at upper lower
      exact ⟨upward, fits, by rwa [fieldRead_eq_field.mpr read], maskable, read, lower⟩

theorem reverseBitField_eq_none (n start stop : ℤ) : reverseBitField n start stop = none := by
  cases extracted : extractBitField (stop - start) start n <;> simp [reverseBitField, applyTwo]

end

end MitScheme.Runtime.IntegerBits
