import MitScheme.Library.IntegerBits
import MitScheme.Microcode.Bignum.Shifts

/-!
An error and a result that is longer than a bignum can be are `none`.
-/

namespace MitScheme.Runtime.IntegerBits

open Library.IntegerBits Option
open Microcode (Bignum)
open Microcode.Bignum (bitsToDigits digitLength lengthMax)

def maxBits : ℕ := digitLength * lengthMax

def argUlongInteger (n : ℤ) : Option ℕ := if 0 ≤ n ∧ n < 2 ^ 64 then some n.toNat else none

def Storable (n : ℤ) (m : ℕ) : Prop := m = 0 ∨ n = 0 ∨ n.natAbs.size + m ≤ maxBits

instance (n : ℤ) (m : ℕ) : Decidable (Storable n m) := inferInstanceAs (Decidable (_ ∨ _ ∨ _))

def shiftLeft (n m : ℤ) : Option ℤ := do
  let m ← argUlongInteger m
  if Storable n m then some (n * 2 ^ m) else none

/-- Where the shift reads a digit behind the complement of a negative bignum, that is the zero which trimming left. -/
def shiftRight (n m : ℤ) : Option ℤ :=
  if m < 0 then none
  else if m < 2 ^ 57 then some (n / 2 ^ m.toNat)
  else some 0

def Maskable (size position : ℕ) : Prop := size < 2 ^ 64 ∧ position < 2 ^ 64 ∧ (size = 0 ∨ size + position ≤ maxBits)

instance (size position : ℕ) : Decidable (Maskable size position) := inferInstanceAs (Decidable (_ ∧ _ ∧ _))

/-- `integer-nonnegative-one-bits` -/
def bitMask (size position : ℤ) : Option ℤ := do
  let n ← argUlongInteger size
  let m ← argUlongInteger position
  if Maskable n m then some ((2 ^ n - 1) * 2 ^ m) else none

abbrev bitwiseAnd (x y : ℤ) : ℤ := x.land y

abbrev bitwiseAndc2 (x y : ℤ) : ℤ := x.ldiff y

abbrev bitwiseIor (x y : ℤ) : ℤ := x.lor y

abbrev bitwiseNot (x : ℤ) : ℤ := x.lnot

def bitCount (x : ℤ) : ℕ :=
  let u := (if x < 0 then bitwiseNot x else x).toNat
  (List.range u.size).countP u.testBit

def firstSetBit (x : ℤ) : ℤ :=
  let u := x.natAbs
  if u = 0 then -1 else ((u ^^^ (u - 1)) >>> 1).size

section
variable {n x : ℤ} {m size position k : ℕ}

theorem maxBits_lt : maxBits < 2 ^ 62 := by decide

theorem argUlongInteger_natCast (n : ℕ) : argUlongInteger n = if n < 2 ^ 64 then some n else none := by
  have word : ((0 : ℤ) ≤ n ∧ (n : ℤ) < 2 ^ 64) ↔ n < 2 ^ 64 := by omega
  simp [argUlongInteger]

theorem argUlongInteger_of_negative (negative : n < 0) : argUlongInteger n = none :=
  if_neg fun range => absurd range.1 (negative.not_ge)

theorem shiftLeft_natCast (n : ℤ) (m : ℕ) :
    shiftLeft n m = if m < 2 ^ 64 ∧ Storable n m then some (n * 2 ^ m) else none := by
  rw [shiftLeft, argUlongInteger_natCast]
  by_cases word : m < 2 ^ 64
  · simp only [word, if_true, true_and, bind_eq_bind, bind_some]
  · simp only [word, if_false, false_and, bind_eq_bind, bind_none]

theorem shiftLeft_of_negative {m : ℤ} (negative : m < 0) : shiftLeft n m = none := by
  rw [shiftLeft, argUlongInteger_of_negative negative, bind_eq_bind, bind_none]

theorem shiftRight_natCast (n : ℤ) (m : ℕ) :
    shiftRight n m = some (if m < 2 ^ 57 then n / 2 ^ m else 0) := by
  have nonnegative : ¬(m : ℤ) < 0 := by omega
  have small : (m : ℤ) < 2 ^ 57 ↔ m < 2 ^ 57 := by omega
  simp [shiftRight, apply_ite some]

theorem bitMask_natCast (size position : ℕ) :
    bitMask size position = if Maskable size position then some ((2 ^ size - 1) * 2 ^ position) else none := by
  rw [bitMask, argUlongInteger_natCast, argUlongInteger_natCast]
  by_cases long : size < 2 ^ 64
  · by_cases far : position < 2 ^ 64
    · simp only [long, far, if_true, bind_eq_bind, bind_some]
    · have unmaskable : ¬Maskable size position := fun maskable => far maskable.2.1
      simp [unmaskable]
  · have unmaskable : ¬Maskable size position := fun maskable => long maskable.1
    simp only [long, unmaskable, if_false, bind_eq_bind, bind_none]

theorem bitMask_eq_some {r : ℤ} : bitMask size position = some r ↔ Maskable size position ∧ (2 ^ size - 1) * 2 ^ position = r := by
  rw [bitMask_natCast, ite_none_right_eq_some, some.injEq]

theorem maskable_zero : Maskable size 0 ↔ size ≤ maxBits := by
  have bound := maxBits_lt
  unfold Maskable
  omega

theorem Maskable.low (maskable : Maskable size position) : Maskable size 0 := by
  obtain ⟨-, -, fits⟩ := maskable
  rw [maskable_zero]
  omega

theorem Maskable.shiftLeft (maskable : Maskable size position) (nonnegative : 0 ≤ x) (below : x < 2 ^ size) :
    IntegerBits.shiftLeft x position = some (x * 2 ^ position) := by
  obtain ⟨-, word, fits⟩ := maskable
  have storable : Storable x position := by
    rcases fits with rfl | fits
    · exact .inr (.inl (by omega))
    · lift x to ℕ using nonnegative
      have narrow : x.size ≤ size := Nat.size_le.mpr (by exact_mod_cast below)
      refine .inr (.inr ?_)
      rw [Int.natAbs_natCast]
      omega
  rw [shiftLeft_natCast, if_pos ⟨word, storable⟩]

end

def bitwiseMerge (mask a b : ℤ) : ℤ := bitwiseIor (bitwiseAnd a mask) (bitwiseAndc2 b mask)

def extractBitField (size position integer : ℤ) : Option ℤ := do
  return bitwiseAnd (← bitMask size 0) (← shiftRight integer position)

def editBitField (selector size aPosition a bPosition b : ℤ) : Option ℤ := do
  let mask ← shiftLeft (← extractBitField size 0 selector) aPosition
  return bitwiseMerge mask a (← shiftLeft (← extractBitField size bPosition b) aPosition)

def spliceBitField (size aPosition a bPosition b : ℤ) : Option ℤ := do
  let mask ← bitMask size aPosition
  return bitwiseMerge mask a (← shiftLeft (← extractBitField size bPosition b) aPosition)

def replaceBitField (size position integer field : ℤ) : Option ℤ := do
  let placed ← shiftLeft (← extractBitField size 0 field) position
  return bitwiseIor placed (bitwiseAndc2 integer (← bitMask size position))

section
variable {a b n x selector mask r : ℤ} {size position p q i : ℕ}

def field (n : ℤ) (position size : ℕ) : ℤ := n / 2 ^ position % 2 ^ size

@[simp] theorem testBit_field : (field n position size).testBit i = (decide (i < size) && n.testBit (i + position)) := by
  rw [field, testBit_mod_two_pow, testBit_div_two_pow]

theorem field_nonnegative : 0 ≤ field n position size := Int.emod_nonneg _ (by positivity)

theorem field_lt : field n position size < 2 ^ size := Int.emod_lt_of_pos _ (by positivity)

theorem field_eq_zero : field n position size = 0 ↔ ∀ i < size, n.testBit (i + position) = false := by
  refine ⟨fun zero i inside => ?_, fun zeros => eq_of_testBit fun i => ?_⟩
  · have bit := @testBit_field n size position i
    rw [zero] at bit
    simpa [inside] using bit.symm
  · by_cases inside : i < size
    · simp [zeros i inside]
    · simp [inside]

def fieldRead (n : ℤ) (position size : ℕ) : ℤ := if position < 2 ^ 57 then field n position size else 0

theorem fieldRead_nonnegative : 0 ≤ fieldRead n position size := by
  unfold fieldRead
  split
  · exact field_nonnegative
  · exact le_refl 0

theorem fieldRead_lt : fieldRead n position size < 2 ^ size := by
  unfold fieldRead
  split
  · exact field_lt
  · positivity

theorem testBit_fieldRead_outside (outside : size ≤ i) : (fieldRead n position size).testBit i = false := by
  unfold fieldRead
  split <;> simp [outside.not_gt]

theorem fieldRead_eq_field : fieldRead n position size = field n position size ↔
    (2 ^ 57 ≤ position → field n position size = 0) := by
  unfold fieldRead
  split
  · omega
  · next far =>
    rw [eq_comm]
    exact ⟨fun zero _ => zero, fun zero => zero (Nat.le_of_not_lt far)⟩

theorem extractBitField_natCast (size position : ℕ) (n : ℤ) : extractBitField size position n =
    if size ≤ maxBits then some (fieldRead n position size) else none := by
  have low : bitMask size 0 = if size ≤ maxBits then some (2 ^ size - 1) else none := by
    have mask := bitMask_natCast size 0
    rw [pow_zero, mul_one] at mask
    simpa [maskable_zero, Nat.cast_zero] using mask
  rw [extractBitField, low, shiftRight_natCast]
  by_cases fits : size ≤ maxBits
  · have masked : (2 ^ size - 1 : ℤ).land (n / 2 ^ position) = field n position size := by
      apply eq_of_testBit
      intro i
      have ones := testBit_ones size 0 i
      rw [pow_zero, mul_one] at ones
      simp [ones, testBit_div_two_pow]
    rw [if_pos fits, if_pos fits, fieldRead]
    split
    · exact congrArg some masked
    · exact congrArg some (eq_of_testBit (by simp))
  · simp only [fits, if_false]
    rfl

theorem extractBitField_eq_some : extractBitField size position n = some r ↔
    size ≤ maxBits ∧ fieldRead n position size = r := by
  rw [extractBitField_natCast, ite_none_right_eq_some, some.injEq]

theorem shiftLeft_fieldRead (maskable : Maskable size q) :
    shiftLeft (fieldRead n p size) q = some (fieldRead n p size * 2 ^ q) :=
  maskable.shiftLeft fieldRead_nonnegative fieldRead_lt

theorem testBit_bitwiseMerge : (bitwiseMerge mask a b).testBit i = if mask.testBit i then a.testBit i else b.testBit i := by
  rw [bitwiseMerge, Int.testBit_lor, Int.testBit_land, Int.testBit_ldiff]
  cases mask.testBit i <;> simp

/-- The integer has the given bits in a field and those of another integer elsewhere. -/
def Replaces (r n : ℤ) (position size : ℕ) (bit : ℕ → Bool) : Prop :=
  ∀ i, r.testBit i = if position ≤ i ∧ i < position + size then bit (i - position) else n.testBit i

theorem Replaces.unique {bit : ℕ → Bool} (first : Replaces a n position size bit) (second : Replaces b n position size bit) :
    a = b := by
  apply eq_of_testBit
  intro i
  rw [first i, second i]

theorem extractBitField_low {size : ℕ} : extractBitField size 0 n = some r ↔ size ≤ maxBits ∧ field n 0 size = r := by
  exact @extractBitField_eq_some n r size 0

theorem shiftLeft_field (maskable : Maskable size q) : shiftLeft (field n p size) q = some (field n p size * 2 ^ q) :=
  maskable.shiftLeft field_nonnegative field_lt

theorem replaceBitField_eq_some {size position : ℕ} : replaceBitField size position n x = some r ↔
    Maskable size position ∧ (field x 0 size * 2 ^ position).lor (n.ldiff ((2 ^ size - 1) * 2 ^ position)) = r := by
  simp only [replaceBitField, bind, bind_eq_some_iff, pure, extractBitField_low, bitMask_eq_some, some.injEq]
  constructor
  · rintro ⟨_, ⟨-, rfl⟩, placed, returns, _, ⟨maskable, rfl⟩, rfl⟩
    rw [shiftLeft_field maskable, some.injEq] at returns
    exact ⟨maskable, congrArg (bitwiseIor · _) returns⟩
  · rintro ⟨maskable, rfl⟩
    exact ⟨_, ⟨maskable_zero.mp maskable.low, rfl⟩, _, shiftLeft_field maskable, _, ⟨maskable, rfl⟩, rfl⟩

theorem replaces_field (n x : ℤ) (position size : ℕ) :
    Replaces ((field x 0 size * 2 ^ position).lor (n.ldiff ((2 ^ size - 1) * 2 ^ position))) n position size x.testBit := by
  intro i
  rw [Int.testBit_lor, Int.testBit_ldiff, testBit_ones, testBit_mul_two_pow]
  by_cases above : position ≤ i
  · have inside : i - position < size ↔ i < position + size := by omega
    by_cases below : i < position + size <;> simp [above, below, inside]
  · simp [above]

theorem bitwiseMerge_field (nothing : ∀ i, size ≤ i → x.testBit i = false) :
    bitwiseMerge ((2 ^ size - 1) * 2 ^ p) a (x * 2 ^ p) = a.land ((2 ^ size - 1) * 2 ^ p) := by
  apply eq_of_testBit
  intro i
  rw [testBit_bitwiseMerge, Int.testBit_land, testBit_ones, testBit_mul_two_pow]
  by_cases above : p ≤ i
  · by_cases below : i < p + size
    · simp [above, below]
    · simp [below, nothing (i - p) (by omega)]
  · simp [above]

theorem spliceBitField_eq_some {size p q : ℕ} : spliceBitField size p a q b = some r ↔
    Maskable size p ∧ a.land ((2 ^ size - 1) * 2 ^ p) = r := by
  have merged : bitwiseMerge ((2 ^ size - 1) * 2 ^ p) a (fieldRead b q size * 2 ^ p) = a.land ((2 ^ size - 1) * 2 ^ p) :=
    bitwiseMerge_field fun _ => testBit_fieldRead_outside
  simp only [spliceBitField, bind, bind_eq_some_iff, pure, extractBitField_eq_some, bitMask_eq_some, some.injEq]
  constructor
  · rintro ⟨_, ⟨maskable, rfl⟩, _, ⟨-, rfl⟩, placed, returns, rfl⟩
    rw [shiftLeft_fieldRead maskable, some.injEq] at returns
    subst returns
    exact ⟨maskable, merged.symm⟩
  · rintro ⟨maskable, rfl⟩
    exact ⟨_, ⟨maskable, rfl⟩, _, ⟨maskable_zero.mp maskable.low, rfl⟩, _, shiftLeft_fieldRead maskable, merged⟩

theorem field_ones : field (2 ^ size - 1) 0 size = 2 ^ size - 1 := by
  rw [field, pow_zero, Int.ediv_one]
  exact Int.emod_eq_of_lt (sub_nonneg.mpr (one_le_pow₀ (by decide))) (by omega)

theorem shiftLeft_ones (fits : size ≤ maxBits) : shiftLeft (2 ^ size - 1) p = bitMask size p := by
  by_cases maskable : Maskable size p
  · have ones := shiftLeft_field (n := 2 ^ size - 1) (p := 0) maskable
    rwa [field_ones, ← bitMask_eq_some.mpr ⟨maskable, rfl⟩] at ones
  · have unstorable : ¬(p < 2 ^ 64 ∧ Storable (2 ^ size - 1) p) := by
      rintro ⟨word, storable⟩
      have bound := maxBits_lt
      refine maskable ⟨by omega, word, ?_⟩
      have magnitude : (2 ^ size - 1 : ℤ).natAbs = 2 ^ size - 1 := by
        have cast : (2 ^ size : ℤ) = (2 ^ size : ℕ) := by simp
        have positive := Nat.two_pow_pos size
        omega
      rw [Storable, ← Int.natAbs_eq_zero, magnitude, ← Nat.size_eq_zero (n := 2 ^ size - 1), size_two_pow_sub_one]
        at storable
      omega
    rw [shiftLeft_natCast, if_neg unstorable, bitMask_natCast, if_neg maskable]

theorem editBitField_mask {size : ℕ} (mask : bitMask size 0 = some selector) :
    editBitField selector size p a q b = spliceBitField size p a q b := by
  have selected := @bitMask_eq_some size 0 selector
  rw [maskable_zero, pow_zero, mul_one] at selected
  obtain ⟨fits, rfl⟩ := selected.mp mask
  have extracted : extractBitField size 0 (2 ^ size - 1) = some (2 ^ size - 1) := extractBitField_low.mpr ⟨fits, field_ones⟩
  rw [editBitField, extracted, bind_eq_bind, bind_some, shiftLeft_ones fits]
  rfl

/-- What a splice leaves has the field of the second integer only where the first one is nothing but this field. -/
theorem replaces_masked {bit : ℕ → Bool} (bits : ∀ i, x.testBit i = (decide (i < size) && bit i)) :
    Replaces (a.land ((2 ^ size - 1) * 2 ^ p)) a p size bit ↔ a = x * 2 ^ p := by
  have masked : ∀ i, (a.land ((2 ^ size - 1) * 2 ^ p)).testBit i =
      (a.testBit i && (decide (p ≤ i) && decide (i < p + size))) := fun i => by rw [Int.testBit_land, testBit_ones]
  have placed : ∀ i, (x * 2 ^ p).testBit i = (decide (p ≤ i) && (decide (i - p < size) && bit (i - p))) := fun i => by
    rw [testBit_mul_two_pow, bits]
  have inside : ∀ i, p ≤ i → (i - p < size ↔ i < p + size) := fun i above => by omega
  constructor
  · intro replaces
    apply eq_of_testBit
    intro i
    have same := replaces i
    rw [masked] at same
    rw [placed]
    by_cases above : p ≤ i
    · by_cases below : i < p + size <;> simpa [above, below, inside] using same
    · simpa [above] using same.symm
  · intro same i
    rw [masked, same, placed]
    by_cases above : p ≤ i
    · by_cases below : i < p + size <;> simp [above, below, inside]
    · simp [above]

theorem replace_splice_iff (n x : ℤ) (size p : ℕ) :
    (∃ r, replaceBitField size p n x = some r ∧ spliceBitField size p n 0 x = some r) ↔
      Maskable size p ∧ n = field x 0 size * 2 ^ p := by
  have bits : ∀ i, (field x 0 size).testBit i = (decide (i < size) && x.testBit i) := fun i => testBit_field
  have spliced := fun r => @spliceBitField_eq_some n x r size p 0
  simp only [Nat.cast_zero] at spliced
  simp only [replaceBitField_eq_some, spliced, ← replaces_masked bits]
  have replaced := replaces_field n x p size
  constructor
  · rintro ⟨r, ⟨maskable, rfl⟩, -, same⟩
    rw [same]
    exact ⟨maskable, replaced⟩
  · rintro ⟨maskable, replaces⟩
    exact ⟨_, ⟨maskable, rfl⟩, maskable, replaces.unique replaced⟩

end

end MitScheme.Runtime.IntegerBits
