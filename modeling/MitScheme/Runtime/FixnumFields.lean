import Mathlib.Data.Int.Basic

/-!
A fixnum is the word of its 58 bits in two's complement. The primitives of the microcode compute with 64-bit longs and keep
the low bits of the result.
-/

namespace MitScheme.Runtime.FixnumFields

open BitVec (getLsbD_and getLsbD_not getLsbD_or ofInt ofNat zero_sub)

abbrev Fixnum := BitVec 58

abbrev fxWidth : ℕ := 58

inductive Error where
  | badRange (argument : Fixnum) (caller : String)
  | divideByZero (caller : String)
  deriving DecidableEq, Repr

def rightShift (source : BitVec 64) (number : ℤ) : BitVec 64 :=
  if number > fxWidth then 0
  else if source.toInt < 0 then ~~~(~~~source >>> number.toNat)
  else source >>> number.toNat

def leftShift (source : BitVec 64) (number : ℤ) : BitVec 64 :=
  if number > fxWidth then 0 else source <<< number.toNat

/-- `fixnum-lsh` -/
def fxarithmeticShift (x y : Fixnum) : Fixnum :=
  let number := y.toInt
  let source := x.signExtend 64
  (if number ≥ 0 then leftShift source number else rightShift source (-number)).setWidth 58

def fxneg (n : Fixnum) : Fixnum := 0 - n

def fxarithmeticShiftRight (n m : Fixnum) : Fixnum := fxarithmeticShift n (0 - m)

/-- `modulo`, on a fixnum and a field width. -/
def modulo (n m : Fixnum) : Except Error Fixnum :=
  if m = 0 then .error (.divideByZero "modulo") else .ok (ofInt _ (n.toInt.fmod m.toInt))

def checkField (start stop : Fixnum) (caller : String) : Except Error Unit :=
  if !stop.sle fxWidth then .error (.badRange stop caller)
  else if !start.sle stop then .error (.badRange start caller)
  else .ok ()

def fxbitField (i start stop : Fixnum) : Except Error Fixnum := do
  checkField start stop "fxbit-field"
  return ~~~fxarithmeticShift (-1) (stop - start) &&& fxarithmeticShift i (fxneg start)

def fxrotate (fieldWidth field mask count : Fixnum) : Except Error Fixnum := do
  let count ← modulo count fieldWidth
  return mask &&& fxarithmeticShift field count ||| fxarithmeticShift field (count - fieldWidth)

def fxbitFieldRotate (i count start stop : Fixnum) : Except Error Fixnum := do
  checkField start stop "fxbit-field"
  let fieldWidth := stop - start
  let mask := ~~~fxarithmeticShift (-1) fieldWidth
  let field := mask &&& fxarithmeticShift i (fxneg start)
  return fxarithmeticShift (← fxrotate fieldWidth field mask count) start ||| ~~~fxarithmeticShift mask start &&& i

def fxreverseLoop : ℕ → (n m : Fixnum) → Fixnum
  | 0, _, m => m
  | i + 1, n, m => fxreverseLoop i (fxarithmeticShiftRight n 1) (fxarithmeticShift m 1 ||| n &&& 1)

def fxreverse (fieldWidth field : Fixnum) : Fixnum := fxreverseLoop fieldWidth.toInt.toNat field 0

def fxbitFieldReverse (i start stop : Fixnum) : Except Error Fixnum := do
  checkField start stop "fxbit-field"
  let fieldWidth := stop - start
  let mask := ~~~fxarithmeticShift (-1) fieldWidth
  let field := mask &&& fxarithmeticShift i (fxneg start)
  return fxarithmeticShift (fxreverse fieldWidth field) start ||| ~~~fxarithmeticShift mask start &&& i

section
variable {n m count start stop k : ℕ} {x y i field mask : Fixnum}

abbrev position (n : ℕ) : Fixnum := ofNat 58 n

theorem toInt_position (small : n ≤ 58) : (position n).toInt = n := by
  have word : n < 2 ^ 58 := by omega
  rw [BitVec.toInt_eq_toNat_of_lt] <;> rw [BitVec.toNat_ofNat, Nat.mod_eq_of_lt word]
  omega

theorem position_sub (ordered : m ≤ n) (small : n ≤ 58) : position n - position m = position (n - m) :=
  BitVec.ofNat_sub_ofNat_of_le _ _ (by omega) ordered

theorem toInt_neg_position (small : n ≤ 58) : (0 - position n).toInt = -n := by
  have word := toInt_position small
  show (0#58 - position n).toInt = -n
  rw [zero_sub, BitVec.toInt_neg_eq_of_msb, word]
  rw [BitVec.msb_eq_toInt, word]
  simp

theorem shiftLeft_bit (small : n ≤ 58) (inside : k < 58) :
    (fxarithmeticShift x (position n)).getLsbD k = (decide (n ≤ k) && x.getLsbD (k - n)) := by
  have narrow : ¬(n : ℤ) > fxWidth := by exact_mod_cast small.not_gt
  rw [fxarithmeticShift, toInt_position small]
  simp only [ge_iff_le, Int.natCast_nonneg, if_true, leftShift]
  rw [if_neg narrow, BitVec.getLsbD_setWidth, BitVec.getLsbD_shiftLeft, BitVec.getLsbD_signExtend]
  have bound : k - n < 58 := by omega
  by_cases below : n ≤ k
  · have within : k < 64 ∧ k - n < 64 := by omega
    simp [inside, below, bound, within]
  · simp [below]

theorem long_bit (x : Fixnum) (within : k < 64) :
    (x.signExtend 64).getLsbD k = if k < 58 then x.getLsbD k else x.msb := by
  rw [BitVec.getLsbD_signExtend]
  simp [within]

theorem long_negative (x : Fixnum) : (x.signExtend 64).toInt < 0 ↔ x.msb = true := by
  rw [BitVec.toInt_signExtend_of_le (by decide), BitVec.toInt_neg_iff, BitVec.msb_eq_true_iff_two_mul_ge]

theorem shiftRight_bit (by_n : y.toInt = -n) (small : n ≤ 58) (inside : k < 58) :
    (fxarithmeticShift x y).getLsbD k = if k + n < 58 then x.getLsbD (k + n) else x.msb := by
  rcases Nat.eq_zero_or_pos n with rfl | positive
  · have zero : y = position 0 := BitVec.eq_of_toInt_eq (by_n.trans (toInt_position (Nat.zero_le _)).symm)
    rw [zero, shiftLeft_bit (Nat.zero_le _) inside, if_pos (by omega)]
    simp
  have narrow : ¬ -(-(n : ℤ)) > fxWidth := by
    rw [Int.neg_neg]
    exact_mod_cast small.not_gt
  have count : (-(-(n : ℤ))).toNat = n := by omega
  rw [fxarithmeticShift, by_n, if_neg (by omega), rightShift, if_neg narrow, count, BitVec.getLsbD_setWidth]
  have short : ∀ z : BitVec 64, (z >>> n).getLsbD k = z.getLsbD (k + n) := by
    intro z
    rw [BitVec.getLsbD_ushiftRight, Nat.add_comm]
  rcases lt_or_ge (k + n) 64 with within | beyond
  · split
    · rw [getLsbD_not, short, getLsbD_not, long_bit x within]
      simp [inside, within]
      omega
    · rw [short, long_bit x within]
      simp [inside]
  · have above : ¬k + n < 58 := by omega
    split
    · rename_i negative
      rw [getLsbD_not, short, (long_negative x).mp negative]
      simp [inside]
      omega
    · rename_i positive
      have sign : x.msb = false := Bool.eq_false_iff.mpr fun sign => positive ((long_negative x).mpr sign)
      rw [short, BitVec.getLsbD_of_ge _ _ beyond, sign]
      simp

theorem checkField_ok (ordered : start ≤ stop) (small : stop ≤ 58) (caller : String) :
    checkField (position start) (position stop) caller = .ok () := by
  have first : (position start).sle (position stop) = true := by
    rw [BitVec.sle_iff_toInt_le, toInt_position (by omega), toInt_position small]
    omega
  have last : (position stop).sle (position fxWidth) = true := by
    rw [BitVec.sle_iff_toInt_le, toInt_position small, toInt_position le_rfl]
    exact_mod_cast small
  rw [checkField]
  simp only [first, Bool.not_true, Bool.false_eq_true, if_false]
  exact if_neg (by simpa using last)

theorem mask_bit (small : n ≤ 58) (inside : k < 58) :
    (~~~fxarithmeticShift (-1) (position n)).getLsbD k = decide (k < n) := by
  have ones : (-1 : Fixnum) = .allOnes 58 := by decide
  rw [getLsbD_not, shiftLeft_bit small inside, ones, BitVec.getLsbD_allOnes]
  by_cases below : n ≤ k
  · have bound : k - n < 58 := by omega
    simp [below, bound]
  · simp [inside, Nat.lt_of_not_le below]

theorem field_bit (ordered : start ≤ stop) (small : stop ≤ 58) (inside : k < 58) :
    (~~~fxarithmeticShift (-1) (position (stop - start)) &&& fxarithmeticShift i (fxneg (position start))).getLsbD k =
      (decide (k < stop - start) && i.getLsbD (start + k)) := by
  rw [getLsbD_and, mask_bit (by omega) inside, fxneg, shiftRight_bit (toInt_neg_position (by omega)) (by omega) inside]
  by_cases within : k < stop - start
  · rw [if_pos (by omega), Nat.add_comm k]
  · simp [within]

theorem replaced_bit {new : Fixnum} (ordered : start ≤ stop) (small : stop ≤ 58) (inside : k < 58)
    (mask_bits : ∀ k < 58, mask.getLsbD k = decide (k < stop - start)) (fits : ∀ k < 58, stop - start ≤ k → new.getLsbD k = false) :
    (fxarithmeticShift new (position start) ||| ~~~fxarithmeticShift mask (position start) &&& i).getLsbD k =
      if start ≤ k ∧ k < stop then new.getLsbD (k - start) else i.getLsbD k := by
  rw [getLsbD_or, getLsbD_and, getLsbD_not, shiftLeft_bit (by omega) inside, shiftLeft_bit (by omega) inside,
    mask_bits _ (by omega)]
  by_cases above : start ≤ k
  · by_cases below : k < stop
    · have within : k - start < stop - start := by omega
      simp [above, below, within]
    · have beyond : ¬k - start < stop - start := by omega
      simp [below, beyond, inside, fits (k - start) (by omega) (by omega)]
  · simp [above, inside]

/-- What is to be the case of an operation that changes the field only. -/
def FieldIs (i : Fixnum) (start stop : ℕ) (field : ℕ → Bool) (r : Fixnum) : Prop :=
  ∀ k < 58, r.getLsbD k = if start ≤ k ∧ k < stop then field (k - start) else i.getLsbD k

theorem fxbitField_spec (i : Fixnum) (ordered : start ≤ stop) (small : stop ≤ 58) :
    ∃ r, fxbitField i (position start) (position stop) = .ok r ∧
      ∀ k < 58, r.getLsbD k = (decide (k < stop - start) && i.getLsbD (start + k)) := by
  refine ⟨_, ?_, fun k => field_bit ordered small⟩
  rw [fxbitField, checkField_ok ordered small, position_sub ordered small]
  rfl

theorem fxreverseLoop_bit (small : n ≤ 58) (inside : k < 58) :
    (fxreverseLoop n x y).getLsbD k = if k < n then x.getLsbD (n - 1 - k) else y.getLsbD (k - n) := by
  induction n generalizing x y with
  | zero => rfl
  | succ n ih =>
    have shifted : (fxarithmeticShiftRight x 1).getLsbD (n - 1 - k) = if n - 1 - k + 1 < 58 then x.getLsbD (n - 1 - k + 1) else x.msb :=
      shiftRight_bit (toInt_neg_position (n := 1) (by decide)) (by decide) (by omega)
    have joined : ∀ j < 58, (fxarithmeticShift y 1 ||| x &&& 1).getLsbD j = if j = 0 then x.getLsbD 0 else y.getLsbD (j - 1) := by
      intro j bound
      have left : (fxarithmeticShift y 1).getLsbD j = (decide (1 ≤ j) && y.getLsbD (j - 1)) := shiftLeft_bit (n := 1) (by decide) bound
      rw [getLsbD_or, getLsbD_and, left]
      rcases Nat.eq_zero_or_pos j with rfl | positive
      · simp
      · simp [Nat.pos_iff_ne_zero.mp positive, Nat.one_le_iff_ne_zero]
    rw [fxreverseLoop, ih (by omega)]
    rcases lt_trichotomy k n with before | rfl | after
    · have previous : n - 1 - k + 1 = n + 1 - 1 - k := by omega
      rw [if_pos before, if_pos (by omega), shifted, if_pos (by omega), previous]
    · rw [joined _ (by omega)]
      simp
    · rw [if_neg (by omega), if_neg (by omega), joined _ (by omega), if_neg (by omega)]
      congr 1

theorem fxbitFieldReverse_spec (i : Fixnum) (ordered : start ≤ stop) (small : stop ≤ 58) :
    ∃ r, fxbitFieldReverse i (position start) (position stop) = .ok r ∧
      FieldIs i start stop (fun k => i.getLsbD (stop - 1 - k)) r := by
  rw [fxbitFieldReverse, checkField_ok ordered small, position_sub ordered small]
  refine ⟨_, rfl, ?_⟩
  intro k inside
  have width : stop - start ≤ 58 := by omega
  have reversed : ∀ {field : Fixnum}, ∀ k < 58, (fxreverse (position (stop - start)) field).getLsbD k =
      (decide (k < stop - start) && field.getLsbD (stop - start - 1 - k)) := by
    intro field k inside
    rw [fxreverse, toInt_position width, Int.toNat_natCast, fxreverseLoop_bit width inside]
    by_cases within : k < stop - start
    · simp
    · simp
  rw [replaced_bit ordered small inside (fun k => mask_bit width)]
  · split
    · rw [reversed _ (by omega), field_bit ordered small (by omega)]
      have first : k - start < stop - start := by omega
      have second : stop - start - 1 - (k - start) < stop - start := by omega
      have same : start + (stop - start - 1 - (k - start)) = stop - 1 - (k - start) := by omega
      simp [first, second, same]
    · rfl
  · intro k inside beyond
    rw [reversed k inside]
    simp [beyond.not_gt]

def turn (count : Fixnum) (n : ℕ) : ℕ := (count.toInt % n).toNat

theorem turn_lt (count : Fixnum) (positive : 0 < n) : turn count n < n := by
  have bound := Int.emod_lt_of_pos count.toInt (Int.natCast_pos.mpr positive)
  rw [turn]
  omega

theorem modulo_position (count : Fixnum) (positive : 0 < n) (small : n ≤ 58) :
    modulo count (position n) = .ok (position (turn count n)) := by
  have nonzero : position n ≠ 0 := by
    intro zero
    have width := toInt_position small
    rw [zero] at width
    have : (0 : Fixnum).toInt = 0 := by decide
    omega
  have nonnegative := Int.emod_nonneg count.toInt (by omega : (n : ℤ) ≠ 0)
  rw [modulo, if_neg nonzero, toInt_position small, Int.fmod_eq_emod_of_nonneg _ (Int.natCast_nonneg n)]
  rw [turn, position, ← BitVec.ofInt_natCast, Int.toNat_of_nonneg nonnegative]

/-- Which bit of the field comes to bit `k`. -/
def rotated (count : Fixnum) (n k : ℕ) : ℕ := ((k - count.toInt) % n).toNat

theorem rotated_eq (count : Fixnum) (inside : k < n) :
    rotated count n k = if turn count n ≤ k then k - turn count n else k + n - turn count n := by
  have below := turn_lt count (by omega : 0 < n)
  have nonnegative := Int.emod_nonneg count.toInt (by omega : (n : ℤ) ≠ 0)
  have same : ((k : ℤ) - count.toInt) % n = (k - turn count n) % n := by
    rw [turn, Int.toNat_of_nonneg nonnegative, Int.sub_emod_emod]
  rw [rotated, same]
  split
  · rw [Int.emod_eq_of_lt] <;> omega
  · rw [← Int.add_emod_right, Int.emod_eq_of_lt] <;> omega

theorem toInt_position_sub {c : ℕ} (below : c < n) (small : n ≤ 58) : (position c - position n).toInt = -((n - c : ℕ) : ℤ) := by
  have word := toInt_neg_position (n := n - c) (by omega)
  rw [← position_sub (by omega) small] at word
  rw [← word]
  congr 1
  show _ = 0#58 - _
  rw [zero_sub, BitVec.neg_sub, BitVec.sub_eq_add_neg, BitVec.add_comm]

theorem fxrotate_spec {count : Fixnum} (positive : 0 < n) (width : start + n ≤ 58)
    (mask_bits : ∀ k < 58, mask.getLsbD k = decide (k < n))
    (field_bits : ∀ k < 58, field.getLsbD k = (decide (k < n) && i.getLsbD (start + k))) :
    ∃ r, fxrotate (position n) field mask count = .ok r ∧ ∀ k < 58, r.getLsbD k = (decide (k < n) &&
      if turn count n ≤ k then i.getLsbD (start + (k - turn count n)) || (decide (n = 58) && i.msb)
      else i.getLsbD (start + (k + n - turn count n))) := by
  have below := turn_lt count positive
  generalize turned : turn count n = c at below
  have sign : field.msb = (decide (n = 58) && i.msb) := by
    rw [BitVec.msb_eq_getLsbD_last, BitVec.msb_eq_getLsbD_last, field_bits _ (by decide)]
    by_cases whole : n = 58
    · obtain rfl : start = 0 := by omega
      simp [whole]
    · have short : ¬57 < n := by omega
      simp [whole, short]
  refine ⟨mask &&& fxarithmeticShift field (position c) ||| fxarithmeticShift field (position c - position n), ?_, ?_⟩
  · rw [fxrotate, modulo_position count positive (by omega), turned]
    rfl
  · intro k inside
    rw [getLsbD_or, getLsbD_and, mask_bits k inside, shiftLeft_bit (by omega) inside,
      shiftRight_bit (toInt_position_sub below (by omega)) (by omega) inside, field_bits _ (by omega), sign]
    -- what the right shift brings down: the top of the field, or copies of the sign
    have brought : (if k + (n - c) < 58 then field.getLsbD (k + (n - c)) else decide (n = 58) && i.msb) =
        if k < c then i.getLsbD (start + (k + n - c)) else decide (n = 58) && i.msb := by
      split
      · rw [field_bits _ ‹_›]
        split
        · have inner : k + n - c < n ∧ k + (n - c) = k + n - c := by omega
          rw [inner.2, decide_eq_true inner.1, Bool.true_and]
        · have outer : ¬k + (n - c) < n ∧ ¬n = 58 := by omega
          simp [outer]
      · rw [if_neg (by omega)]
    rw [brought]
    by_cases within : k < n
    · by_cases upper : c ≤ k
      · have first : k - c < n := by omega
        simp [within, upper, first, upper.not_gt]
      · simp [within, upper, Nat.lt_of_not_le upper]
    · have short : ¬n = 58 ∧ ¬k < c := by omega
      simp [within, short]

theorem bind_ok {r : Except Error Fixnum} {f : Fixnum → Fixnum} (returned : r = .ok x) :
    (do let y ← r; return f y) = Except.ok (f x) := by
  rw [returned]
  rfl

theorem fxbitFieldRotate_spec (i count : Fixnum) (ordered : start < stop) (small : stop ≤ 58) :
    ∃ r, fxbitFieldRotate i count (position start) (position stop) = .ok r ∧ FieldIs i start stop (fun k =>
      i.getLsbD (start + rotated count (stop - start) k) ||
        (decide (turn count (stop - start) ≤ k) && (decide (stop - start = 58) && i.msb))) r := by
  have width : stop - start ≤ 58 := by omega
  obtain ⟨new, rotates, new_bits⟩ := @fxrotate_spec (stop - start) start i _ _ count (by omega) (by omega)
    (fun k => mask_bit width) (fun k => field_bit (le_of_lt ordered) small)
  rw [fxbitFieldRotate, checkField_ok (le_of_lt ordered) small, position_sub (le_of_lt ordered) small]
  refine ⟨_, bind_ok rotates, ?_⟩
  intro k inside
  rw [replaced_bit (le_of_lt ordered) small inside (fun k => mask_bit width)]
  · split
    · have within : k - start < stop - start := by omega
      dsimp only
      rw [new_bits _ (by omega), rotated_eq count within]
      by_cases upper : turn count (stop - start) ≤ k - start
      · simp [within, upper]
      · simp [within, upper]
    · rfl
  · intro k inside beyond
    rw [new_bits k inside]
    simp [beyond.not_gt]

/-- The field is not the whole word with its sign bit set, or what the sign covers in the rotated word are ones anyway. -/
def SignHarmless (i count : Fixnum) (start stop : ℕ) : Prop :=
  stop - start < 58 ∨ i.msb = false ∨ ∀ k < 58 - turn count 58, i.getLsbD k = true

theorem fxbitFieldRotate_iff (i count : Fixnum) (ordered : start ≤ stop) (small : stop ≤ 58) :
    (∃ r, fxbitFieldRotate i count (position start) (position stop) = .ok r ∧
      FieldIs i start stop (fun k => i.getLsbD (start + rotated count (stop - start) k)) r) ↔
        start < stop ∧ SignHarmless i count start stop := by
  rcases Nat.eq_or_lt_of_le ordered with rfl | ordered
  · have width : position start - position start = 0 := BitVec.sub_self _
    have fails : fxbitFieldRotate i count (position start) (position start) = .error (.divideByZero "modulo") := by
      rw [fxbitFieldRotate, checkField_ok le_rfl small, width]
      rfl
    simp [fails]
  obtain ⟨r, rotates, bits⟩ := fxbitFieldRotate_spec i count ordered small
  have only : (∃ r, fxbitFieldRotate i count (position start) (position stop) = .ok r ∧
      FieldIs i start stop (fun k => i.getLsbD (start + rotated count (stop - start) k)) r) ↔
        FieldIs i start stop (fun k => i.getLsbD (start + rotated count (stop - start) k)) r := by
    rw [rotates]
    simp
  rw [only]
  constructor
  · intro right
    refine ⟨ordered, ?_⟩
    by_contra harmful
    simp only [SignHarmless, not_or, not_lt, Bool.not_eq_false] at harmful
    obtain ⟨whole, sign, zeros⟩ := harmful
    obtain ⟨rfl, rfl⟩ : start = 0 ∧ stop = 58 := by omega
    apply zeros
    intro j below
    have bound := turn_lt count (by decide : 0 < 58)
    -- the bit that comes from `j` has been covered by the sign
    have expected := right (j + turn count 58) (by omega)
    have found := bits (j + turn count 58) (by omega)
    rw [if_pos (by omega)] at expected found
    simp only [Nat.sub_zero, Nat.zero_add] at expected found
    rw [found, rotated_eq count (by omega)] at expected
    simpa [sign] using expected
  · rintro ⟨-, harmless⟩ k inside
    rw [bits k inside]
    split
    · rcases harmless with short | positive | ones
      · simp [ne_of_lt short]
      · simp [positive]
      · by_cases whole : stop - start = 58
        · obtain ⟨rfl, rfl⟩ : start = 0 ∧ stop = 58 := by omega
          simp only [Nat.sub_zero, Nat.zero_add]
          by_cases upper : turn count 58 ≤ k
          · rw [rotated_eq count (by omega), if_pos (by omega)]
            simp [ones (k - turn count 58) (by omega)]
          · simp [upper]
        · simp [whole]
    · rfl

/-- Extraction and reversal are right for every field, rotation unless the field is empty or brings in the sign. -/
theorem fixnum_fields (i count : Fixnum) (ordered : start ≤ stop) (small : stop ≤ fxWidth) :
    (∃ r, fxbitField i (position start) (position stop) = .ok r ∧
      ∀ k < fxWidth, r.getLsbD k = (decide (k < stop - start) && i.getLsbD (start + k))) ∧
    ((∃ r, fxbitFieldRotate i count (position start) (position stop) = .ok r ∧
      FieldIs i start stop (fun k => i.getLsbD (start + rotated count (stop - start) k)) r) ↔
        start < stop ∧ SignHarmless i count start stop) ∧
    ∃ r, fxbitFieldReverse i (position start) (position stop) = .ok r ∧
      FieldIs i start stop (fun k => i.getLsbD (stop - 1 - k)) r :=
  ⟨fxbitField_spec i ordered small, fxbitFieldRotate_iff i count ordered small, fxbitFieldReverse_spec i ordered small⟩

end

theorem fixnum_fields_four :
    (∃ r, fxbitField 0x5A (position 2) (position 6) = .ok r ∧
      ∀ k < fxWidth, r.getLsbD k = (decide (k < 6 - 2) && (0x5A : Fixnum).getLsbD (2 + k))) ∧
    ((∃ r, fxbitFieldRotate 0x5A (-3) (position 2) (position 6) = .ok r ∧
      FieldIs 0x5A 2 6 (fun k => (0x5A : Fixnum).getLsbD (2 + rotated (-3) (6 - 2) k)) r) ↔
        2 < 6 ∧ SignHarmless 0x5A (-3) 2 6) ∧
    ∃ r, fxbitFieldReverse 0x5A (position 2) (position 6) = .ok r ∧
      FieldIs 0x5A 2 6 (fun k => (0x5A : Fixnum).getLsbD (6 - 1 - k)) r :=
  fixnum_fields 0x5A (-3) (by decide) (by decide)

theorem fxbitFieldRotate_sign : fxbitFieldRotate (-2) 0 (position 0) (position 58) = .ok (-1) ∧
    fxbitFieldRotate 5 1 (position 3) (position 3) = .error (.divideByZero "modulo") := by
  decide

end MitScheme.Runtime.FixnumFields
