import MitScheme.Microcode.Bignum.Multiply

namespace MitScheme.Microcode.Bignum

open Library Nat

def bddAdjust (v1 v2 : Nat) : Nat → Nat → Option Nat
  | 0, _ => some 0
  | guess + 1, comparand => do
    let product ← word ((guess + 1) * v2)
    if product > comparand then
      let comparand ← word (comparand + v1 <<< halfDigitLength)
      if comparand ≥ radix then some guess else bddAdjust v1 v2 guess comparand
    else some (guess + 1)

/-- `BDDS_MULSUB`: the half digit to store and the carry. -/
def bddsMulsub (vn un guess carry : Nat) : Option (Nat × Nat) := do
  let product ← word (vn * guess + carry)
  let diff ← difference ((un : Int) - hdLow product)
  if diff < 0 then
    let un ← wordOfInt (diff + radixRoot)
    let carry ← word (hdHigh product + 1)
    some (un, carry)
  else some (diff.toNat, hdHigh product)

/-- `BDDS_ADD`: the half digit to store and the carry. -/
def bddsAdd (vn un carry : Nat) : Option (Nat × Nat) := do
  let sum ← word (vn + un + carry)
  if sum < radixRoot then some (sum, 0) else some (sum - radixRoot, 1)

def digitDivideSubtract (v1 v2 guess u0 u1 u2 : Nat) : Option (Nat × Nat × Nat × Nat) := do
  let (u2, carry) ← bddsMulsub v2 u2 guess 0
  let (u1, carry) ← bddsMulsub v1 u1 guess carry
  if carry = 0 then some (guess, u0, u1, u2)
  else
    let diff ← difference ((u0 : Int) - carry)
    if diff < 0 then
      let u0 ← wordOfInt (diff + radix)
      let (u2, carry) ← bddsAdd v2 u2 0
      let (u1, carry) ← bddsAdd v1 u1 carry
      let u0 ← word (if carry = 1 then u0 + 1 else u0)
      some (guess - 1, u0, u1, u2)
    else some (guess, diff.toNat, u1, u2)

def bddStep (v1 v2 u0 u1 u2 : Nat) : Option (Nat × Nat × Nat × Nat) :=
  if u0 ≠ v1 then do
    let uj_uj1 ← word (hdCons u0 u1)
    let comparand ← word (hdCons (uj_uj1 % v1) u2)
    let guess ← bddAdjust v1 v2 (uj_uj1 / v1) comparand
    digitDivideSubtract v1 v2 guess u0 u1 u2
  else do
    let comparand ← word (hdCons (u1 + v1) u2)
    let guess ← bddAdjust v1 v2 (radixRoot - 1) comparand
    digitDivideSubtract v1 v2 guess u0 u1 u2

def digitDivide (uh ul v : Nat) : Option (Nat × Nat) :=
  if uh = 0 ∧ ul < v then some (0, ul)
  else if uh = 0 ∧ ul = v then some (1, 0)
  else do
    let v1 := hdHigh v
    let v2 := hdLow v
    let (q1, _, u1, u2) ← bddStep v1 v2 (hdHigh uh) (hdLow uh) (hdHigh ul)
    let (q2, _, u2, u3) ← bddStep v1 v2 u1 u2 (hdLow ul)
    some (hdCons q1 q2, hdCons u2 u3)

section
variable {v1 v2 : Nat}

/-- The loop stops at a guess whose product fits, and does not pass a quotient that every guess
too large for its product exceeds. -/
theorem bddAdjust_spec (small_v1 : v1 < radixRoot) (small_v2 : v2 < radixRoot) {top quotient guess comparand : Nat}
    (small : guess < radixRoot) (small_comparand : comparand < 2 ^ 63) (left : comparand + guess * v1 * radixRoot = top)
    (enough : quotient ≤ guess) (lower : ∀ g, top < g * (v1 * radixRoot + v2) → quotient < g) : ∃ g,
    bddAdjust v1 v2 guess comparand = some g ∧ g * (v1 * radixRoot + v2) ≤ top ∧ quotient ≤ g ∧ g < radixRoot := by
  induction guess generalizing comparand with
  | zero => exact ⟨0, rfl, by simp, enough, small⟩
  | succ guess ih =>
    have bound := halves_mul_le small small_v2
    have product := word_eq (n := (guess + 1) * v2) (by omega)
    have total : (guess + 1) * (v1 * radixRoot + v2) = (guess + 1) * v1 * radixRoot + (guess + 1) * v2 := by ring
    by_cases exceeds : (guess + 1) * v2 > comparand
    · have next : comparand + v1 <<< halfDigitLength = comparand + v1 * radixRoot := by
        rw [shiftLeft_eq]
        rfl
      have step : v1 * radixRoot ≤ 2147483647 * 2147483648 := by
        rw [radixRoot_eq] at small_v1 ⊢
        exact mul_le_mul_right _ (by omega)
      have word_next := word_eq (n := comparand + v1 * radixRoot) (by omega)
      have below : quotient < guess + 1 := lower _ (by omega)
      have left' : comparand + v1 * radixRoot + guess * v1 * radixRoot = top := by
        rw [← left]
        ring
      by_cases done : comparand + v1 * radixRoot ≥ radix
      · refine ⟨guess, by simp [bddAdjust, product, someBind, if_pos exceeds, next, word_next, if_pos done],
          ?_, Nat.lt_succ_iff.mp below, lt_of_succ_lt small⟩
        have bound' := halves_mul_le (lt_of_succ_lt small) small_v2
        have total' : guess * (v1 * radixRoot + v2) = guess * v1 * radixRoot + guess * v2 := by ring
        rw [radix_eq] at done
        omega
      · obtain ⟨g, ran, rest⟩ := ih (lt_of_succ_lt small) (by omega) left'
          (Nat.lt_succ_iff.mp below)
        exact ⟨g, by simp [bddAdjust, product, someBind, if_pos exceeds, next, word_next, if_neg done, ran], rest⟩
    · refine ⟨guess + 1, by simp [bddAdjust, product, if_neg exceeds], ?_, enough, small⟩
      omega

theorem bddsMulsub_spec {vn un guess carry : Nat} (small_v : vn < radixRoot) (small_u : un < radixRoot)
    (small_guess : guess < radixRoot) (small_carry : carry < radixRoot) : ∃ un' carry', bddsMulsub vn un guess carry =
    some (un', carry') ∧ un' < radixRoot ∧ carry' < radixRoot ∧ un + radixRoot * carry' = un' + vn * guess + carry := by
  have bound := halves_mul_le small_v small_guess
  generalize total : vn * guess = product at bound
  have sum := word_eq (n := product + carry) (by rw [radixRoot_eq] at small_carry; omega)
  have small_low := hdLow_lt (product + carry)
  have split := div_add_mod (product + carry) radixRoot
  generalize low_eq : (product + carry) % radixRoot = low at small_low split
  generalize high_eq : (product + carry) / radixRoot = high at split
  rw [radixRoot_eq] at small_u small_carry small_low split
  have tested := difference_eq (n := (un : Int) - low) (by omega)
  have below : high < radixRoot := by
    rw [radixRoot_eq]
    omega
  by_cases negative : (un : Int) - low < 0
  · have stored := wordOfInt_eq (n := (un : Int) - low + radixRoot) (by rw [radixRoot_eq]; omega)
    have next := word_eq (n := high + 1) (by omega)
    refine ⟨((un : Int) - low + radixRoot).toNat, high + 1, by simp only [bddsMulsub, total, sum, someBind, hdLow_eq,
      hdHigh_eq, low_eq, high_eq, tested, if_pos negative, stored, next], ?_, ?_, ?_⟩ <;> rw [radixRoot_eq] <;> omega
  · refine ⟨((un : Int) - low).toNat, high, by simp only [bddsMulsub, total, sum, someBind, hdLow_eq, hdHigh_eq,
      low_eq, high_eq, tested, if_neg negative], ?_, below, ?_⟩ <;> rw [radixRoot_eq] <;> omega

end

section
variable {v1 v2 u0 u1 u2 guess : Nat}

theorem digitDivideSubtract_spec (small_v1 : v1 < radixRoot) (small_v2 : v2 < radixRoot) (small_u1 : u1 < radixRoot)
    (small_u2 : u2 < radixRoot) (small : guess < radixRoot) (positive : 0 < v1 * radixRoot + v2)
    (exact : guess = (u2 + radixRoot * u1 + radix * u0) / (v1 * radixRoot + v2)) :
    ∃ u0' u1' u2', digitDivideSubtract v1 v2 guess u0 u1 u2 = some (guess, u0', u1', u2') ∧ u1' < radixRoot ∧
      u2' < radixRoot ∧ u2' + radixRoot * u1' = (u2 + radixRoot * u1 + radix * u0) % (v1 * radixRoot + v2) := by
  obtain ⟨u2', carry, low, small_u2', small_carry, value_low⟩ :=
    bddsMulsub_spec small_v2 small_u2 small (by decide : 0 < radixRoot)
  obtain ⟨u1', carry', high, small_u1', small_carry', value_high⟩ :=
    bddsMulsub_spec small_v1 small_u1 small small_carry
  have subtracted : u2 + radixRoot * u1 + radix * carry' =
      u2' + radixRoot * u1' + guess * (v1 * radixRoot + v2) := by
    rw [← radixRoot_mul_self]
    linear_combination value_low + radixRoot * value_high
  have small_rest : u2' + radixRoot * u1' < radix := by
    rw [radix_eq, radixRoot_eq] at *
    omega
  have small_v : v1 * radixRoot + v2 ≤ radix := by
    rw [radix_eq, radixRoot_eq] at *
    omega
  have fits : carry' ≤ u0 := by
    by_contra exceeds
    have off := (subtract_exceeds subtracted small_v positive small_rest (by omega) (not_le.mp exceeds)).1
    omega
  obtain ⟨-, remainder, rfl⟩ := subtract_fits subtracted small_v positive (exact.symm.le) fits
  by_cases none : u0 = 0
  · exact ⟨u0, u1', u2', by simp only [digitDivideSubtract, low, high, someBind, if_pos none], small_u1', small_u2',
      remainder⟩
  · have same : (u0 : Int) - u0 = 0 := sub_self _
    have tested : difference 0 = some 0 := difference_eq (by norm_num)
    exact ⟨0, u1', u2', by simp only [digitDivideSubtract, low, high, someBind, if_neg none, same, tested,
      if_neg (Int.lt_irrefl 0), Int.toNat_zero], small_u1', small_u2', remainder⟩

theorem bddStep_spec (small_v1 : v1 < radixRoot) (small_v2 : v2 < radixRoot) (positive : 0 < v1)
    (small_u0 : u0 < radixRoot) (small_u1 : u1 < radixRoot) (small_u2 : u2 < radixRoot)
    (less : u1 + radixRoot * u0 < v1 * radixRoot + v2) :
    ∃ q u0' u1' u2', bddStep v1 v2 u0 u1 u2 = some (q, u0', u1', u2') ∧ q < radixRoot ∧ u1' < radixRoot ∧
      u2' < radixRoot ∧ q = (u2 + radixRoot * u1 + radix * u0) / (v1 * radixRoot + v2) ∧
      u2' + radixRoot * u1' = (u2 + radixRoot * u1 + radix * u0) % (v1 * radixRoot + v2) := by
  have nonzero : 0 < v1 * radixRoot + v2 := by
    omega
  -- the loop ends with the quotient
  have adjusted : ∀ {guess comparand : Nat}, guess < radixRoot → comparand < 2 ^ 63 →
      comparand + guess * v1 * radixRoot = u2 + radixRoot * u1 + radix * u0 →
      (u2 + radixRoot * u1 + radix * u0) / (v1 * radixRoot + v2) ≤ guess →
      bddAdjust v1 v2 guess comparand = some ((u2 + radixRoot * u1 + radix * u0) / (v1 * radixRoot + v2)) ∧
        (u2 + radixRoot * u1 + radix * u0) / (v1 * radixRoot + v2) < radixRoot := by
    intro guess comparand small small_comparand left enough
    obtain ⟨g, ran, fits, large, below⟩ := bddAdjust_spec small_v1 small_v2 small small_comparand left enough
      fun g => (div_lt_iff_lt_mul nonzero).mpr
    have exact : g = (u2 + radixRoot * u1 + radix * u0) / (v1 * radixRoot + v2) :=
      ((le_div_iff_mul_le nonzero).mpr fits).antisymm large
    rw [← exact]
    exact ⟨ran, below⟩
  obtain ⟨guess, comparand, start, small, small_comparand, left, enough⟩ :
      ∃ guess comparand, bddStep v1 v2 u0 u1 u2 = (bddAdjust v1 v2 guess comparand >>=
          fun guess => digitDivideSubtract v1 v2 guess u0 u1 u2) ∧
        guess < radixRoot ∧ comparand < 2 ^ 63 ∧
        comparand + guess * v1 * radixRoot = u2 + radixRoot * u1 + radix * u0 ∧
        (u2 + radixRoot * u1 + radix * u0) / (v1 * radixRoot + v2) ≤ guess := by
    have order : u0 ≤ v1 := by
      rw [radixRoot_eq] at *
      omega
    by_cases same : u0 = v1
    · subst same
      have cons := hdCons_eq (u1 + u0) small_u2
      have range : (u1 + u0) * radixRoot + u2 < 2 ^ 63 := by
        rw [radixRoot_eq] at *
        omega
      refine ⟨radixRoot - 1, (u1 + u0) * radixRoot + u2, ?_, by decide, range, ?_, ?_⟩
      · simp [bddStep, cons, word_eq range]
      · obtain ⟨r, root⟩ : ∃ r, radixRoot = r + 1 := ⟨2147483647, rfl⟩
        rw [← radixRoot_mul_self, root, Nat.add_sub_cancel]
        ring
      · rw [Nat.le_sub_one_iff_lt (by decide), div_lt_iff_lt_mul nonzero]
        rw [radix_eq, radixRoot_eq] at *
        omega
    · have leading := hdCons_eq u0 small_u1
      have cons := hdCons_eq ((u0 * radixRoot + u1) % v1) small_u2
      have remainder : (u0 * radixRoot + u1) % v1 < v1 := mod_lt _ positive
      have range : u0 * radixRoot + u1 < 2 ^ 63 := by
        rw [radixRoot_eq] at *
        omega
      have range' : ∀ r < v1, r * radixRoot + u2 < 2 ^ 63 := by
        intro r below
        rw [radixRoot_eq] at small_v1 small_u2 ⊢
        omega
      refine ⟨(u0 * radixRoot + u1) / v1, (u0 * radixRoot + u1) % v1 * radixRoot + u2, ?_, ?_, range' _ remainder,
        ?_, ?_⟩
      · simp only [bddStep, if_pos same, leading, word_eq range, someBind, cons, word_eq (range' _ remainder)]
      · rw [div_lt_iff_lt_mul positive, mul_comm radixRoot]
        calc u0 * radixRoot + u1 < (u0 + 1) * radixRoot := by rw [succ_mul]; omega
          _ ≤ v1 * radixRoot := mul_le_mul_right _ (by omega)
      · have divided := div_add_mod (u0 * radixRoot + u1) v1
        rw [← radixRoot_mul_self]
        linear_combination radixRoot * divided
      · refine quotient_le_of_leading (p := radixRoot) ?_ (le_add_right _ _) positive
        rw [radix_eq, radixRoot_eq] at *
        omega
  obtain ⟨ran, below⟩ := adjusted small small_comparand left enough
  obtain ⟨u0', u1', u2', subtracted, small_u1', small_u2', remainder⟩ :=
    digitDivideSubtract_spec small_v1 small_v2 small_u1 small_u2 below nonzero rfl
  exact ⟨_, u0', u1', u2', by rw [start, ran, someBind, subtracted], below, small_u1', small_u2', rfl, remainder⟩

end

theorem digitDivide_spec {uh ul v : Nat} (less : uh < v) (small_ul : ul < radix) (small_v : v < radix)
    (large : radixRoot ≤ v) : digitDivide uh ul v = some ((uh * radix + ul) / v, (uh * radix + ul) % v) := by
  unfold digitDivide
  by_cases below : uh = 0 ∧ ul < v
  · obtain ⟨rfl, below⟩ := below
    rw [if_pos ⟨rfl, below⟩, zero_mul, zero_add, div_eq_of_lt below, mod_eq_of_lt below]
  by_cases equal : uh = 0 ∧ ul = v
  · obtain ⟨rfl, rfl⟩ := equal
    rw [if_neg below, if_pos ⟨rfl, rfl⟩, zero_mul, zero_add, Nat.div_self (pos_of_ne_zero (by omega)), mod_self]
  rw [if_neg below, if_neg equal]
  have split_v : v / radixRoot * radixRoot + v % radixRoot = v := div_add_mod' v radixRoot
  have split_uh : uh % radixRoot + radixRoot * (uh / radixRoot) = uh := mod_add_div uh radixRoot
  have split_ul : ul % radixRoot + radixRoot * (ul / radixRoot) = ul := mod_add_div ul radixRoot
  have positive : 0 < v / radixRoot := div_pos large (by decide)
  obtain ⟨q1, u0', u1, u2, first, small_q1, small_u1, small_u2, quotient1, remainder1⟩ :=
    bddStep_spec (hdHigh_lt small_v) (hdLow_lt v) positive (hdHigh_lt (less.trans small_v)) (hdLow_lt uh)
      (hdHigh_lt small_ul) (by rw [split_v, split_uh]; exact less)
  rw [split_v] at quotient1 remainder1
  have nonzero : 0 < v := by omega
  have left : u2 + radixRoot * u1 < v := remainder1 ▸ mod_lt _ nonzero
  obtain ⟨q2, u1', u2', u3, second, small_q2, small_u2', small_u3, quotient2, remainder2⟩ :=
    bddStep_spec (hdHigh_lt small_v) (hdLow_lt v) positive small_u1 small_u2 (hdLow_lt ul)
      (by rw [split_v]; exact left)
  rw [split_v] at quotient2 remainder2
  simp only [hdHigh_eq, hdLow_eq, first, second, someBind, hdCons_eq _ small_q2, hdCons_eq _ small_u3]
  have divided1 := div_add_mod (ul / radixRoot + radixRoot * (uh % radixRoot) + radix * (uh / radixRoot)) v
  have divided2 := div_add_mod (ul % radixRoot + radixRoot * u2 + radix * u1) v
  rw [← quotient1, ← remainder1] at divided1
  rw [← quotient2, ← remainder2] at divided2
  have total : uh * radix + ul = v * (q1 * radixRoot + q2) + (u3 + radixRoot * u2') := by
    rw [← radixRoot_mul_self] at divided1 divided2 ⊢
    generalize radixRoot = b at *
    rw [← split_ul]
    nth_rewrite 1 [← split_uh]
    linear_combination b * divided1.symm + divided2.symm
  have small : u3 + radixRoot * u2' < v := remainder2 ▸ mod_lt _ nonzero
  have quotient : (uh * radix + ul) / v = q1 * radixRoot + q2 := by
    rw [total, mul_add_div nonzero, div_eq_of_lt small, add_zero]
  have remainder : (uh * radix + ul) % v = u2' * radixRoot + u3 := by
    rw [total, mul_add_mod, mod_eq_of_lt small]
    ring
  rw [quotient, remainder]

def normalizeShift : Nat → Nat → Nat → Option (Nat × Nat)
  | 0, _, _ => none
  | fuel + 1, digit, shift =>
    if digit < radix / 2 then do
      let digit ← word (digit <<< 1)
      normalizeShift fuel digit (shift + 1)
    else some (digit, shift)

def normalizeDigits (shiftLeft : Nat) : List Nat → Nat → Option (List Nat × Nat)
  | [], carry => some ([], carry)
  | digit :: rest, carry => do
    let shiftRight := digitLength - shiftLeft
    let mask := 1 <<< shiftRight - 1
    let target ← word ((digit &&& mask) <<< shiftLeft ||| carry)
    let (rest, carry) ← normalizeDigits shiftLeft rest (digit >>> shiftRight)
    some (target :: rest, carry)

def destructiveNormalization (source : List Nat) (length shiftLeft : Nat) : Option (List Nat) := do
  let (digits, carry) ← normalizeDigits shiftLeft source 0
  if source.length < length then some (digits ++ [carry])
  else if carry = 0 then some digits
  else none

def unnormalizeDigits (shiftRight : Nat) : List Nat → Option (List Nat × Nat)
  | [] => some ([], 0)
  | digit :: rest => do
    let shiftLeft := digitLength - shiftRight
    let mask := 1 <<< shiftRight - 1
    let (rest, carry) ← unnormalizeDigits shiftRight rest
    let digit' ← word (digit >>> shiftRight ||| carry)
    let carry ← word ((digit &&& mask) <<< shiftLeft)
    some (digit' :: rest, carry)

def destructiveUnnormalization (digits : List Nat) (shiftRight : Nat) : Option (List Nat) := do
  let (digits, carry) ← unnormalizeDigits shiftRight digits
  if carry = 0 then some digits else none

theorem normalizeShift_spec {fuel digit : Nat} (shift : Nat) (small : digit < radix) (enough : radix ≤ digit * 2 ^ fuel) :
    ∃ s, normalizeShift fuel digit shift = some (digit * 2 ^ s, shift + s) ∧ s < fuel ∧ radix / 2 ≤ digit * 2 ^ s ∧
      digit * 2 ^ s < radix := by
  induction fuel generalizing digit shift with
  | zero =>
    omega
  | succ fuel ih =>
    by_cases less : digit < radix / 2
    · have doubled : digit <<< 1 = digit * 2 := shiftLeft_eq digit 1
      have below : digit * 2 < radix := by omega
      have range := word_eq (n := digit * 2) (by rw [radix_eq] at below; omega)
      obtain ⟨s, ran, few, large, small'⟩ := ih (shift + 1) below (by rw [pow_succ] at enough; linarith)
      have total : digit * 2 ^ (s + 1) = digit * 2 * 2 ^ s := by ring
      rw [← total] at large small' ran
      refine ⟨s + 1, ?_, succ_lt_succ few, large, small'⟩
      rw [normalizeShift, if_pos less, doubled, range, someBind, ran, add_assoc, add_comm 1]
    · exact ⟨0, by rw [normalizeShift, if_neg less, pow_zero, mul_one, add_zero], succ_pos fuel,
        by rw [pow_zero, mul_one]; exact not_lt.mp less, by rw [pow_zero, mul_one]; exact small⟩

theorem normalizeShift_digit {digit : Nat} (small : digit < radix) (positive : 0 < digit) :
    ∃ s, normalizeShift digitLength digit 0 = some (digit * 2 ^ s, s) ∧ s < digitLength ∧
      radix / 2 ≤ digit * 2 ^ s ∧ digit * 2 ^ s < radix := by
  have shifted := normalizeShift_spec 0 small (Nat.le_mul_of_pos_left radix positive)
  simpa [zero_add] using shifted

section
variable {shift : Nat}

theorem two_pow_mul_two_pow (short : shift ≤ digitLength) : 2 ^ shift * 2 ^ (digitLength - shift) = radix := by
  rw [← pow_add, Nat.add_sub_cancel' short, radix]

theorem and_mask (digit k : Nat) : digit &&& (1 <<< k - 1) = digit % 2 ^ k := by
  rw [one_shiftLeft, and_two_pow_sub_one_eq_mod]

section
variable (short : shift ≤ digitLength)
include short

theorem normalized_digit (digit : Nat) {carry : Nat} (small : carry < 2 ^ shift) :
    (digit &&& (1 <<< (digitLength - shift) - 1)) <<< shift ||| carry =
        digit % 2 ^ (digitLength - shift) * 2 ^ shift + carry ∧
      digit % 2 ^ (digitLength - shift) * 2 ^ shift + carry < radix ∧
      digit % 2 ^ (digitLength - shift) * 2 ^ shift + carry + radix * (digit / 2 ^ (digitLength - shift)) =
        2 ^ shift * digit + carry := by
  have weight := two_pow_mul_two_pow short
  have low : digit % 2 ^ (digitLength - shift) < 2 ^ (digitLength - shift) := mod_lt _ (by positivity)
  have split := div_add_mod digit (2 ^ (digitLength - shift))
  refine ⟨?_, ?_, ?_⟩
  · rw [and_mask, ← shiftLeft_add_eq_or_of_lt small, shiftLeft_eq]
  · calc digit % 2 ^ (digitLength - shift) * 2 ^ shift + carry
        < (digit % 2 ^ (digitLength - shift) + 1) * 2 ^ shift := by rw [succ_mul]; omega
      _ ≤ 2 ^ (digitLength - shift) * 2 ^ shift := mul_le_mul_right _ low
      _ = radix := by rw [mul_comm, weight]
  · rw [← weight]
    linear_combination 2 ^ shift * split

theorem normalizeDigits_spec {ds : List Nat} {carry : Nat} (digits : Digits radix ds) (small : carry < 2 ^ shift) :
    ∃ rs carry', normalizeDigits shift ds carry = some (rs, carry') ∧ Digits radix rs ∧ rs.length = ds.length ∧
    carry' < 2 ^ shift ∧ Nat.ofDigits radix rs + radix ^ ds.length * carry' =
    2 ^ shift * Nat.ofDigits radix ds + carry := by
  induction ds generalizing carry with
  | nil => exact ⟨[], carry, rfl, digits_nil, rfl, small, by simp⟩
  | cons digit ds ih =>
    rw [digits_cons] at digits
    obtain ⟨target, below, exact⟩ := normalized_digit short digit small
    have range := word_eq (below.trans (by decide : radix < 2 ^ 63))
    have small' : digit / 2 ^ (digitLength - shift) < 2 ^ shift := by
      rw [div_lt_iff_lt_mul (by positivity), two_pow_mul_two_pow short]
      exact digits.1
    obtain ⟨rs, carry', ran, digits', length, small'', value⟩ := ih digits.2 small'
    refine ⟨(digit % 2 ^ (digitLength - shift) * 2 ^ shift + carry) :: rs, carry', ?_, digits_cons.mpr ⟨below, digits'⟩,
      by rw [List.length_cons, length, List.length_cons], small'', ?_⟩
    · simp [normalizeDigits, target, range, shiftRight_eq_div_pow, ran]
    · rw [List.length_cons, ofDigits_cons, ofDigits_cons]
      generalize radix = b at exact value ⊢
      linear_combination b * value + exact

theorem destructiveNormalization_longer {ds : List Nat} (digits : Digits radix ds) : ∃ rs top,
    destructiveNormalization ds (ds.length + 1) shift = some (rs ++ [top]) ∧ Digits radix rs ∧ rs.length = ds.length ∧
    top < 2 ^ shift ∧ Nat.ofDigits radix (rs ++ [top]) = 2 ^ shift * Nat.ofDigits radix ds := by
  obtain ⟨rs, carry, ran, digits', length, small, value⟩ := normalizeDigits_spec short digits (by positivity)
  refine ⟨rs, carry, ?_, digits', length, small, ?_⟩
  · simp [destructiveNormalization, ran]
  · rw [ofDigits_append, ofDigits_singleton, length, value, add_zero]

theorem destructiveNormalization_equal {ds : List Nat} (digits : Digits radix ds)
    (room : 2 ^ shift * Nat.ofDigits radix ds < radix ^ ds.length) : ∃ rs, destructiveNormalization ds ds.length shift =
    some rs ∧ Digits radix rs ∧ rs.length = ds.length ∧ Nat.ofDigits radix rs = 2 ^ shift * Nat.ofDigits radix ds := by
  obtain ⟨rs, carry, ran, digits', length, -, value⟩ := normalizeDigits_spec short digits (by positivity)
  have settled : carry = 0 := by
    by_contra nonzero
    have large : radix ^ ds.length * 1 ≤ radix ^ ds.length * carry :=
      mul_le_mul_left _ (one_le_iff_ne_zero.mpr nonzero)
    omega
  subst settled
  refine ⟨rs, ?_, digits', length, ?_⟩
  · simp [destructiveNormalization, ran]
  · rwa [mul_zero] at value

theorem unnormalizeDigits_spec {ds : List Nat} (digits : Digits radix ds) : ∃ rs carry, unnormalizeDigits shift ds =
    some (rs, carry * 2 ^ (digitLength - shift)) ∧ Digits radix rs ∧ rs.length = ds.length ∧ carry < 2 ^ shift ∧
    2 ^ shift * Nat.ofDigits radix rs + carry = Nat.ofDigits radix ds := by
  have weight := two_pow_mul_two_pow short
  induction ds with
  | nil => exact ⟨[], 0, by rw [zero_mul]; rfl, digits_nil, rfl, by positivity, rfl⟩
  | cons digit ds ih =>
    rw [digits_cons] at digits
    obtain ⟨rs, carry, ran, digits', length, small, value⟩ := ih digits.2
    have high : digit / 2 ^ shift < 2 ^ (digitLength - shift) := by
      rw [div_lt_iff_lt_mul (by positivity), mul_comm, weight]
      exact digits.1
    have low : digit % 2 ^ shift < 2 ^ shift := mod_lt _ (by positivity)
    have split := div_add_mod digit (2 ^ shift)
    have joined : digit / 2 ^ shift ||| carry * 2 ^ (digitLength - shift) =
        carry * 2 ^ (digitLength - shift) + digit / 2 ^ shift := by
      rw [Nat.or_comm, ← shiftLeft_eq, ← shiftLeft_add_eq_or_of_lt high]
    have below : carry * 2 ^ (digitLength - shift) + digit / 2 ^ shift < radix := by
      calc carry * 2 ^ (digitLength - shift) + digit / 2 ^ shift
          < (carry + 1) * 2 ^ (digitLength - shift) := by rw [succ_mul]; omega
        _ ≤ 2 ^ shift * 2 ^ (digitLength - shift) := mul_le_mul_right _ small
        _ = radix := weight
    have below' : digit % 2 ^ shift * 2 ^ (digitLength - shift) < radix :=
      weight ▸ mul_lt_mul_of_pos_right low (by positivity)
    have range := word_eq (below.trans (by decide : radix < 2 ^ 63))
    have range' := word_eq (below'.trans (by decide : radix < 2 ^ 63))
    refine ⟨(carry * 2 ^ (digitLength - shift) + digit / 2 ^ shift) :: rs, digit % 2 ^ shift, ?_,
      digits_cons.mpr ⟨below, digits'⟩, by rw [List.length_cons, length, List.length_cons], low, ?_⟩
    · have moved : (digit &&& (1 <<< shift - 1)) <<< (digitLength - shift) =
          digit % 2 ^ shift * 2 ^ (digitLength - shift) := by rw [and_mask, shiftLeft_eq]
      simp [unnormalizeDigits, ran, shiftRight_eq_div_pow, joined, range, moved, range']
    · rw [ofDigits_cons, ofDigits_cons, ← value]
      have scaled : 2 ^ shift * (carry * 2 ^ (digitLength - shift)) = radix * carry := by
        rw [← weight]
        ring
      linear_combination scaled + split

theorem destructiveUnnormalization_spec {ds : List Nat} (digits : Digits radix ds) {n : Nat}
    (multiple : Nat.ofDigits radix ds = 2 ^ shift * n) : ∃ rs, destructiveUnnormalization ds shift = some rs ∧
    Digits radix rs ∧ rs.length = ds.length ∧ Nat.ofDigits radix rs = n := by
  obtain ⟨rs, carry, ran, digits', length, small, value⟩ := unnormalizeDigits_spec short digits
  rw [multiple] at value
  have settled : carry = 0 := by
    have remainder := congrArg (· % 2 ^ shift) value
    simpa [mul_add_mod, mod_eq_of_lt small] using remainder
  subst settled
  rw [zero_mul] at ran
  refine ⟨rs, ?_, digits', length, Nat.eq_of_mul_eq_mul_left (by positivity : 0 < 2 ^ shift) value⟩
  simp [destructiveUnnormalization, ran]

end

end

end MitScheme.Microcode.Bignum
