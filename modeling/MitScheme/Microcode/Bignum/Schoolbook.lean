import MitScheme.Microcode.Bignum.DigitDivide

namespace MitScheme.Microcode.Bignum

open Library List
open Nat (mod_lt mul_le_mul_right ofDigits ofDigits_append ofDigits_cons sub_self succ_mul zero_le)

def adjustGuess (v1 v2 cl : Nat) : Nat → Nat → Option Nat
  | 0, _ => some 0
  | guess + 1, ch => do
    let (pl, ph) ← multiplyHalves 0 v2 (guess + 1) 0
    if ch > ph ∨ ch = ph ∧ cl ≥ pl then some (guess + 1)
    else
      let ch ← word (ch + v1)
      if ch ≥ radix then some guess else adjustGuess v1 v2 cl guess ch

def guessDigit (v1 v2 uj uj1 uj2 : Nat) : Option Nat :=
  if uj ≠ v1 then do
    let (guess, ch) ← digitDivide uj uj1 v1
    adjustGuess v1 v2 uj2 guess ch
  else do
    let ch ← word (uj1 + v1)
    adjustGuess v1 v2 uj2 (radix - 1) ch

def multiplySubtract (guess : Nat) : List Nat → List Nat → Nat → Option (List Nat × Nat)
  | v :: vs, u :: us, carry => do
    let (product, carry) ← multiplyHalves 0 v guess carry
    let diff ← difference ((u : Int) - product)
    if diff < 0 then
      let digit ← wordOfInt (diff + radix)
      let carry ← word (carry + 1)
      let (rest, carry) ← multiplySubtract guess vs us carry
      some (digit :: rest, carry)
    else
      let (rest, carry) ← multiplySubtract guess vs us carry
      some (diff.toNat :: rest, carry)
  | _, _, carry => some ([], carry)

/-- The quotient digit, the digits of the window below the top, and the top. -/
def divideSubtract (v : List Nat) (guess : Nat) (low : List Nat) (top : Nat) : Option (Nat × List Nat × Nat) :=
  if guess = 0 then some (0, low, top)
  else do
    let (low, carry) ← multiplySubtract guess v low 0
    if carry = 0 then some (guess, low, top)
    else
      let diff ← difference ((top : Int) - carry)
      if diff < 0 then
        let top ← wordOfInt (diff + radix)
        -- the guess was one too large: `v` is added back
        let (low, carry) ← addDigits v low 0
        if carry = 1 then
          let sum ← word (top + carry)
          some (guess - 1, low, if sum < radix then sum else sum - radix)
        else some (guess - 1, low, top)
      else some (guess, low, diff.toNat)

/-- The digits of the numerator that are left, and the quotient digits so far. -/
structure Division where
  u : List Nat
  q : List Nat

/-- The guess that the loop passes to `bignum_divide_subtract` for the window at `start`. -/
def windowGuess (v u : List Nat) (start : Nat) : Option Nat := do
  let v1 ← v[v.length - 1]?
  let v2 ← v[v.length - 2]?
  let uj ← u[start + v.length]?
  let uj1 ← u[start + v.length - 1]?
  let uj2 ← u[start + v.length - 2]?
  guessDigit v1 v2 uj uj1 uj2

/-- One pass of the loop, for the window at `start`. -/
def divideStep (v : List Nat) (state : Division) (start : Nat) : Option Division := do
  let guess ← windowGuess v state.u start
  let uj ← state.u[start + v.length]?
  let (qj, low, top) ← divideSubtract v guess ((state.u.drop start).take v.length) uj
  some {
    u := state.u.take start ++ low ++ top :: state.u.drop (start + v.length + 1)
    q := qj :: state.q }

def divideRun (v u : List Nat) : Nat → Option Division
  | 0 => some { u, q := [] }
  | passes + 1 => do
    let state ← divideRun v u passes
    divideStep v state (u.length - v.length - (passes + 1))

def divideNormalized (u v : List Nat) : Option Division := divideRun v u (u.length - v.length)

section
variable {v1 v2 cl : Nat}

/-- The loop stops at a guess whose product fits, and does not pass a quotient that every guess
too large for its product exceeds. -/
theorem adjustGuess_spec (small_v1 : v1 < radix) (small_v2 : v2 < radix) (small_cl : cl < radix)
    {top quotient guess ch : Nat} (small : guess < radix) (small_ch : ch < 2 ^ 63)
    (left : ch * radix + cl + guess * v1 * radix = top) (enough : quotient ≤ guess)
    (lower : ∀ g, top < g * (v1 * radix + v2) → quotient < g) :
    ∃ g, adjustGuess v1 v2 cl guess ch = some g ∧ g * (v1 * radix + v2) ≤ top ∧ quotient ≤ g ∧ g < radix := by
  induction guess generalizing ch with
  | zero => exact ⟨0, rfl, by rw [zero_mul]; exact zero_le _, enough, small⟩
  | succ guess ih =>
    obtain ⟨pl, ph, product, small_pl, small_ph, value⟩ :=
      multiplyHalves_spec (by decide : 0 < radix) small_v2 small (by decide : 0 < radix)
    have total : (guess + 1) * (v1 * radix + v2) = (guess + 1) * v1 * radix + v2 * (guess + 1) := by ring
    by_cases fits : ch > ph ∨ ch = ph ∧ cl ≥ pl
    · refine ⟨guess + 1, by simp [adjustGuess, product, if_pos fits], ?_, enough, small⟩
      rw [radix_eq] at *
      omega
    · have word_next := word_eq (n := ch + v1) (by rw [radix_eq] at *; omega)
      have exceeds : top < (guess + 1) * (v1 * radix + v2) := by
        rw [radix_eq] at *
        omega
      have below := lower _ exceeds
      have left' : (ch + v1) * radix + cl + guess * v1 * radix = top := by
        rw [← left]
        ring
      by_cases done : ch + v1 ≥ radix
      · refine ⟨guess, by simp [adjustGuess, product, if_neg fits, word_next, if_pos done],
          ?_, Nat.lt_succ_iff.mp below, Nat.lt_of_succ_lt small⟩
        have bound := mul_lt_mul'' small_v2 (Nat.lt_of_succ_lt small)
        have enough' : radix * radix ≤ (ch + v1) * radix := mul_le_mul_right _ done
        have total' : guess * (v1 * radix + v2) = guess * v1 * radix + v2 * guess := by ring
        omega
      · obtain ⟨g, ran, rest⟩ := ih (Nat.lt_of_succ_lt small) (by rw [radix_eq] at done; omega) left'
          (Nat.lt_succ_iff.mp below)
        exact ⟨g, by simp [adjustGuess, product, if_neg fits, word_next, if_neg done, ran], rest⟩

/-- The guess from the leading digits is the quotient digit or one more. The digits that it leaves
out weigh less than `p`. -/
theorem guessDigit_spec (small_v1 : v1 < radix) (large : radixRoot ≤ v1) (small_v2 : v2 < radix) {uj uj1 uj2 : Nat}
    (small_uj1 : uj1 < radix) (small_uj2 : uj2 < radix) (less : uj * radix + uj1 < v1 * radix + v2 + 1) {u v p : Nat}
    (low_u : ((uj * radix + uj1) * radix + uj2) * p ≤ u) (high_u : u < ((uj * radix + uj1) * radix + uj2 + 1) * p)
    (low_v : (v1 * radix + v2) * p ≤ v) (high_v : v < (v1 * radix + v2 + 1) * p) (below : u / v < radix) : ∃ guess,
    guessDigit v1 v2 uj uj1 uj2 = some guess ∧ u / v ≤ guess ∧ guess ≤ u / v + 1 ∧ guess < radix := by
  have positive : 0 < v1 := lt_of_lt_of_le (by decide) large
  have lead : radix ≤ v1 * radix + v2 := (Nat.le_mul_of_pos_left radix positive).trans (Nat.le_add_right _ _)
  have nonzero : 0 < v1 * radix + v2 := lt_of_lt_of_le (by decide) lead
  have weight : 0 < p := by
    refine pos_of_ne_zero ?_
    rintro rfl
    exact Nat.not_lt_zero _ high_v
  have positive_v : 0 < v := (mul_pos nonzero weight).trans_le low_v
  have adjusted (guess ch : Nat) (small : guess < radix) (small_ch : ch < 2 ^ 63)
      (left : ch * radix + uj2 + guess * v1 * radix = (uj * radix + uj1) * radix + uj2) (enough : u / v ≤ guess) :
      ∃ g, adjustGuess v1 v2 uj2 guess ch = some g ∧ u / v ≤ g ∧ g ≤ u / v + 1 ∧ g < radix := by
    obtain ⟨g, ran, fits, enough', small'⟩ := adjustGuess_spec small_v1 small_v2 small_uj2 small small_ch left enough
      fun g => quotient_lt_of_exceeds high_u low_v nonzero
    exact ⟨g, ran, enough', guess_le_of_fits low_u high_v low_v positive_v fits (small'.le.trans lead), small'⟩
  have order : uj ≤ v1 := by
    rw [radix_eq] at *
    omega
  by_cases same : uj = v1
  · subst same
    have range : uj1 + uj < 2 ^ 63 := by
      rw [radix_eq] at *
      omega
    obtain ⟨guess, ran, rest⟩ := adjusted (radix - 1) (uj1 + uj) (by decide) range
      (by
        obtain ⟨r, root⟩ : ∃ r, radix = r + 1 := ⟨4611686018427387903, rfl⟩
        rw [root, Nat.add_sub_cancel]
        ring)
      (by omega)
    exact ⟨guess, by simp [guessDigit, word_eq range, someBind, ran], rest⟩
  · have divided := digitDivide_spec (lt_of_le_of_ne order same) small_uj1 small_v1 large
    have remainder : (uj * radix + uj1) % v1 < v1 := mod_lt _ positive
    have split := Nat.div_add_mod (uj * radix + uj1) v1
    have enough : u / v ≤ (uj * radix + uj1) / v1 := by
      refine quotient_le_of_leading (p := radix * p) ?_ ?_ positive
      · calc u < ((uj * radix + uj1) * radix + uj2 + 1) * p := high_u
          _ ≤ ((uj * radix + uj1) * radix + radix) * p := mul_le_mul_right _ (by omega)
          _ = (uj * radix + uj1 + 1) * (radix * p) := by ring
      · calc v1 * (radix * p) = v1 * radix * p := (mul_assoc _ _ _).symm
          _ ≤ (v1 * radix + v2) * p := mul_le_mul_right _ (Nat.le_add_right _ _)
          _ ≤ v := low_v
    obtain ⟨guess, ran, rest⟩ := adjusted ((uj * radix + uj1) / v1) ((uj * radix + uj1) % v1)
      (by
        rw [Nat.div_lt_iff_lt_mul positive, mul_comm radix]
        calc uj * radix + uj1 < (uj + 1) * radix := by rw [succ_mul]; omega
          _ ≤ v1 * radix := mul_le_mul_right _ (by omega))
      (remainder.trans (small_v1.trans (by decide)))
      (by linear_combination radix * split)
      enough
    exact ⟨guess, by simp [guessDigit, if_pos same, divided, someBind, ran], rest⟩

end

theorem multiplySubtract_spec {guess : Nat} (small : guess < radix) {vs us : List Nat} {carry : Nat}
    (digits_v : Digits radix vs) (digits_u : Digits radix us) (same : us.length = vs.length)
    (small_carry : carry < radix) : ∃ rs carry', multiplySubtract guess vs us carry = some (rs, carry') ∧
    Digits radix rs ∧ rs.length = vs.length ∧ carry' < radix ∧ ofDigits radix us + radix ^ vs.length * carry' =
    ofDigits radix rs + guess * ofDigits radix vs + carry := by
  induction vs generalizing us carry with
  | nil =>
    rw [eq_nil_of_length_eq_zero same]
    exact ⟨[], carry, rfl, digits_nil, rfl, small_carry, by simp⟩
  | cons v vs ih =>
    cases us with
    | nil => cases same
    | cons u us =>
      rw [digits_cons] at digits_v digits_u
      have lengths : us.length = vs.length := Nat.succ.inj same
      obtain ⟨product, next, halves, small_product, small_next, value⟩ :=
        multiplyHalves_spec (by decide : 0 < radix) digits_v.1 small small_carry
      obtain ⟨tested, below, above⟩ := difference_digit digits_u.1 small_product (zero_le 1)
      simp only [Nat.cast_zero, sub_zero] at tested below above
      by_cases negative : (u : Int) - product < 0
      · obtain ⟨stored, small_digit, digit⟩ := below negative
        -- a digit was left to borrow, so the carry has room
        have room : next + 1 < radix := by
          have bound := digits_mul_le digits_v.1 small
          rw [radix_eq] at *
          omega
        have borrowed := word_eq (room.trans (by decide : radix < 2 ^ 63))
        obtain ⟨rs, carry', rest, digits, length, small_carry', total⟩ := ih digits_v.2 digits_u.2 lengths room
        refine ⟨((u : Int) - product + radix).toNat :: rs, carry',
          by simp only [multiplySubtract, halves, someBind, tested, if_pos negative, stored, borrowed, rest],
          digits_cons.mpr ⟨small_digit, digits⟩, by simp [length], small_carry', ?_⟩
        rw [length_cons, ofDigits_cons, ofDigits_cons, ofDigits_cons]
        linear_combination radix * total + value + digit.symm
      · obtain ⟨small_digit, digit⟩ := above negative
        obtain ⟨rs, carry', rest, digits, length, small_carry', total⟩ := ih digits_v.2 digits_u.2 lengths small_next
        refine ⟨((u : Int) - product).toNat :: rs, carry', by simp only [multiplySubtract, halves, someBind, tested,
          if_neg negative, rest], digits_cons.mpr ⟨small_digit, digits⟩, by simp [length], small_carry', ?_⟩
        rw [length_cons, ofDigits_cons, ofDigits_cons, ofDigits_cons]
        linear_combination radix * total + value + digit.symm

theorem divideSubtract_back {v low rest : List Nat} {guess top remainder : Nat} (some_guess : guess ≠ 0)
    (subtracted : multiplySubtract guess v low 0 = some (rest, top + 1)) (digits_v : Digits radix v)
    (digits : Digits radix rest) (length : rest.length = v.length)
    (back : ofDigits radix rest + ofDigits radix v = remainder + radix ^ v.length) :
    ∃ low', divideSubtract v guess low top = some (guess - 1, low', 0) ∧ Digits radix low' ∧
      low'.length = v.length ∧ ofDigits radix low' = remainder := by
  obtain ⟨low', carry, added, digits', length', bit, value⟩ :=
    addDigits_spec digits_v digits (length.le) (zero_le 1)
  rw [length, take_length, add_comm (ofDigits radix v)] at value
  have small_low : ofDigits radix low' < radix ^ v.length := by
    rw [← length, ← length']
    exact Nat.ofDigits_lt_base_pow_length one_lt_radix digits'
  have carried : carry = 1 := by
    refine bit.antisymm (Nat.one_le_iff_ne_zero.mpr ?_)
    rintro rfl
    omega
  subst carried
  have below : (top : Int) - (top + 1 : Nat) = -1 := by omega
  have tested : difference (-1) = some (-1) := difference_eq (by norm_num)
  have borrowed : (-1 + (radix : Int)).toNat = radix - 1 := by rfl
  have stored := wordOfInt_eq (n := -1 + (radix : Int)) (by rw [radix_eq]; norm_num)
  rw [borrowed] at stored
  have around : radix - 1 + 1 = radix := Nat.sub_add_cancel (by decide)
  have sum := word_eq (by decide : radix < 2 ^ 63)
  refine ⟨low', ?_, digits', length'.trans length, by omega⟩
  simp only [divideSubtract, if_neg some_guess, subtracted, someBind, if_neg (Nat.succ_ne_zero top), below, tested,
    if_pos (by decide : (-1 : Int) < 0), stored, added, if_pos, around, sum, if_neg (lt_irrefl radix), sub_self]

theorem divideSubtract_spec {v low : List Nat} {guess top w : Nat} (digits_v : Digits radix v)
    (digits_low : Digits radix low) (same : low.length = v.length) (small_top : top < radix) (small : guess < radix)
    (positive : 0 < ofDigits radix v) (window : ofDigits radix low + radix ^ v.length * top = w)
    (enough : w / ofDigits radix v ≤ guess) (close : guess ≤ w / ofDigits radix v + 1) :
    ∃ low', divideSubtract v guess low top = some (w / ofDigits radix v, low', 0) ∧
      Digits radix low' ∧ low'.length = v.length ∧ ofDigits radix low' = w % ofDigits radix v := by
  have small_v := Nat.ofDigits_lt_base_pow_length one_lt_radix digits_v
  by_cases none : guess = 0
  · subst none
    have less : w < ofDigits radix v := by
      by_contra large
      have one := Nat.div_pos (not_lt.mp large) positive
      omega
    have quotient : w / ofDigits radix v = 0 := Nat.div_eq_of_lt less
    have empty : top = 0 := by
      by_contra nonzero
      have large : radix ^ v.length * 1 ≤ radix ^ v.length * top :=
        Nat.mul_le_mul_left _ (Nat.one_le_iff_ne_zero.mpr nonzero)
      omega
    subst empty
    refine ⟨low, by rw [divideSubtract, if_pos rfl, quotient], digits_low, same, ?_⟩
    rw [Nat.mod_eq_of_lt less, ← window, mul_zero, add_zero]
  obtain ⟨rest, carry, subtracted, digits, length, small_carry, value⟩ :=
    multiplySubtract_spec small digits_v digits_low same (by decide : 0 < radix)
  by_cases fits : carry ≤ top
  · rw [← window] at enough ⊢
    obtain ⟨exact, remainder, rfl⟩ := subtract_fits value small_v.le positive enough fits
    rw [← exact]
    by_cases nothing : top = 0
    · subst nothing
      exact ⟨rest, by simp only [divideSubtract, if_neg none, subtracted, someBind, if_pos], digits, length, remainder⟩
    · have zero : (top : Int) - top = 0 := sub_self _
      have tested : difference 0 = some 0 := difference_eq (by norm_num)
      exact ⟨rest, by simp only [divideSubtract, if_neg none, subtracted, someBind, if_neg nothing, zero, tested,
        if_neg (Int.lt_irrefl 0), Int.toNat_zero], digits, length, remainder⟩
  · have small_rest : ofDigits radix rest < radix ^ v.length :=
      length ▸ Nat.ofDigits_lt_base_pow_length one_lt_radix digits
    rw [← window] at close ⊢
    obtain ⟨exact, back, excess⟩ :=
      subtract_exceeds value small_v.le positive small_rest close (not_le.mp fits)
    subst excess
    obtain ⟨low', ran, rest'⟩ := divideSubtract_back none subtracted digits_v digits length back
    exact ⟨low', by rw [ran, exact, Nat.add_sub_cancel], rest'⟩

/-- A denominator of at least two digits, of which the leading one is normalized. -/
structure Denominator (v : List Nat) : Prop where
  digits : Digits radix v
  length : 1 < v.length
  large : ∀ v1, v.getLast? = some v1 → radix / 2 ≤ v1

theorem Denominator.split {v : List Nat} (denominator : Denominator v) :
    ∃ vs v2 v1, v = vs ++ [v2, v1] ∧ v1 < radix ∧ radixRoot ≤ v1 ∧ v2 < radix := by
  obtain ⟨init, v1, rfl⟩ := eq_nil_or_concat v |>.resolve_left (by
    rintro rfl
    exact absurd denominator.length (by decide))
  have length := denominator.length
  rw [concat_eq_append, length_append, length_singleton] at length
  obtain ⟨vs, v2, rfl⟩ := eq_nil_or_concat init |>.resolve_left (by
    rintro rfl
    exact absurd length (by decide))
  refine ⟨vs, v2, v1, by simp, denominator.digits v1 (by simp), ?_, denominator.digits v2 (by simp)⟩
  have large := denominator.large v1 (by simp)
  exact le_trans (by decide) large

theorem Denominator.positive {v : List Nat} (denominator : Denominator v) : 0 < ofDigits radix v := by
  obtain ⟨vs, v2, v1, rfl, -, large, -⟩ := denominator.split
  have nonzero : 0 < v1 := lt_of_lt_of_le (by decide) large
  have weight : 0 < radix ^ vs.length := Nat.pow_pos (by decide)
  rw [ofDigits_append, ofDigits_cons]
  have leading : 0 < v2 + radix * v1 := Nat.add_pos_right _ (mul_pos (by decide) nonzero)
  exact Nat.add_pos_right _ (mul_pos weight leading)

section
variable {v low q : List Nat} {top w : Nat} (before after : List Nat) (denominator : Denominator v)
  (digits : Digits radix low) (length : low.length = v.length) (window : ofDigits radix low + radix ^ v.length * top = w)
  (small : w < radix * ofDigits radix v)
include denominator digits length window small

theorem windowGuess_spec :
    ∃ guess, windowGuess v (before ++ low ++ top :: after) before.length = some guess ∧ guess < radix ∧
      w / ofDigits radix v ≤ guess ∧ guess ≤ w / ofDigits radix v + 1 := by
  subst window
  have positive := denominator.positive
  obtain ⟨vs, v2, v1, rfl, small_v1, large, small_v2⟩ := denominator.split
  obtain ⟨ls, uj2, uj1, rfl, same⟩ : ∃ ls uj2 uj1, low = ls ++ [uj2, uj1] ∧ ls.length = vs.length := by
    have two : (low.drop vs.length).length = 2 := by
      rw [length_drop, length]
      simp
    obtain ⟨uj2, uj1, last⟩ := length_eq_two.mp two
    refine ⟨low.take vs.length, uj2, uj1, by rw [← last, take_append_drop], ?_⟩
    rw [length_take, length]
    simp
  have small_uj1 : uj1 < radix := digits uj1 (by simp)
  have small_uj2 : uj2 < radix := digits uj2 (by simp)
  have value_v : ofDigits radix (vs ++ [v2, v1]) =
      ofDigits radix vs + (v1 * radix + v2) * radix ^ vs.length := by
    rw [ofDigits_append, ofDigits_cons, Nat.ofDigits_singleton]
    ring
  have value_u : ofDigits radix (ls ++ [uj2, uj1]) + radix ^ (vs ++ [v2, v1]).length * top =
      ofDigits radix ls + ((top * radix + uj1) * radix + uj2) * radix ^ vs.length := by
    rw [ofDigits_append, ofDigits_cons, Nat.ofDigits_singleton, length_append, pow_add, same]
    change _ + _ * radix ^ 2 * top = _
    ring
  have rest_v := Nat.ofDigits_lt_base_pow_length one_lt_radix fun d member =>
    denominator.digits d (mem_append_left _ member)
  have rest_u := Nat.ofDigits_lt_base_pow_length one_lt_radix fun d member => digits d (mem_append_left _ member)
  rw [same] at rest_u
  have less : top * radix + uj1 < v1 * radix + v2 + 1 := by
    rw [value_u, value_v] at small
    refine Nat.lt_of_mul_lt_mul_right (a := radix * radix ^ vs.length) ?_
    calc (top * radix + uj1) * (radix * radix ^ vs.length)
        = (top * radix + uj1) * radix * radix ^ vs.length := (mul_assoc _ _ _).symm
      _ ≤ ((top * radix + uj1) * radix + uj2) * radix ^ vs.length := mul_le_mul_right _ (Nat.le_add_right _ _)
      _ < radix * (ofDigits radix vs + (v1 * radix + v2) * radix ^ vs.length) :=
          (Nat.le_add_left _ _).trans_lt small
      _ ≤ radix * (radix ^ vs.length + (v1 * radix + v2) * radix ^ vs.length) :=
          Nat.mul_le_mul_left _ (Nat.add_le_add_right rest_v.le _)
      _ = (v1 * radix + v2 + 1) * (radix * radix ^ vs.length) := by ring
  have below : (ofDigits radix (ls ++ [uj2, uj1]) + radix ^ (vs ++ [v2, v1]).length * top) /
      ofDigits radix (vs ++ [v2, v1]) < radix := (Nat.div_lt_iff_lt_mul positive).mpr small
  obtain ⟨guess, ran, enough, close, small_guess⟩ := guessDigit_spec small_v1 large small_v2 small_uj1 small_uj2 less
    (p := radix ^ vs.length) (by rw [value_u]; exact Nat.le_add_left _ _)
    (by rw [succ_mul]; omega) (by rw [value_v]; exact Nat.le_add_left _ _)
    (by rw [succ_mul]; omega) below
  refine ⟨guess, ?_, small_guess, enough, close⟩
  have read_uj2 : (before ++ (ls ++ [uj2, uj1]) ++ top :: after)[before.length + (vs ++ [v2, v1]).length - 2]? =
      some uj2 := by
    have place : before.length + (vs ++ [v2, v1]).length - 2 = (before ++ ls).length := by
      simp only [length_append, length_cons, length_nil, same]
      omega
    rw [place, ← append_assoc]
    simp
  have read_uj1 : (before ++ (ls ++ [uj2, uj1]) ++ top :: after)[before.length + (vs ++ [v2, v1]).length - 1]? =
      some uj1 := by simp [← same]
  have read_uj : (before ++ (ls ++ [uj2, uj1]) ++ top :: after)[before.length + (vs ++ [v2, v1]).length]? =
      some top := by simp [← same]
  have read_v1 : (vs ++ [v2, v1])[(vs ++ [v2, v1]).length - 1]? = some v1 := by simp
  have read_v2 : (vs ++ [v2, v1])[(vs ++ [v2, v1]).length - 2]? = some v2 := by simp
  simp only [windowGuess, read_v1, read_v2, read_uj, read_uj1, read_uj2, someBind, ran]

theorem divideStep_spec (small_top : top < radix) :
    ∃ low', divideStep v { u := before ++ low ++ top :: after, q } before.length = some {
          u := before ++ low' ++ 0 :: after
          q := w / ofDigits radix v :: q } ∧
      Digits radix low' ∧ low'.length = v.length ∧ ofDigits radix low' = w % ofDigits radix v := by
  obtain ⟨guess, guessed, small_guess, enough, close⟩ :=
    windowGuess_spec before after denominator digits length window small
  obtain ⟨low', subtracted, digits', length', remainder⟩ := divideSubtract_spec denominator.digits digits length
    small_top small_guess denominator.positive window enough close
  refine ⟨low', ?_, digits', length', remainder⟩
  have read : (before ++ low ++ top :: after)[before.length + v.length]? = some top := by simp [← length]
  have window : ((before ++ low ++ top :: after).drop before.length).take v.length = low := by simp [← length]
  have above : (before ++ low ++ top :: after).drop (before.length + v.length + 1) = after := by
    rw [← length, ← length_append, drop_length_add_append, drop_one, tail_cons]
  have below : (before ++ low ++ top :: after).take before.length = before := by simp
  simp only [divideStep, guessed, someBind, read, window, subtracted, above, below]

end

section
variable {v u : List Nat}

/-- The digits left at the top are less than the denominator, and with the quotient digits they make the numerator. -/
structure Division.Divides (v u : List Nat) (passes : Nat) (state : Division) : Prop where
  length : state.u.length = u.length
  digits : Digits radix state.u
  length_q : state.q.length = passes
  digits_q : Digits radix state.q
  below : ofDigits radix (state.u.drop (u.length - v.length - passes)) < ofDigits radix v
  value : ofDigits radix state.u +
    radix ^ (u.length - v.length - passes) * ofDigits radix v * ofDigits radix state.q = ofDigits radix u

variable {state : Division} {passes : Nat}

section
variable (denominator : Denominator v)
include denominator

theorem Division.Divides.window (divides : state.Divides v u passes)
    (more : passes < u.length - v.length) : ∃ before low top after, state.u = before ++ low ++ top :: after ∧
    before.length = u.length - v.length - (passes + 1) ∧ low.length = v.length ∧ ofDigits radix after = 0 ∧
    ofDigits radix low + radix ^ v.length * top < radix * ofDigits radix v := by
  obtain ⟨start, start_eq⟩ : ∃ start, u.length - v.length - (passes + 1) = start := ⟨_, rfl⟩
  have next : u.length - v.length - passes = start + 1 := by omega
  have inside : start + v.length < state.u.length := by
    rw [divides.length]
    omega
  have split : state.u = state.u.take start ++ (state.u.drop start).take v.length ++
      state.u[start + v.length] :: state.u.drop (start + v.length + 1) := by
    rw [← drop_eq_getElem_cons inside, ← drop_drop, append_assoc, take_append_drop, take_append_drop]
  have length_before : (state.u.take start).length = start := by
    rw [length_take]
    omega
  have length_low : ((state.u.drop start).take v.length).length = v.length := by
    rw [length_take, length_drop]
    omega
  have below := divides.below
  rw [start_eq]
  rw [next] at below
  generalize state.u.take start = before at split length_before
  generalize (state.u.drop start).take v.length = low at split length_low
  generalize state.u[start + v.length] = top at split
  generalize state.u.drop (start + v.length + 1) = after at split
  refine ⟨before, low, top, after, split, length_before, length_low, ?_⟩
  -- the digits from the window on are less than the denominator and one more digit
  have digits := divides.digits
  rw [split] at digits
  have total : ofDigits radix (low ++ top :: after) < radix * ofDigits radix v := by
    rw [split, append_assoc, ← length_before, drop_length_add_append] at below
    cases low with
    | nil => exact absurd (length_low ▸ denominator.length) (by decide)
    | cons l low =>
      have small : l < radix := digits l (by simp)
      generalize radix = b at below small ⊢
      calc l + b * ofDigits b (low ++ top :: after) < b * (ofDigits b (low ++ top :: after) + 1) := by
            rw [Nat.mul_succ]
            omega
        _ ≤ b * ofDigits b v := Nat.mul_le_mul_left _ below
  have room : radix * ofDigits radix v < radix ^ (v.length + 1) := by
    rw [pow_succ, mul_comm (radix ^ v.length)]
    exact mul_lt_mul_of_pos_left (Nat.ofDigits_lt_base_pow_length one_lt_radix denominator.digits) (by decide)
  have zero : ofDigits radix after = 0 := by
    have above := ofDigits_drop_eq_zero (k := v.length + 1) (low ++ top :: after)
      (by rw [length_append, length_cons]; omega) (total.trans room)
    rwa [← length_low, drop_length_add_append, drop_one] at above
  refine ⟨zero, ?_⟩
  rwa [ofDigits_append, ofDigits_cons, zero, mul_zero, length_low] at total

theorem Division.Divides.step (divides : state.Divides v u passes) (more : passes < u.length - v.length) :
    ∃ next, divideStep v state (u.length - v.length - (passes + 1)) = some next ∧ next.Divides v u (passes + 1) := by
  obtain ⟨before, low, top, after, split, start, length, zero, small⟩ := divides.window denominator more
  have digits := divides.digits
  rw [split] at digits
  have digits_before : Digits radix before := fun d member => digits d (by simp [member])
  have digits_low : Digits radix low := fun d member => digits d (by simp [member])
  have digits_after : Digits radix after := fun d member => digits d (by simp [member])
  have small_top : top < radix := digits top (by simp)
  obtain ⟨low', ran, digits', length', remainder⟩ := divideStep_spec before after (q := state.q)
    denominator digits_low length rfl small small_top
  have whole := divides.value
  have weight : u.length - v.length - passes = before.length + 1 := by omega
  rw [split, append_assoc, ofDigits_append, ofDigits_append, ofDigits_cons, zero, length, weight] at whole
  have divided := Nat.div_add_mod (ofDigits radix low + radix ^ v.length * top) (ofDigits radix v)
  have next_u : ofDigits radix (before ++ low' ++ 0 :: after) =
      ofDigits radix before + radix ^ before.length * ofDigits radix low' := by
    rw [ofDigits_append, ofDigits_append, ofDigits_cons, zero]
    ring
  refine ⟨_, by rw [← start, show state = { u := before ++ low ++ top :: after, q := state.q } by rw [← split], ran],
    ?_, ?_, ?_, ?_, ?_, ?_⟩
  · rw [← divides.length, split]
    simp [length, length']
  · exact (digits_before.append digits').append (digits_cons.mpr ⟨by decide, digits_after⟩)
  · rw [length_cons, divides.length_q]
  · exact digits_cons.mpr ⟨(Nat.div_lt_iff_lt_mul denominator.positive).mpr small, divides.digits_q⟩
  · rw [← start, append_assoc, drop_left, ofDigits_append, ofDigits_cons, zero, mul_zero, remainder]
    exact mod_lt _ denominator.positive
  · rw [next_u, ← start, ofDigits_cons, remainder, ← whole]
    generalize radix = b at divided ⊢
    linear_combination b ^ before.length * divided

theorem divideRun_spec (digits : Digits radix u)
    (below : ofDigits radix (u.drop (u.length - v.length)) < ofDigits radix v)
    (few : passes ≤ u.length - v.length) : ∃ state, divideRun v u passes = some state ∧ state.Divides v u passes := by
  induction passes with
  | zero => exact ⟨_, rfl, rfl, digits, rfl, digits_nil, below, by rw [Nat.ofDigits_nil, mul_zero, add_zero]⟩
  | succ passes ih =>
    obtain ⟨state, ran, divides⟩ := ih (Nat.le_of_succ_le few)
    obtain ⟨next, step, divides'⟩ := divides.step denominator few
    exact ⟨next, by rw [divideRun, ran, someBind, step], divides'⟩

theorem divideNormalized_spec (digits : Digits radix u)
    (below : ofDigits radix (u.drop (u.length - v.length)) < ofDigits radix v) : ∃ state, divideNormalized u v =
    some state ∧ Digits radix state.u ∧ state.u.length = u.length ∧ Digits radix state.q ∧ state.q.length =
    u.length - v.length ∧ ofDigits radix state.q = ofDigits radix u / ofDigits radix v ∧
    ofDigits radix state.u = ofDigits radix u % ofDigits radix v := by
  obtain ⟨state, ran, divides⟩ := divideRun_spec denominator digits below (le_refl _)
  have left := divides.below
  have whole := divides.value
  rw [sub_self, drop_zero] at left
  rw [sub_self, pow_zero, one_mul] at whole
  refine ⟨state, ran, divides.digits, divides.length, divides.digits_q, divides.length_q, ?_, ?_⟩
  · rw [← whole, Nat.add_mul_div_left _ _ denominator.positive, Nat.div_eq_of_lt left, zero_add]
  · rw [← whole, Nat.add_mul_mod_self_left, Nat.mod_eq_of_lt left]

end

/-- The value of the window at `start`. -/
def Division.window (v : List Nat) (state : Division) (start : Nat) : Nat :=
  ofDigits radix ((state.u.drop start).take (v.length + 1))

theorem Division.window_eq {before low after : List Nat} {top : Nat}
    (split : state.u = before ++ low ++ top :: after) (length : low.length = v.length) :
    state.window v before.length = ofDigits radix low + radix ^ v.length * top := by
  rw [Division.window, split, append_assoc, drop_left, ← length, take_length_add_append]
  simp [ofDigits_append]

/-- In every pass the guess is the quotient digit of the window or one more, and what
`bignum_divide_subtract` makes of it is the quotient digit and the remainder. -/
theorem divideRun_guess (denominator : Denominator v) (digits : Digits radix u)
    (below : ofDigits radix (u.drop (u.length - v.length)) < ofDigits radix v)
    (more : passes < u.length - v.length) :
    let start := u.length - v.length - (passes + 1)
    ∃ state guess next, divideRun v u passes = some state ∧ windowGuess v state.u start = some guess ∧
      state.window v start / ofDigits radix v ≤ guess ∧
      guess ≤ state.window v start / ofDigits radix v + 1 ∧
      divideStep v state start = some next ∧ next.q = state.window v start / ofDigits radix v :: state.q ∧
      next.window v start = state.window v start % ofDigits radix v := by
  obtain ⟨state, ran, divides⟩ := divideRun_spec denominator digits below more.le
  obtain ⟨before, low, top, after, split, start, length, zero, small⟩ := divides.window denominator more
  have digits_low : Digits radix low := fun d member => divides.digits d (by simp [split, member])
  have small_top : top < radix := divides.digits top (by simp [split])
  obtain ⟨guess, guessed, -, enough, close⟩ :=
    windowGuess_spec before after denominator digits_low length rfl small
  obtain ⟨low', step, -, length', remainder⟩ := divideStep_spec before after (q := state.q)
    denominator digits_low length rfl small small_top
  rw [← split] at guessed
  rw [show ({ u := before ++ low ++ top :: after, q := state.q } : Division) = state by rw [← split]] at step
  have window := Division.window_eq split length
  rw [← start]
  refine ⟨state, guess, _, ran, guessed, by rwa [window], by rwa [window], step, by rw [window], ?_⟩
  rw [window, Division.window_eq rfl length', mul_zero, add_zero, remainder]

end

end MitScheme.Microcode.Bignum
