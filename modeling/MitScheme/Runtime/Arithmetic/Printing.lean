import MitScheme.Runtime.Arithmetic.Conversions

/-!
Fixnums are printed digit by digit, medium bignums in groups of digits that are fixnums, and large bignums by dividing
them by a stack of powers of the radix, each of them the square of the one below it.
-/

namespace MitScheme.Runtime.Arithmetic

open Library Microcode List Nat

structure Radix where
  value : ℕ
  lower : 2 ≤ value
  upper : value ≤ 36

def digitCharacters : List ℕ := "0123456789abcdefghijklmnopqrstuvwxyz".toList.map Char.toNat

/-- `digit->char`. -/
def digitToChar (digit : ℕ) : ℕ := digitCharacters.getD digit 0

variable (radix : Radix)

/-- `fix:fixnum?`, of an integer that is not negative. -/
def isIndexFixnum (n : ℕ) : Bool := n < 2 ^ 57

def printFixnum (n minDigits nDigits : ℕ) (tail : List ℕ) : List ℕ :=
  if n ≠ 0 then printFixnum (n / radix.value) minDigits (nDigits + 1) (digitToChar (n % radix.value) :: tail)
  else if nDigits < minDigits then printFixnum n minDigits (nDigits + 1) ('0'.toNat :: tail)
  else tail
termination_by (n, minDigits - nDigits)
decreasing_by
  · exact Prod.Lex.left _ _ (Nat.div_lt_self (Nat.pos_of_ne_zero ‹_›) radix.lower)
  · exact Prod.Lex.right _ (by omega)

/-- An entry of `*maximum-fixnum-radix-powers*`: the digits of the greatest power that is a fixnum, and the power. -/
def maximumFixnumRadixPower (digits factor : ℕ) (positive : 0 < factor) : ℕ × ℕ :=
  if isIndexFixnum (factor * radix.value) then
    maximumFixnumRadixPower (digits + 1) (factor * radix.value)
      (Nat.mul_pos positive (Nat.lt_of_lt_of_le Nat.zero_lt_two radix.lower))
  else (digits, factor)
termination_by 2 ^ 57 - factor
decreasing_by
  have larger : factor * 2 ≤ factor * radix.value := Nat.mul_le_mul_left _ radix.lower
  have fixnum : factor * radix.value < 2 ^ 57 := of_decide_eq_true ‹_›
  omega

def printMedium (splitFactor splitDigits : ℕ) (proper : 1 < splitFactor) (n : ℕ) (tail : List ℕ) : List ℕ :=
  if isIndexFixnum n then printFixnum radix n 0 0 tail
  else printMedium splitFactor splitDigits proper (n / splitFactor) (printFixnum radix (n % splitFactor) splitDigits 0 tail)
termination_by n
decreasing_by
  refine Nat.div_lt_self (Nat.pos_of_ne_zero ?_) proper
  rintro rfl
  exact absurd rfl ‹_›

def systemVectorLength (value : ℕ) : ℕ := (toBignum value).digits.length + 1

def bignumDigits (n : ℕ) : ℤ := -1 + systemVectorLength n

def fastTestToAvoidUltimateMultiply (quantum value : ℕ) : Bool :=
  !isIndexFixnum quantum && bignumDigits value < bignumDigits quantum * 2 - 1

def separate (leftmost : Bool) (value : ℕ) (stack : List ℕ) (nDigits : ℕ) (tail : List ℕ) : Option (List ℕ) :=
  if isIndexFixnum value then some (printFixnum radix value (if leftmost then 0 else nDigits) 0 tail)
  else
    match stack with
    | [] => none
    | power :: rest =>
      if leftmost ∧ value / power = 0 then separate true (value % power) rest (nDigits / 2) tail
      else do
        let right ← separate false (value % power) rest (nDigits / 2) tail
        separate leftmost (value / power) rest (nDigits / 2) right

def usePowerStack (value : ℕ) (stack : List ℕ) (digits : ℕ) : Option (List ℕ) := separate radix true value stack digits []

def makePowerStack (value quantum : ℕ) (proper : 1 < quantum) (stack : List ℕ) (nDigits : ℕ) : Option (List ℕ) :=
  if value < quantum then usePowerStack radix value stack nDigits
  else if fastTestToAvoidUltimateMultiply quantum value then usePowerStack radix value (quantum :: stack) (2 * nDigits)
  else makePowerStack value (quantum * quantum) (Nat.one_lt_mul_iff.mpr ⟨by omega, by omega, .inl proper⟩)
    (quantum :: stack) (2 * nDigits)
termination_by value + 1 - quantum
decreasing_by
  have larger : quantum * 2 ≤ quantum * quantum := Nat.mul_le_mul_left _ proper
  omega

/-- The entry of the radix in `*maximum-fixnum-radix-powers*`. -/
def splitInfo : ℕ × ℕ := maximumFixnumRadixPower radix 0 1 Nat.one_pos

variable {radix}

theorem Radix.base (radix : Radix) : 1 < radix.value := radix.lower

theorem maximumFixnumRadixPower_spec {digits factor : ℕ} (positive : 0 < factor) (power : factor = radix.value ^ digits)
    (fixnum : isIndexFixnum factor = true) :
    (maximumFixnumRadixPower radix digits factor positive).2 = radix.value ^ (maximumFixnumRadixPower radix digits factor positive).1 ∧
      isIndexFixnum (maximumFixnumRadixPower radix digits factor positive).2 = true ∧
      digits ≤ (maximumFixnumRadixPower radix digits factor positive).1 := by
  fun_induction maximumFixnumRadixPower with
  | case1 digits factor positive next ih =>
    obtain ⟨holds, within, more⟩ := ih (by rw [power, pow_succ]) next
    exact ⟨holds, within, le_of_succ_le more⟩
  | case2 digits factor positive last => exact ⟨power, fixnum, le_refl _⟩

theorem splitInfo_spec (radix : Radix) : (splitInfo radix).2 = radix.value ^ (splitInfo radix).1 ∧
    isIndexFixnum (splitInfo radix).2 = true ∧ 0 < (splitInfo radix).1 := by
  have upper := radix.upper
  have fixnum : isIndexFixnum (1 * radix.value) = true := decide_eq_true (by omega)
  have start : splitInfo radix = maximumFixnumRadixPower radix 1 (1 * radix.value)
      (mul_pos one_pos (zero_lt_of_lt radix.base)) := by
    rw [splitInfo, maximumFixnumRadixPower, if_pos fixnum]
  rw [start]
  exact maximumFixnumRadixPower_spec _ (by rw [one_mul, pow_one]) fixnum

theorem splitInfo_proper (radix : Radix) : 1 < (splitInfo radix).2 := by
  obtain ⟨power, -, some_digits⟩ := splitInfo_spec radix
  rw [power]
  exact one_lt_pow some_digits.ne' radix.base

variable (radix)

def positiveToString (value : ℕ) : Option (List ℕ) :=
  if isIndexFixnum value then some (printFixnum radix value 1 0 [])
  else if systemVectorLength value < 10 then
    some (printMedium radix (splitInfo radix).2 (splitInfo radix).1 (splitInfo_proper radix) value [])
  else makePowerStack radix value (splitInfo radix).2 (splitInfo_proper radix) [] (splitInfo radix).1

/-- `int:->string`. -/
def intToString (number : ℤ) : Option (List ℕ) :=
  if number < 0 then (positiveToString radix (-number).toNat).map ('-'.toNat :: ·) else positiveToString radix number.toNat

variable {radix}

def digitText (digits : List ℕ) : List ℕ := (digits.map digitToChar).reverse

theorem digitText_cons (digit : ℕ) (digits : List ℕ) : digitText (digit :: digits) = digitText digits ++ [digitToChar digit] := by
  unfold digitText
  rw [map_cons, reverse_cons]

theorem digitText_append (low high : List ℕ) : digitText (low ++ high) = digitText high ++ digitText low := by
  unfold digitText
  rw [map_append, reverse_append]

/-- The digits of a number without zeros above them; zero itself is one digit. -/
def numeral (radix : Radix) (n : ℕ) : List ℕ := if n = 0 then [digitToChar 0] else digitText (Nat.digits radix.value n)

theorem printFixnum_eq (n minDigits nDigits : ℕ) (tail : List ℕ) :
    printFixnum radix n minDigits nDigits tail = digitText (Nat.digitsAppend radix.value (minDigits - nDigits) n) ++ tail := by
  fun_induction printFixnum with
  | case1 n nDigits tail nonzero ih =>
    rw [ih, digitsAppend_cons radix.base nonzero, digitText_cons, append_assoc]
    rfl
  | case2 n nDigits tail zero fewer ih =>
    have none : n = 0 := not_not.mp zero
    subst none
    have step : minDigits - nDigits = (minDigits - (nDigits + 1)) + 1 := by omega
    rw [ih, step, digitsAppend_zero, digitsAppend_zero, replicate_succ, digitText_cons, append_assoc]
    rfl
  | case3 n nDigits tail zero enough =>
    have none : n = 0 := not_not.mp zero
    subst none
    rw [Nat.sub_eq_zero_of_le (not_lt.mp enough), digitsAppend_zero]
    rfl

theorem printFixnum_digits (n : ℕ) (tail : List ℕ) :
    printFixnum radix n 0 0 tail = digitText (Nat.digits radix.value n) ++ tail := by
  rw [printFixnum_eq, digitsAppend_of_le (zero_le _)]

theorem printFixnum_numeral (n : ℕ) : printFixnum radix n 1 0 [] = numeral radix n := by
  rw [printFixnum_eq, append_nil]
  unfold numeral
  split
  · rename_i zero
    rw [zero, digitsAppend_zero]
    rfl
  · rename_i nonzero
    rw [digitsAppend_of_le]
    exact length_pos_iff.mpr (digits_ne_nil_iff_ne_zero.mpr nonzero)

theorem large_of_not_fixnum {n : ℕ} (bignum : ¬isIndexFixnum n = true) : 2 ^ 57 ≤ n :=
  not_lt.mp fun small => bignum (decide_eq_true small)

theorem printMedium_eq {splitFactor splitDigits : ℕ} (proper : 1 < splitFactor) (power : splitFactor = radix.value ^ splitDigits)
    (fixnum : isIndexFixnum splitFactor = true) (n : ℕ) (tail : List ℕ) :
    printMedium radix splitFactor splitDigits proper n tail = digitText (Nat.digits radix.value n) ++ tail := by
  fun_induction printMedium with
  | case1 n tail small => exact printFixnum_digits n tail
  | case2 n tail bignum ih =>
    have large : radix.value ^ splitDigits ≤ n := by
      have below := of_decide_eq_true fixnum
      have above := large_of_not_fixnum bignum
      omega
    rw [ih, printFixnum_eq, ← append_assoc, ← digitText_append, Nat.sub_zero, power,
      digitsAppend_append_digits radix.base large]

/-- Each power has twice the digits of the one below it. What is below the last power is a fixnum. -/
inductive PowerStack (radix : Radix) : ℕ → List ℕ → Prop where
  | bottom {nDigits : ℕ} (fixnum : isIndexFixnum (radix.value ^ nDigits) = true) : PowerStack radix nDigits []
  | square {nDigits : ℕ} {rest : List ℕ} (powers : PowerStack radix nDigits rest) :
    PowerStack radix (2 * nDigits) (radix.value ^ nDigits :: rest)

theorem separate_eq {nDigits : ℕ} {stack : List ℕ} (powers : PowerStack radix nDigits stack) {value : ℕ}
    (small : value < radix.value ^ nDigits) (leftmost : Bool) (tail : List ℕ) :
    separate radix leftmost value stack nDigits tail =
      some (digitText (Nat.digitsAppend radix.value (if leftmost then 0 else nDigits) value) ++ tail) := by
  induction powers generalizing value leftmost tail with
  | bottom fixnum =>
    have below : isIndexFixnum value = true := decide_eq_true (small.trans (of_decide_eq_true fixnum))
    rw [separate, if_pos below, printFixnum_eq, Nat.sub_zero]
  | @square nDigits rest powers ih =>
    have power : 0 < radix.value ^ nDigits := Nat.pow_pos (zero_lt_of_lt radix.base)
    have half : 2 * nDigits / 2 = nDigits := Nat.mul_div_cancel_left _ two_pos
    have low := mod_lt value power
    rw [separate]
    by_cases fixnum : isIndexFixnum value = true
    · rw [if_pos fixnum, printFixnum_eq, Nat.sub_zero]
    · rw [if_neg fixnum]
      by_cases leading : leftmost = true ∧ value / radix.value ^ nDigits = 0
      · have same : value % radix.value ^ nDigits = value := mod_eq_of_lt ((div_eq_zero_iff_lt power).mp leading.2)
        rw [if_pos leading, half, ih low, same, if_pos rfl, if_pos leading.1]
      · have high : value / radix.value ^ nDigits < radix.value ^ nDigits := by
          rw [two_mul] at small
          exact Nat.div_lt_of_lt_mul (by rwa [← pow_add])
        have pieces : digitsAppend radix.value nDigits (value % radix.value ^ nDigits) ++
            digitsAppend radix.value (if leftmost then 0 else nDigits) (value / radix.value ^ nDigits) =
              digitsAppend radix.value (if leftmost then 0 else 2 * nDigits) value := by
          cases leftmost with
          | false =>
            rw [two_mul]
            exact digitsAppend_append radix.base (Nat.two_mul _ ▸ small)
          | true =>
            have large := (Nat.div_pos_iff.mp (pos_of_ne_zero fun none => leading ⟨rfl, none⟩)).2
            rw [if_pos rfl, digitsAppend_of_le (zero_le _), if_pos rfl, digitsAppend_of_le (zero_le _)]
            exact digitsAppend_append_digits radix.base large
        rw [if_neg leading, half, ih low, Option.bind_eq_bind, Option.bind_some, ih high, ← append_assoc,
          ← digitText_append, if_neg Bool.false_ne_true, pieces]

theorem fastTest_spec {quantum value : ℕ} (test : fastTestToAvoidUltimateMultiply quantum value = true) :
    value < quantum * quantum := by
  have base := Bignum.one_lt_radix
  have more : bignumDigits value < bignumDigits quantum * 2 - 1 := of_decide_eq_true (Bool.and_eq_true _ _ ▸ test).2
  simp only [bignumDigits, systemVectorLength, toBignum, Int.natAbs_natCast] at more
  obtain ⟨k, length⟩ : ∃ k, (digits Bignum.radix quantum).length = k + 1 := ⟨_, (Nat.sub_add_cancel (by omega)).symm⟩
  have below : Bignum.radix ^ k ≤ quantum := (lt_digits_length_iff base quantum).mp (by omega)
  have above : value < Bignum.radix ^ (k + k) := (digits_length_le_iff base value).mp (by omega)
  rw [pow_add] at above
  exact above.trans_le (Nat.mul_le_mul below below)

theorem makePowerStack_eq {value quantum nDigits : ℕ} {stack : List ℕ} (proper : 1 < quantum)
    (powers : PowerStack radix nDigits stack) (power : quantum = radix.value ^ nDigits) :
    makePowerStack radix value quantum proper stack nDigits = some (digitText (Nat.digits radix.value value)) := by
  have used : ∀ {nDigits : ℕ} {stack : List ℕ}, PowerStack radix nDigits stack → value < radix.value ^ nDigits →
      usePowerStack radix value stack nDigits = some (digitText (digits radix.value value)) := by
    intro nDigits stack powers small
    rw [usePowerStack, separate_eq powers small, append_nil, if_pos rfl, digitsAppend_of_le (zero_le _)]
  have square : ∀ {nDigits : ℕ}, radix.value ^ nDigits * radix.value ^ nDigits = radix.value ^ (2 * nDigits) := by
    intro nDigits
    rw [← pow_add, ← two_mul]
  fun_induction makePowerStack with
  | case1 quantum proper stack nDigits small => exact used powers (power ▸ small)
  | case2 quantum proper stack nDigits _ test =>
    have small := fastTest_spec test
    rw [power, square] at small
    rw [power]
    exact used powers.square small
  | case3 quantum proper stack nDigits _ _ ih =>
    refine ih ?_ (by rw [power, square])
    rw [power]
    exact powers.square

theorem numeral_of_bignum {value : ℕ} (bignum : ¬isIndexFixnum value = true) :
    numeral radix value = digitText (Nat.digits radix.value value) := by
  have large := large_of_not_fixnum bignum
  unfold numeral
  rw [if_neg (by omega)]

theorem positiveToString_eq (value : ℕ) : positiveToString radix value = some (numeral radix value) := by
  obtain ⟨power, fixnum, -⟩ := splitInfo_spec radix
  unfold positiveToString
  split
  · rw [printFixnum_numeral]
  · rename_i bignum
    rw [numeral_of_bignum bignum]
    split
    · rw [printMedium_eq _ power fixnum, append_nil]
    · exact makePowerStack_eq _ (.bottom (power ▸ fixnum)) power

theorem intToString_eq (n : ℤ) :
    intToString radix n = some (if n < 0 then '-'.toNat :: numeral radix n.natAbs else numeral radix n.natAbs) := by
  unfold intToString
  split
  · have natural : (-n).toNat = n.natAbs := by omega
    rw [natural, positiveToString_eq]
    rfl
  · have natural : n.toNat = n.natAbs := by omega
    rw [natural, positiveToString_eq]

end MitScheme.Runtime.Arithmetic
