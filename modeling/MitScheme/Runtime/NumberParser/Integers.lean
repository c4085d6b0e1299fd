import MitScheme.Runtime.Arithmetic.Printing
import MitScheme.Runtime.NumberParser.Literals

namespace MitScheme.Runtime.NumberParser

open Library Arithmetic DigitChar

theorem digitToChar_eq {digit : ℕ} (small : digit < 36) :
    digitToChar digit = if digit < 10 then 48 + digit else 87 + digit := by
  have table : ∀ digit < 36, digitToChar digit = if digit < 10 then 48 + digit else 87 + digit := by decide
  exact table digit small

theorem charToDigit_digitToChar {digit radix : ℕ} (upper : radix ≤ 36) (is : digit < radix) :
    charToDigit (digitToChar digit) radix = some digit := by
  rw [digitToChar_eq (by omega)]
  split
  · rw [charToDigit_ascii (by omega), if_pos (by omega)]
    exact congrArg some (by omega)
  · rw [charToDigit_ascii (by omega), if_neg (by omega), if_neg (by omega), if_pos (by omega)]
    exact congrArg some (by omega)

variable (radix : Radix)

def printedDigit (digit : ℕ) (is : digit < radix.value) : DigitChar radix.value :=
  ⟨digitToChar digit, digit, charToDigit_digitToChar radix.upper is⟩

def printedDigits : (digits : List ℕ) → Digits radix.value digits → List (DigitChar radix.value)
  | [], _ => []
  | d :: digits, are => printedDigits digits (fun e member => are e (List.mem_cons_of_mem d member)) ++
      [printedDigit radix d (are d List.mem_cons_self)]

variable {radix}

theorem printedDigits_spelling {digits : List ℕ} (are : Digits radix.value digits) :
    spelling (printedDigits radix digits are) = digitText digits := by
  induction digits with
  | nil => rfl
  | cons d digits ih =>
    rw [digitText_cons, ← ih (fun e member => are e (List.mem_cons_of_mem d member))]
    exact List.map_append

theorem printedDigits_read {digits : List ℕ} (are : Digits radix.value digits) :
    DigitChar.read 0 (printedDigits radix digits are) = Nat.ofDigits radix.value digits := by
  induction digits with
  | nil => rfl
  | cons d digits ih =>
    rw [printedDigits, read_append, ih, Nat.ofDigits_cons, add_comm, mul_comm]
    rfl

theorem numeral_digits (radix : Radix) (n : ℕ) : ∃ (d : DigitChar radix.value) (ds : List (DigitChar radix.value)),
    numeral radix n = d.char :: spelling ds ∧ DigitChar.read d.digit ds = n := by
  have are : Digits radix.value (Nat.digits radix.value n) := fun d => Nat.digits_lt_base radix.base
  by_cases zero : n = 0
  · subst zero
    exact ⟨printedDigit radix 0 (Nat.zero_lt_of_lt radix.base), [], rfl, rfl⟩
  · have text := printedDigits_spelling are
    have value := printedDigits_read are
    rw [Nat.ofDigits_digits] at value
    unfold numeral
    rw [if_neg zero]
    cases printed : printedDigits radix (Nat.digits radix.value n) are with
    | nil =>
      rw [printed] at value
      exact absurd value.symm zero
    | cons d ds =>
      rw [printed] at text value
      refine ⟨d, ds, text.symm, ?_⟩
      rw [← value]
      simp [DigitChar.read]

variable (trig : Trigonometry)

theorem stringToNumber_integer {radix : ℕ} (known : radix ∈ [2, 8, 10, 16]) (sign : Option Sign) (d : DigitChar radix)
    (ds : List (DigitChar radix)) :
    stringToNumber trig (signSpelling sign ++ d.char :: spelling ds) (some radix) =
      accepted (.exact (if sign = some .minus then -(DigitChar.read d.digit ds : ℚ) else DigitChar.read d.digit ds)) := by
  have top : stringToNumber trig (signSpelling sign ++ d.char :: spelling ds) (some radix) =
      parseTopLevel trig (signSpelling sign ++ d.char :: spelling ds) none (some radix) .real := by
    rw [stringToNumber_eq trig _ known]
    cases sign with
    | none => exact parsePrefix_none trig (d.ne_of_lt (by decide)) _ _ _ _
    | some sign => exact parsePrefix_none trig (by cases sign <;> decide) _ _ _ _
  rw [top, parseTopLevel, parseTopLevelWith_digit, parseInteger, ← List.append_nil (spelling ds), parseDigits_spelling]
  rfl

/-- Integers are printed in positional notation by every strategy, and read back. -/
theorem integer_printing (n : ℤ) (radix : Radix) :
    intToString radix n = some (if n < 0 then '-'.toNat :: numeral radix n.natAbs else numeral radix n.natAbs) ∧
      (isIndexFixnum n.natAbs = true → printFixnum radix n.natAbs 1 0 [] = numeral radix n.natAbs) ∧
      (isIndexFixnum n.natAbs = false →
        printMedium radix (splitInfo radix).2 (splitInfo radix).1 (splitInfo_proper radix) n.natAbs [] = numeral radix n.natAbs ∧
          makePowerStack radix n.natAbs (splitInfo radix).2 (splitInfo_proper radix) [] (splitInfo radix).1 =
            some (numeral radix n.natAbs)) ∧
      (radix.value ∈ [2, 8, 10, 16] →
        ∃ s, intToString radix n = some s ∧ stringToNumber trig s (some radix.value) = accepted (.exact n)) := by
  obtain ⟨power, fixnum, -⟩ := splitInfo_spec radix
  refine ⟨intToString_eq n, fun _ => printFixnum_numeral _, fun bignum => ⟨?_, ?_⟩, fun known => ⟨_, intToString_eq n, ?_⟩⟩
  · rw [numeral_of_bignum (by rw [bignum]; decide), printMedium_eq _ power fixnum, List.append_nil]
  · rw [numeral_of_bignum (by rw [bignum]; decide)]
    exact makePowerStack_eq _ (.bottom (power ▸ fixnum)) power
  · obtain ⟨d, ds, text, value⟩ := numeral_digits radix n.natAbs
    rw [text]
    split
    · have read := stringToNumber_integer trig known (some .minus) d ds
      have same : -((n.natAbs : ℕ) : ℚ) = n := by
        have opposite : -((n.natAbs : ℕ) : ℤ) = n := by omega
        rw [← Int.cast_natCast, ← Int.cast_neg, opposite]
      rw [value, same] at read
      exact read
    · have read := stringToNumber_integer trig known none d ds
      have same : ((n.natAbs : ℕ) : ℚ) = n := by
        have natural : ((n.natAbs : ℕ) : ℤ) = n := by omega
        rw [← Int.cast_natCast, natural]
      rw [value, same] at read
      exact read

end MitScheme.Runtime.NumberParser
