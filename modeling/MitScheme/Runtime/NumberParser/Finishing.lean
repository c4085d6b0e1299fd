import MitScheme.Runtime.Arithmetic.Numbers

/-!
A character is its code. The digits are the decimal digits of every script, and Latin letters above nine. A real number
is put together with flonums where that rounds only once, or exactly.
-/

namespace MitScheme.Runtime.NumberParser

section
/-- `char-set:nt=decimal`. -/
def decimalRanges : List (ℕ × ℕ) :=
  [(48, 58), (1632, 1642), (1776, 1786), (1984, 1994), (2406, 2416), (2534, 2544), (2662, 2672), (2790, 2800),
    (2918, 2928), (3046, 3056), (3174, 3184), (3302, 3312), (3430, 3440), (3558, 3568), (3664, 3674), (3792, 3802),
    (3872, 3882), (4160, 4170), (4240, 4250), (6112, 6122), (6160, 6170), (6470, 6480), (6608, 6618), (6784, 6794),
    (6800, 6810), (6992, 7002), (7088, 7098), (7232, 7242), (7248, 7258), (42528, 42538), (43216, 43226),
    (43264, 43274), (43472, 43482), (43504, 43514), (43600, 43610), (44016, 44026), (65296, 65306), (66720, 66730),
    (68912, 68922), (69734, 69744), (69872, 69882), (69942, 69952), (70096, 70106), (70384, 70394), (70736, 70746),
    (70864, 70874), (71248, 71258), (71360, 71370), (71472, 71482), (71904, 71914), (72016, 72026), (72784, 72794),
    (73040, 73050), (73120, 73130), (92768, 92778), (93008, 93018), (120782, 120832), (123200, 123210),
    (123632, 123642), (125264, 125274), (130032, 130042)]

/-- Every range starts with a zero; one range holds the digits five times over. -/
def digitValue (char : ℕ) : Option ℕ :=
  (decimalRanges.find? fun range => range.1 ≤ char && char < range.2).map fun range => (char - range.1) % 10

def letterDigit (char radix letter : ℕ) : Option ℕ :=
  if letter ≤ char ∧ char - letter + 10 < radix then some (char - letter + 10) else none

def charToDigit (char radix : ℕ) : Option ℕ :=
  match digitValue char with
  | some digit => if digit < radix then some digit else none
  | none => if 10 < radix then (letterDigit char radix 'A'.toNat).or (letterDigit char radix 'a'.toNat) else none

inductive Sign where
  | plus
  | minus
deriving DecidableEq

/-- `sign?`, with the sign that it is. -/
def sign? (char : ℕ) : Option Sign :=
  if char = '+'.toNat then some .plus else if char = '-'.toNat then some .minus else none

def Sign.char : Sign → ℕ
  | .plus => '+'.toNat
  | .minus => '-'.toNat

def exponentMarkers : List ℕ := "eEsSfFdDlL".toList.map Char.toNat

def exponentMarker (char : ℕ) : Bool := char ∈ exponentMarkers

/-- `i?`. -/
def isI (char : ℕ) : Bool := char = 'i'.toNat || char = 'I'.toNat

def isP (char : ℕ) : Bool := char = 'p'.toNat || char = 'P'.toNat

/-- `char-foldcase`, the simple folding, on the characters that it folds to characters of ASCII. -/
def charFoldcase (char : ℕ) : ℕ :=
  if 'A'.toNat ≤ char ∧ char ≤ 'Z'.toNat then char + 32
  else if char = 0x17F then 's'.toNat
  else if char = 0x212A then 'k'.toNat
  else char

/-- `char-ci=?`. -/
def charCiEq (x y : ℕ) : Bool := charFoldcase x = charFoldcase y

/-- `string-prefix-ci?`, with what follows the prefix. -/
def dropPrefixCi : List ℕ → List ℕ → Option (List ℕ)
  | [], s => some s
  | _ :: _, [] => none
  | p :: ps, c :: s => if charCiEq p c then dropPrefixCi ps s else none

variable {char radix digit : ℕ}

theorem digitValue_small (small : char < 1632) :
    digitValue char = if 48 ≤ char ∧ char < 58 then some (char - 48) else none := by
  have others : (decimalRanges.tail.find? fun range => range.1 ≤ char && char < range.2) = none := by
    have bounds : ∀ range ∈ decimalRanges.tail, 1632 ≤ range.1 := by decide
    rw [List.find?_eq_none]
    intro range member
    have above := bounds range member
    simp only [Bool.and_eq_true, decide_eq_true_eq, not_and, not_lt]
    omega
  have first : decimalRanges = (48, 58) :: decimalRanges.tail := rfl
  unfold digitValue
  rw [first, List.find?_cons, others]
  by_cases ascii : 48 ≤ char ∧ char < 58
  · simp only [ascii, decide_true, Bool.and_self, Option.map_some]
    congr 1
    omega
  · rw [if_neg ascii]
    have outside : (decide (48 ≤ char) && decide (char < 58)) = false := by
      rw [← Bool.decide_and]
      exact decide_eq_false ascii
    rw [outside]
    rfl

theorem charToDigit_ascii (small : char < 128) : charToDigit char radix = if 48 ≤ char ∧ char < 58 ∧
    char - 48 < radix then some (char - 48) else if 65 ≤ char ∧
    char < 55 + radix then some (char - 55) else if 97 ≤ char ∧ char < 87 + radix then some (char - 87) else none := by
  have upper : 'A'.toNat = 65 := rfl
  have lower : 'a'.toNat = 97 := rfl
  unfold charToDigit
  rw [digitValue_small (by omega)]
  by_cases decimal : 48 ≤ char ∧ char < 58
  · rw [if_pos decimal]
    have first : ¬(65 ≤ char ∧ char < 55 + radix) := by omega
    have second : ¬(97 ≤ char ∧ char < 87 + radix) := by omega
    simp [decimal, first, second]
  · have other : ¬(48 ≤ char ∧ char < 58 ∧ char - 48 < radix) := by omega
    simp only [letterDigit, upper, lower, other, if_false]
    split_ifs <;> first
      | rfl
      | omega
      | exact congrArg some (by omega)

end

open Library Arithmetic

inductive Failure where
  | divideByZero (operator : String)
  | error (error : Error)
  /-- An operation on fixnums whose result is not a fixnum. -/
  | notFixnum (operator : String)
deriving DecidableEq

inductive Exactness where
  | exact
  | inexact
  | implicitInexact
deriving DecidableEq

/-- A complex number is a recnum unless its imaginary part is an exact zero. -/
inductive Value where
  | real (x : Number)
  | recnum (re im : Number)
deriving DecidableEq

structure Trigonometry where
  cos : Flonum → Flonum
  sin : Flonum → Flonum

variable (sign : Option Sign) (exactness : Option Exactness)

def isInexact : Bool := exactness = some .inexact || exactness = some .implicitInexact

/-- `real:->inexact`. -/
def toInexact : Number → Flonum
  | .flonum x => x
  | .exact q => ratToInexact q

def applySign : Number → Number
  | .flonum x => .flonum (if sign = some .minus then x.negate else x)
  | .exact q => .exact (if sign = some .minus then -q else q)

def applyExactness (number : ℚ) : Number :=
  if isInexact exactness then .flonum (toInexact (.exact number)) else .exact number

def finish (number : ℚ) : Number := applySign sign (applyExactness exactness number)

def finishInteger (integer : ℕ) : Number := finish sign exactness integer

def finishRational (numerator denominator : ℕ) : Except Failure Number :=
  if denominator = 0 then .error (.divideByZero "/") else .ok (finish sign exactness (numerator / denominator))

def isExactPower (power : ℕ) : Bool := (intToInexact power).isFinite && (intToInexact power).toRational = power

def powersOf10Loop : ℕ → ℕ → List Flonum
  | 0, _ => []
  | fuel + 1, power => if isExactPower power then intToInexact power :: powersOf10Loop fuel (power * 10) else []

def exactFlonumPowersOf10 : List Flonum := powersOf10Loop 309 1

def flonumOrError : Option Flonum → Except Failure Flonum
  | some x => .ok x
  | none => .error (.error (.badRange 1 "integer->flonum"))

/-- `int:->flonum`, which is `(integer->flonum n #b10)`. -/
def intToFlonum (n : ℕ) : Except Failure Flonum := flonumOrError (integerToFlonumRounded n)

def ldexp (x : Flonum) (e : ℤ) : Except Failure Flonum :=
  if x.isFinite then .ok (x.denormalize e) else .error (.error (.wrongType 1 "flonum-denormalize"))

def fixnumOperation (operator : String) (operation : ℤ → ℤ → ℤ) (x y : ℤ) : Except Failure ℤ :=
  if isFixnum x && isFixnum y && isFixnum (operation x y) then .ok (operation x y) else .error (.notFixnum operator)

def fixTimes : ℤ → ℤ → Except Failure ℤ := fixnumOperation "*" (· * ·)
def fixPlus : ℤ → ℤ → Except Failure ℤ := fixnumOperation "+" (· + ·)

def powerOfTwo (x : ℕ) : Bool := 0 = x &&& (x - 1)

def integerLength (n : ℕ) : ℕ := Nat.size n

section
variable (integer : ℕ) (rexponent : ℤ) (radix base : ℕ) (bexponent : ℤ)

/-- Powers of two are shifts, and the count of a shift is a word. -/
def expt (b : ℕ) (e : ℤ) : Except Failure ℚ :=
  if b = 2 ∧ 2 ^ 64 ≤ e.natAbs then .error (.error (.badRange 2 "integer-shift-left")) else .ok (b ^ e)

def highPrecisionMethod : Except Failure Number := do
  let r ← expt radix rexponent
  let b ← expt base bexponent
  .ok (applySign sign (applyExactness exactness (integer * r * b)))

def finishFlonum (exponent : ℤ) (x powerOf10 : Flonum) : Number :=
  applySign sign (.flonum (if 0 ≤ exponent then x.mul powerOf10 else x.div powerOf10))

def binaryExponent : Except Failure ℤ := do
  let log2r : ℤ := integerLength radix - 1
  let log2b : ℤ := integerLength base - 1
  let re ← fixTimes rexponent log2r
  let be ← fixTimes bexponent log2b
  fixPlus re be

/-- The branch of `finish-real` for powers of two. -/
def shortcut : Except Failure Number := do
  let e ← binaryExponent rexponent radix base bexponent
  let x ← intToFlonum integer
  let scaled ← ldexp x e
  .ok (applySign sign (.flonum scaled))

/-- The flonums are multiplied or divided if `flonum-parser-fast?` is false, as it is. -/
def finishReal : Except Failure Number :=
  if radix = 10 ∧ base = 10 ∧ isInexact exactness then
    match exactFlonumPowersOf10[(rexponent + bexponent).natAbs]?, integerToFlonum integer with
    | some powerOf10, some x => .ok (finishFlonum sign (rexponent + bexponent) x powerOf10)
    | _, _ => highPrecisionMethod sign exactness integer rexponent radix base bexponent
  else if powerOfTwo radix ∧ powerOfTwo base ∧ isInexact exactness then
    shortcut sign integer rexponent radix base bexponent
  else highPrecisionMethod sign exactness integer rexponent radix base bexponent

end

def finishNan (quiet : Bool) (payload : ℕ) : Except Failure (Option Number) :=
  if (quiet || payload ≠ 0) && exactness ≠ some .exact then
    match Flonum.makeNan (sign = some .minus) quiet payload with
    | .ok nan => .ok (some (.flonum nan))
    | .error error => .error (.error error)
  else .ok none

def makeRectangular (re im : Number) : Value := if im = .exact 0 then .real re else .recnum re im

variable (trig : Trigonometry)

def realCos (angle : Number) : Number := if angle = .exact 0 then .exact 1 else .flonum (trig.cos (toInexact angle))

def realSin (angle : Number) : Number := if angle = .exact 0 then .exact 0 else .flonum (trig.sin (toInexact angle))

def makePolar (magnitude angle : Number) : Value :=
  if angle = .exact 0 then .real magnitude
  else makeRectangular (magnitude.mul (realCos trig angle)) (magnitude.mul (realSin trig angle))

end MitScheme.Runtime.NumberParser
