import MitScheme.Runtime.Arithmetic.Numbers

/-!
Taking a number apart into the fields of a binary interchange format, and putting it together from
them.
-/

namespace MitScheme.Runtime.Ieee754

open Library Arithmetic

def extractBitField (size position integer : ℕ) : ℕ := (2 ^ size - 1) &&& (integer >>> position)

/-- `replace-bit-field`, with the bits outside the field taken as `integer` without those inside. -/
def replaceBitField (size position integer field : ℕ) : ℕ :=
  (extractBitField size 0 field <<< position) ||| (integer - (integer &&& ((2 ^ size - 1) * 2 ^ position)))

def assert (condition : Prop) [Decidable condition] (expression : String) : Except Error Unit :=
  if condition then .ok () else .error (.assertion expression)

structure Parameters where
  base : ℕ
  emin : ℤ
  emax : ℤ
  bias : ℤ
  expSubnormal : ℤ
  expInfNan : ℤ
deriving DecidableEq, Repr

/-- `ieee754-binary-parameters`, after its assertion. -/
def binaryParameters (exponentBits : ℕ) : Parameters :=
  let emax : ℤ := 2 ^ (exponentBits - 1) - 1
  let emin := 1 - emax
  { base := 2, emin, emax, bias := emax, expSubnormal := emin - 1, expInfNan := emax + 1 }

def ieee754BinaryParameters (exponentBits precision : ℕ) : Except Error Parameters := do
  assert ((exponentBits + precision) % 32 = 0) "(zero? (modulo (+ exponent-bits precision) 32))"
  .ok (binaryParameters exponentBits)

/-- Which of its continuations `decompose-ieee754` takes, and what it passes to it. -/
inductive Decomposition where
  | ifZero (sign : ℕ)
  | ifSubnormal (sign significand : ℕ)
  | ifNormal (sign : ℕ) (exponent : ℤ) (significand : ℕ)
  | ifInfinite (sign : ℕ)
  | ifNan (sign quiet payload : ℕ)
deriving DecidableEq, Repr

/-- `(negative? (atan x -1))`: the angle to a point on the left has the sign of its ordinate, that of
a flonum zero included. -/
def negativeAtan : Number → Bool
  | .flonum x => x.negative && !x.isNan
  | .exact q => q < 0

def ieee754Sign (x : Number) : ℕ :=
  if (Number.exact 0).lt x then 0
  else if x.lt (.exact 0) then 1
  else if negativeAtan x then 1
  else 0

/-- `(expt base exponent)`, on exact integers. -/
def expt (base : ℕ) (exponent : ℤ) : Number := .exact ((base : ℚ) ^ exponent)

def significand (base precision : ℕ) (x : Number) : Except Error ℕ := do
  let n ← (x.mul (expt base (precision - 1))).roundToExact
  .ok n.toNat

def normalLoop (base : ℕ) (emax : ℤ) (precision sign : ℕ) : ℕ → ℤ → Number → Except Error Decomposition
  | 0, _, _ => .error .unfinished
  | fuel + 1, exponent, x =>
    if emax < exponent then .ok (.ifInfinite sign)
    else if (Number.exact base).le x then
      normalLoop base emax precision sign fuel (exponent + 1) (x.div (.exact base))
    else do
      let digits ← significand base precision x
      .ok (.ifNormal sign exponent digits)

def fractionLoop (base : ℕ) (emin : ℤ) (precision sign : ℕ) : ℕ → ℤ → Number → Except Error Decomposition
  | 0, _, _ => .error .unfinished
  | fuel + 1, exponent, x => do
    assert (emin ≤ exponent) "(<= emin exponent)"
    if (Number.exact 1).le x then do
      let digits ← significand base precision x
      .ok (.ifNormal sign exponent digits)
    else fractionLoop base emin precision sign fuel (exponent - 1) (x.mul (.exact base))

/-- The part of `decompose-ieee754` on the absolute value of a finite number. -/
def decomposeFinite (sign : ℕ) (x : Number) (base : ℕ) (emax : ℤ) (precision : ℕ) : Except Error Decomposition :=
  let emin := 1 - emax
  if (Number.exact 1).le x then normalLoop base emax precision sign (emax + 2).toNat 0 x
  else if (expt base emin).le x then fractionLoop base emin precision sign (emax + 2).toNat 0 x
  else if (Number.exact 0).lt x then
    if x.le (.exact ((base : ℚ) ^ (emin - (precision + 1)) / 2)) then .ok (.ifZero sign)
    else do
      let digits ← significand base precision (x.div (expt base emin))
      .ok (.ifSubnormal sign digits)
  else .ok (.ifZero sign)

def decomposeNan : Number → Except Error Decomposition
  | .flonum x => do
    let quiet ← x.nanQuiet
    let payload ← x.nanPayload
    .ok (.ifNan x.negative.toNat quiet.toNat payload)
  | .exact _ => .error (.wrongType 1 "flonum-is-negative?")

def decomposeIeee754 (x : Number) (base : ℕ) (emax : ℤ) (precision : ℕ) : Except Error Decomposition :=
  if !x.eq x then decomposeNan x
  else if (Number.exact 1).lt x.abs && x.eq (x.div (.exact 2)) then
    .ok (.ifInfinite (if (Number.flonum (Flonum.zero false)).lt x then 0 else 1))
  else decomposeFinite (ieee754Sign x) x.abs base emax precision

/-- The fields of a binary interchange format. -/
structure Fields where
  sign : ℕ
  biasedExponent : ℤ
  trailingSignificand : ℕ
deriving DecidableEq, Repr

def fieldsOf (p : Parameters) (t : ℕ) : Decomposition → Except Error Fields
  | .ifZero sign => .ok ⟨sign, 0, 0⟩
  | .ifSubnormal sign digits => do
    assert (0 = digits >>> t) "(= 0 (shift-right significand t))"
    .ok ⟨sign, p.expSubnormal + p.bias, digits⟩
  | .ifNormal sign exponent digits => do
    assert (p.emin ≤ exponent ∧ exponent ≤ p.emax) "(<= emin exponent emax)"
    assert (1 = digits >>> t) "(= 1 (shift-right significand t))"
    .ok ⟨sign, exponent + p.bias, extractBitField t 0 digits⟩
  | .ifInfinite sign => .ok ⟨sign, p.expInfNan + p.bias, 0⟩
  | .ifNan sign quiet payload => do
    assert (¬(quiet = 0 ∧ payload = 0)) "(not (and (zero? quiet) (zero? payload)))"
    assert (extractBitField 1 (t - 1) payload = 0) "(zero? (extract-bit-field 1 (- t 1) payload))"
    .ok ⟨sign, p.expInfNan + p.bias, replaceBitField 1 (t - 1) payload quiet⟩

def decomposeIeee754Binary (x : Number) (exponentBits precision : ℕ) : Except Error Fields := do
  let p ← ieee754BinaryParameters exponentBits precision
  let decomposition ← decomposeIeee754 x p.base p.emax precision
  fieldsOf p (precision - 1) decomposition

/-- `(expt -1 sign)`. -/
def signFactor (sign : ℕ) : Number := .exact ((-1) ^ sign)

def composeIeee754Zero (sign : ℕ) : Number := (signFactor sign).mul (.flonum (Flonum.zero false))

def composeIeee754Subnormal (sign digits base : ℕ) (emin : ℤ) (precision : ℕ) : Number :=
  (signFactor sign).mul ((Number.exact digits).mul (expt base (emin - (precision - 1))))

def composeIeee754Normal (sign : ℕ) (exponent : ℤ) (digits base precision : ℕ) : Number :=
  (signFactor sign).mul ((Number.exact digits).mul (expt base (exponent - (precision - 1))))

def composeIeee754Infinity (sign : ℕ) : Number := (signFactor sign).mul (.flonum (Flonum.infinite false))

def composeIeee754Nan (sign quiet payload : ℕ) : Except Error Number := do
  let x ← Flonum.makeNan (sign = 1) (quiet = 1) payload
  .ok (.flonum x)

def composeIeee754Binary (fields : Fields) (exponentBits precision : ℕ) : Except Error Number := do
  let p ← ieee754BinaryParameters exponentBits precision
  let exponent := fields.biasedExponent - p.bias
  let t := precision - 1
  if exponent = p.expSubnormal then
    if fields.trailingSignificand = 0 then .ok (composeIeee754Zero fields.sign)
    else .ok (composeIeee754Subnormal fields.sign fields.trailingSignificand p.base p.emin precision)
  else if exponent = p.expInfNan then
    if fields.trailingSignificand = 0 then .ok (composeIeee754Infinity fields.sign)
    else
      composeIeee754Nan fields.sign (extractBitField 1 (t - 1) fields.trailingSignificand)
        (extractBitField (t - 1) 0 fields.trailingSignificand)
  else do
    assert (p.emin ≤ exponent ∧ exponent ≤ p.emax) "(<= emin exponent emax)"
    .ok (composeIeee754Normal fields.sign exponent (replaceBitField 1 t fields.trailingSignificand 1) p.base precision)

def decomposeIeee754Binary32 (x : Number) : Except Error Fields := decomposeIeee754Binary x 8 24
def decomposeIeee754Binary64 (x : Number) : Except Error Fields := decomposeIeee754Binary x 11 53
def composeIeee754Binary32 (fields : Fields) : Except Error Number := composeIeee754Binary fields 8 24
def composeIeee754Binary64 (fields : Fields) : Except Error Number := composeIeee754Binary fields 11 53

end MitScheme.Runtime.Ieee754
