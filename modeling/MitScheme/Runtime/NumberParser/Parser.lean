import MitScheme.Runtime.NumberParser.Finishing

/-!
Each state of the parser is a function of the characters that are left. The states for real numbers hand the rest of the
string to `parseComplex`, which reads an imaginary part or an angle from the start again.
-/

namespace MitScheme.Runtime.NumberParser

open Library Arithmetic

/-- A number, `#f`, or an error. -/
abbrev Parsed := Except Failure (Option Value)

inductive Comp where
  | real
  | imag
  | angle
deriving DecidableEq

def rejected : Parsed := .ok none

def accepted (x : Number) : Parsed := .ok (some (.real x))

def ended (comp : Comp) (x : Except Failure Number) : Parsed := if comp = .imag then rejected else x >>= accepted

structure DigitRun where
  rest : List ℕ
  integer : ℕ
  exactness : Option Exactness
  sharp : Bool

def parseSharps (radix : ℕ) : List ℕ → ℕ → List ℕ × ℕ
  | [], integer => ([], integer)
  | char :: s, integer => if char = '#'.toNat then parseSharps radix s (integer * radix) else (char :: s, integer)

def parseDigits (exactness : Option Exactness) (radix : ℕ) : List ℕ → ℕ → DigitRun
  | [], integer => ⟨[], integer, exactness, false⟩
  | char :: s, integer =>
    match charToDigit char radix with
    | some digit => parseDigits exactness radix s (integer * radix + digit)
    | none =>
      if char = '#'.toNat then
        ⟨(parseSharps radix s (integer * radix)).1, (parseSharps radix s (integer * radix)).2,
          exactness.or (some .implicitInexact), true⟩
      else ⟨char :: s, integer, exactness, false⟩

def exponentDigits : List ℕ → ℕ → List ℕ × ℕ
  | [], eint => ([], eint)
  | char :: s, eint =>
    match charToDigit char 10 with
    | some digit => exponentDigits s (eint * 10 + digit)
    | none => (char :: s, eint)

section
variable (parseComplex : List ℕ → Number → Option Exactness → ℕ → Option Sign → Parsed)
variable (exactness : Option Exactness) (radix : ℕ) (sign : Option Sign) (comp : Comp)

def parseDotted5 (s : List ℕ) (integer : ℕ) (rexponent : ℤ) (base : ℕ) (bexponent : ℤ) : Parsed := do
  let real ← finishReal sign exactness integer rexponent radix base bexponent
  parseComplex s real exactness radix sign

def continueExponent (s : List ℕ) (integer : ℕ) (rexponent : ℤ) (base eint : ℕ) (esign : Option Sign) : Parsed :=
  let bexponent : ℤ := if esign = some .minus then -eint else eint
  match s with
  | [] => ended comp (finishReal sign exactness integer rexponent radix base bexponent)
  | _ => parseDotted5 parseComplex exactness radix sign s integer rexponent base bexponent

def getDigits (s : List ℕ) (integer : ℕ) (rexponent : ℤ) (base : ℕ) (esign : Option Sign) : Parsed :=
  match s with
  | [] => rejected
  | char :: s =>
    match charToDigit char 10 with
    | none => rejected
    | some digit =>
      continueExponent parseComplex exactness radix sign comp (exponentDigits s digit).1 integer rexponent base
        (exponentDigits s digit).2 esign

def parseExponent1 (s : List ℕ) (integer : ℕ) (rexponent : ℤ) (base : ℕ) : Parsed :=
  match s with
  | [] => rejected
  | char :: s =>
    match sign? char with
    | some esign => getDigits parseComplex exactness radix sign comp s integer rexponent base (some esign)
    | none => getDigits parseComplex exactness radix sign comp (char :: s) integer rexponent base none

def parseDotted4 (char : ℕ) (s : List ℕ) (integer : ℕ) (rexponent : ℤ) : Parsed :=
  if exponentMarker char then
    if radix = 10 then parseExponent1 parseComplex exactness radix sign comp s integer rexponent 10 else rejected
  else if isP char then
    if radix = 16 then parseExponent1 parseComplex exactness radix sign comp s integer rexponent 2 else rejected
  else parseDotted5 parseComplex exactness radix sign (char :: s) integer rexponent 10 0

def parseDotted3 (integer : ℕ) (rexponent : ℤ) : List ℕ → Parsed
  | [] => ended comp (finishReal sign exactness integer rexponent radix radix 0)
  | char :: s =>
    if char = '#'.toNat then parseDotted3 integer rexponent s
    else parseDotted4 parseComplex exactness radix sign comp char s integer rexponent

def parseDotted2 : List ℕ → ℕ → ℤ → Parsed
  | [], integer, rexponent => ended comp (finishReal sign exactness integer rexponent radix 10 0)
  | char :: s, integer, rexponent =>
    match charToDigit char radix with
    | some digit => parseDotted2 s (integer * radix + digit) (rexponent - 1)
    | none =>
      if char = '#'.toNat then parseDotted3 parseComplex exactness radix sign comp integer rexponent s
      else parseDotted4 parseComplex exactness radix sign comp char s integer rexponent

def parseDotted1 (s : List ℕ) : Parsed :=
  match s with
  | [] => rejected
  | char :: s =>
    match charToDigit char radix with
    | none => rejected
    | some digit => parseDotted2 parseComplex exactness radix sign comp s digit (-1)

def parseDenominator1 (s : List ℕ) (numerator : ℕ) : Parsed :=
  let run := parseDigits exactness radix s 0
  if run.rest.length < s.length then do
    let ratio ← finishRational sign run.exactness numerator run.integer
    parseComplex run.rest ratio run.exactness radix sign
  else rejected

def afterDigits (run : DigitRun) : Parsed :=
  match run.rest with
  | [] => ended comp (.ok (finishInteger sign run.exactness run.integer))
  | char :: s =>
    let inexact := run.exactness.or (some .implicitInexact)
    if char = '/'.toNat then parseDenominator1 parseComplex run.exactness radix sign s run.integer
    else if char = '.'.toNat then
      if run.sharp then parseDotted3 parseComplex run.exactness radix sign comp run.integer 0 s
      else parseDotted2 parseComplex inexact radix sign comp s run.integer 0
    else if exponentMarker char then
      if radix = 10 then parseExponent1 parseComplex inexact radix sign comp s run.integer 0 10 else rejected
    else if isP char then parseExponent1 parseComplex inexact radix sign comp s run.integer 0 2
    else parseComplex (char :: s) (finishInteger sign run.exactness run.integer) run.exactness radix sign

def parseInteger (s : List ℕ) (integer : ℕ) : Parsed :=
  afterDigits parseComplex radix sign comp (parseDigits exactness radix s integer)

def parseNanPayload (quiet : Bool) : List ℕ → ℕ → Parsed
  | [], payload => do
    let nan ← finishNan sign exactness quiet payload
    .ok (nan.map .real)
  | char :: s, payload =>
    match charToDigit char radix with
    | some digit => parseNanPayload quiet s (payload * radix + digit)
    | none => do
      match ← finishNan sign exactness quiet payload with
      | some nan => parseComplex (char :: s) nan exactness radix sign
      | none => rejected

/-- An `i` after a sign. -/
def signedUnit (s : List ℕ) (sign : Sign) : Parsed :=
  let unit : ℚ := if sign = .minus then -1 else 1
  if s ≠ [] then rejected
  else
    match comp with
    | .real => .ok (some (makeRectangular (.exact 0) (.exact unit)))
    | .imag => accepted (.exact unit)
    | .angle => rejected

def findLeader (s : List ℕ) (sign : Sign) : Parsed :=
  match s with
  | [] => rejected
  | char :: s =>
    match charToDigit char radix with
    | some digit => parseInteger parseComplex exactness radix (some sign) comp s digit
    | none =>
      if char = '.'.toNat then
        parseDotted1 parseComplex (exactness.or (some .implicitInexact)) radix (some sign) comp s
      else
        match dropPrefixCi ("inf.0".toList.map Char.toNat) (char :: s), dropPrefixCi ("nan.".toList.map Char.toNat) (char :: s),
          dropPrefixCi ("snan.".toList.map Char.toNat) (char :: s) with
        | some rest, _, _ =>
          if exactness = some .exact then rejected
          else parseComplex rest (.flonum (Flonum.infinite (sign = .minus))) exactness radix (some sign)
        | none, some rest, _ => parseNanPayload parseComplex exactness radix (some sign) true rest 0
        | none, none, some rest => parseNanPayload parseComplex exactness radix (some sign) false rest 0
        | none, none, none => if isI char then signedUnit comp s sign else rejected

def parseTopLevelWith (s : List ℕ) (exactness : Option Exactness) (radix : Option ℕ) (comp : Comp) : Parsed :=
  match s with
  | [] => rejected
  | char :: s =>
    match sign? char with
    | some sign => findLeader parseComplex exactness (radix.getD 10) comp s sign
    | none =>
      if char = '.'.toNat then
        if radix = none ∨ radix = some 10 ∨ radix = some 16 then
          parseDotted1 parseComplex (exactness.or (some .implicitInexact)) (radix.getD 10) none comp s
        else rejected
      else
        match charToDigit char (radix.getD 10) with
        | some digit => parseInteger parseComplex exactness (radix.getD 10) none comp s digit
        | none => rejected

end

section
variable (trig : Trigonometry)
variable (parseTopLevel : List ℕ → Option Exactness → Option ℕ → Comp → Parsed)

/-- The assertion `(real? imaginary)` and the number that it is. -/
def assertReal (expression : String) : Value → Except Failure Number
  | .real x => .ok x
  | .recnum _ _ => .error (.error (.assertion expression))

def afterReal (char : ℕ) (s : List ℕ) (real : Number) (exactness : Option Exactness) (radix : ℕ) (sign : Option Sign)
    (comp : Comp) : Parsed :=
  if isI char then
    if sign = none ∨ s ≠ [] then rejected
    else
      match comp with
      | .real => .ok (some (makeRectangular (.exact 0) real))
      | .imag => accepted real
      | .angle => rejected
  else if comp ≠ .real then rejected
  else if (sign? char).isSome then do
    match ← parseTopLevel (char :: s) exactness (some radix) .imag with
    | none => rejected
    | some imaginary =>
      let imaginary ← assertReal "(real? imaginary)" imaginary
      .ok (some (makeRectangular real imaginary))
  else if char = '@'.toNat then do
    match ← parseTopLevel s exactness (some radix) .angle with
    | none => rejected
    | some angle =>
      let angle ← assertReal "(real? angle)" angle
      .ok (some (makePolar trig real angle))
  else rejected

def parseComplexWith (comp : Comp) (s : List ℕ) (real : Number) (exactness : Option Exactness) (radix : ℕ)
    (sign : Option Sign) : Parsed :=
  match s with
  | [] => ended comp (.ok real)
  | char :: s =>
    afterReal trig parseTopLevel char s real (if exactness = some .implicitInexact then none else exactness) radix sign comp

end

variable (trig : Trigonometry)

def parsePart (s : List ℕ) (exactness : Option Exactness) (radix : Option ℕ) (comp : Comp) : Parsed :=
  parseTopLevelWith (parseComplexWith trig (fun _ _ _ _ => rejected) comp) s exactness radix comp

def parseComplex : Comp → List ℕ → Number → Option Exactness → ℕ → Option Sign → Parsed := parseComplexWith trig (parsePart trig)

def parseTopLevel (s : List ℕ) (exactness : Option Exactness) (radix : Option ℕ) (comp : Comp) : Parsed :=
  parseTopLevelWith (parseComplex trig comp) s exactness radix comp

theorem parseComplexWith_part {parseTopLevel parseTopLevel' : List ℕ → Option Exactness → Option ℕ → Comp → Parsed} {comp : Comp}
    (part : comp ≠ .real) : parseComplexWith trig parseTopLevel comp = parseComplexWith trig parseTopLevel' comp := by
  funext s real exactness radix sign
  cases s with
  | nil => rfl
  | cons char s =>
    simp [parseComplexWith, afterReal, part]

theorem parsePart_eq {comp : Comp} (part : comp ≠ .real) (s : List ℕ) (exactness : Option Exactness) (radix : Option ℕ) :
    parsePart trig s exactness radix comp = parseTopLevel trig s exactness radix comp := by
  unfold parsePart parseTopLevel parseComplex
  rw [parseComplexWith_part trig part]

theorem parseComplex_eq (comp : Comp) : parseComplex trig comp = parseComplexWith trig (parseTopLevel trig) comp := by
  funext s real exactness radix sign
  cases s with
  | nil => simp [parseComplex, parseComplexWith]
  | cons char s =>
    simp [parseComplex, parseComplexWith, afterReal, parsePart_eq trig (by decide : Comp.imag ≠ .real),
      parsePart_eq trig (by decide : Comp.angle ≠ .real)]

/-- The meaning of the character after a sharp. -/
inductive Marker where
  | radix (r : ℕ)
  | exactness (e : Exactness)
deriving DecidableEq

def marker? (char : ℕ) : Option Marker :=
  if char = 'b'.toNat ∨ char = 'B'.toNat then some (.radix 2)
  else if char = 'o'.toNat ∨ char = 'O'.toNat then some (.radix 8)
  else if char = 'd'.toNat ∨ char = 'D'.toNat then some (.radix 10)
  else if char = 'x'.toNat ∨ char = 'X'.toNat then some (.radix 16)
  else if char = 'e'.toNat ∨ char = 'E'.toNat then some (.exactness .exact)
  else if char = 'i'.toNat ∨ char = 'I'.toNat then some (.exactness .inexact)
  else none

def parsePrefix (defaultRadix : Option ℕ) : List ℕ → Option Exactness → Option ℕ → Parsed
  | [], _, _ => rejected
  | char :: s, exactness, radix =>
    if char = '#'.toNat then
      match s with
      | [] => rejected
      | mark :: s =>
        match marker? mark with
        | some (.radix r) => if radix = none then parsePrefix defaultRadix s exactness (some r) else rejected
        | some (.exactness e) => if exactness = none then parsePrefix defaultRadix s (some e) radix else rejected
        | none => rejected
    else parseTopLevel trig (char :: s) exactness (radix.or defaultRadix) .real

def parseNumber (s : List ℕ) (defaultRadix : Option ℕ) (name : String) : Parsed :=
  if defaultRadix = none ∨ defaultRadix = some 2 ∨ defaultRadix = some 8 ∨ defaultRadix = some 10 ∨ defaultRadix = some 16 then
    parsePrefix trig defaultRadix s none none
  else .error (.error (.badRange 2 name))

/-- `string->number`, without the argument `error?` and on a whole string. -/
def stringToNumber (s : List ℕ) (radix : Option ℕ) : Parsed := parseNumber trig s radix "string->number"

end MitScheme.Runtime.NumberParser
