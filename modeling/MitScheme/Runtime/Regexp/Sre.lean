import MitScheme.Runtime.Regexp.Nfa

/-!
The compiler of `srfi-115.scm`. An expression is tried as a char-set first, and is compiled by the rules of
the other expressions when it is none.
-/

namespace MitScheme.Runtime.Regexp

open CharSets

/-- The named char-sets; a synonym is taken for its name. -/
inductive CharSetName where
  | any | nonl | ascii | lowerCase | upperCase | titleCase | alphabetic | numeric | alphanumeric | punctuation | symbol
  | graphic | whitespace | printing | control | hexDigit
deriving DecidableEq, Repr

/-- The tables of the character database, and the procedures that read them. -/
structure Tables where
  unicode : UnicodeTable
  property : CharSetName → CharSet
  foldcase : Character → Character
  upcase : Character → Character
  downcase : Character → Character
  changesWhenCaseFolded : CharSet
  changesWhenUpperCased : CharSet
  changesWhenLowerCased : CharSet
  graphemeClusterBreaks : List Character → ℕ → ℕ → List ℕ
  property_made : ∀ name, Made (property name)
  caseFolded_made : Made changesWhenCaseFolded
  upperCased_made : Made changesWhenUpperCased
  lowerCased_made : Made changesWhenLowerCased

/-- `char-set*`, in the compiler. -/
def elementsToCharSet (cpl : List Element) : Except Error CharSet := (charSetStar cpl).elim (.error .wrongType) .ok

def charSetAscii : CharSet := ilistToCharSet [0x00, 0x80]

def charSetNewline : CharSet := charsToCharSet [⟨0x0A, by decide⟩, ⟨0x0D, by decide⟩]

section
variable (tables : Tables)

/-- `name->char-set` -/
def nameToCharSet : CharSetName → CharSet
  | .any => charSetUnicode tables.unicode
  | .nonl => charSetDifference (charSetUnicode tables.unicode) [charSetNewline]
  | .ascii => charSetAscii
  | name => tables.property name

def charSetWord : CharSet := charSetAdjoin (nameToCharSet tables .alphabetic) [⟨0x5F, by decide⟩]

def unicodeChar (char : Character) : Bool := charSetContains (charSetUnicode tables.unicode) char

def charSetFoldcase : CharSet → CharSet := domainMapper tables.foldcase tables.changesWhenCaseFolded

def charSetUpcase : CharSet → CharSet := domainMapper tables.upcase tables.changesWhenUpperCased

def charSetDowncase : CharSet → CharSet := domainMapper tables.downcase tables.changesWhenLowerCased

end

inductive RangeSpec where
  | char (char : Character)
  | string (string : List Character)

/-- The expressions without operands; a char-set is one that was made before. -/
inductive Terminal where
  | char (char : Character)
  | string (string : List Character)
  | charSet (charSet : CharSet) (made : Made charSet)
  | chars (string : List Character)
  | ranges (specs : List RangeSpec)
  | name (name : CharSetName)

/-- `and`, `-` and `~` -/
inductive SetOperation where
  | and
  | difference
  | complement
deriving DecidableEq, Repr

/-- The operations on a sequence; `+` is `atLeast 1`. -/
inductive Operation where
  | star
  | optional
  | exactly (n : ℕ)
  | atLeast (n : ℕ)
  | repeated (n m : ℕ)
  | seq
  | submatch
  | submatchNamed (key : String)
  | nonGreedyOptional
  | nonGreedyStar
  | nonGreedyRepeated (n m : ℕ)
deriving DecidableEq, Repr

inductive Assertion where
  | bos
  | eos
  | bol
  | eol
  | bow
  | eow
  | nwb
  | bog
  | eog
deriving DecidableEq, Repr

inductive Scope where
  | wCase
  | wNocase
  | wUnicode
  | wAscii
  | wNocapture
deriving DecidableEq, Repr

/-- The expressions; `word`, `word+` and `grapheme` are rewritten to others. -/
inductive Sre where
  | terminal (terminal : Terminal)
  | or (sres : List Sre)
  | setOperation (operation : SetOperation) (sres : List Sre)
  | operation (operation : Operation) (sres : List Sre)
  | assertion (assertion : Assertion)
  | within (scope : Scope) (sres : List Sre)

/-- `<ctx>` of the compiler. -/
structure Scopes where
  foldP : Bool
  asciiP : Bool
  noCaptureP : Bool
deriving DecidableEq, Repr

def initialScopes : Scopes := ⟨false, false, false⟩

def Scopes.enter (ctx : Scopes) : Scope → Scopes
  | .wCase => { ctx with foldP := false }
  | .wNocase => { ctx with foldP := true }
  | .wUnicode => { ctx with asciiP := false }
  | .wAscii => { ctx with asciiP := true }
  | .wNocapture => { ctx with noCaptureP := true }

def orderedPairs : List Character → Bool
  | low :: high :: string => decide (low.code ≤ high.code) && orderedPairs string
  | [] => true
  | [_] => false

def Operation.legal : Operation → Bool
  | .repeated n m => decide (n ≤ m)
  | .nonGreedyRepeated n m => decide (n ≤ m)
  | _ => true

section
variable (tables : Tables)

def validRangeSpec : RangeSpec → Bool
  | .char char => unicodeChar tables char
  | .string string => orderedPairs string

/-- The rules of `cset-sre-rules` for the expressions without operands. -/
def validTerminal : Terminal → Bool
  | .char char => unicodeChar tables char
  | .string string => decide (string.length = 1)
  | .ranges specs => specs.all (validRangeSpec tables)
  | _ => true

mutual

def validCsetSre : Sre → Bool
  | .terminal terminal => validTerminal tables terminal
  | .or sres => validCsetSres sres
  | .setOperation _ sres => validCsetSres sres
  | .within .wNocapture _ => false
  | .within _ sres => validCsetSres sres
  | .operation _ _ => false
  | .assertion _ => false

def validCsetSres : List Sre → Bool
  | [] => true
  | sre :: sres => validCsetSre sre && validCsetSres sres

end

mutual

def validSre (sre : Sre) : Bool :=
  validCsetSre tables sre || match sre with
    | .terminal (.string _) => true
    | .or sres => validSres sres
    | .operation operation sres => operation.legal && validSres sres
    | .assertion _ => true
    | .within _ sres => validSres sres
    | _ => false

def validSres : List Sre → Bool
  | [] => true
  | sre :: sres => validSre sre && validSres sres

end

end

/-- The value of an expression that is a char-set. The rules of `w/case` and of its like return the list of
the values of their operands. -/
inductive Value where
  | charSet (charSet : CharSet)
  | list (values : List Value)

def valueToCharSet : Value → Except Error CharSet
  | .charSet charSet => .ok charSet
  | .list _ => .error .wrongType

def valuesToCharSets : List Value → Except Error (List CharSet)
  | [] => .ok []
  | value :: values => do
    let charSet ← valueToCharSet value
    let charSets ← valuesToCharSets values
    .ok (charSet :: charSets)

def applyToCharSets (combine : List CharSet → CharSet) : List Value → Except Error Value
  | [value] => .ok value
  | values => do return .charSet (combine (← valuesToCharSets values))

section
variable (tables : Tables)

/-- `(apply char-set-difference values)` -/
def applyDifference (values : List Value) : Except Error Value :=
  if values = [] then .error .wrongArity else
    applyToCharSets (fun
      | [] => charSetEmpty
      | charSet :: charSets => charSetDifference charSet charSets) values

def applySetOperation (ctx : Scopes) (values : List Value) : SetOperation → Except Error Value
  | .and => applyToCharSets (charSetIntersection tables.unicode) values
  | .difference => applyDifference values
  | .complement =>
    applyDifference (.charSet (if ctx.asciiP then charSetAscii else charSetUnicode tables.unicode) :: values)

def maybeXform (ctx : Scopes) (charSet : CharSet) : CharSet :=
  let charSet := if ctx.asciiP then charSetIntersection tables.unicode [charSetAscii, charSet] else charSet
  if ctx.foldP then charSetUnion [charSet, charSetUpcase tables charSet, charSetDowncase tables charSet] else charSet

/-- Without a change to make, `maybe-xform` takes any object. -/
def maybeXformValue (ctx : Scopes) (value : Value) : Except Error Value :=
  if ctx.foldP || ctx.asciiP then do return .charSet (maybeXform tables ctx (← valueToCharSet value)) else .ok value

def pairRanges : List Character → List Element
  | low :: high :: string => .range (.pair low.code (high.code + 1)) :: pairRanges string
  | _ => []

/-- `range-spec->ranges` -/
def rangeSpecToRanges : RangeSpec → List Element
  | .char char => [.char char]
  | .string string => (pairRanges string).reverse

def terminalToCharSet : Terminal → Except Error CharSet
  | .char char => elementsToCharSet [.char char]
  | .string string => elementsToCharSet [.string string]
  | .charSet charSet _ => .ok charSet
  | .chars string => elementsToCharSet [.string string]
  | .ranges specs => elementsToCharSet (specs.flatMap rangeSpecToRanges)
  | .name name => .ok (nameToCharSet tables name)

mutual

def compileCsetSre (sre : Sre) (ctx : Scopes) : Except Error Value :=
  match sre with
  | .terminal terminal => do return .charSet (maybeXform tables ctx (← terminalToCharSet tables terminal))
  | .or sres => do applyToCharSets charSetUnion (← compileCsetSres sres ctx)
  | .setOperation operation sres => do applySetOperation tables ctx (← compileCsetSres sres ctx) operation
  | .within scope sres => do return .list (← compileCsetSres sres (ctx.enter scope))
  | .operation _ _ => .error .illFormed
  | .assertion _ => .error .illFormed

def compileCsetSres (sres : List Sre) (ctx : Scopes) : Except Error (List Value) :=
  match sres with
  | [] => .ok []
  | sre :: sres => do
    let value ← compileCsetSre sre ctx
    let values ← compileCsetSres sres ctx
    .ok (value :: values)

end

/-- `char=-predicate` -/
def charEqualPredicate (char char' : Character) : Bool := char'.code == char.code

/-- `char-ci=-predicate` -/
def charCiEqualPredicate (char char' : Character) : Bool := (tables.foldcase char').code == (tables.foldcase char).code

def charSetCiPredicate (charSet : CharSet) (char : Character) : Bool :=
  charSetContains (charSetFoldcase tables charSet) (tables.foldcase char)

def insnChar (char : Character) (ci : Bool) : Insn :=
  normalInsn <| .match <|
    -- The procedure that makes the predicate is itself taken for the predicate.
    if ci then fun nextChar => .procedure (charCiEqualPredicate tables nextChar)
    else fun nextChar => .boolean (charEqualPredicate char nextChar)

def insnCharSet (charSet : CharSet) (ci : Bool) : Except Error Insn :=
  if charSetSize charSet = 0 then .ok failInsn
  else if charSetSize charSet = 1 then
    (charSetFirst charSet).elim (.error .badRange) fun char => .ok (insnChar tables char ci)
  else
    .ok <| normalInsn <| .match fun nextChar =>
      .boolean (if ci then charSetCiPredicate tables charSet nextChar else charSetContains charSet nextChar)

def insnString (string : List Character) (ci : Bool) : Insn := insnSeq (string.map fun char => insnChar tables char ci)

/-- The clause of `compile-sre` for an expression that is a char-set. -/
def compileCharSet (sre : Sre) (ctx : Scopes) : Except Error Insn := do
  let value ← compileCsetSre tables sre ctx
  let charSet ← maybeXformValue tables ctx value >>= valueToCharSet
  insnCharSet tables charSet ctx.foldP

end

/-- What the compiler keeps: the next number and the keys of the submatches, and whether an instruction
asks for the breaks of grapheme clusters. -/
structure Compilation where
  submatchNext : ℕ
  submatchKeys : List Key
  gcbInsnsSeen : Bool
deriving DecidableEq, Repr

abbrev CompileM := StateT Compilation (Except Error)

def nextSubmatchNumber : CompileM ℕ :=
  modifyGet fun c => (c.submatchNext, { c with submatchNext := c.submatchNext + 1 })

def submatch (key : Key) (insn : Insn) : CompileM Insn := do
  modify fun c => if key ∈ c.submatchKeys then c else { c with submatchKeys := key :: c.submatchKeys }
  return insnGroup key insn

def gcbInsn (insn : Insn) : CompileM Insn := do
  modify fun c => { c with gcbInsnsSeen := true }
  return insn

def compileOperation (ctx : Scopes) (insn : Insn) : Operation → CompileM Insn
  | .star => return insnStar insn
  | .optional => return insnOptional insn
  | .exactly n => return insnExactly n insn
  | .atLeast n => return insnAtLeast n insn
  | .repeated n m => return insnRepeated n m insn
  | .seq => return insn
  | .submatch => if ctx.noCaptureP then return insn else do submatch (.number (← nextSubmatchNumber)) insn
  | .submatchNamed key => if ctx.noCaptureP then return insn else submatch (.name key) insn
  | .nonGreedyOptional => return insnNonGreedyOptional insn
  | .nonGreedyStar => return insnNonGreedyStar insn
  | .nonGreedyRepeated n m => return insnNonGreedyRepeated n m insn

section
variable (tables : Tables)

def compileAssertion : Assertion → CompileM Insn
  | .bos => return insnStringStart
  | .eos => return insnStringEnd
  | .bol => return insnStartBoundary (charSetInvert charSetNewline)
  | .eol => return insnEndBoundary (charSetInvert charSetNewline)
  | .bow => return insnStartBoundary (charSetWord tables)
  | .eow => return insnEndBoundary (charSetWord tables)
  | .nwb => return insnNonBoundary (charSetWord tables)
  | .bog => gcbInsn insnBog
  | .eog => gcbInsn insnEog

mutual

def compileSre (sre : Sre) (ctx : Scopes) : CompileM Insn :=
  if validCsetSre tables sre then StateT.lift (compileCharSet tables sre ctx)
  else if !validSre tables sre then throw .illFormed
  else match sre with
    | .terminal (.string string) => return insnString tables string ctx.foldP
    | .or sres => do return insnAlt (← compileEach sres ctx)
    | .operation operation sres => do compileOperation ctx (insnSeq (← compileEach sres ctx)) operation
    | .assertion assertion => compileAssertion tables assertion
    | .within scope sres => do return insnSeq (← compileEach sres (ctx.enter scope))
    | _ => throw .illFormed

def compileEach (sres : List Sre) (ctx : Scopes) : CompileM (List Insn) :=
  match sres with
  | [] => return []
  | sre :: sres => do
    let insn ← compileSre sre ctx
    let insns ← compileEach sres ctx
    return insn :: insns

end

structure Compiled where
  impl : Matcher
  submatchKeys : List Key

/-- `compile-sre-top-level`; the keys are not sorted. -/
def compileTopLevel (sre : Sre) : Except Error Compiled := do
  let compiled ← (compileSre tables sre initialScopes).run { submatchNext := 1, submatchKeys := [], gcbInsnsSeen := false }
  return { impl := linkMatcher compiled.1 compiled.2.gcbInsnsSeen, submatchKeys := compiled.2.submatchKeys }

def endIndex (stop : Option ℕ) (length : ℕ) : Except Error ℕ :=
  match stop with
  | none => .ok length
  | some stop => if stop ≤ length then .ok stop else .error .badRange

def startIndex (start : Option ℕ) (stop : ℕ) : Except Error ℕ :=
  match start with
  | none => .ok 0
  | some start => if start ≤ stop then .ok start else .error .badRange

/-- `regexp-matches?`, and `regexp-matches-some?` when not all of the string is to be matched. -/
def regexpMatches (sre : Sre) (matchAll : Bool) (string : List Character) (start stop : Option ℕ) (fuel : ℕ) :
    Except Error Bool := do
  let stop ← endIndex stop string.length
  let start ← startIndex start stop
  let regexp ← compileTopLevel tables sre
  let groups ← runMatcher tables.graphemeClusterBreaks regexp.impl matchAll false start string start stop fuel
  return groups.isSome

end

end MitScheme.Runtime.Regexp
