import MitScheme.Library.Packets
import MitScheme.Runtime.Utf.Bytevector

/-!
The incremental encoder and decoder, on characters by their codes. Where the source searches a part of
a string for a newline, the model splits the part there; a part is the list of its characters.
-/

namespace MitScheme.Runtime.MimeCodec

open Library Utf

def qpNewline : ℕ := 10
def qpEquals : ℕ := 61

def charLwsp (char : ℕ) : Bool := char == 32 || char == 9

def char8Bit (char : ℕ) : Bool := char < 0x100

/-- `char-set:qp-encoded`: all but the printable characters, without the equals sign, and blanks. -/
def qpEncoded (char : ℕ) : Bool := !((0x21 ≤ char && char < 0x7F && char != qpEquals) || charLwsp char)

/-- What ends the part of the input: nothing yet, a newline, or the end. -/
inductive PartEnd where
  | part
  | lineEnd
  | inputEnd
deriving DecidableEq, Repr

def splitNewline : List ℕ → Option (List ℕ × List ℕ)
  | [] => none
  | char :: rest =>
    if char = qpNewline then some ([], rest)
    else (splitNewline rest).map fun (before, after) => (char :: before, after)

structure QpEncodingContext where
  port : List ℕ
  text : Bool
  /-- A blank that is encoded if the line ends behind it. -/
  pendingLwsp : Option ℕ
  column : ℕ
  /-- An output that fits on the line only if the line ends behind it. -/
  pendingOutput : Option (List ℕ)
deriving Repr

def encodeQuotedPrintableInitialize (text : Bool) : QpEncodingContext := ⟨[], text, none, 0, none⟩

def writeQpSoftBreak (context : QpEncodingContext) : QpEncodingContext :=
  { context with port := context.port ++ [qpEquals, qpNewline], column := 0 }

/-- Writes the pending output, behind a soft break unless a newline follows. -/
def writeQpPendingOutput (context : QpEncodingContext) (newline : Bool) : QpEncodingContext :=
  match context.pendingOutput with
  | some pending =>
    let context := if newline then context else writeQpSoftBreak context
    { context with
      port := context.port ++ pending
      pendingOutput := none
      column := context.column + pending.length }
  | none => context

def writeQpClear (context : QpEncodingContext) (char : ℕ) : QpEncodingContext :=
  let context := writeQpPendingOutput context false
  if context.column < 75 then { context with port := context.port ++ [char], column := context.column + 1 }
  else if !context.text then
    let context := writeQpSoftBreak context
    { context with port := context.port ++ [char], column := 1 }
  else { context with pendingOutput := some [char] }

/-- `(string-ref "0123456789ABCDEF" c)`. -/
def qpHex (c : ℕ) : ℕ := if c < 10 then 48 + c else 55 + c

def writeQpEncoded (context : QpEncodingContext) (char : ℕ) : Except Error QpEncodingContext :=
  let context := writeQpPendingOutput context false
  if char ≤ 0xFF then
    let c1 := qpHex (lsh char (-4))
    let c2 := qpHex (char &&& 0x0F)
    if context.column = 73 then .ok { context with pendingOutput := some [qpEquals, c1, c2] }
    else
      let context := if context.column > 73 then writeQpSoftBreak context else context
      .ok { context with port := context.port ++ [qpEquals, c1, c2], column := context.column + 3 }
  else .error (.simple "Assertion failed" [])

def writeQpHardBreak (context : QpEncodingContext) : QpEncodingContext :=
  let context := writeQpPendingOutput context true
  { context with port := context.port ++ [qpNewline], column := 0 }

def encodeQpPendingLwsp (context : QpEncodingContext) (packetNotEmpty : Bool) (type : PartEnd) :
    Except Error QpEncodingContext :=
  match context.pendingLwsp with
  | some pending =>
    if packetNotEmpty then .ok (writeQpClear { context with pendingLwsp := none } pending)
    else if type ≠ .part then writeQpEncoded { context with pendingLwsp := none } pending
    else .ok context
  | none => .ok context

def writeQpChar (context : QpEncodingContext) (char : ℕ) : Except Error QpEncodingContext :=
  if qpEncoded char then writeQpEncoded context char else .ok (writeQpClear context char)

def writeQpLwsp (context : QpEncodingContext) (char : ℕ) (more : Bool) : Except Error QpEncodingContext :=
  if more then .ok (writeQpClear context char) else writeQpEncoded context char

def encodeQpLoop (type : PartEnd) : QpEncodingContext → List ℕ → Except Error QpEncodingContext
  | context, [] => if type = .lineEnd then .ok (writeQpHardBreak context) else .ok context
  | context, char :: rest =>
    if !char8Bit char then .error (.simple "Quoted-printable encoder can't handle Unicode" [])
    else if !charLwsp char then do
      let context ← writeQpChar context char
      encodeQpLoop type context rest
    else if type = .part ∧ rest = [] then .ok { context with pendingLwsp := some char }
    else do
      let context ← writeQpLwsp context char (!rest.isEmpty)
      encodeQpLoop type context rest

def encodeQp (context : QpEncodingContext) (chars : List ℕ) (type : PartEnd) : Except Error QpEncodingContext := do
  let context ← encodeQpPendingLwsp context (!chars.isEmpty) type
  encodeQpLoop type context chars

def encodeQpLines : ℕ → QpEncodingContext → List ℕ → Except Error QpEncodingContext
  | 0, _, _ => .error .unfinished
  | fuel + 1, context, chars =>
    match splitNewline chars with
    | some (before, after) => do
      let context ← encodeQp context before .lineEnd
      encodeQpLines fuel context after
    | none => encodeQp context chars .part

def encodeQuotedPrintableUpdate (context : QpEncodingContext) (string : List ℕ) (start stop : Option ℕ) :
    Except Error QpEncodingContext := do
  let (first, last) ← range string.length start stop "encode-quoted-printable:update"
  if context.text then encodeQpLines (string.length + 1) context ((string.take last).drop first)
  else encodeQp context ((string.take last).drop first) .part

def encodeQuotedPrintableFinalize (context : QpEncodingContext) : Except Error QpEncodingContext := do
  let context ← encodeQpPendingLwsp context false .inputEnd
  .ok (writeQpPendingOutput context true)

inductive QpPending where
  | none
  | string (blanks : List ℕ)
  | char (c : ℕ)
deriving DecidableEq, Repr

structure QpDecodingContext where
  port : List ℕ
  text : Bool
  pending : QpPending
deriving Repr

def decodeQuotedPrintableInitialize (text : Bool) : QpDecodingContext := ⟨[], text, .none⟩

structure DigitTable where
  /-- `digit-value`, which the tables of the Unicode database decide outside of ASCII -/
  value : ℕ → Option ℕ
  ascii : ∀ c < 0x80, value c = if 48 ≤ c ∧ c ≤ 57 then some (c - 48) else none
  /-- Compiled fixnum operations do not check their arguments. -/
  checks : Bool

/-- `char->digit` in radix 16. -/
def charToDigit16 (D : DigitTable) (char : ℕ) : Option ℕ :=
  match D.value char with
  | some digit => if digit < 16 then some digit else none
  | none =>
    if 10 ≤ (char : ℤ) - 55 ∧ (char : ℤ) - 55 < 16 then some (char - 55)
    else if 10 ≤ (char : ℤ) - 87 ∧ (char : ℤ) - 87 < 16 then some (char - 87)
    else none

def skipLwspBackwards : List ℕ → List ℕ × List ℕ
  | [] => ([], [])
  | char :: rest =>
    let (body, blanks) := skipLwspBackwards rest
    if body.isEmpty && charLwsp char then ([], char :: blanks) else (char :: body, blanks)

/-- `fix:<` of a digit and 16, where a character that is no digit has the value `#f`: without a check, the word 0. -/
def digitBelow16 (checks : Bool) : Option ℕ → Except Error Bool
  | some d => .ok (d < 16)
  | none => if checks then .error (.wrongType .unspecific "integer-less?") else .ok true

/-- The test of `decode-qp-hex`, with the second digit only if the first one passes. -/
def digitsBelow16 (checks : Bool) (d1 d2 : Option ℕ) : Except Error Bool := do
  let below ← digitBelow16 checks d1
  if below then digitBelow16 checks d2 else .ok false

/-- Writes the character of two digits; the answer tells whether the second one is used up. -/
def decodeQpHex (D : DigitTable) (context : QpDecodingContext) (c1 c2 : ℕ) :
    Except Error (QpDecodingContext × Bool) := do
  let below ← digitsBelow16 D.checks (charToDigit16 D c1) (charToDigit16 D c2)
  if below then
    .ok ({ context with port := context.port ++
      [lsh ((charToDigit16 D c1).getD 0) 4 ||| (charToDigit16 D c2).getD 0] }, true)
  else .ok ({ context with port := context.port ++ [qpEquals, c1] }, false)

mutual

def decodeQpLoop (D : DigitTable) : List ℕ → QpDecodingContext → Except Error QpDecodingContext
  | [], context => .ok context
  | char :: rest, context =>
    if qpEncoded char then
      if char = qpEquals then handleEquals D rest context else decodeQpLoop D rest context
    else decodeQpLoop D rest { context with port := context.port ++ [char] }

def handleEquals (D : DigitTable) : List ℕ → QpDecodingContext → Except Error QpDecodingContext
  | [], context => .ok { context with pending := .char qpEquals }
  | [c], context =>
    if (charToDigit16 D c).isSome then .ok { context with pending := .char c }
    else .ok { context with port := context.port ++ [qpEquals, c] }
  | c1 :: c2 :: rest, context => do
    let (context, used) ← decodeQpHex D context c1 c2
    if used then decodeQpLoop D rest context else decodeQpLoop D (c2 :: rest) context

end

def decodeQpPendingString (pending : QpPending) (blanks : List ℕ) : Except Error QpPending :=
  if blanks.isEmpty then .ok pending
  else
    match pending with
    | .none => .ok (.string blanks)
    | .string before => .ok (.string (before ++ blanks))
    | .char _ => .error (.wrongType .unspecific "string-append")

def finishQp (context : QpDecodingContext) (blanks : List ℕ) (type : PartEnd) : Except Error QpDecodingContext :=
  if type = .part then do
    let pending ← decodeQpPendingString context.pending blanks
    .ok { context with pending := pending }
  else
    match context.pending with
    | .none => .ok { context with port := if type = .lineEnd then context.port ++ [qpNewline] else context.port }
    | .char c =>
      if c = qpEquals then
        .ok { context with
          pending := .none
          port := if type = .lineEnd then context.port else context.port ++ [qpEquals] }
      else .ok { context with pending := .none, port := context.port ++ [qpEquals, c] }
    | .string _ => .ok { context with pending := .none }

/-- What `decode-qp` does first with a character of the part, by what is pending. -/
def resumeQp (D : DigitTable) (context : QpDecodingContext) (first : ℕ) (rest : List ℕ) :
    Except Error QpDecodingContext :=
  match context.pending with
  | .none => decodeQpLoop D (first :: rest) context
  | .string blanks =>
    decodeQpLoop D (first :: rest) { context with pending := .none, port := context.port ++ blanks }
  | .char c =>
    if c = qpEquals then handleEquals D (first :: rest) { context with pending := .none }
    else do
      let (context, used) ← decodeQpHex D { context with pending := .none } c first
      if used then decodeQpLoop D rest context else decodeQpLoop D (first :: rest) context

def decodeQp (D : DigitTable) (context : QpDecodingContext) (chars : List ℕ) (type : PartEnd) :
    Except Error QpDecodingContext := do
  let (body, blanks) := skipLwspBackwards chars
  match body with
  | [] => finishQp context blanks type
  | first :: rest => do
    let context ← resumeQp D context first rest
    finishQp context blanks type

def decodeQpLines (D : DigitTable) : ℕ → QpDecodingContext → List ℕ → Except Error QpDecodingContext
  | 0, _, _ => .error .unfinished
  | fuel + 1, context, chars =>
    match splitNewline chars with
    | some (before, after) => do
      let context ← decodeQp D context (skipLwspBackwards before).1 .lineEnd
      decodeQpLines D fuel context after
    | none => decodeQp D context chars .part

def decodeQuotedPrintableUpdate (D : DigitTable) (context : QpDecodingContext) (string : List ℕ)
    (start stop : Option ℕ) : Except Error QpDecodingContext := do
  let (first, last) ← range string.length start stop "decode-quoted-printable:update"
  decodeQpLines D (string.length + 1) context ((string.take last).drop first)

def decodeQuotedPrintableFinalize (D : DigitTable) (context : QpDecodingContext) : Except Error QpDecodingContext :=
  decodeQp D context [] .inputEnd

def encodeQuotedPrintablePackets (text : Bool) (packets : List (Packet ℕ)) : Except Error (List ℕ) := do
  let context ← packets.foldlM (fun context p => encodeQuotedPrintableUpdate context p.items p.start p.stop)
    (encodeQuotedPrintableInitialize text)
  let context ← encodeQuotedPrintableFinalize context
  .ok context.port

def decodeQuotedPrintablePackets (D : DigitTable) (text : Bool) (packets : List (Packet ℕ)) : Except Error (List ℕ) := do
  let context ← packets.foldlM (fun context p => decodeQuotedPrintableUpdate D context p.items p.start p.stop)
    (decodeQuotedPrintableInitialize text)
  let context ← decodeQuotedPrintableFinalize D context
  .ok context.port

end MitScheme.Runtime.MimeCodec
