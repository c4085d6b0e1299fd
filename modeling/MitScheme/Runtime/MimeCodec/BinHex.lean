import MitScheme.Runtime.MimeCodec.Base64

/-!
The incremental decoder: it looks for the comment line, gathers quanta of four characters, and would
write their bytes to a port that expands runs and takes the file apart.
-/

namespace MitScheme.Runtime.MimeCodec

open Library Utf List

inductive FileState where
  | readingHeader
  | copyingData
  | skippingTail
  | finished
deriving DecidableEq, Repr

/-- The sink of `make-binhex40-deconstructing-port`, with what it has written to its port. -/
structure DeconstructingSink where
  state : FileState
  headerLength : ℕ
  header : Bytevector
  index : ℕ
  dataLength : ℕ
  port : Bytevector
deriving DecidableEq, Repr

def makeDeconstructingSink : DeconstructingSink := ⟨.readingHeader, 0, [], 0, 0, []⟩

namespace DeconstructingSink

def readDataLength (sink : DeconstructingSink) (index : ℕ) : Except Error ℕ := do
  let b0 ← bytevectorU8Ref sink.header index
  let b1 ← bytevectorU8Ref sink.header (index + 1)
  let b2 ← bytevectorU8Ref sink.header (index + 2)
  let b3 ← bytevectorU8Ref sink.header (index + 3)
  .ok (b0 * 0x1000000 + b1 * 0x10000 + b2 * 0x100 + b3)

def readingHeader (sink : DeconstructingSink) (byte : UInt8) : Except Error DeconstructingSink :=
  if sink.index = 0 then
    .ok { sink with headerLength := 22 + byte.toNat, header := List.replicate (22 + byte.toNat) 0, index := 1 }
  else if sink.index < sink.headerLength then do
    let header ← bytevectorU8Set sink.header sink.index byte.toNat
    .ok { sink with header := header, index := sink.index + 1 }
  else do
    let dataLength ← sink.readDataLength (sink.headerLength - 10)
    .ok { sink with dataLength := dataLength, index := 0, state := .copyingData }

def copyingData (sink : DeconstructingSink) (byte : UInt8) : Except Error DeconstructingSink :=
  if sink.index < sink.dataLength then
    .ok { sink with port := sink.port ++ [byte], index := sink.index + 1 }
  else do
    let dataLength ← sink.readDataLength (sink.headerLength - 6)
    .ok { sink with index := 0, dataLength := dataLength + 4, state := .skippingTail }

def skippingTail (sink : DeconstructingSink) : Except Error DeconstructingSink :=
  if sink.index < sink.dataLength then .ok { sink with index := sink.index + 1 }
  else .ok { sink with state := .finished }

def writeU8 (sink : DeconstructingSink) (byte : UInt8) : Except Error DeconstructingSink :=
  match sink.state with
  | .readingHeader => sink.readingHeader byte
  | .copyingData => sink.copyingData byte
  | .skippingTail => sink.skippingTail
  | .finished => .ok sink

def writeBytes (sink : DeconstructingSink) (bytes : Bytevector) : Except Error DeconstructingSink :=
  bytes.foldlM writeU8 sink

end DeconstructingSink

def marker : UInt8 := 0x90

/-- The sink of `make-binhex40-run-length-decoding-port`; `byte` is the byte that waits for a marker. -/
structure RunLengthSink where
  markerSeen : Bool
  byte : Option UInt8
  port : DeconstructingSink
deriving DecidableEq, Repr

namespace RunLengthSink

def release (sink : RunLengthSink) : Except Error DeconstructingSink := sink.port.writeBytes sink.byte.toList

def writeByte (sink : RunLengthSink) (byte : UInt8) : Except Error RunLengthSink :=
  if sink.markerSeen then
    if byte = 0 then do
      let port ← sink.release
      .ok { markerSeen := false, byte := some marker, port := port }
    else
      match sink.byte with
      | some waiting => do
        let port ← sink.port.writeBytes (List.replicate byte.toNat waiting)
        .ok { markerSeen := false, byte := none, port := port }
      | none => .ok { sink with markerSeen := false }
  else if byte = marker then .ok { sink with markerSeen := true }
  else do
    let port ← sink.release
    .ok { sink with byte := some byte, port := port }

def writeBytes (sink : RunLengthSink) (bytes : Bytevector) : Except Error RunLengthSink :=
  bytes.foldlM writeByte sink

/-- `close`, with what the port of the file has got in the end. -/
def close (sink : RunLengthSink) : Except Error Bytevector := do
  let port ← sink.release
  let port ← if sink.markerSeen then port.writeU8 marker else .ok port
  .ok port.port

end RunLengthSink

/-- What stands in an argument place of `write-bytevector`. -/
inductive Operand where
  | index (n : ℕ)
  | port (sink : RunLengthSink)

/-- `check-output-port`; what is no port has no output buffer. -/
def checkOutputPort : Operand → Except Error RunLengthSink
  | .port sink => .ok sink
  | .index n => .error (.notA "binary-port" n "port-output-buffer")

def Operand.toIndex : Operand → Except Error ℕ
  | .index n => .ok n
  | .port _ => .error (.wrongType .unspecific "write-bytevector")

/-- `write-bytevector`. The buffer of the port only delays the bytes. -/
def writeBytevector (bytes : Bytevector) (port start stop : Operand) : Except Error RunLengthSink := do
  let sink ← checkOutputPort port
  let last ← stop.toIndex
  if last ≤ bytes.length then do
    let first ← start.toIndex
    if first ≤ last then sink.writeBytes (bytevectorCopy bytes first last)
    else .error (.badRange first "write-bytevector")
  else .error (.badRange last "write-bytevector")

def charColon : ℕ := 58

/-- `binhex40:digit->char-table`. -/
def binhex40DigitToCharTable : List ℕ :=
  ['!',
    '"', '#', '$', '%', '&', '\'', '(', ')', '*', '+', ',', '-', '0', '1', '2', '3', '4', '5', '6', '8', '9', '@', 'A', 'B', 'C', 'D', 'E', 'F', 'G', 'H', 'I', 'J', 'K', 'L', 'M', 'N', 'P', 'Q', 'R', 'S', 'T', 'U', 'V', 'X', 'Y', 'Z', '[', '\x60', 'a', 'b', 'c', 'd', 'e', 'f', 'h', 'i', 'j', 'k', 'l', 'm', 'p', 'q', 'r'].map Char.toNat

def fillDigits : ℕ → List ℕ → List ℕ → List ℕ
  | _, [], table => table
  | digit, char :: rest, table => fillDigits (digit + 1) rest (table.set char digit)

def binhex40CharToDigitTable : List ℕ := fillDigits 0 binhex40DigitToCharTable (List.replicate 0x80 0xFF)

def binhex40CharToDigit (char : ℕ) : ℕ := if char < 0x80 then binhex40CharToDigitTable.getD char 0xFF else 0xFF

inductive BinHex40State where
  | seekingComment
  | decoding
  | ignoring
deriving DecidableEq, Repr

structure BinHex40DecodingContext where
  port : RunLengthSink
  state : BinHex40State
  lineBuffer : Option (List ℕ)
  inputBuffer : List ℕ
  inputIndex : ℕ
  outputBuffer : Bytevector
deriving Repr

def decodeBinhex40Initialize : BinHex40DecodingContext :=
  ⟨⟨false, none, makeDeconstructingSink⟩, .seekingComment, some [], List.replicate 4 0, 0, List.replicate 3 0⟩

def decodeBinhex40Char (input : List ℕ) (index : ℕ) : Except Error ℕ :=
  if binhex40CharToDigit (input.getD index 0) ≥ 0x40 then
    .error (.simple "Illegal character in BinHex 4.0 input stream:" [UInt8.ofNat (input.getD index 0)])
  else .ok (binhex40CharToDigit (input.getD index 0))

def decodeBinhex40Quantum1 (input : List ℕ) (output : Bytevector) : Except Error (Bytevector × ℕ) := do
  let d1 ← decodeBinhex40Char input 0
  let d2 ← decodeBinhex40Char input 1
  if input.getD 2 0 = charColon then do
    let output ← bytevectorU8Set output 0 (lsh d1 2 + lsh d2 (-4))
    .ok (output, 1)
  else if input.getD 3 0 = charColon then do
    let d3 ← decodeBinhex40Char input 2
    let n := (lsh d1 10 + lsh d2 4) + lsh d3 (-2)
    let output ← bytevectorU8Set output 0 (lsh n (-8))
    let output ← bytevectorU8Set output 1 (0xFF &&& n)
    .ok (output, 2)
  else do
    let d3 ← decodeBinhex40Char input 2
    let d4 ← decodeBinhex40Char input 3
    let n := (lsh d1 18 + lsh d2 12) + (lsh d3 6 + d4)
    let output ← bytevectorU8Set output 0 (lsh n (-16))
    let output ← bytevectorU8Set output 1 (0xFF &&& lsh n (-8))
    let output ← bytevectorU8Set output 2 (0xFF &&& n)
    .ok (output, 3)

/-- The operands of `write-bytevector` stand in the order of the source: the zero is in the place of the
port, and the port in that of the end. -/
def decodeBinhex40Quantum (context : BinHex40DecodingContext) : Except Error BinHex40DecodingContext := do
  let (output, n) ← decodeBinhex40Quantum1 context.inputBuffer context.outputBuffer
  let port ← writeBytevector output (.index 0) (.index n) (.port context.port)
  .ok { context with outputBuffer := output, port := port }

def decodeBinhex40Loop : BinHex40DecodingContext → ℕ → List ℕ → Except Error BinHex40DecodingContext
  | context, index, [] => .ok { context with inputIndex := index }
  | context, index, char :: rest =>
    if char = charColon then do
      let context ← if index > 0 then
          decodeBinhex40Quantum { context with inputBuffer := context.inputBuffer.set index char }
        else .ok context
      .ok { context with state := .ignoring }
    else if binhex40CharToDigit char < 0x40 then
      let context := { context with inputBuffer := context.inputBuffer.set index char }
      if index < 3 then decodeBinhex40Loop context (index + 1) rest
      else do
        let context ← decodeBinhex40Quantum context
        decodeBinhex40Loop context 0 rest
    else decodeBinhex40Loop context index rest

def decodeBinhex40Decoding (context : BinHex40DecodingContext) (string : List ℕ) :
    Except Error BinHex40DecodingContext :=
  decodeBinhex40Loop context context.inputIndex string

/-- A procedure of a position, which is what is left of the string there, and of a way to fail. The value is where the
match ends. -/
abbrev Linked := List ℕ → (Unit → Option (List ℕ)) → Option (List ℕ)

abbrev Insn := Linked → Linked

def insnCharMatching (predicate : ℕ → Bool) : Insn
  | _, [], fail => fail ()
  | succeed, char :: next, fail => if predicate char then succeed next fail else fail ()

def insnString : List ℕ → Insn
  | [], succeed, position, fail => succeed position fail
  | _ :: _, _, [], fail => fail ()
  | char :: string, succeed, char' :: next, fail =>
    if char' = char then insnString string succeed next fail else fail ()

/-- `insn:*` of an instruction that takes one character, so that every round gets on. -/
def insnStarMatching (predicate : ℕ → Bool) : Insn
  | succeed, [], fail => succeed [] fail
  | succeed, char :: next, fail =>
    if predicate char then insnStarMatching predicate succeed next fun _ => succeed (char :: next) fail
    else succeed (char :: next) fail

def insnSeq (insns : List Insn) : Insn := fun succeed => insns.foldr (fun insn next => insn next) succeed

/-- `regsexp-match-string`, with what follows the match. -/
def regsexpMatchString (insn : Insn) (string : List ℕ) : Option (List ℕ) :=
  insn (fun position _ => some position) string fun _ => none

def charCrlf (char : ℕ) : Bool := char == 13 || char == 10

/-- The characters `\r\n\t` and the blank. -/
def binhex40Blank (char : ℕ) : Bool := charCrlf char || char == 9 || char == 32

def commentStart : List ℕ := "(This file must be converted with BinHex".toList.map Char.toNat

def binhex40HeaderRegexp : Insn :=
  insnSeq [insnStarMatching binhex40Blank, insnString commentStart, insnStarMatching (· != 10),
    insnCharMatching charCrlf, insnStarMatching binhex40Blank, insnString [charColon]]

/-- The call of `decode-binhex40:update` behind the comment line goes on decoding. -/
def decodeBinhex40SeekingComment (context : BinHex40DecodingContext) (string : List ℕ) :
    Except Error BinHex40DecodingContext :=
  match context.lineBuffer with
  | none => .error (.wrongType .unspecific "string-append")
  | some line =>
    match regsexpMatchString binhex40HeaderRegexp (line ++ string) with
    | some rest => decodeBinhex40Decoding { context with state := .decoding, lineBuffer := none } rest
    | none => .ok { context with lineBuffer := some (line ++ string) }

def decodeBinhex40Update (context : BinHex40DecodingContext) (string : List ℕ) (start stop : Option ℕ) :
    Except Error BinHex40DecodingContext := do
  let (first, last) ← range string.length start stop "decode-binhex40:update"
  match context.state with
  | .seekingComment => decodeBinhex40SeekingComment context ((string.take last).drop first)
  | .decoding => decodeBinhex40Decoding context ((string.take last).drop first)
  | .ignoring => .ok context

def decodeBinhex40Finalize (context : BinHex40DecodingContext) : Except Error Bytevector :=
  match context.state with
  | .seekingComment => .error (.simple "Missing BinHex 4.0 initial comment line." [])
  | .decoding => .error (.simple "Missing BinHex 4.0 terminating character." [])
  | .ignoring => context.port.close

/-- `decode-binhex40:initialize`, the updates, and `decode-binhex40:finalize`: what the port gets. -/
def decodeBinhex40Packets (packets : List (Packet ℕ)) : Except Error Bytevector := do
  let context ← packets.foldlM (fun context p => decodeBinhex40Update context p.items p.start p.stop)
    decodeBinhex40Initialize
  decodeBinhex40Finalize context

/-- A file. Of the check sums the decoder takes no notice, so that they may be any bytes. -/
structure BinHexFile where
  name : Bytevector
  name_short : name.length < 256
  version : UInt8
  /-- Type, creator and flags. -/
  finderInfo : Bytevector
  finderInfo_length : finderInfo.length = 10
  dataFork : Bytevector
  dataFork_short : dataFork.length < 2 ^ 32
  resourceFork : Bytevector
  resourceFork_short : resourceFork.length < 2 ^ 32
  headerCrc : Bytevector
  headerCrc_length : headerCrc.length = 2
  dataCrc : Bytevector
  dataCrc_length : dataCrc.length = 2
  resourceCrc : Bytevector
  resourceCrc_length : resourceCrc.length = 2

namespace BinHexFile

def header (file : BinHexFile) : Bytevector :=
  UInt8.ofNat file.name.length :: file.name ++ file.version :: file.finderInfo ++
    unit32be file.dataFork.length ++ unit32be file.resourceFork.length ++ file.headerCrc

def bytes (file : BinHexFile) : Bytevector :=
  file.header ++ file.dataFork ++ file.dataCrc ++ file.resourceFork ++ file.resourceCrc

end BinHexFile

/-- A byte that is not the marker stands for itself or, before the marker and a count, for a run; the marker stands for
itself before a zero. -/
inductive RunLength : Bytevector → Bytevector → Prop where
  | nil : RunLength [] []
  | byte {b : UInt8} {coded plain : Bytevector} (plainByte : b ≠ marker) (rest : RunLength coded plain) :
    RunLength (b :: coded) (b :: plain)
  | run {b n : UInt8} {coded plain : Bytevector} (plainByte : b ≠ marker) (some : n ≠ 0)
    (rest : RunLength coded plain) : RunLength (b :: marker :: n :: coded) (List.replicate n.toNat b ++ plain)
  | markerByte {coded plain : Bytevector} (rest : RunLength coded plain) :
    RunLength (marker :: 0 :: coded) (marker :: plain)
  | markerRun {n : UInt8} {coded plain : Bytevector} (some : n ≠ 0) (rest : RunLength coded plain) :
    RunLength (marker :: 0 :: marker :: n :: coded) (List.replicate n.toNat marker ++ plain)

/-- The six-bit digits of bytes; the last ones are filled up with zeros. -/
def sixBits : Bytevector → List ℕ
  | [] => []
  | [a] => [a.toNat / 4, a.toNat % 4 * 16]
  | [a, b] => [a.toNat / 4, a.toNat % 4 * 16 + b.toNat / 16, b.toNat % 16 * 4]
  | a :: b :: c :: rest =>
    a.toNat / 4 :: (a.toNat % 4 * 16 + b.toNat / 16) :: (b.toNat % 16 * 4 + c.toNat / 64) :: c.toNat % 64 ::
      sixBits rest

def binhex40Digit (char : ℕ) : Bool := binhex40CharToDigit char < 0x40

structure BinHexText (coded : Bytevector) where
  leading : List ℕ
  leading_blank : ∀ c ∈ leading, binhex40Blank c = true
  comment : List ℕ
  comment_line : ∀ c ∈ comment, charCrlf c = false
  lineEnd : ℕ
  lineEnd_crlf : charCrlf lineEnd = true
  gap : List ℕ
  gap_blank : ∀ c ∈ gap, binhex40Blank c = true
  body : List ℕ
  body_lines : ∀ c ∈ body, binhex40Digit c = true ∨ charCrlf c = true
  body_digits : body.filter binhex40Digit = (sixBits coded).map (binhex40DigitToCharTable.getD · 0)
  trailing : List ℕ
  trailing_blank : ∀ c ∈ trailing, binhex40Blank c = true

def BinHexText.chars {coded : Bytevector} (text : BinHexText coded) : List ℕ :=
  text.leading ++ commentStart ++ text.comment ++ text.lineEnd :: text.gap ++ charColon :: text.body ++
    charColon :: text.trailing

section
variable {insn : Insn} {language others : List ℕ → Prop} {predicate : ℕ → Bool} {string rest : List ℕ}
  {insns : List Insn}

def Yields (good : List ℕ → Prop) (outcome : Option (List ℕ)) : Prop := ∀ result, outcome = some result → good result

/-- What an instruction takes is in a language: a property of results holds when it holds behind every
string of the language, and of failing. -/
def Takes (insn : Insn) (language : List ℕ → Prop) : Prop :=
  ∀ (good : List ℕ → Prop) (succeed : Linked) (position : List ℕ),
    (∀ taken rest, position = taken ++ rest → language taken →
      ∀ fail, Yields good (fail ()) → Yields good (succeed rest fail)) →
    ∀ fail, Yields good (fail ()) → Yields good (insn succeed position fail)

theorem takes_charMatching (predicate : ℕ → Bool) :
    Takes (insnCharMatching predicate) fun taken => ∃ c, taken = [c] ∧ predicate c = true := by
  intro good succeed position behind fail failing
  cases position with
  | nil => exact failing
  | cons char next =>
    show Yields good (if predicate char = true then _ else _)
    by_cases fits : predicate char = true
    · rw [if_pos fits]
      exact behind [char] next rfl ⟨char, rfl, fits⟩ fail failing
    · rw [if_neg fits]
      exact failing

theorem takes_string (string : List ℕ) : Takes (insnString string) (· = string) := by
  intro good succeed position behind fail failing
  induction string generalizing position with
  | nil => exact behind [] position rfl rfl fail failing
  | cons char string ih =>
    cases position with
    | nil => exact failing
    | cons char' next =>
      show Yields good (if char' = char then _ else _)
      by_cases same : char' = char
      · rw [if_pos same]
        apply ih
        intro taken rest split fits
        exact behind (char' :: taken) rest (by rw [split]; rfl) (by rw [fits, same])
      · rw [if_neg same]
        exact failing

theorem takes_starMatching (predicate : ℕ → Bool) :
    Takes (insnStarMatching predicate) fun taken => ∀ c ∈ taken, predicate c = true := by
  intro good succeed position behind fail failing
  induction position generalizing fail with
  | nil => exact behind [] [] rfl nofun fail failing
  | cons char next ih =>
    have stops := behind [] (char :: next) rfl nofun fail failing
    show Yields good (if predicate char = true then _ else _)
    by_cases fits : predicate char = true
    · rw [if_pos fits]
      refine ih (fun taken rest split all => ?_) _ stops
      exact behind (char :: taken) rest (by rw [split]; rfl) (forall_mem_cons.mpr ⟨fits, all⟩)
    · rw [if_neg fits]
      exact stops

theorem takes_seq_nil : Takes (insnSeq []) (· = []) := fun _ _ position behind fail failing =>
  behind [] position rfl rfl fail failing

theorem takes_seq_cons (first : Takes insn language) (next : Takes (insnSeq insns) others) :
    Takes (insnSeq (insn :: insns)) fun taken =>
      ∃ front back, taken = front ++ back ∧ language front ∧ others back := by
  intro good succeed position behind
  refine first good _ position fun front rest split fits => ?_
  refine next good succeed rest fun back rest' split' fits' => ?_
  exact behind (front ++ back) rest' (by rw [split, split', append_assoc]) ⟨front, back, rfl, fits, fits'⟩

theorem regsexpMatchString_takes (takes : Takes insn language) (matched : regsexpMatchString insn string = some rest) :
    ∃ taken, string = taken ++ rest ∧ language taken := by
  refine takes (fun rest => ∃ taken, string = taken ++ rest ∧ language taken) (fun position _ => some position) string
    (fun taken rest split fits _ _ result found => ?_) (fun _ => none) nofun rest matched
  rw [← Option.some.inj found]
  exact ⟨taken, split, fits⟩

def CommentLine (taken : List ℕ) : Prop :=
  ∃ leading comment lineEnd gap, taken = leading ++ commentStart ++ comment ++ lineEnd :: gap ++ [charColon] ∧
    (∀ c ∈ leading, binhex40Blank c = true) ∧ charCrlf lineEnd = true ∧ ∀ c ∈ gap, binhex40Blank c = true

theorem header_takes (matched : regsexpMatchString binhex40HeaderRegexp string = some rest) :
    ∃ taken, string = taken ++ rest ∧ CommentLine taken := by
  have takes := takes_seq_cons (takes_starMatching binhex40Blank) <|
    takes_seq_cons (takes_string commentStart) <|
    takes_seq_cons (takes_starMatching (· != 10)) <|
    takes_seq_cons (takes_charMatching charCrlf) <|
    takes_seq_cons (takes_starMatching binhex40Blank) <|
    takes_seq_cons (takes_string [charColon]) takes_seq_nil
  obtain ⟨taken, split, leading, _, rfl, blank, _, _, rfl, rfl, comment, _, rfl, -, _, _, rfl, ⟨lineEnd, rfl, crlf⟩,
    gap, _, rfl, blank', _, _, rfl, rfl, rfl⟩ := regsexpMatchString_takes takes matched
  refine ⟨_, split, leading, comment, lineEnd, gap, ?_, blank, crlf, blank'⟩
  simp

end

section
variable {context context' : BinHex40DecodingContext} {past seen chars : List ℕ} {index : ℕ}

theorem decodeBinhex40Quantum_error : ∃ error, decodeBinhex40Quantum context = .error error := by
  unfold decodeBinhex40Quantum
  cases decodeBinhex40Quantum1 context.inputBuffer context.outputBuffer with
  | error e => exact ⟨e, rfl⟩
  | ok written => exact ⟨_, rfl⟩

/-- Where a run without an error has come to: no quantum is complete yet. -/
inductive Reached (past : List ℕ) (context : BinHex40DecodingContext) : Prop where
  | seeking (state : context.state = .seekingComment) (line : context.lineBuffer = some past)
    (fresh : context.inputIndex = 0)
  | decoding (taken seen : List ℕ) (split : past = taken ++ seen) (header : CommentLine taken)
    (open' : charColon ∉ seen) (digits : (seen.filter binhex40Digit).length = context.inputIndex)
    (state : context.state = .decoding)
  | ignoring (taken seen rest : List ℕ) (split : past = taken ++ seen ++ charColon :: rest)
    (header : CommentLine taken) (empty : seen.filter binhex40Digit = []) (first : charColon ∉ seen)
    (state : context.state = .ignoring)

theorem binhex40Digit_eq_true {char : ℕ} : binhex40Digit char = true ↔ binhex40CharToDigit char < 0x40 := by
  unfold binhex40Digit
  rw [decide_eq_true_iff]

theorem decodeBinhex40Loop_reached {taken : List ℕ} (header : CommentLine taken) (closed : charColon ∉ seen)
    (digits : (seen.filter binhex40Digit).length = index) (state : context.state = .decoding)
    (went : decodeBinhex40Loop context index chars = .ok context') : Reached (taken ++ seen ++ chars) context' := by
  induction chars generalizing context seen index with
  | nil =>
    obtain rfl := Except.ok.inj went
    exact .decoding taken seen (append_nil _) header closed digits state
  | cons char rest ih =>
    unfold decodeBinhex40Loop at went
    by_cases colon : char = charColon
    · rw [if_pos colon] at went
      by_cases some : index > 0
      · -- the quantum that the colon ends cannot be written
        rw [if_pos some] at went
        obtain ⟨error, signalled⟩ := @decodeBinhex40Quantum_error
          { context with inputBuffer := context.inputBuffer.set index char }
        rw [signalled] at went
        cases went
      · rw [if_neg some] at went
        obtain rfl := Except.ok.inj went
        refine .ignoring taken seen rest (by rw [colon]) header ?_ closed rfl
        exact length_eq_zero_iff.mp (by omega)
    · rw [if_neg colon] at went
      have closed' : charColon ∉ seen ++ [char] := by
        rw [mem_append, mem_singleton]
        exact not_or.mpr ⟨closed, fun same => colon same.symm⟩
      have split : taken ++ seen ++ char :: rest = taken ++ (seen ++ [char]) ++ rest := by
        simp
      rw [split]
      by_cases digit : binhex40CharToDigit char < 0x40
      · rw [if_pos digit] at went
        by_cases few : index < 3
        · rw [if_pos few] at went
          refine ih closed' ?_ ?_ went
          swap
          · exact state
          rw [filter_append, length_append, digits, filter_cons_of_pos (binhex40Digit_eq_true.mpr digit)]
          rfl
        · rw [if_neg few] at went
          obtain ⟨error, signalled⟩ := @decodeBinhex40Quantum_error
            { context with inputBuffer := context.inputBuffer.set index char }
          rw [signalled] at went
          cases went
      · rw [if_neg digit] at went
        refine ih closed' ?_ state went
        rw [filter_append, filter_cons_of_neg (mt binhex40Digit_eq_true.mp digit), filter_nil, append_nil, digits]

theorem decodeBinhex40Update_reached (p : Packet ℕ) (reached : Reached past context)
    (went : decodeBinhex40Update context p.items p.start p.stop = .ok context') :
    Reached (past ++ p.contents) context' := by
  unfold decodeBinhex40Update at went
  rw [range_of_le p.ordered p.inside] at went
  cases reached with
  | seeking state line fresh =>
    simp only [bind, Except.bind, state] at went
    unfold decodeBinhex40SeekingComment at went
    simp only [line] at went
    change (match regsexpMatchString binhex40HeaderRegexp (past ++ p.contents) with
      | some rest => _
      | none => _) = _ at went
    cases found : regsexpMatchString binhex40HeaderRegexp (past ++ p.contents) with
    | none =>
      rw [found] at went
      obtain rfl := Except.ok.inj went
      exact .seeking state rfl fresh
    | some rest =>
      rw [found] at went
      obtain ⟨taken, split, header⟩ := header_takes found
      have begun : Reached (taken ++ [] ++ rest) context' :=
        decodeBinhex40Loop_reached header nofun fresh.symm rfl went
      rwa [append_nil, ← split] at begun
  | decoding taken seen split header closed digits state =>
    simp only [bind, Except.bind, state] at went
    rw [split]
    exact decodeBinhex40Loop_reached header closed digits state went
  | ignoring taken seen rest split header empty first state =>
    simp only [bind, Except.bind, state] at went
    obtain rfl := Except.ok.inj went
    exact .ignoring taken seen (rest ++ p.contents) (by rw [split]; simp) header empty first state

theorem decodeBinhex40Updates_reached {packets : List (Packet ℕ)} (reached : Reached past context)
    (went : packets.foldlM (fun context p => decodeBinhex40Update context p.items p.start p.stop) context =
      .ok context') : Reached (past ++ packets.flatMap Packet.contents) context' := by
  induction packets generalizing past context with
  | nil =>
    obtain rfl := Except.ok.inj went
    rwa [flatMap_nil, append_nil]
  | cons p packets ih =>
    rw [foldlM_cons] at went
    rw [flatMap_cons, ← append_assoc]
    cases updated : decodeBinhex40Update context p.items p.start p.stop with
    | error e =>
      rw [updated] at went
      cases went
    | ok next =>
      rw [updated] at went
      exact ih (decodeBinhex40Update_reached p reached updated) went

end

section
variable {before after before' after' : List ℕ} {coded : Bytevector} {text : BinHexText coded}

theorem split_first {c : ℕ} (first : c ∉ before) (first' : c ∉ before')
    (same : before ++ c :: after = before' ++ c :: after') : before = before' ∧ after = after' := by
  induction before generalizing before' with
  | nil =>
    cases before' with
    | nil => exact ⟨rfl, (cons.inj same).2⟩
    | cons d before' =>
      rw [(cons.inj same).1] at first'
      exact absurd mem_cons_self first'
  | cons d before ih =>
    cases before' with
    | nil =>
      rw [← (cons.inj same).1] at first
      exact absurd mem_cons_self first
    | cons d' before' =>
      obtain ⟨rfl, same'⟩ := cons.inj same
      obtain ⟨rfl, rest⟩ := ih (mt (mem_cons_of_mem _) first) (mt (mem_cons_of_mem _) first') same'
      exact ⟨rfl, rest⟩

theorem not_mem_of_blank {blank : List ℕ} {c : ℕ} (all : ∀ c ∈ blank, binhex40Blank c = true)
    (other : binhex40Blank c = false) : c ∉ blank := by
  intro among
  rw [all c among] at other
  cases other

theorem BinHexText.colon_body (text : BinHexText coded) : charColon ∉ text.body := by
  intro among
  have other := text.body_lines _ among
  revert other
  decide

theorem BinHexText.ignored {taken seen rest : List ℕ} (header : CommentLine taken) (first : charColon ∉ seen)
    (whole : text.chars = taken ++ seen ++ charColon :: rest) : seen = text.body := by
  obtain ⟨leading, comment, lineEnd, gap, rfl, blank, crlf, blank'⟩ := header
  have begin' : commentStart = 40 :: commentStart.tail := by decide
  unfold BinHexText.chars at whole
  rw [begin'] at whole
  simp only [append_assoc, cons_append, nil_append] at whole
  obtain ⟨-, whole⟩ := split_first (not_mem_of_blank text.leading_blank (by decide))
    (not_mem_of_blank blank (by decide)) whole
  have whole := append_cancel_left whole
  -- the line end that the match has found is not in the comment
  obtain ⟨more, tail⟩ : ∃ more, text.lineEnd :: (text.gap ++ charColon :: (text.body ++ charColon :: text.trailing)) =
      more ++ lineEnd :: (gap ++ charColon :: (seen ++ charColon :: rest)) := by
    obtain ⟨more, -, tail⟩ | ⟨more, same, tail⟩ := append_eq_append_iff.mp whole
    · exact ⟨more, tail⟩
    · cases more with
      | nil => exact ⟨[], tail.symm⟩
      | cons c more =>
        obtain ⟨rfl, -⟩ := cons.inj tail
        have inside := text.comment_line lineEnd (by rw [same]; simp)
        rw [crlf] at inside
        cases inside
  have two := congrArg (count charColon) tail
  have gapless : charColon ∉ text.lineEnd :: text.gap := by
    refine not_mem_of_blank (forall_mem_cons.mpr ⟨?_, text.gap_blank⟩) (by decide)
    unfold binhex40Blank
    rw [text.lineEnd_crlf]
    rfl
  have trailing : charColon ∉ text.trailing := not_mem_of_blank text.trailing_blank (by decide)
  have none : charColon ∉ more ++ lineEnd :: gap := by
    rw [← count_eq_zero]
    rw [← count_eq_zero] at gapless trailing
    have body := count_eq_zero.mpr text.colon_body
    simp only [count_cons, count_append, beq_self_eq_true, if_true] at two gapless ⊢
    omega
  have grouped : (text.lineEnd :: text.gap) ++ charColon :: (text.body ++ charColon :: text.trailing) =
      (more ++ lineEnd :: gap) ++ charColon :: (seen ++ charColon :: rest) := by
    rw [append_assoc]
    exact tail
  obtain ⟨-, bodies⟩ := split_first gapless none grouped
  exact (split_first text.colon_body first bodies).1.symm

theorem sixBits_ne_nil (some : coded ≠ []) : sixBits coded ≠ [] := by
  rcases coded with _ | ⟨a, _ | ⟨b, _ | ⟨c, rest⟩⟩⟩
  · exact absurd rfl some
  all_goals exact nofun

theorem RunLength.ne_nil {plain : Bytevector} (stored : RunLength coded plain) (some : plain ≠ []) : coded ≠ [] := by
  cases stored with
  | nil => exact some
  | byte | run | markerByte | markerRun => exact nofun

end

/-- The decoder signals an error for every file, however it is encoded and cut into packets: no byte of
any file comes to the port. -/
theorem decodeBinhex40_never (file : BinHexFile) {coded : Bytevector} (stored : RunLength coded file.bytes)
    (text : BinHexText coded) (packets : List (Packet ℕ)) (cut : packets.flatMap Packet.contents = text.chars) :
    (∃ error, decodeBinhex40Packets packets = .error error) ∧ decodeBinhex40Packets packets ≠ .ok file.dataFork := by
  have fails : ∃ error, decodeBinhex40Packets packets = .error error := by
    unfold decodeBinhex40Packets
    cases went : packets.foldlM (fun context p => decodeBinhex40Update context p.items p.start p.stop)
        decodeBinhex40Initialize with
    | error e => exact ⟨e, rfl⟩
    | ok context =>
      show ∃ error, decodeBinhex40Finalize context = .error error
      unfold decodeBinhex40Finalize
      cases decodeBinhex40Updates_reached (.seeking rfl rfl rfl) went with
      | seeking state => exact ⟨_, by rw [state]⟩
      | decoding taken seen split header closed digits state => exact ⟨_, by rw [state]⟩
      | ignoring taken seen rest split header empty first state =>
        -- there are digits between the colons
        rw [cut] at split
        rw [text.ignored header first split, text.body_digits, map_eq_nil_iff] at empty
        exact absurd empty (sixBits_ne_nil (stored.ne_nil (cons_ne_nil _ _)))
  refine ⟨fails, fun right => ?_⟩
  obtain ⟨error, signalled⟩ := fails
  rw [signalled] at right
  cases right

def oneByteFile : BinHexFile where
  name := [97]
  name_short := by decide
  version := 0
  finderInfo := List.replicate 10 0
  finderInfo_length := rfl
  dataFork := [65]
  dataFork_short := by decide
  resourceFork := []
  resourceFork_short := by decide
  headerCrc := [1, 2]
  headerCrc_length := rfl
  dataCrc := [3, 4]
  dataCrc_length := rfl
  resourceCrc := [5, 6]
  resourceCrc_length := rfl

def oneByteText : BinHexText oneByteFile.bytes where
  leading := []
  leading_blank := nofun
  comment := " 4.0)".toList.map Char.toNat
  comment_line := by decide
  lineEnd := 13
  lineEnd_crlf := rfl
  gap := [10]
  gap_blank := by decide
  body := (sixBits oneByteFile.bytes).map (binhex40DigitToCharTable.getD · 0)
  body_lines := by decide +kernel
  body_digits := by decide +kernel
  trailing := [13, 10]
  trailing_blank := by decide

theorem RunLength.literal {plain : Bytevector} (unmarked : ∀ b ∈ plain, b ≠ marker) : RunLength plain plain := by
  induction plain with
  | nil => exact .nil
  | cons b plain ih =>
    obtain ⟨plainByte, rest⟩ := forall_mem_cons.mp unmarked
    exact .byte plainByte (ih rest)

theorem decodeBinhex40_never_one : (∃ error, decodeBinhex40Packets [Packet.whole oneByteText.chars] = .error error) ∧
    decodeBinhex40Packets [Packet.whole oneByteText.chars] ≠ .ok oneByteFile.dataFork :=
  decodeBinhex40_never oneByteFile (.literal (by decide +kernel)) oneByteText [.whole oneByteText.chars]
    (by rw [flatMap_singleton, Packet.contents_whole])

theorem decodeBinhex40_one_byte :
    decodeBinhex40Packets [Packet.whole oneByteText.chars] = .error (.notA "binary-port" 0 "port-output-buffer") := by
  decide +kernel

end MitScheme.Runtime.MimeCodec
