import MitScheme.Library.Packets
import MitScheme.Runtime.Utf.Bytevector

/-!
The incremental encoder and decoder. A port is the list of what was written to it; a character is its
code. In text mode a newline is encoded as a return and a newline, and decoded back.
-/

namespace MitScheme.Runtime.MimeCodec

open Library Utf

def cpNewline : ℕ := 10
def cpReturn : ℕ := 13
def charEquals : ℕ := 61

def bvCrlf : Bytevector := [13, 10]

/-- `bytevector-copy!`, which returns the index after the last byte it has set. -/
def bytevectorCopyInto (target : Bytevector) (position : ℕ) (source : Bytevector) (start stop : ℕ) :
    Except Error (Bytevector × ℕ) :=
  if start ≤ stop ∧ stop ≤ source.length ∧ position + (stop - start) ≤ target.length then
    .ok (target.take position ++ bytevectorCopy source start stop ++ target.drop (position + (stop - start)),
      position + (stop - start))
  else .error (.badRange stop "bytevector-copy!")

/-- `do-range`, on both tables. -/
def doRange (low : ℕ) : ℕ → ℕ → List ℕ × List ℕ → List ℕ × List ℕ
  | 0, value, tables => (tables.1.set low value, tables.2.set value low)
  | more + 1, value, tables => doRange (low + 1) more (value + 1) (tables.1.set low value, tables.2.set value low)

def digitTables : List ℕ × List ℕ :=
  let tables := (List.replicate 0x80 0xFF, List.replicate 0x40 0)
  let tables := doRange 65 25 0 tables
  let tables := doRange 97 25 26 tables
  let tables := doRange 48 9 52 tables
  let tables := doRange 43 0 62 tables
  doRange 47 0 63 tables

def base64CharToDigit (char : ℕ) : ℕ := if char < 0x80 then digitTables.1.getD char 0xFF else 0xFF

def base64DigitToChar (digit : ℕ) : ℕ := digitTables.2.getD digit 0

structure Base64EncodingContext where
  port : List ℕ
  text : Bool
  buffer : Bytevector
  index : ℕ
deriving Repr

def encodeBase64Initialize (text : Bool) : Base64EncodingContext := ⟨[], text, List.replicate 48 0, 0⟩

def writeDigit (d : ℕ) : ℕ := base64DigitToChar (0x3F &&& d)

def writeLineLoop (buffer : Bytevector) (stop : ℕ) : ℕ → ℕ → List ℕ → Except Error (List ℕ)
  | 0, _, _ => .error .unfinished
  | fuel + 1, start, port =>
    if stop - start ≥ 3 then do
      let d1 ← bytevectorU8Ref buffer start
      let d2 ← bytevectorU8Ref buffer (start + 1)
      let d3 ← bytevectorU8Ref buffer (start + 2)
      writeLineLoop buffer stop fuel (start + 3)
        (port ++ [writeDigit (lsh d1 (-2)), writeDigit (lsh d1 4 ||| lsh d2 (-4)),
          writeDigit (lsh d2 2 ||| lsh d3 (-6)), writeDigit d3])
    else if stop - start = 2 then do
      let d1 ← bytevectorU8Ref buffer start
      let d2 ← bytevectorU8Ref buffer (start + 1)
      .ok (port ++ [writeDigit (lsh d1 (-2)), writeDigit (lsh d1 4 ||| lsh d2 (-4)), writeDigit (lsh d2 2)] ++
        [charEquals])
    else if stop - start = 1 then do
      let d1 ← bytevectorU8Ref buffer start
      .ok (port ++ [writeDigit (lsh d1 (-2)), writeDigit (lsh d1 4)] ++ [charEquals, charEquals])
    else .ok port

def writeBase64Line (context : Base64EncodingContext) : Except Error Base64EncodingContext :=
  if context.index > 0 then do
    let port ← writeLineLoop context.buffer context.index (context.index + 1) 0 context.port
    .ok { context with port := port ++ [cpNewline], index := 0 }
  else .ok context

def flushFull (context : Base64EncodingContext) : Except Error Base64EncodingContext :=
  if context.index = 48 then writeBase64Line context else .ok context

def encodeBase64 (bytes : Bytevector) (stop : ℕ) :
    ℕ → Base64EncodingContext → ℕ → Except Error Base64EncodingContext
  | 0, _, _ => .error .unfinished
  | fuel + 1, context, start =>
    if start < stop then do
      let next := min stop (start + (48 - context.index))
      let (buffer, index) ← bytevectorCopyInto context.buffer context.index bytes start next
      let context ← flushFull { context with buffer := buffer, index := index }
      encodeBase64 bytes stop fuel context next
    else .ok context

def findNewline (bytes : Bytevector) (stop : ℕ) : ℕ → ℕ → Except Error (Option ℕ)
  | 0, _ => .error .unfinished
  | fuel + 1, index =>
    if index < stop then do
      let u8 ← bytevectorU8Ref bytes index
      if cpNewline = u8 then .ok (some index) else findNewline bytes stop fuel (index + 1)
    else .ok none

def encodeTextLoop (bytes : Bytevector) (stop : ℕ) :
    ℕ → Base64EncodingContext → ℕ → Except Error Base64EncodingContext
  | 0, _, _ => .error .unfinished
  | fuel + 1, context, start => do
    let found ← findNewline bytes stop (bytes.length + 1) start
    match found with
    | some index => do
      let context ← encodeBase64 bytes index (bytes.length + 1) context start
      let context ← encodeBase64 bvCrlf 2 3 context 0
      encodeTextLoop bytes stop fuel context (index + 1)
    | none => encodeBase64 bytes stop (bytes.length + 1) context start

def encodeBase64Update (context : Base64EncodingContext) (bytes : Bytevector) (start stop : Option ℕ) :
    Except Error Base64EncodingContext := do
  let (first, last) ← range bytes.length start stop "encode-base64:update"
  if context.text then encodeTextLoop bytes last (bytes.length + 1) context first
  else encodeBase64 bytes last (bytes.length + 1) context first

def encodeBase64Finalize (context : Base64EncodingContext) : Except Error Base64EncodingContext :=
  writeBase64Line context

inductive InputState where
  | lineStart
  | inLine
  | finished
deriving DecidableEq, Repr

structure Base64DecodingContext where
  port : Bytevector
  text : Bool
  inputBuffer : List ℕ
  inputIndex : ℕ
  inputState : InputState
  outputBuffer : Bytevector
  pendingReturn : Bool
deriving Repr

def decodeBase64Initialize (text : Bool) : Base64DecodingContext :=
  ⟨[], text, List.replicate 4 0, 0, .lineStart, List.replicate 3 0, false⟩

def decodeBase64Char (input : List ℕ) (index : ℕ) : Except Error ℕ :=
  let digit := base64CharToDigit (input.getD index 0)
  if digit > 0x40 then .error (.simple "Misplaced #\\= in BASE64 input." []) else .ok digit

def decodeBase64Quantum1 (input : List ℕ) (output : Bytevector) : Except Error (Bytevector × ℕ) := do
  let d1 ← decodeBase64Char input 0
  let d2 ← decodeBase64Char input 1
  if input.getD 3 0 ≠ charEquals then do
    let d3 ← decodeBase64Char input 2
    let d4 ← decodeBase64Char input 3
    let n := (lsh d1 18 + lsh d2 12) + (lsh d3 6 + d4)
    let output ← bytevectorU8Set output 0 (lsh n (-16))
    let output ← bytevectorU8Set output 1 (0xFF &&& lsh n (-8))
    let output ← bytevectorU8Set output 2 (0xFF &&& n)
    .ok (output, 3)
  else if input.getD 2 0 ≠ charEquals then do
    let d3 ← decodeBase64Char input 2
    let n := (lsh d1 10 + lsh d2 4) + lsh d3 (-2)
    let output ← bytevectorU8Set output 0 (lsh n (-8))
    let output ← bytevectorU8Set output 1 (0xFF &&& n)
    .ok (output, 2)
  else do
    let output ← bytevectorU8Set output 0 (lsh d1 2 + lsh d2 (-4))
    .ok (output, 1)

def emitPlain (port : Bytevector) (u8 : UInt8) : Bytevector × Bool :=
  if cpReturn = u8.toNat then (port, true) else (port ++ [u8], false)

/-- One byte of the text loop: a return waits for the byte after it, and the loop comes back to a byte
that is not a newline once the return is written. -/
def emitByte (port : Bytevector) (pending : Bool) (u8 : UInt8) : Bytevector × Bool :=
  if pending then
    if cpNewline = u8.toNat then (port ++ [u8], false) else emitPlain (port ++ [UInt8.ofNat cpReturn]) u8
  else emitPlain port u8

/-- The text loop of `decode-base64-quantum`. -/
def emitText (port : Bytevector) (pending : Bool) : List UInt8 → Bytevector × Bool
  | [] => (port, pending)
  | u8 :: rest => emitText (emitByte port pending u8).1 (emitByte port pending u8).2 rest

def decodeBase64Quantum (context : Base64DecodingContext) : Except Error Base64DecodingContext := do
  let (output, n) ← decodeBase64Quantum1 context.inputBuffer context.outputBuffer
  let context := { context with outputBuffer := output }
  if context.text then
    let (port, pending) := emitText context.port context.pendingReturn (output.take n)
    .ok { context with port := port, pendingReturn := pending }
  else .ok { context with port := context.port ++ output.take n }

/-- The state that `continue` goes on in. -/
def stateAfter (char : ℕ) : InputState := if char = cpNewline then .lineStart else .inLine

def decodeUpdateLoop : Base64DecodingContext → ℕ → InputState → List ℕ → Except Error Base64DecodingContext
  | context, index, state, [] => .ok { context with inputIndex := index, inputState := state }
  | context, index, state, char :: rest =>
    if char = charEquals ∨ base64CharToDigit char < 0x40 then
      let context := { context with inputBuffer := context.inputBuffer.set index char }
      if index < 3 then decodeUpdateLoop context (index + 1) (stateAfter char) rest
      else do
        let context ← decodeBase64Quantum context
        decodeUpdateLoop context 0 (stateAfter char) rest
    else if state = .lineStart then .ok { context with inputIndex := index, inputState := .finished }
    else decodeUpdateLoop context index (stateAfter char) rest

def decodeBase64Update (context : Base64DecodingContext) (string : List ℕ) (start stop : Option ℕ) :
    Except Error Base64DecodingContext := do
  let (first, last) ← range string.length start stop "decode-base64:update"
  if context.inputState = .finished then .ok context
  else decodeUpdateLoop context context.inputIndex context.inputState ((string.take last).drop first)

def decodeBase64Finalize (context : Base64DecodingContext) : Except Error Base64DecodingContext :=
  if context.inputIndex > 0 then .error (.simple "BASE64 input length is not a multiple of 4." [])
  else if context.pendingReturn then .ok { context with port := context.port ++ [UInt8.ofNat cpReturn] }
  else .ok context

/-- `encode-base64:initialize`, the updates, and `encode-base64:finalize`. -/
def encodeBase64Packets (text : Bool) (packets : List (Packet UInt8)) : Except Error (List ℕ) := do
  let context ← packets.foldlM (fun context p => encodeBase64Update context p.items p.start p.stop)
    (encodeBase64Initialize text)
  let context ← encodeBase64Finalize context
  .ok context.port

/-- `decode-base64:initialize`, the updates, and `decode-base64:finalize`. -/
def decodeBase64Packets (text : Bool) (packets : List (Packet ℕ)) : Except Error Bytevector := do
  let context ← packets.foldlM (fun context p => decodeBase64Update context p.items p.start p.stop)
    (decodeBase64Initialize text)
  let context ← decodeBase64Finalize context
  .ok context.port

end MitScheme.Runtime.MimeCodec
