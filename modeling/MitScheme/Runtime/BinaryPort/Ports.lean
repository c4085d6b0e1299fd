import MitScheme.Runtime.BinaryPort.Input
import MitScheme.Runtime.BinaryPort.Output

namespace MitScheme.Runtime.BinaryPort

open Library
open Utf (Bytevector bytevectorCopy)

variable {σ τ : Type}

structure Port (σ τ : Type) where
  inputBuffer : Option (Buffer σ)
  outputBuffer : Option (Buffer τ)

/-- The port over a source and a sink, each of them in its first state. -/
def newPort (memory : Utf.Allocator) (source : Option σ) (sink : Option τ) : Port σ τ :=
  { inputBuffer := source.map fun s => makeBuffer memory s pageSize,
    outputBuffer := sink.map fun t => makeBuffer memory t pageSize }

def makeBinaryPort (memory : Utf.Allocator) (source : Option σ) (sink : Option τ) : Except Error (Port σ τ) :=
  if source.isSome ∨ sink.isSome then .ok (newPort memory source sink)
  else .error (.simple "Must provide either a source or a sink")

def checkInputPort (source : Source σ) (port : Port σ τ) (caller : String) : Except Error (Buffer σ) × Port σ τ :=
  match port.inputBuffer with
  | none => (.error (.notA "binary-input-port?" caller), port)
  | some ib =>
    let (opened, ib) := ib.bufferOpen source.isOpen
    (if opened then .ok ib else .error (.badRangePort caller), { port with inputBuffer := some ib })

def checkOutputPort (sink : Sink τ) (port : Port σ τ) (caller : String) : Except Error (Buffer τ) × Port σ τ :=
  match port.outputBuffer with
  | none => (.error (.notA "binary-output-port?" caller), port)
  | some ob =>
    let (opened, ob) := ob.bufferOpen sink.isOpen
    (if opened then .ok ob else .error (.badRangePort caller), { port with outputBuffer := some ob })

inductive Operation where
  | readU8
  | peekU8
  | readBytevector (k : ℕ)
  | readBytevectorInto (bytevector : Bytevector) (start stop : Option ℕ)
  | writeU8 (byte : ℕ)
  | writeBytevector (bytevector : Bytevector) (start stop : Option ℕ)
  | flushOutput
deriving DecidableEq, Repr

inductive Answer where
  | byte (answer : Input ℕ)
  | bytes (answer : Input Bytevector)
  /-- How many bytes were set in the bytevector, and the bytevector after that. -/
  | count (answer : Input ℕ) (bytevector : Bytevector)
  | accepted (n : Option ℕ)
  | flushed (n : Option ℕ)
deriving DecidableEq, Repr

def onInput (source : Source σ) (caller : String) (reader : Buffer σ → Except Error (Answer × Buffer σ))
    (port : Port σ τ) : Except Error Answer × Port σ τ :=
  match checkInputPort source port caller with
  | (.error e, port) => (.error e, port)
  | (.ok ib, port) =>
    match reader ib with
    | .error e => (.error e, port)
    | .ok (answer, ib) => (.ok answer, { port with inputBuffer := some ib })

def onOutput (sink : Sink τ) (caller : String) (writer : Buffer τ → Except Error (Answer × Buffer τ))
    (port : Port σ τ) : Except Error Answer × Port σ τ :=
  match checkOutputPort sink port caller with
  | (.error e, port) => (.error e, port)
  | (.ok ob, port) =>
    match writer ob with
    | .error e => (.error e, port)
    | .ok (answer, ob) => (.ok answer, { port with outputBuffer := some ob })

def Operation.caller : Operation → String
  | .readU8 => "read-u8"
  | .peekU8 => "peek-u8"
  | .readBytevector _ => "read-bytevector"
  | .readBytevectorInto _ _ _ => "read-bytevector!"
  | .writeU8 _ => "write-u8"
  | .writeBytevector _ _ _ => "write-bytevector"
  | .flushOutput => "flush-output-port"

/-- `read-bytevector!` after the check of the port. -/
def readInto (source : Source σ) (bytevector : Bytevector) (start stop : Option ℕ) (ib : Buffer σ) :
    Except Error (Answer × Buffer σ) := do
  let (first, last) ← onBytes (Utf.range bytevector.length start stop "read-bytevector!")
  let (answer, bytevector, ib) ← readBytevectorInto source bytevector first last ib
  .ok (.count answer bytevector, ib)

/-- `write-bytevector` after the check of the port. -/
def writeFrom (sink : Sink τ) (bytevector : Bytevector) (start stop : Option ℕ) (ob : Buffer τ) :
    Except Error (Answer × Buffer τ) := do
  let (first, last) ← onBytes (Utf.range bytevector.length start stop "write-bytevector")
  let (n, ob) ← writeBytevector sink bytevector first last ob
  .ok (.accepted n, ob)

section
variable (memory : Utf.Allocator) (source : Source σ) (sink : Sink τ)

def perform (operation : Operation) (port : Port σ τ) : Except Error Answer × Port σ τ :=
  match operation with
  | .readU8 => onInput source "read-u8" (fun ib => (readU8 source ib).map fun r => (.byte r.1, r.2)) port
  | .peekU8 => onInput source "peek-u8" (fun ib => (peekU8 source ib).map fun r => (.byte r.1, r.2)) port
  | .readBytevector k =>
    onInput source "read-bytevector" (fun ib => (readBytevector memory source k ib).map fun r => (.bytes r.1, r.2)) port
  | .readBytevectorInto bytevector start stop =>
    onInput source "read-bytevector!" (readInto source bytevector start stop) port
  | .writeU8 byte =>
    if byte < 256 then
      onOutput sink "write-u8" (fun ob => (writeU8 sink byte ob).map fun r => (.accepted r.1, r.2)) port
    else (.error (.notA "byte?" "write-u8"), port)
  | .writeBytevector bytevector start stop =>
    onOutput sink "write-bytevector" (writeFrom sink bytevector start stop) port
  | .flushOutput =>
    onOutput sink "flush-output-port" (fun ob => (flushOutputBuffer sink ob).map fun r => (.flushed r.1, r.2)) port

def performAll : Port σ τ → List Operation → List (Operation × Except Error Answer) × Port σ τ
  | port, [] => ([], port)
  | port, operation :: rest =>
    let (outcome, port) := perform memory source sink operation port
    let (history, port) := performAll port rest
    ((operation, outcome) :: history, port)

end

/-- The bytes that an operation has returned. A byte that was only peeked at is not one of them. -/
def returnedBy : Operation × Except Error Answer → Bytevector
  | (.readU8, .ok (.byte answer)) => answer.bytes
  | (.readBytevector _, .ok (.bytes answer)) => answer.contents
  | (.readBytevectorInto _ start _, .ok (.count answer bytevector)) =>
    bytevectorCopy bytevector (start.getD 0) (start.getD 0 + answer.count)
  | _ => []

def Operation.offered : Operation → Bytevector
  | .writeU8 byte => [UInt8.ofNat byte]
  | .writeBytevector bytevector start stop => bytevectorCopy bytevector (start.getD 0) (stop.getD bytevector.length)
  | _ => []

def acceptedBy : Operation × Except Error Answer → Bytevector
  | (operation, .ok (.accepted n)) => operation.offered.take (n.getD 0)
  | _ => []

def Error.caller : Error → Option String
  | .notA _ caller => some caller
  | .badRangePort caller => some caller
  | .argument (.badRange _ caller) => some caller
  | _ => none

def Operation.wanted : Operation → ℕ
  | .readU8 => 1
  | .readBytevector k => k
  | .readBytevectorInto bytevector start stop => stop.getD bytevector.length - start.getD 0
  | _ => 0

/-- An operation counts no more bytes than it was asked to move, and what it fails on is its
arguments. -/
def Proper : Operation × Except Error Answer → Prop
  | (operation, .error e) => e.caller = some operation.caller
  | (operation, .ok (.accepted n)) => n.getD 0 ≤ operation.offered.length
  | (operation, .ok (.count answer _)) => answer.count ≤ operation.wanted
  | (operation, .ok (.bytes answer)) => answer.contents.length ≤ operation.wanted
  | _ => True

end MitScheme.Runtime.BinaryPort
