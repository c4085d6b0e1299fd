import MitScheme.Library.Conduit
import MitScheme.Runtime.MimeCodec.Base64

/-!
The buffer between a binary port and its source or sink, and what a source and a sink may answer.
-/

namespace MitScheme.Runtime.BinaryPort

open Library List
open Utf (Bytevector bytevectorCopy)
open MimeCodec (bytevectorCopyInto)

inductive Error where
  | notA (predicate caller : String)
  | badRangePort (caller : String)
  | argument (error : Utf.Error)
  | simple (message : String)
  /-- A loop of the model used up its fuel. -/
  | unfinished
deriving DecidableEq, Repr

def onBytes {α : Type} : Except Utf.Error α → Except Error α
  | .ok a => .ok a
  | .error e => .error (.argument e)

/-- A source: asked for a number of bytes it blocks, or it gives at most as many, and none of them
when it is at its end. -/
structure Source (σ : Type) where
  isOpen : σ → Bool
  readBytes : σ → ℕ → Option Bytevector × σ
  readBytes_le : ∀ {s : σ} {wanted : ℕ} {given : Bytevector},
    (readBytes s wanted).1 = some given → given.length ≤ wanted

/-- A sink: offered some bytes it blocks, or it takes a number of them. Its channel, if it has one,
can be put into blocking mode and back. -/
structure Sink (τ : Type) where
  isOpen : τ → Bool
  writeBytes : τ → Bytevector → Option ℕ × τ
  writeBytes_le : ∀ {s : τ} {offered : Bytevector} {n : ℕ},
    (writeBytes s offered).1 = some n → n ≤ offered.length
  blocking : τ → τ
  unblocking : τ → τ

def pageSize : ℕ := 0x1000

inductive Override where
  | eof
  | closed
deriving DecidableEq, Repr

structure Buffer (σ : Type) where
  sourceSink : σ
  bytes : Bytevector
  start : ℕ
  stop : ℕ
  override : Option Override
  /-- What the source has given or the sink has taken so far; no procedure looks at it. -/
  transferred : Bytevector

variable {σ τ : Type}

def makeBuffer (memory : Utf.Allocator) (sourceSink : σ) (bufferLength : ℕ) : Buffer σ :=
  { sourceSink, bytes := memory.allocate bufferLength, start := 0, stop := 0, override := none, transferred := [] }

namespace Buffer

def markedClosed (buffer : Buffer σ) : Bool := buffer.override = some .closed

/-- `buffer-open?`, which marks the buffer when its source or sink turns out to be closed. -/
def bufferOpen (isOpen : σ → Bool) (buffer : Buffer σ) : Bool × Buffer σ :=
  if buffer.markedClosed then (false, buffer)
  else if isOpen buffer.sourceSink then (true, buffer)
  else (false, { buffer with override := some .closed })

def buffered (buffer : Buffer σ) : Bytevector := bytevectorCopy buffer.bytes buffer.start buffer.stop

structure Sound (buffer : Buffer σ) : Prop where
  ordered : buffer.start ≤ buffer.stop
  inside : buffer.stop ≤ buffer.bytes.length
  size : buffer.bytes.length = pageSize

end Buffer

theorem length_bytevectorCopy {bytes : Bytevector} {start stop : ℕ} (inside : stop ≤ bytes.length) :
    (bytevectorCopy bytes start stop).length = stop - start := by
  unfold bytevectorCopy
  rw [length_drop, length_take, min_eq_left inside]

@[simp]
theorem bytevectorCopy_empty (bytes : Bytevector) (index : ℕ) : bytevectorCopy bytes index index = [] := by
  apply drop_eq_nil_of_le
  rw [length_take]
  exact min_le_left _ _

theorem bytevectorCopy_append {bytes : Bytevector} {first middle last : ℕ} (lower : first ≤ middle)
    (upper : middle ≤ last) :
    bytevectorCopy bytes first middle ++ bytevectorCopy bytes middle last = bytevectorCopy bytes first last := by
  unfold bytevectorCopy
  have cut : (bytes.take last).take middle = bytes.take middle := by
    rw [take_take, min_eq_left upper]
  have rest : (bytes.take last).drop middle = ((bytes.take last).drop first).drop (middle - first) := by
    rw [drop_drop, Nat.add_sub_cancel' lower]
  rw [← cut, rest, drop_take]
  exact take_append_drop _ _

theorem take_bytevectorCopy {bytes : Bytevector} {start stop n : ℕ} (inside : stop ≤ bytes.length)
    (short : n ≤ stop - start) : (bytevectorCopy bytes start stop).take n = bytevectorCopy bytes start (start + n) := by
  by_cases ordered : start ≤ stop
  · have joined := @bytevectorCopy_append bytes start (start + n) stop (Nat.le_add_right _ _) (by omega)
    have long : (bytevectorCopy bytes start (start + n)).length = n := by
      rw [length_bytevectorCopy (by omega), Nat.add_sub_cancel_left]
    rw [← joined, take_left' long]
  · have none : n = 0 := by omega
    rw [none, take_zero, add_zero, bytevectorCopy_empty]

theorem bytevectorCopyInto_fits {target source : Bytevector} {position start stop : ℕ} (ordered : start ≤ stop)
    (inside : stop ≤ source.length) (room : position + (stop - start) ≤ target.length) : ∃ target' :
    Bytevector, bytevectorCopyInto target position source start stop = .ok (target', position + (stop - start)) ∧
    target'.length = target.length ∧ target'.take position =
    target.take position ∧ bytevectorCopy target' position (position + (stop - start)) = bytevectorCopy source start stop ∧
    target'.drop (position + (stop - start)) = target.drop (position + (stop - start)) := by
  have before : (target.take position).length = position := by
    rw [length_take]
    omega
  have copied := @length_bytevectorCopy source start stop inside
  refine ⟨_, if_pos ⟨ordered, inside, room⟩, ?_, ?_, ?_, ?_⟩
  · rw [length_append, length_append, length_drop]
    omega
  · rw [append_assoc, take_left' before]
  · unfold bytevectorCopy at copied ⊢
    rw [take_left' (by rw [length_append, before, copied]), drop_left' before]
  · rw [drop_left' (by rw [length_append, before, copied])]

end MitScheme.Runtime.BinaryPort
