import MitScheme.Runtime.BinaryPort.Buffers

/-!
Filling the buffer of an input port and reading from it. What was buffered and what the source gives, in that order, are
what is returned and what stays buffered.
-/

namespace MitScheme.Runtime.BinaryPort

open Library List Nat
open Utf (Bytevector bytevectorCopy bytevectorU8Ref)
open MimeCodec (bytevectorCopyInto)

variable {σ : Type}

/-- What a reader answers: a value, the eof object, or false where it would block. -/
inductive Input (α : Type) where
  | value (a : α)
  | eof
  | blocked
deriving DecidableEq, Repr

inductive BufferState where
  | filled
  | unfilled
  | eof
  | blocked
deriving DecidableEq, Repr

/-- `input-source-read-bytes!`, which sets the bytes from `bs` on. -/
def inputSourceReadBytes (source : Source σ) (ib : Buffer σ) (bytes : Bytevector) (bs be : ℕ) :
    Except Error (Option ℕ × Bytevector × Buffer σ) :=
  match source.readBytes ib.sourceSink (be - bs) with
  | (none, s) => .ok (none, bytes, { ib with sourceSink := s })
  | (some given, s) => do
    let (bytes, _) ← onBytes (bytevectorCopyInto bytes bs given 0 given.length)
    .ok (some given.length, bytes, { ib with sourceSink := s, transferred := ib.transferred ++ given })

/-- The mark that `read-bytes!` leaves after a read of no bytes. -/
def markEof (n : Option ℕ) (ib : Buffer σ) : Buffer σ :=
  if n = some 0 then { ib with override := some .eof } else ib

def readBytes (source : Source σ) (ib : Buffer σ) (bytes : Bytevector) (bs be : ℕ) :
    Except Error (Option ℕ × Bytevector × Buffer σ) := do
  let (n, bytes, ib) ← inputSourceReadBytes source ib bytes bs be
  .ok (n, bytes, markEof n ib)

def inputBufferState (ib : Buffer σ) (caller : String) : Except Error BufferState :=
  if ib.markedClosed then .error (.badRangePort caller)
  else if ib.override = some .eof then .ok .eof
  else if ib.start < ib.stop then .ok .filled
  else .ok .unfilled

/-- What `fill-input-buffer!` answers after it has read so many bytes. -/
def fillState : Option ℕ → BufferState
  | none => .blocked
  | some n => if 0 < n then .filled else .eof

def fillInputBuffer (source : Source σ) (ib : Buffer σ) : Except Error (BufferState × Buffer σ) := do
  let (n, bytes, ib) ← readBytes source ib ib.bytes 0 ib.bytes.length
  .ok (fillState n, { ib with bytes, start := 0, stop := n.getD 0 })

def settle (source : Source σ) (caller : String) (ib : Buffer σ) : Except Error (BufferState × Buffer σ) := do
  let state ← inputBufferState ib caller
  if state = .unfilled then fillInputBuffer source ib else .ok (state, ib)

/-- `read-u8`, on an open buffer. -/
def readU8 (source : Source σ) (ib : Buffer σ) : Except Error (Input ℕ × Buffer σ) := do
  let (state, ib) ← settle source "read-u8" ib
  match state with
  | .filled => do
    let byte ← onBytes (bytevectorU8Ref ib.bytes ib.start)
    .ok (.value byte, { ib with start := ib.start + 1 })
  | .eof => .ok (.eof, ib)
  | _ => .ok (.blocked, ib)

/-- `peek-u8`, on an open buffer. -/
def peekU8 (source : Source σ) (ib : Buffer σ) : Except Error (Input ℕ × Buffer σ) := do
  let (state, ib) ← settle source "peek-u8" ib
  match state with
  | .filled => do
    let byte ← onBytes (bytevectorU8Ref ib.bytes ib.start)
    .ok (.value byte, ib)
  | .eof => .ok (.eof, ib)
  | _ => .ok (.blocked, ib)

def readFromBuffer (bytevector : Bytevector) (stop : ℕ) (ib : Buffer σ) (index : ℕ) :
    Except Error (ℕ × Bytevector × Buffer σ) := do
  let n := min (stop - index) (ib.stop - ib.start)
  let (bytevector, _) ← onBytes (bytevectorCopyInto bytevector index ib.bytes ib.start (ib.start + n))
  .ok (index + n, bytevector, { ib with start := ib.start + n })

def readSoFar (otherwise : Input ℕ) (start index : ℕ) : Input ℕ :=
  if start < index then .value (index - start) else otherwise

def readFromSource (source : Source σ) (bytevector : Bytevector) (start stop : ℕ) (ib : Buffer σ) (index : ℕ) :
    Except Error (Input ℕ × Bytevector × Buffer σ) :=
  if stop - index < ib.bytes.length then do
    let (state, ib) ← fillInputBuffer source ib
    match state with
    | .filled => do
      let (index, bytevector, ib) ← readFromBuffer bytevector stop ib index
      .ok (.value (index - start), bytevector, ib)
    | .eof => .ok (readSoFar .eof start index, bytevector, ib)
    | _ => .ok (readSoFar .blocked start index, bytevector, ib)
  else do
    let (n, bytevector, ib) ← readBytes source ib bytevector index stop
    match n with
    | none => .ok (readSoFar .blocked start index, bytevector, ib)
    | some n =>
      if 0 < n then .ok (.value (index + n - start), bytevector, ib)
      else .ok (readSoFar .eof start index, bytevector, ib)

/-- `%read-bytevector!`. -/
def readBytevectorInto' (source : Source σ) (bytevector : Bytevector) (start stop : ℕ) (caller : String)
    (ib : Buffer σ) : Except Error (Input ℕ × Bytevector × Buffer σ) := do
  let state ← inputBufferState ib caller
  match state with
  | .filled => do
    let (index, bytevector, ib) ← readFromBuffer bytevector stop ib start
    if index < stop then readFromSource source bytevector start stop ib index
    else .ok (.value (stop - start), bytevector, ib)
  | .unfilled => readFromSource source bytevector start stop ib start
  | _ => .ok (.eof, bytevector, ib)

/-- What `read-bytevector` makes of the bytevector that has been read into. -/
def trimRead (k : ℕ) (bytevector : Bytevector) : Input ℕ → Input Bytevector
  | .value n => .value (if n < k then bytevectorCopy bytevector 0 n else bytevector)
  | .eof => .eof
  | .blocked => .blocked

/-- `read-bytevector`, on an open buffer. -/
def readBytevector (memory : Utf.Allocator) (source : Source σ) (k : ℕ) (ib : Buffer σ) :
    Except Error (Input Bytevector × Buffer σ) :=
  if 0 < k then do
    let (n, bytevector, ib) ← readBytevectorInto' source (memory.allocate k) 0 k "read-bytevector" ib
    .ok (trimRead k bytevector n, ib)
  else .ok (.value [], ib)

/-- `read-bytevector!`, on an open buffer and indices in range. -/
def readBytevectorInto (source : Source σ) (bytevector : Bytevector) (start stop : ℕ) (ib : Buffer σ) :
    Except Error (Input ℕ × Bytevector × Buffer σ) :=
  if start < stop then readBytevectorInto' source bytevector start stop "read-bytevector!" ib
  else .ok (.value 0, bytevector, ib)

/-- The buffer has returned the bytes: they and what it holds are what it held and what the source
has given in the meantime. -/
structure Returns (ib : Buffer σ) (returned : Bytevector) (ib' : Buffer σ) : Prop where
  sound : ib'.Sound
  account : ∃ supplied, ib'.transferred = ib.transferred ++ supplied ∧
    Conveys ib.buffered supplied returned ib'.buffered

variable {source : Source σ} {ib ib' ib'' : Buffer σ} {bytevector first second : Bytevector} {start stop index : ℕ}

theorem Returns.trans (here : Returns ib first ib') (there : Returns ib' second ib'') :
    Returns ib (first ++ second) ib'' := by
  obtain ⟨supplied, log, conveys⟩ := here.account
  obtain ⟨supplied', log', conveys'⟩ := there.account
  refine ⟨there.sound, supplied ++ supplied', ?_, conveys.trans conveys'⟩
  rw [log', log, append_assoc]

theorem Returns.refl (sound : ib.Sound) : Returns ib [] ib :=
  ⟨sound, [], (append_nil _).symm, .refl⟩

theorem readBytes_spec {bytes : Bytevector} {bs be : ℕ} (ordered : bs ≤ be) (inside : be ≤ bytes.length) :
    ∃ n bytes' ib', readBytes source ib bytes bs be = .ok (n, bytes', ib') ∧ n.getD 0 ≤ be - bs ∧
      bytes'.length = bytes.length ∧ bytes'.take bs = bytes.take bs ∧
      ib'.bytes = ib.bytes ∧ ib'.start = ib.start ∧ ib'.stop = ib.stop ∧
      ib'.transferred = ib.transferred ++ bytevectorCopy bytes' bs (bs + n.getD 0) := by
  unfold readBytes inputSourceReadBytes
  cases answered : source.readBytes ib.sourceSink (be - bs) with
  | mk given s =>
    cases given with
    | none =>
      refine ⟨none, bytes, _, rfl, zero_le _, rfl, rfl, rfl, rfl, rfl, ?_⟩
      show ib.transferred = ib.transferred ++ bytevectorCopy bytes bs bs
      rw [bytevectorCopy_empty, append_nil]
    | some given =>
      have short := source.readBytes_le (congrArg Prod.fst answered)
      obtain ⟨bytes', copied, length, before, placed, -⟩ :=
        @bytevectorCopyInto_fits bytes given bs 0 given.length (zero_le _) (le_refl _) (by omega)
      rw [Nat.sub_zero] at copied placed
      have whole : bytevectorCopy given 0 given.length = given := by
        unfold bytevectorCopy
        rw [take_length, drop_zero]
      simp only [copied, onBytes, bind, Except.bind]
      refine ⟨some given.length, bytes', _, rfl, short, length, before, ?_⟩
      rw [Option.getD_some, placed, whole]
      unfold markEof
      split
      · exact ⟨rfl, rfl, rfl, rfl⟩
      · exact ⟨rfl, rfl, rfl, rfl⟩

theorem fillInputBuffer_spec (sound : ib.Sound) (empty : ib.start = ib.stop) : ∃ state ib', fillInputBuffer source ib =
    .ok (state, ib') ∧ Returns ib [] ib' ∧ state ≠ .unfilled ∧ (state = .filled → ib'.start < ib'.stop) := by
  obtain ⟨n, bytes', ib₁, read, short, length, -, same, -, -, log⟩ :=
    @readBytes_spec σ source ib ib.bytes 0 ib.bytes.length (zero_le _) (le_refl _)
  rw [zero_add] at log
  unfold fillInputBuffer
  simp only [read, bind, Except.bind]
  refine ⟨_, _, rfl, ⟨⟨zero_le _, ?_, length.trans sound.size⟩, _, log, ?_⟩, ?_, ?_⟩
  · show n.getD 0 ≤ bytes'.length
    omega
  · unfold Buffer.buffered
    rw [empty, bytevectorCopy_empty]
    exact rfl
  · unfold fillState
    split
    · exact nofun
    · split <;> exact nofun
  · intro filled
    unfold fillState at filled
    split at filled
    · cases filled
    · split at filled
      · assumption
      · cases filled

theorem inputBufferState_open (opened : ib.markedClosed = false) (caller : String) :
    ∃ state, inputBufferState ib caller = .ok state ∧ (state = .filled → ib.start < ib.stop) ∧
      (state = .unfilled → ib.stop ≤ ib.start) := by
  unfold inputBufferState
  rw [if_neg (by rw [opened]; exact Bool.false_ne_true)]
  split
  · exact ⟨_, rfl, nofun, nofun⟩
  · split
    · rename_i some_held
      exact ⟨_, rfl, fun _ => some_held, nofun⟩
    · rename_i none_held
      exact ⟨_, rfl, nofun, fun _ => Nat.le_of_not_lt none_held⟩

theorem settle_spec (sound : ib.Sound) (opened : ib.markedClosed = false) (caller : String) : ∃ state ib',
    settle source caller ib = .ok (state, ib') ∧ Returns ib [] ib' ∧ (state = .filled → ib'.start < ib'.stop) := by
  obtain ⟨state, here, filled, unfilled⟩ := inputBufferState_open opened caller
  unfold settle
  simp only [here, bind, Except.bind]
  by_cases fills : state = .unfilled
  · rw [if_pos fills]
    obtain ⟨state', ib', read, returns, -, filled'⟩ :=
      @fillInputBuffer_spec σ source ib sound (sound.ordered.antisymm (unfilled fills))
    exact ⟨state', ib', read, returns, filled'⟩
  · rw [if_neg fills]
    exact ⟨state, ib, rfl, .refl sound, filled⟩

theorem Buffer.Sound.head (sound : ib.Sound) (filled : ib.start < ib.stop) :
    ∃ byte : UInt8, bytevectorU8Ref ib.bytes ib.start = .ok byte.toNat ∧
      Returns ib [byte] { ib with start := ib.start + 1 } := by
  have inside : ib.start < ib.bytes.length := filled.trans_le sound.inside
  refine ⟨ib.bytes.get ⟨ib.start, inside⟩, dif_pos inside, ⟨filled, sound.inside, sound.size⟩, [],
    (append_nil _).symm, ?_⟩
  have joined := @bytevectorCopy_append ib.bytes ib.start (ib.start + 1) ib.stop (le_add_right _ _) filled
  have one : bytevectorCopy ib.bytes ib.start (ib.start + 1) = [ib.bytes.get ⟨ib.start, inside⟩] := by
    unfold bytevectorCopy
    rw [take_succ_eq_append_getElem inside, drop_left' (by rw [length_take]; omega)]
    rfl
  show bytevectorCopy ib.bytes ib.start ib.stop ++ [] = _ ++ bytevectorCopy ib.bytes (ib.start + 1) ib.stop
  rw [append_nil, ← one]
  exact joined.symm

def Input.bytes : Input ℕ → Bytevector
  | .value byte => [UInt8.ofNat byte]
  | _ => []

theorem readU8_spec (sound : ib.Sound) (opened : ib.markedClosed = false) :
    ∃ answer ib', readU8 source ib = .ok (answer, ib') ∧ Returns ib answer.bytes ib' := by
  obtain ⟨state, ib₁, settled, returns, filled⟩ := @settle_spec σ source ib sound opened "read-u8"
  unfold readU8
  simp only [settled, bind, Except.bind]
  cases state with
  | filled =>
    obtain ⟨byte, read, returns'⟩ := returns.sound.head (filled rfl)
    simp only [read, onBytes]
    refine ⟨_, _, rfl, ?_⟩
    show Returns ib [.ofNat byte.toNat] _
    rw [UInt8.ofNat_toNat]
    exact returns.trans returns'
  | eof => exact ⟨_, ib₁, rfl, returns⟩
  | unfilled => exact ⟨_, ib₁, rfl, returns⟩
  | blocked => exact ⟨_, ib₁, rfl, returns⟩

theorem peekU8_spec (sound : ib.Sound) (opened : ib.markedClosed = false) : ∃ answer ib' ib'', peekU8 source ib =
    .ok (answer, ib') ∧ Returns ib [] ib' ∧ readU8 source ib = .ok (answer, ib'') := by
  obtain ⟨state, ib₁, settled, returns, filled⟩ := @settle_spec σ source ib sound opened "read-u8"
  have settled' : settle source "peek-u8" ib = .ok (state, ib₁) := by
    rw [← settled]
    unfold settle inputBufferState
    rw [opened]
    rfl
  unfold peekU8 readU8
  simp only [settled, settled', bind, Except.bind]
  cases state with
  | filled =>
    obtain ⟨byte, read, -⟩ := returns.sound.head (filled rfl)
    simp only [read, onBytes]
    exact ⟨_, _, _, rfl, returns, rfl⟩
  | eof => exact ⟨_, ib₁, _, rfl, returns, rfl⟩
  | unfilled => exact ⟨_, ib₁, _, rfl, returns, rfl⟩
  | blocked => exact ⟨_, ib₁, _, rfl, returns, rfl⟩

def Input.count : Input ℕ → ℕ
  | .value n => n
  | _ => 0

theorem count_readSoFar {otherwise : Input ℕ} (none : otherwise.count = 0) (lower : start ≤ index) :
    (readSoFar otherwise start index).count = index - start := by
  unfold readSoFar
  split
  · rfl
  · omega

/-- A bytevector has been read into from the index `index` up to another one, which tells what is
answered. -/
def ReadsFrom (bytevector : Bytevector) (start stop : ℕ) (ib : Buffer σ) (index : ℕ)
    (result : Except Error (Input ℕ × Bytevector × Buffer σ)) : Prop :=
  ∃ answer bytevector' ib' next, result = .ok (answer, bytevector', ib') ∧ index ≤ next ∧ next ≤ stop ∧
    answer.count = next - start ∧ bytevector'.length = bytevector.length ∧
    bytevector'.take index = bytevector.take index ∧ Returns ib (bytevectorCopy bytevector' index next) ib'

theorem bytevectorCopy_before {other : Bytevector} {next : ℕ} (same : other.take next = bytevector.take next) :
    bytevectorCopy other index next = bytevectorCopy bytevector index next := by
  unfold bytevectorCopy
  rw [same]

theorem take_before {other : Bytevector} {next : ℕ} (lower : index ≤ next)
    (same : other.take next = bytevector.take next) : other.take index = bytevector.take index := by
  have shorter := congrArg (take index) same
  rwa [take_take, take_take, min_eq_left lower] at shorter

theorem ReadsFrom.after {middle : Bytevector} {next : ℕ} {result : Except Error (Input ℕ × Bytevector × Buffer σ)}
    (lower : index ≤ next) (length : middle.length = bytevector.length)
    (before : middle.take index = bytevector.take index) (returns : Returns ib (bytevectorCopy middle index next) ib')
    (reads : ReadsFrom middle start stop ib' next result) : ReadsFrom bytevector start stop ib index result := by
  obtain ⟨answer, bytevector', ib'', last, read, further, inside, count, length', before', returns'⟩ := reads
  have both := returns.trans returns'
  rw [← bytevectorCopy_before before', bytevectorCopy_append lower further] at both
  exact ⟨answer, bytevector', ib'', last, read, lower.trans further, inside, count, length'.trans length,
    (take_before lower before').trans before, both⟩

theorem readFromBuffer_spec (sound : ib.Sound) (ordered : index ≤ stop) (inside : stop ≤ bytevector.length) :
    ∃ next bytevector' ib', readFromBuffer bytevector stop ib index = .ok (next, bytevector', ib') ∧
      index ≤ next ∧ next ≤ stop ∧ (next < stop → ib'.start = ib'.stop) ∧
      bytevector'.length = bytevector.length ∧ bytevector'.take index = bytevector.take index ∧
      Returns ib (bytevectorCopy bytevector' index next) ib' := by
  have held := sound.ordered
  have bound := sound.inside
  obtain ⟨n, least⟩ : ∃ n, n = min (stop - index) (ib.stop - ib.start) := ⟨_, rfl⟩
  obtain ⟨bytevector', copied, length, before, placed, -⟩ :=
    @bytevectorCopyInto_fits bytevector ib.bytes index ib.start (ib.start + n) (le_add_right _ _)
      (by omega) (by omega)
  rw [Nat.add_sub_cancel_left] at copied placed
  unfold readFromBuffer
  simp only [← least, copied, onBytes, bind, Except.bind]
  have joined := @bytevectorCopy_append ib.bytes ib.start (ib.start + n) ib.stop (le_add_right _ _) (by omega)
  refine ⟨_, _, _, rfl, le_add_right _ _, by omega, ?_, length, before, ⟨?_, bound, sound.size⟩, [],
    (append_nil _).symm, ?_⟩
  · intro short
    dsimp only
    omega
  · dsimp only
    omega
  · rw [placed]
    show bytevectorCopy ib.bytes ib.start ib.stop ++ [] = _ ++ bytevectorCopy ib.bytes (ib.start + n) ib.stop
    rw [append_nil]
    exact joined.symm

theorem readFromSource_spec (sound : ib.Sound) (empty : ib.start = ib.stop) (lower : start ≤ index)
    (ordered : index ≤ stop) (inside : stop ≤ bytevector.length) :
    ReadsFrom bytevector start stop ib index (readFromSource source bytevector start stop ib index) := by
  unfold readFromSource
  split
  · obtain ⟨state, ib₁, filled, returns, -, some_held⟩ := @fillInputBuffer_spec σ source ib sound empty
    have prior : Returns ib (bytevectorCopy bytevector index index) ib₁ := by
      rw [bytevectorCopy_empty]
      exact returns
    simp only [filled, bind, Except.bind]
    cases state with
    | filled =>
      obtain ⟨next, bytevector', ib₂, read, lower', upper, -, length, before, returns'⟩ :=
        @readFromBuffer_spec σ ib₁ bytevector stop index returns.sound ordered inside
      simp only [read]
      exact ⟨_, _, _, next, rfl, lower', upper, rfl, length, before, returns.trans returns'⟩
    | eof => exact ⟨_, _, _, index, rfl, le_refl _, ordered, count_readSoFar rfl lower, rfl, rfl, prior⟩
    | unfilled => exact ⟨_, _, _, index, rfl, le_refl _, ordered, count_readSoFar rfl lower, rfl, rfl, prior⟩
    | blocked => exact ⟨_, _, _, index, rfl, le_refl _, ordered, count_readSoFar rfl lower, rfl, rfl, prior⟩
  · obtain ⟨n, bytevector', ib₁, read, short, length, before, same, first, last, log⟩ :=
      @readBytes_spec σ source ib bytevector index stop ordered inside
    simp only [read, bind, Except.bind]
    have returns : Returns ib (bytevectorCopy bytevector' index (index + n.getD 0)) ib₁ := by
      refine ⟨⟨?_, ?_, ?_⟩, _, log, ?_⟩
      · rw [first, last]
        exact sound.ordered
      · rw [last, same]
        exact sound.inside
      · rw [same]
        exact sound.size
      · unfold Buffer.buffered
        rw [first, last, empty, bytevectorCopy_empty, bytevectorCopy_empty]
        exact .bypass
    cases n with
    | none =>
      exact ⟨_, _, _, index, rfl, le_refl _, ordered, count_readSoFar rfl lower, length, before, returns⟩
    | some n =>
      dsimp only
      rw [Option.getD_some] at short returns
      by_cases progress : 0 < n
      · rw [if_pos progress]
        exact ⟨_, _, _, index + n, rfl, le_add_right _ _, by omega, rfl, length, before, returns⟩
      · have none : n = 0 := by omega
        subst none
        exact ⟨_, _, _, index, rfl, le_refl _, ordered, count_readSoFar rfl lower, length, before, returns⟩

theorem readBytevectorInto'_spec (sound : ib.Sound) (opened : ib.markedClosed = false) (ordered : start ≤ stop)
    (inside : stop ≤ bytevector.length) (caller : String) :
    ReadsFrom bytevector start stop ib start (readBytevectorInto' source bytevector start stop caller ib) := by
  obtain ⟨state, here, filled, unfilled⟩ := inputBufferState_open opened caller
  unfold readBytevectorInto'
  simp only [here, bind, Except.bind]
  have none : Returns ib (bytevectorCopy bytevector start start) ib := by
    rw [bytevectorCopy_empty]
    exact .refl sound
  have nothing : (0 : ℕ) = start - start := (Nat.sub_self _).symm
  cases state with
  | filled =>
    obtain ⟨next, bytevector', ib₁, read, lower, upper, emptied, length, before, returns⟩ :=
      @readFromBuffer_spec σ ib bytevector stop start sound ordered inside
    simp only [read]
    by_cases more : next < stop
    · rw [if_pos more]
      have further := @readFromSource_spec σ source ib₁ bytevector' start stop next returns.sound (emptied more) lower
        upper (length ▸ inside)
      exact further.after lower length before returns
    · have last : next = stop := by omega
      rw [if_neg more, ← last]
      exact ⟨_, _, _, next, rfl, lower, le_refl _, rfl, length, before, returns⟩
  | unfilled =>
    exact readFromSource_spec sound (sound.ordered.antisymm (unfilled rfl)) (le_refl _) ordered inside
  | eof => exact ⟨_, _, _, start, rfl, le_refl _, ordered, nothing, rfl, rfl, none⟩
  | blocked => exact ⟨_, _, _, start, rfl, le_refl _, ordered, nothing, rfl, rfl, none⟩

theorem readBytevectorInto_spec (sound : ib.Sound) (opened : ib.markedClosed = false) (ordered : start ≤ stop)
    (inside : stop ≤ bytevector.length) :
    ∃ answer bytevector' ib', readBytevectorInto source bytevector start stop ib = .ok (answer, bytevector', ib') ∧
      answer.count ≤ stop - start ∧ Returns ib (bytevectorCopy bytevector' start (start + answer.count)) ib' := by
  unfold readBytevectorInto
  by_cases some_wanted : start < stop
  · rw [if_pos some_wanted]
    obtain ⟨answer, bytevector', ib', next, read, lower, upper, count, -, -, returns⟩ :=
      @readBytevectorInto'_spec σ source ib bytevector start stop sound opened ordered inside "read-bytevector!"
    have last : start + answer.count = next := by omega
    exact ⟨answer, bytevector', ib', read, by omega, by rw [last]; exact returns⟩
  · rw [if_neg some_wanted]
    refine ⟨_, _, _, rfl, zero_le _, ?_⟩
    show Returns ib (bytevectorCopy bytevector start start) ib
    rw [bytevectorCopy_empty]
    exact .refl sound

/-- The bytes that `read-bytevector` returns. -/
def Input.contents : Input Bytevector → Bytevector
  | .value bytes => bytes
  | _ => []

theorem readBytevector_spec {memory : Utf.Allocator} {k : ℕ} (sound : ib.Sound) (opened : ib.markedClosed = false) :
    ∃ answer ib', readBytevector memory source k ib = .ok (answer, ib') ∧ answer.contents.length ≤ k ∧
      Returns ib answer.contents ib' := by
  unfold readBytevector
  by_cases some_wanted : 0 < k
  · rw [if_pos some_wanted]
    have size := memory.length_allocate k
    obtain ⟨answer, bytevector', ib', next, read, -, upper, count, length, -, returns⟩ :=
      @readBytevectorInto'_spec σ source ib (memory.allocate k) 0 k sound opened (zero_le _) (size.symm.le)
        "read-bytevector"
    simp only [read, bind, Except.bind]
    have contents : (trimRead k bytevector' answer).contents = bytevectorCopy bytevector' 0 next := by
      cases answer with
      | value n =>
        have same : n = next := count
        subst same
        by_cases short : n < k
        · simp [trimRead, Input.contents, short]
        · have whole : n = bytevector'.length := by omega
          simp [trimRead, Input.contents, bytevectorCopy, whole]
      | eof =>
        have none : 0 = next := count
        subst none
        rfl
      | blocked =>
        have none : 0 = next := count
        subst none
        rfl
    refine ⟨_, ib', rfl, ?_, ?_⟩
    · rw [contents, length_bytevectorCopy (by omega)]
      omega
    · rw [contents]
      exact returns
  · rw [if_neg some_wanted]
    exact ⟨_, ib, rfl, zero_le _, .refl sound⟩

end MitScheme.Runtime.BinaryPort
