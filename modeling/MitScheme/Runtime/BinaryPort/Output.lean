import MitScheme.Runtime.BinaryPort.Buffers

/-!
Writing to the buffer of an output port, draining it and flushing it. What was buffered and what is accepted, in that
order, are what the sink has taken and what stays buffered.
-/

namespace MitScheme.Runtime.BinaryPort

open Library List
open Utf (Bytevector bytevectorCopy bytevectorU8Set)
open MimeCodec (bytevectorCopyInto)

variable {τ : Type}

def outputSinkWriteBytes (sink : Sink τ) (ob : Buffer τ) (bytes : Bytevector) (start stop : ℕ) : Option ℕ × Buffer τ :=
  let offered := bytevectorCopy bytes start stop
  let answer := sink.writeBytes ob.sourceSink offered
  (answer.1, { ob with sourceSink := answer.2, transferred := ob.transferred ++ offered.take (answer.1.getD 0) })

/-- `output-buffer-available`, which moves the bytes of the buffer to its beginning. -/
def outputBufferAvailable (ob : Buffer τ) (caller : String) : Except Error (ℕ × Buffer τ) :=
  if ob.markedClosed then .error (.badRangePort caller)
  else if 0 < ob.start then do
    let (bytes, _) ← onBytes (bytevectorCopyInto ob.bytes 0 ob.bytes ob.start ob.stop)
    .ok (ob.bytes.length - (ob.stop - ob.start), { ob with bytes, start := 0, stop := ob.stop - ob.start })
  else .ok (ob.bytes.length - ob.stop, ob)

def drainLoop (sink : Sink τ) (be : ℕ) : ℕ → Buffer τ → ℕ → Except Error (Option ℕ × Buffer τ)
  | 0, _, _ => .error .unfinished
  | fuel + 1, ob, bi =>
    let (n, ob) := outputSinkWriteBytes sink ob ob.bytes bi be
    if 0 < n.getD 0 then
      if bi + n.getD 0 < be then
        drainLoop sink be fuel { ob with start := bi + n.getD 0 } (bi + n.getD 0)
      else .ok (some be, { ob with start := 0, stop := 0 })
    else if 0 < bi then do
      let (bytes, _) ← onBytes (bytevectorCopyInto ob.bytes 0 ob.bytes bi be)
      .ok (some bi, { ob with bytes, start := 0, stop := be - bi })
    else .ok (n, ob)

def drainOutputBuffer (sink : Sink τ) (ob : Buffer τ) : Except Error (Option ℕ × Buffer τ) :=
  drainLoop sink ob.stop (ob.stop + 1) ob 0

def flushLoop (sink : Sink τ) (bs be : ℕ) : ℕ → Buffer τ → ℕ → Except Error (ℕ × Buffer τ)
  | 0, _, _ => .error .unfinished
  | fuel + 1, ob, bi =>
    let (n, ob) := outputSinkWriteBytes sink ob ob.bytes bi be
    if 0 < n.getD 0 then
      if bi + n.getD 0 < be then
        flushLoop sink bs be fuel { ob with start := bi + n.getD 0 } (bi + n.getD 0)
      else .ok (ob.bytes.length, { ob with start := 0, stop := 0 })
    else .ok (bi - bs, ob)

/-- `%flush-output-buffer`, which answers the size of the buffer once it has emptied it. -/
def flushOutputBuffer' (sink : Sink τ) (ob : Buffer τ) : Except Error (ℕ × Buffer τ) :=
  if ob.start < ob.stop then flushLoop sink ob.start ob.stop (ob.stop + 1) ob ob.start else .ok (0, ob)

/-- `flush-output-buffer`, which puts the channel into blocking mode for the time. -/
def flushOutputBuffer (sink : Sink τ) (ob : Buffer τ) : Except Error (Option ℕ × Buffer τ) :=
  if ob.start < ob.stop then do
    let (n, ob) ← flushOutputBuffer' sink { ob with sourceSink := sink.blocking ob.sourceSink }
    .ok (some n, { ob with sourceSink := sink.unblocking ob.sourceSink })
  else .ok (none, ob)

def writeByte (byte : ℕ) (ob : Buffer τ) : Except Error (Option ℕ × Buffer τ) := do
  let bytes ← onBytes (bytevectorU8Set ob.bytes ob.stop byte)
  .ok (some 1, { ob with bytes, stop := ob.stop + 1 })

/-- `write-u8`, on an open buffer. -/
def writeU8 (sink : Sink τ) (byte : ℕ) (ob : Buffer τ) : Except Error (Option ℕ × Buffer τ) := do
  let (available, ob) ← outputBufferAvailable ob "write-u8"
  if 0 < available then writeByte byte ob
  else do
    let (n, ob) ← drainOutputBuffer sink ob
    if 0 < n.getD 0 then writeByte byte ob else .ok (n, ob)

def writeToBuffer (bytevector : Bytevector) (ob : Buffer τ) (index n : ℕ) : Except Error (ℕ × Buffer τ) := do
  let (bytes, _) ← onBytes (bytevectorCopyInto ob.bytes ob.stop bytevector index (index + n))
  .ok (index + n, { ob with bytes, stop := ob.stop + n })

def writeToSink (sink : Sink τ) (bytevector : Bytevector) (start stop : ℕ) :
    ℕ → Buffer τ → ℕ → Except Error (Option ℕ × Buffer τ)
  | 0, _, _ => .error .unfinished
  | fuel + 1, ob, index =>
    let (n, ob) := outputSinkWriteBytes sink ob bytevector index stop
    if 0 < n.getD 0 then
      if index + n.getD 0 < stop then writeToSink sink bytevector start stop fuel ob (index + n.getD 0)
      else .ok (some (stop - start), ob)
    else if start < index then .ok (some (index - start), ob)
    else .ok (n, ob)

/-- The part of `loop` that fills what is left of the buffer. -/
def fillBuffer (bytevector : Bytevector) (ob : Buffer τ) (index available : ℕ) : Except Error (ℕ × Buffer τ) :=
  if 0 < available then writeToBuffer bytevector ob index available else .ok (index, ob)

def writeLoop (sink : Sink τ) (bytevector : Bytevector) (start stop bvLength : ℕ) :
    ℕ → Buffer τ → ℕ → Except Error (Option ℕ × Buffer τ)
  | 0, _, _ => .error .unfinished
  | fuel + 1, ob, index => do
    let (available, ob) ← outputBufferAvailable ob "write-bytevector"
    if stop - index ≤ available then do
      let (index, ob) ← writeToBuffer bytevector ob index (stop - index)
      .ok (some (index - start), ob)
    else if available < bvLength then do
      let (index, ob) ← fillBuffer bytevector ob index available
      let (n, ob) ← drainOutputBuffer sink ob
      if 0 < n.getD 0 then
        if n.getD 0 < bvLength then writeLoop sink bytevector start stop bvLength fuel ob index
        else writeToSink sink bytevector start stop (stop + 1) ob index
      else .ok (some (index - start), ob)
    else writeToSink sink bytevector start stop (stop + 1) ob index

/-- `write-bytevector`, on an open buffer and indices in range. -/
def writeBytevector (sink : Sink τ) (bytevector : Bytevector) (start stop : ℕ) (ob : Buffer τ) :
    Except Error (Option ℕ × Buffer τ) :=
  writeLoop sink bytevector start stop ob.bytes.length (stop + pageSize + 1) ob start

structure Accepts (ob : Buffer τ) (accepted : Bytevector) (ob' : Buffer τ) : Prop where
  sound : ob'.Sound
  override : ob'.override = ob.override
  account : ∃ delivered, ob'.transferred = ob.transferred ++ delivered ∧
    Conveys ob.buffered accepted delivered ob'.buffered

variable {sink : Sink τ} {ob ob' ob'' : Buffer τ} {bytevector first second : Bytevector}
  {start stop index bvLength : ℕ}

theorem Accepts.trans (here : Accepts ob first ob') (there : Accepts ob' second ob'') :
    Accepts ob (first ++ second) ob'' := by
  obtain ⟨delivered, log, conveys⟩ := here.account
  obtain ⟨delivered', log', conveys'⟩ := there.account
  refine ⟨there.sound, there.override.trans here.override, delivered ++ delivered', ?_, conveys.trans conveys'⟩
  rw [log', log, append_assoc]

theorem Accepts.of_buffered (sound : ob'.Sound) (override : ob'.override = ob.override)
    (log : ob'.transferred = ob.transferred) (same : ob'.buffered = ob.buffered) : Accepts ob [] ob' := by
  refine ⟨sound, override, [], ?_, ?_⟩
  · rw [log, append_nil]
  · rw [same]
    exact .refl

theorem Accepts.refl (sound : ob.Sound) : Accepts ob [] ob := .of_buffered sound rfl rfl rfl

theorem outputSinkWriteBytes_le {bytes : Bytevector} {bi be : ℕ} (inside : be ≤ bytes.length) :
    (outputSinkWriteBytes sink ob bytes bi be).1.getD 0 ≤ be - bi := by
  unfold outputSinkWriteBytes
  cases answered : (sink.writeBytes ob.sourceSink (bytevectorCopy bytes bi be)).1 with
  | none => exact Nat.zero_le _
  | some n =>
    have taken := sink.writeBytes_le answered
    rwa [length_bytevectorCopy inside] at taken

theorem Buffer.Sound.offer (sound : ob.Sound) {n : Option ℕ}
    (answered : outputSinkWriteBytes sink ob ob.bytes ob.start ob.stop = (n, ob')) : n.getD 0 ≤ ob.stop - ob.start ∧
    ob'.start = ob.start ∧ ob'.stop = ob.stop ∧ Accepts ob [] { ob' with start := ob.start + n.getD 0 } := by
  have short := @outputSinkWriteBytes_le τ sink ob ob.bytes ob.start ob.stop sound.inside
  have taken := take_bytevectorCopy sound.inside short
  rw [answered] at short taken
  dsimp only at short taken
  have ordered := sound.ordered
  have joined := @bytevectorCopy_append ob.bytes ob.start (ob.start + n.getD 0) ob.stop (Nat.le_add_right _ _)
    (by omega)
  obtain ⟨rfl, rfl⟩ := Prod.mk.injEq _ _ _ _ ▸ answered
  refine ⟨short, rfl, rfl, ⟨?_, sound.inside, sound.size⟩, rfl, _, rfl, ?_⟩
  · dsimp only
    omega
  · rw [taken]
    show bytevectorCopy ob.bytes ob.start ob.stop ++ [] = _ ++ bytevectorCopy ob.bytes _ ob.stop
    rw [append_nil]
    exact joined.symm

theorem Accepts.emptied (accepts : Accepts ob first ob') (empty : ob'.start = ob'.stop) :
    Accepts ob first { ob' with start := 0, stop := 0 } := by
  have sound : Buffer.Sound { ob' with start := 0, stop := 0 } :=
    ⟨le_refl _, Nat.zero_le _, accepts.sound.size⟩
  have restarted : Accepts ob' [] { ob' with start := 0, stop := 0 } := by
    refine .of_buffered sound ?_ ?_ ?_
    · rfl
    · rfl
    show bytevectorCopy ob'.bytes 0 0 = bytevectorCopy ob'.bytes ob'.start ob'.stop
    rw [empty, bytevectorCopy_empty, bytevectorCopy_empty]
  have both := accepts.trans restarted
  rwa [append_nil] at both

theorem Buffer.Sound.shift (sound : ob.Sound) : ∃ bytes, bytevectorCopyInto ob.bytes 0 ob.bytes ob.start ob.stop =
    .ok (bytes, ob.stop - ob.start) ∧ Accepts ob [] { ob with bytes, start := 0, stop := ob.stop - ob.start } := by
  have inside := sound.inside
  obtain ⟨bytes, copied, length, -, moved, -⟩ :=
    @bytevectorCopyInto_fits ob.bytes ob.bytes 0 ob.start ob.stop sound.ordered inside (by omega)
  rw [zero_add] at copied moved
  refine ⟨bytes, copied, .of_buffered ⟨Nat.zero_le _, ?_, length.trans sound.size⟩ rfl rfl moved⟩
  show ob.stop - ob.start ≤ bytes.length
  omega

theorem outputBufferAvailable_spec (sound : ob.Sound) (opened : ob.markedClosed = false) (caller : String) :
    ∃ ob', outputBufferAvailable ob caller = .ok (pageSize - ob'.stop, ob') ∧ Accepts ob [] ob' ∧
      ob'.start = 0 ∧ ob'.stop = ob.stop - ob.start := by
  unfold outputBufferAvailable
  rw [if_neg (by rw [opened]; exact Bool.false_ne_true), sound.size]
  by_cases moved : 0 < ob.start
  · rw [if_pos moved]
    obtain ⟨bytes, copied, accepts⟩ := sound.shift
    simp only [copied, onBytes, bind, Except.bind]
    exact ⟨_, rfl, accepts, rfl, rfl⟩
  · have first : ob.start = 0 := by omega
    rw [if_neg moved]
    exact ⟨ob, rfl, .refl sound, first, by rw [first, Nat.sub_zero]⟩

theorem drainLoop_spec {be fuel : ℕ} : ∀ {ob : Buffer τ}, ob.Sound → ob.stop = be → ob.start < be →
    be < ob.start + fuel → ∃ n ob', drainLoop sink be fuel ob ob.start = .ok (n, ob') ∧ Accepts ob [] ob' ∧
      ob'.start = 0 ∧ ob'.stop + n.getD 0 = be := by
  induction fuel with
  | zero =>
    intro ob _ _ filled enough
    omega
  | succ fuel ih =>
    intro ob sound last filled enough
    subst last
    rw [drainLoop]
    cases answered : outputSinkWriteBytes sink ob ob.bytes ob.start ob.stop with
    | mk n ob₁ =>
      obtain ⟨short, start, stop, accepts⟩ := sound.offer answered
      dsimp only
      by_cases progress : 0 < n.getD 0
      · rw [if_pos progress]
        by_cases more : ob.start + n.getD 0 < ob.stop
        · rw [if_pos more]
          have drained := ih accepts.sound stop more (by dsimp only; omega)
          obtain ⟨m, ob', drained, accepts', rest⟩ := drained
          exact ⟨m, ob', drained, accepts.trans accepts', rest⟩
        · rw [if_neg more]
          exact ⟨_, _, rfl, accepts.emptied (by dsimp only; omega), rfl, zero_add _⟩
      · have none : n.getD 0 = 0 := by omega
        rw [none, add_zero, ← start] at accepts
        rw [if_neg progress]
        by_cases passed : 0 < ob.start
        · rw [if_pos passed, ← start, ← stop]
          obtain ⟨bytes, copied, accepts'⟩ := accepts.sound.shift
          simp only [copied, onBytes, bind, Except.bind]
          refine ⟨_, _, rfl, accepts.trans accepts', rfl, ?_⟩
          show ob₁.stop - ob₁.start + ob₁.start = ob₁.stop
          omega
        · rw [if_neg passed]
          refine ⟨_, _, rfl, accepts, ?_, ?_⟩
          · omega
          · omega

theorem drainOutputBuffer_spec (sound : ob.Sound) (first : ob.start = 0) (filled : 0 < ob.stop) : ∃ n ob',
    drainOutputBuffer sink ob = .ok (n, ob') ∧ Accepts ob [] ob' ∧ ob'.start = 0 ∧ ob'.stop + n.getD 0 = ob.stop := by
  have drained := @drainLoop_spec τ sink ob.stop (ob.stop + 1) ob sound rfl (by omega) (by omega)
  rwa [first] at drained

theorem flushLoop_spec {bs be fuel : ℕ} : ∀ {ob : Buffer τ}, ob.Sound → ob.stop = be → ob.start < be →
    be < ob.start + fuel → ∃ n ob', flushLoop sink bs be fuel ob ob.start = .ok (n, ob') ∧ Accepts ob [] ob' := by
  induction fuel with
  | zero =>
    intro ob _ _ filled enough
    omega
  | succ fuel ih =>
    intro ob sound last filled enough
    subst last
    rw [flushLoop]
    cases answered : outputSinkWriteBytes sink ob ob.bytes ob.start ob.stop with
    | mk n ob₁ =>
      obtain ⟨short, start, stop, accepts⟩ := sound.offer answered
      dsimp only
      by_cases progress : 0 < n.getD 0
      · rw [if_pos progress]
        by_cases more : ob.start + n.getD 0 < ob.stop
        · rw [if_pos more]
          obtain ⟨m, ob', flushed, accepts'⟩ := ih accepts.sound stop more (by dsimp only; omega)
          exact ⟨m, ob', flushed, accepts.trans accepts'⟩
        · rw [if_neg more]
          exact ⟨_, _, rfl, accepts.emptied (by dsimp only; omega)⟩
      · have none : n.getD 0 = 0 := by omega
        rw [none, ← start] at accepts
        rw [if_neg progress]
        exact ⟨_, _, rfl, accepts⟩

theorem Accepts.mode (accepts : Accepts ob first ob') (s : τ) : Accepts ob first { ob' with sourceSink := s } :=
  ⟨⟨accepts.sound.ordered, accepts.sound.inside, accepts.sound.size⟩, accepts.override, accepts.account⟩

theorem flushOutputBuffer_spec (sound : ob.Sound) :
    ∃ n ob', flushOutputBuffer sink ob = .ok (n, ob') ∧ Accepts ob [] ob' := by
  unfold flushOutputBuffer
  by_cases filled : ob.start < ob.stop
  · have switched := (Accepts.refl sound).mode (sink.blocking ob.sourceSink)
    obtain ⟨n, ob', flushed, accepts⟩ := @flushLoop_spec τ sink ob.start ob.stop (ob.stop + 1) _ switched.sound rfl
      filled (by omega)
    simp only [flushOutputBuffer', filled, if_true, flushed, bind, Except.bind]
    exact ⟨_, _, rfl, (switched.trans accepts).mode _⟩
  · rw [if_neg filled]
    exact ⟨_, _, rfl, .refl sound⟩

theorem writeToBuffer_spec (sound : ob.Sound) {n : ℕ} (room : ob.stop + n ≤ pageSize)
    (inside : index + n ≤ bytevector.length) : ∃ ob', writeToBuffer bytevector ob index n = .ok (index + n, ob') ∧
    Accepts ob (bytevectorCopy bytevector index (index + n)) ob' ∧ ob'.start = ob.start ∧ ob'.stop = ob.stop + n := by
  have size := sound.size
  have ordered := sound.ordered
  obtain ⟨bytes, copied, length, before, placed, -⟩ :=
    @bytevectorCopyInto_fits ob.bytes bytevector ob.stop index (index + n) (Nat.le_add_right _ _) inside (by omega)
  rw [Nat.add_sub_cancel_left] at copied placed
  unfold writeToBuffer
  simp only [copied, onBytes, bind, Except.bind]
  have kept : bytevectorCopy bytes ob.start ob.stop = bytevectorCopy ob.bytes ob.start ob.stop := by
    unfold bytevectorCopy
    rw [before]
  have joined := @bytevectorCopy_append bytes ob.start ob.stop (ob.stop + n) ordered (Nat.le_add_right _ _)
  refine ⟨_, rfl, ⟨⟨?_, ?_, length.trans size⟩, rfl, [], (append_nil _).symm, ?_⟩, rfl, rfl⟩
  · exact Nat.le_add_right_of_le ordered
  · show ob.stop + n ≤ bytes.length
    omega
  · show bytevectorCopy ob.bytes ob.start ob.stop ++ _ = [] ++ bytevectorCopy bytes ob.start (ob.stop + n)
    rw [← joined, kept, placed, nil_append]

theorem writeByte_spec {byte : ℕ} (small : byte < 256) (sound : ob.Sound) (room : ob.stop < pageSize) :
    ∃ ob', writeByte byte ob = .ok (some 1, ob') ∧ Accepts ob [UInt8.ofNat byte] ob' := by
  have size := sound.size
  have ordered := sound.ordered
  unfold writeByte bytevectorU8Set
  rw [if_pos (by omega), if_pos small]
  refine ⟨_, rfl, ⟨⟨?_, ?_, ?_⟩, rfl, [], (append_nil _).symm, ?_⟩⟩
  · exact Nat.le_succ_of_le ordered
  · show ob.stop + 1 ≤ _
    rw [length_set]
    omega
  · rw [length_set]
    exact size
  · show bytevectorCopy ob.bytes ob.start ob.stop ++ _ =
      [] ++ bytevectorCopy (ob.bytes.set ob.stop (.ofNat byte)) ob.start (ob.stop + 1)
    have inside : ob.stop < ob.bytes.length := by omega
    have extended : (ob.bytes.set ob.stop (.ofNat byte)).take (ob.stop + 1) =
        ob.bytes.take ob.stop ++ [UInt8.ofNat byte] := by
      rw [take_set, take_succ_eq_append_getElem inside, set_append_right _ _ (by simp)]
      simp [min_eq_left (inside.le)]
    unfold bytevectorCopy
    rw [extended, nil_append, drop_append_of_le_length (by rw [length_take]; omega)]

theorem writeU8_spec {byte : ℕ} (small : byte < 256) (sound : ob.Sound) (opened : ob.markedClosed = false) : ∃ n ob',
    writeU8 sink byte ob = .ok (n, ob') ∧ n.getD 0 ≤ 1 ∧ Accepts ob ([UInt8.ofNat byte].take (n.getD 0)) ob' := by
  obtain ⟨ob₁, available, accepts, first, -⟩ := outputBufferAvailable_spec sound opened "write-u8"
  unfold writeU8
  simp only [available, bind, Except.bind]
  by_cases room : 0 < pageSize - ob₁.stop
  · rw [if_pos room]
    obtain ⟨ob', wrote, accepts'⟩ := writeByte_spec small accepts.sound (by omega)
    exact ⟨_, ob', wrote, le_refl _, accepts.trans accepts'⟩
  · rw [if_neg room]
    have full : 0 < ob₁.stop := by
      have positive : 0 < pageSize := by decide
      omega
    obtain ⟨n, ob₂, drained, accepts₂, -, left⟩ := @drainOutputBuffer_spec τ sink ob₁ accepts.sound first full
    have inside := accepts.sound.inside
    rw [accepts.sound.size] at inside
    simp only [drained]
    by_cases progress : 0 < n.getD 0
    · rw [if_pos progress]
      obtain ⟨ob', wrote, accepts'⟩ := writeByte_spec small accepts₂.sound (by omega)
      exact ⟨_, ob', wrote, le_refl _, (accepts.trans accepts₂).trans accepts'⟩
    · rw [if_neg progress]
      have none : n.getD 0 = 0 := by omega
      exact ⟨n, ob₂, rfl, by omega, by rw [none]; exact accepts.trans accepts₂⟩

/-- A bytevector written from the index `index` on has been accepted up to another index, which
tells what is answered. -/
def WritesFrom (bytevector : Bytevector) (start stop : ℕ) (ob : Buffer τ) (index : ℕ)
    (result : Except Error (Option ℕ × Buffer τ)) : Prop :=
  ∃ n ob' next, result = .ok (n, ob') ∧ index ≤ next ∧ next ≤ stop ∧ n.getD 0 = next - start ∧
    Accepts ob (bytevectorCopy bytevector index next) ob'

theorem WritesFrom.after {next : ℕ} {result : Except Error (Option ℕ × Buffer τ)} (lower : index ≤ next)
    (accepts : Accepts ob (bytevectorCopy bytevector index next) ob')
    (writes : WritesFrom bytevector start stop ob' next result) : WritesFrom bytevector start stop ob index result := by
  obtain ⟨n, ob'', last, answered, further, inside, count, accepts'⟩ := writes
  refine ⟨n, ob'', last, answered, lower.trans further, inside, count, ?_⟩
  have both := accepts.trans accepts'
  rwa [bytevectorCopy_append lower further] at both

theorem Buffer.Sound.direct (sound : ob.Sound) (empty : ob.start = ob.stop) (inside : stop ≤ bytevector.length)
    {n : Option ℕ} (answered : outputSinkWriteBytes sink ob bytevector index stop = (n, ob')) :
    n.getD 0 ≤ stop - index ∧ ob'.start = ob'.stop ∧
      Accepts ob (bytevectorCopy bytevector index (index + n.getD 0)) ob' := by
  have short := @outputSinkWriteBytes_le τ sink ob bytevector index stop inside
  have taken := take_bytevectorCopy inside short
  rw [answered] at short taken
  obtain ⟨rfl, rfl⟩ := Prod.mk.injEq _ _ _ _ ▸ answered
  refine ⟨short, empty, ⟨sound.ordered, sound.inside, sound.size⟩, rfl, _, rfl, ?_⟩
  rw [taken]
  unfold Buffer.buffered
  rw [empty, bytevectorCopy_empty]
  exact .bypass

theorem writeToSink_spec {fuel : ℕ} (inside : stop ≤ bytevector.length) : ∀ {ob : Buffer τ} {index : ℕ}, ob.Sound →
    ob.start = ob.stop → start ≤ index → index < stop → stop < index + fuel →
    WritesFrom bytevector start stop ob index (writeToSink sink bytevector start stop fuel ob index) := by
  induction fuel with
  | zero =>
    intro ob index _ _ _ _ enough
    omega
  | succ fuel ih =>
    intro ob index sound empty lower upper enough
    rw [writeToSink]
    cases answered : outputSinkWriteBytes sink ob bytevector index stop with
    | mk n ob₁ =>
      obtain ⟨short, empty', accepts⟩ := sound.direct empty inside answered
      dsimp only
      by_cases progress : 0 < n.getD 0
      · rw [if_pos progress]
        by_cases more : index + n.getD 0 < stop
        · rw [if_pos more]
          have further := ih accepts.sound empty' (by omega) more (by omega)
          exact further.after (Nat.le_add_right _ _) accepts
        · have last : index + n.getD 0 = stop := by omega
          rw [if_neg more]
          rw [last] at accepts
          exact ⟨_, ob₁, stop, rfl, upper.le, le_refl _, rfl, accepts⟩
      · have none : n.getD 0 = 0 := by omega
        rw [none] at accepts
        rw [if_neg progress]
        by_cases some_before : start < index
        · rw [if_pos some_before]
          exact ⟨_, ob₁, index, rfl, le_refl _, upper.le, rfl, accepts⟩
        · rw [if_neg some_before]
          exact ⟨n, ob₁, index, rfl, le_refl _, upper.le, by omega, accepts⟩

theorem fillBuffer_spec (sound : ob.Sound) {available : ℕ} (room : available = pageSize - ob.stop)
    (inside : index + available ≤ bytevector.length) : ∃ ob', fillBuffer bytevector ob index available =
    .ok (index + available, ob') ∧ Accepts ob (bytevectorCopy bytevector index (index + available)) ob' ∧ ob'.start =
    ob.start ∧ ob'.stop = pageSize := by
  have bound := sound.inside
  rw [sound.size] at bound
  unfold fillBuffer
  by_cases some_left : 0 < available
  · rw [if_pos some_left]
    obtain ⟨ob', wrote, accepts, same, filled⟩ := writeToBuffer_spec sound (by omega) inside
    exact ⟨ob', wrote, accepts, same, by omega⟩
  · have none : available = 0 := by omega
    rw [none, add_zero, bytevectorCopy_empty]
    exact ⟨ob, rfl, .refl sound, rfl, by omega⟩

/-- The loop goes on after a partial drain: either it has filled the buffer with some of the bytes
or the buffer was full and holds less now. -/
theorem writeLoop_spec {fuel : ℕ} (inside : stop ≤ bytevector.length) : ∀ {ob : Buffer τ} {index : ℕ}, ob.Sound →
    ob.markedClosed = false → start ≤ index → index ≤ stop → stop - index + (ob.stop - ob.start) < fuel →
    WritesFrom bytevector start stop ob index (writeLoop sink bytevector start stop pageSize fuel ob index) := by
  induction fuel with
  | zero =>
    intro ob index _ _ _ _ enough
    omega
  | succ fuel ih =>
    intro ob index sound opened lower upper enough
    obtain ⟨ob₁, available, accepts₁, first, held⟩ := outputBufferAvailable_spec sound opened "write-bytevector"
    have bound := accepts₁.sound.inside
    rw [accepts₁.sound.size] at bound
    have prior : Accepts ob (bytevectorCopy bytevector index index) ob₁ := by
      rw [bytevectorCopy_empty]
      exact accepts₁
    apply WritesFrom.after (le_refl index) prior
    rw [writeLoop]
    simp only [available, bind, Except.bind]
    by_cases fits : stop - index ≤ pageSize - ob₁.stop
    · rw [if_pos fits]
      obtain ⟨ob₂, wrote, accepts₂, -, -⟩ :=
        @writeToBuffer_spec τ ob₁ bytevector index accepts₁.sound (stop - index) (by omega) (by omega)
      simp only [wrote]
      exact ⟨_, ob₂, index + (stop - index), rfl, Nat.le_add_right _ _, by omega, rfl, accepts₂⟩
    · rw [if_neg fits]
      by_cases some_held : pageSize - ob₁.stop < pageSize
      · rw [if_pos some_held]
        obtain ⟨ob₂, filled, accepts₂, first₂, full⟩ :=
          @fillBuffer_spec τ ob₁ bytevector index accepts₁.sound _ rfl (by omega)
        obtain ⟨n, ob₃, drained, accepts₃, first₃, left⟩ :=
          @drainOutputBuffer_spec τ sink ob₂ accepts₂.sound (first₂.trans first) (by omega)
        have both := accepts₂.trans accepts₃
        rw [append_nil] at both
        simp only [filled, drained]
        by_cases progress : 0 < n.getD 0
        · rw [if_pos progress]
          by_cases partially : n.getD 0 < pageSize
          · rw [if_pos partially]
            have opened₃ : ob₃.markedClosed = false := by
              unfold Buffer.markedClosed at opened ⊢
              rw [(accepts₁.trans both).override, opened]
            have further := @ih ob₃ (index + (pageSize - ob₁.stop)) both.sound opened₃ (by omega) (by omega) (by omega)
            exact further.after (Nat.le_add_right _ _) both
          · rw [if_neg partially]
            have further := @writeToSink_spec τ sink bytevector start stop (stop + 1) inside ob₃
              (index + (pageSize - ob₁.stop)) both.sound (by omega) (by omega) (by omega) (by omega)
            exact further.after (Nat.le_add_right _ _) both
        · rw [if_neg progress]
          exact ⟨_, ob₃, index + (pageSize - ob₁.stop), rfl, Nat.le_add_right _ _, by omega, rfl, both⟩
      · rw [if_neg some_held]
        exact writeToSink_spec inside accepts₁.sound (by omega) lower (by omega) (by omega)

theorem writeBytevector_spec (sound : ob.Sound) (opened : ob.markedClosed = false) (ordered : start ≤ stop)
    (inside : stop ≤ bytevector.length) : ∃ n ob', writeBytevector sink bytevector start stop ob = .ok (n, ob') ∧
    n.getD 0 ≤ stop - start ∧ Accepts ob ((bytevectorCopy bytevector start stop).take (n.getD 0)) ob' := by
  have bound := sound.inside
  rw [sound.size] at bound
  unfold writeBytevector
  rw [sound.size]
  obtain ⟨n, ob', next, wrote, lower, upper, count, accepts⟩ := @writeLoop_spec τ sink bytevector start stop
    (stop + pageSize + 1) inside ob start sound opened (le_refl _) ordered (by omega)
  have last : start + (next - start) = next := by omega
  refine ⟨n, ob', wrote, by omega, ?_⟩
  rw [take_bytevectorCopy inside (by omega), count, last]
  exact accepts

end MitScheme.Runtime.BinaryPort
