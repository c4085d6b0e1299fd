import MitScheme.Runtime.BinaryPort.Ports

namespace MitScheme.Runtime.BinaryPort

open Library List
open Utf (Bytevector bytevectorCopy)

variable {σ τ : Type} {memory : Utf.Allocator} {source : Source σ} {sink : Sink τ}

/-- What has been returned and accepted so far accounts for the bytes in both buffers. -/
structure Accounted (returned accepted : Bytevector) (port : Port σ τ) : Prop where
  inputSound : ∀ {ib}, port.inputBuffer = some ib → ib.Sound
  input : ∀ {ib}, port.inputBuffer = some ib → Conveys [] ib.transferred returned ib.buffered
  outputSound : ∀ {ob}, port.outputBuffer = some ob → ob.Sound
  output : ∀ {ob}, port.outputBuffer = some ob → Conveys [] accepted ob.transferred ob.buffered

variable {returned accepted more : Bytevector} {port port' : Port σ τ} {ib ib' : Buffer σ} {ob ob' : Buffer τ}

theorem accounted_newPort {s : Option σ} {t : Option τ} : Accounted [] [] (newPort memory s t) := by
  have fresh : ∀ {ρ : Type} {first : Option ρ} {buffer : Buffer ρ},
      first.map (fun r => makeBuffer memory r pageSize) = some buffer →
        buffer.Sound ∧ buffer.transferred = [] ∧ buffer.buffered = [] := by
    intro ρ first buffer made
    cases first with
    | none => cases made
    | some r =>
      cases Option.some.inj made
      exact ⟨⟨le_refl _, Nat.zero_le _, memory.length_allocate _⟩, rfl, bytevectorCopy_empty _ _⟩
  constructor
  · intro ib here
    exact (fresh here).1
  · intro ib here
    obtain ⟨-, log, empty⟩ := fresh here
    rw [log, empty]
    exact .refl
  · intro ob here
    exact (fresh here).1
  · intro ob here
    obtain ⟨-, log, empty⟩ := fresh here
    rw [log, empty]
    exact .refl

theorem Accounted.returns (accounted : Accounted returned accepted port) (here : port.inputBuffer = some ib)
    (returns : Returns ib more ib') : Accounted (returned ++ more) accepted { port with inputBuffer := some ib' } := by
  obtain ⟨supplied, log, conveys⟩ := returns.account
  refine ⟨?_, ?_, accounted.outputSound, accounted.output⟩
  · intro buffer same
    cases Option.some.inj same
    exact returns.sound
  · intro buffer same
    cases Option.some.inj same
    rw [log]
    exact (accounted.input here).trans conveys

theorem Accounted.accepts (accounted : Accounted returned accepted port) (here : port.outputBuffer = some ob)
    (accepts : Accepts ob more ob') : Accounted returned (accepted ++ more) { port with outputBuffer := some ob' } := by
  obtain ⟨delivered, log, conveys⟩ := accepts.account
  refine ⟨accounted.inputSound, accounted.input, ?_, ?_⟩
  · intro buffer same
    cases Option.some.inj same
    exact accepts.sound
  · intro buffer same
    cases Option.some.inj same
    rw [log]
    exact (accounted.output here).trans conveys

theorem bufferOpen_spec {ρ : Type} (isOpen : ρ → Bool) (buffer : Buffer ρ) :
    ∃ override, buffer.bufferOpen isOpen = (decide (override ≠ some .closed), { buffer with override }) := by
  unfold Buffer.bufferOpen
  by_cases closed : buffer.override = some .closed
  · refine ⟨buffer.override, ?_⟩
    rw [if_pos (by unfold Buffer.markedClosed; rw [closed]; rfl)]
    exact Prod.ext (by simp [closed]) rfl
  · rw [if_neg (by unfold Buffer.markedClosed; simpa using closed)]
    by_cases opened : isOpen buffer.sourceSink = true
    · exact ⟨buffer.override, by rw [if_pos opened]; simp [closed]⟩
    · exact ⟨some .closed, by rw [if_neg opened]; simp⟩

theorem checkInputPort_spec (accounted : Accounted returned accepted port) (caller : String) :
    ∃ outcome port', checkInputPort source port caller = (outcome, port') ∧ Accounted returned accepted port' ∧
      (∀ e, outcome = .error e → e.caller = some caller) ∧
      (∀ ib, outcome = .ok ib → port'.inputBuffer = some ib ∧ ib.markedClosed = false) := by
  unfold checkInputPort
  cases here : port.inputBuffer with
  | none =>
    refine ⟨_, _, rfl, accounted, ?_, nofun⟩
    intro e same
    cases same
    rfl
  | some ib =>
    obtain ⟨override, checked⟩ := bufferOpen_spec source.isOpen ib
    have sound := accounted.inputSound here
    have marked : Returns ib [] { ib with override } :=
      ⟨⟨sound.ordered, sound.inside, sound.size⟩, [], (append_nil _).symm, .refl⟩
    have after := accounted.returns here marked
    rw [append_nil] at after
    simp only [checked]
    refine ⟨_, _, rfl, after, ?_, ?_⟩
    · intro e same
      split at same
      · cases same
      · cases same
        rfl
    · intro buffer same
      split at same
      · rename_i opened
        cases same
        exact ⟨rfl, by unfold Buffer.markedClosed; simpa using opened⟩
      · cases same

theorem checkOutputPort_spec (accounted : Accounted returned accepted port) (caller : String) :
    ∃ outcome port', checkOutputPort sink port caller = (outcome, port') ∧ Accounted returned accepted port' ∧
      (∀ e, outcome = .error e → e.caller = some caller) ∧
      (∀ ob, outcome = .ok ob → port'.outputBuffer = some ob ∧ ob.markedClosed = false) := by
  unfold checkOutputPort
  cases here : port.outputBuffer with
  | none =>
    refine ⟨_, _, rfl, accounted, ?_, nofun⟩
    intro e same
    cases same
    rfl
  | some ob =>
    obtain ⟨override, checked⟩ := bufferOpen_spec sink.isOpen ob
    have sound := accounted.outputSound here
    have kept := accounted.output here
    have after : Accounted returned accepted { port with outputBuffer := some { ob with override } } := by
      refine ⟨accounted.inputSound, accounted.input, ?_, ?_⟩
      · intro buffer same
        cases Option.some.inj same
        exact ⟨sound.ordered, sound.inside, sound.size⟩
      · intro buffer same
        cases Option.some.inj same
        exact kept
    simp only [checked]
    refine ⟨_, _, rfl, after, ?_, ?_⟩
    · intro e same
      split at same
      · cases same
      · cases same
        rfl
    · intro buffer same
      split at same
      · rename_i opened
        cases same
        exact ⟨rfl, by unfold Buffer.markedClosed; simpa using opened⟩
      · cases same

def Keeps (returned accepted : Bytevector) (operation : Operation) (result : Except Error Answer × Port σ τ) : Prop :=
  Accounted (returned ++ returnedBy (operation, result.1)) (accepted ++ acceptedBy (operation, result.1)) result.2 ∧
    Proper (operation, result.1)

theorem returnedBy_error (operation : Operation) (e : Error) : returnedBy (operation, .error e) = [] := by
  cases operation <;> rfl

theorem Accounted.fails {operation : Operation} {e : Error} (accounted : Accounted returned accepted port)
    (same : e.caller = some operation.caller) : Keeps returned accepted operation (.error e, port) := by
  refine ⟨?_, same⟩
  show Accounted (returned ++ returnedBy (operation, .error e)) (accepted ++ []) port
  rw [returnedBy_error, append_nil, append_nil]
  exact accounted

def ReaderSpec (operation : Operation) (reader : Buffer σ → Except Error (Answer × Buffer σ)) : Prop :=
  ∀ {ib : Buffer σ}, ib.Sound → ib.markedClosed = false →
    (∃ e, reader ib = .error e ∧ e.caller = some operation.caller) ∨
    ∃ answer ib', reader ib = .ok (answer, ib') ∧ Proper (operation, .ok answer) ∧
      acceptedBy (operation, .ok answer) = [] ∧ Returns ib (returnedBy (operation, .ok answer)) ib'

def WriterSpec (operation : Operation) (writer : Buffer τ → Except Error (Answer × Buffer τ)) : Prop :=
  ∀ {ob : Buffer τ}, ob.Sound → ob.markedClosed = false →
    (∃ e, writer ob = .error e ∧ e.caller = some operation.caller) ∨
    ∃ answer ob', writer ob = .ok (answer, ob') ∧ Proper (operation, .ok answer) ∧
      returnedBy (operation, .ok answer) = [] ∧ Accepts ob (acceptedBy (operation, .ok answer)) ob'

theorem onInput_keeps {operation : Operation} {reader : Buffer σ → Except Error (Answer × Buffer σ)}
    (spec : ReaderSpec operation reader) (accounted : Accounted returned accepted port) :
    Keeps returned accepted operation (onInput source operation.caller reader port) := by
  obtain ⟨outcome, port', checked, accounted', failed, passed⟩ :=
    @checkInputPort_spec σ τ source returned accepted port accounted operation.caller
  unfold onInput
  rw [checked]
  cases outcome with
  | error e => exact accounted'.fails (failed e rfl)
  | ok ib =>
    obtain ⟨here, opened⟩ := passed ib rfl
    dsimp only
    rcases spec (accounted'.inputSound here) opened with ⟨e, fails, same⟩ | ⟨answer, ib', reads, proper, none, returns⟩
    · rw [fails]
      exact accounted'.fails same
    · rw [reads]
      refine ⟨?_, proper⟩
      rw [none, append_nil]
      exact accounted'.returns here returns

theorem onOutput_keeps {operation : Operation} {writer : Buffer τ → Except Error (Answer × Buffer τ)}
    (spec : WriterSpec operation writer) (accounted : Accounted returned accepted port) :
    Keeps returned accepted operation (onOutput sink operation.caller writer port) := by
  obtain ⟨outcome, port', checked, accounted', failed, passed⟩ :=
    @checkOutputPort_spec σ τ sink returned accepted port accounted operation.caller
  unfold onOutput
  rw [checked]
  cases outcome with
  | error e => exact accounted'.fails (failed e rfl)
  | ok ob =>
    obtain ⟨here, opened⟩ := passed ob rfl
    dsimp only
    rcases spec (accounted'.outputSound here) opened with ⟨e, fails, same⟩ | ⟨answer, ob', writes, proper, none, accepts⟩
    · rw [fails]
      exact accounted'.fails same
    · rw [writes]
      refine ⟨?_, proper⟩
      rw [none, append_nil]
      exact accounted'.accepts here accepts

theorem range_spec (length : ℕ) (start stop : Option ℕ) (caller : String) :
    (∃ n, Utf.range length start stop caller = .error (.badRange n caller)) ∨ Utf.range length start stop caller =
    .ok (start.getD 0, stop.getD length) ∧ start.getD 0 ≤ stop.getD length ∧ stop.getD length ≤ length := by
  unfold Utf.range
  dsimp only
  split
  · split
    · right
      exact ⟨rfl, by assumption, by assumption⟩
    · left
      exact ⟨_, rfl⟩
  · left
    exact ⟨_, rfl⟩

theorem readInto_spec {bytevector : Bytevector} {start stop : Option ℕ} :
    ReaderSpec (.readBytevectorInto bytevector start stop) (readInto source bytevector start stop) := by
  intro ib sound opened
  unfold readInto
  rcases range_spec bytevector.length start stop "read-bytevector!" with ⟨n, fails⟩ | ⟨passes, ordered, inside⟩
  · left
    simp only [fails, onBytes, bind, Except.bind]
    exact ⟨_, rfl, rfl⟩
  · right
    obtain ⟨answer, bytevector', ib', read, short, returns⟩ :=
      @readBytevectorInto_spec σ source ib bytevector _ _ sound opened ordered inside
    simp only [passes, onBytes, bind, Except.bind, read]
    exact ⟨_, ib', rfl, short, rfl, returns⟩

theorem writeFrom_spec {bytevector : Bytevector} {start stop : Option ℕ} :
    WriterSpec (.writeBytevector bytevector start stop) (writeFrom sink bytevector start stop) := by
  intro ob sound opened
  unfold writeFrom
  rcases range_spec bytevector.length start stop "write-bytevector" with ⟨n, fails⟩ | ⟨passes, ordered, inside⟩
  · left
    simp only [fails, onBytes, bind, Except.bind]
    exact ⟨_, rfl, rfl⟩
  · right
    obtain ⟨n, ob', wrote, short, accepts⟩ :=
      @writeBytevector_spec τ sink ob bytevector _ _ sound opened ordered inside
    simp only [passes, onBytes, bind, Except.bind, wrote]
    refine ⟨_, ob', rfl, ?_, rfl, accepts⟩
    show n.getD 0 ≤ (bytevectorCopy bytevector _ _).length
    rw [length_bytevectorCopy inside]
    exact short

theorem perform_keeps (operation : Operation) (accounted : Accounted returned accepted port) :
    Keeps returned accepted operation (perform memory source sink operation port) := by
  cases operation with
  | readU8 =>
    apply onInput_keeps _ accounted
    intro ib sound opened
    obtain ⟨answer, ib', read, returns⟩ := @readU8_spec σ source ib sound opened
    exact .inr ⟨.byte answer, ib', congrArg (Except.map _) read, trivial, rfl, returns⟩
  | peekU8 =>
    apply onInput_keeps _ accounted
    intro ib sound opened
    obtain ⟨answer, ib', -, peeked, returns, -⟩ := @peekU8_spec σ source ib sound opened
    exact .inr ⟨.byte answer, ib', congrArg (Except.map _) peeked, trivial, rfl, returns⟩
  | readBytevector k =>
    apply onInput_keeps _ accounted
    intro ib sound opened
    obtain ⟨answer, ib', read, short, returns⟩ := @readBytevector_spec σ source ib memory k sound opened
    exact .inr ⟨.bytes answer, ib', congrArg (Except.map _) read, short, rfl, returns⟩
  | readBytevectorInto bytevector start stop => exact onInput_keeps readInto_spec accounted
  | writeU8 byte =>
    simp only [perform]
    by_cases small : byte < 256
    · rw [if_pos small]
      apply onOutput_keeps _ accounted
      intro ob sound opened
      obtain ⟨n, ob', wrote, short, accepts⟩ := @writeU8_spec τ sink ob byte small sound opened
      exact .inr ⟨.accepted n, ob', congrArg (Except.map _) wrote, short, rfl, accepts⟩
    · rw [if_neg small]
      exact accounted.fails rfl
  | writeBytevector bytevector start stop => exact onOutput_keeps writeFrom_spec accounted
  | flushOutput =>
    apply onOutput_keeps _ accounted
    intro ob sound opened
    obtain ⟨n, ob', flushed, accepts⟩ := @flushOutputBuffer_spec τ sink ob sound
    exact .inr ⟨.flushed n, ob', congrArg (Except.map _) flushed, trivial, rfl, accepts⟩

def returnedBytes (history : List (Operation × Except Error Answer)) : Bytevector := history.flatMap returnedBy

/-- The bytes that the operations have reported as accepted, one after the other. -/
def acceptedBytes (history : List (Operation × Except Error Answer)) : Bytevector := history.flatMap acceptedBy

theorem performAll_keeps {operations : List Operation} : ∀ {port : Port σ τ} {returned accepted : Bytevector},
    Accounted returned accepted port →
      Accounted (returned ++ returnedBytes (performAll memory source sink port operations).1)
        (accepted ++ acceptedBytes (performAll memory source sink port operations).1)
        (performAll memory source sink port operations).2 ∧
      ∀ event ∈ (performAll memory source sink port operations).1, Proper event := by
  induction operations with
  | nil =>
    intro port returned accepted accounted
    simp only [performAll, returnedBytes, acceptedBytes, flatMap_nil, append_nil]
    exact ⟨accounted, nofun⟩
  | cons operation rest ih =>
    intro port returned accepted accounted
    obtain ⟨after, proper⟩ := @perform_keeps σ τ memory source sink returned accepted port operation accounted
    obtain ⟨all, others⟩ := ih after
    rw [append_assoc, append_assoc] at all
    refine ⟨all, ?_⟩
    intro event member
    rcases mem_cons.mp member with same | later
    · rw [same]
      exact proper
    · exact others event later

theorem peek_answers_read (accounted : Accounted returned accepted port) (answer : Answer) :
    (perform memory source sink .peekU8 port).1 = .ok answer ↔ (perform memory source sink .readU8 port).1 = .ok answer := by
  simp only [perform, onInput, checkInputPort]
  cases here : port.inputBuffer with
  | none => exact ⟨nofun, nofun⟩
  | some ib =>
    obtain ⟨override, checked⟩ := bufferOpen_spec source.isOpen ib
    have sound := accounted.inputSound here
    simp only [checked]
    by_cases closed : override = some .closed
    · simp [closed]
    · have opened : ({ ib with override } : Buffer σ).markedClosed = false := by
        simpa [Buffer.markedClosed] using closed
      obtain ⟨byte, ib', ib'', peeked, -, read⟩ :=
        @peekU8_spec σ source { ib with override } ⟨sound.ordered, sound.inside, sound.size⟩ opened
      simp [closed, peeked, read, Except.map]

structure Faithful (memory : Utf.Allocator) (source : Source σ) (sink : Sink τ)
    (history : List (Operation × Except Error Answer)) (port : Port σ τ) : Prop where
  /-- What was returned, and then what is buffered, are the bytes that the source has given. -/
  reads : ∀ {ib}, port.inputBuffer = some ib → returnedBytes history ++ ib.buffered = ib.transferred
  /-- What the sink has taken, and then what is buffered, are the bytes that were accepted. -/
  writes : ∀ {ob}, port.outputBuffer = some ob → ob.transferred ++ ob.buffered = acceptedBytes history
  proper : ∀ event ∈ history, Proper event
  peeks : ∀ answer, (perform memory source sink .peekU8 port).1 = .ok answer ↔
    (perform memory source sink .readU8 port).1 = .ok answer

/-- No sequence of operations on a binary port loses, duplicates or reorders bytes, whatever its
source gives and its sink takes. -/
theorem binary_ports (memory : Utf.Allocator) (source : Source σ) (sink : Sink τ) (s : Option σ) (t : Option τ)
    (operations : List Operation) :
    Faithful memory source sink (performAll memory source sink (newPort memory s t) operations).1
      (performAll memory source sink (newPort memory s t) operations).2 := by
  obtain ⟨accounted, proper⟩ :=
    @performAll_keeps σ τ memory source sink operations (newPort memory s t) [] [] accounted_newPort
  constructor
  · intro ib here
    exact (accounted.input here).from_empty
  · intro ob here
    exact (accounted.output here).from_empty
  · exact proper
  · exact peek_answers_read accounted

end MitScheme.Runtime.BinaryPort
