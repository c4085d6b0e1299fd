import MitScheme.Runtime.MimeCodec.Base64Encoder

/-!
The decoder takes its input character by character, so the way the text is cut does not matter; on the
lines of the encoder it writes the bytes they stand for.
-/

namespace MitScheme.Runtime.MimeCodec

open Library Utf List

def decodeBase64Step (context : Base64DecodingContext) (char : ℕ) : Except Error Base64DecodingContext :=
  if context.inputState = .finished then .ok context
  else decodeUpdateLoop context context.inputIndex context.inputState [char]

variable {context : Base64DecodingContext} {char : ℕ} {port bytes : Bytevector} {pending : Bool}

theorem decodeBase64Step_finished (finished : context.inputState = .finished)
    (chars : List ℕ) : chars.foldlM decodeBase64Step context = .ok context := by
  induction chars with
  | nil => rfl
  | cons char rest ih =>
    rw [foldlM_cons, show decodeBase64Step context char = .ok context from if_pos finished]
    exact ih

theorem decodeBase64Step_active (active : context.inputState ≠ .finished) : decodeBase64Step context char =
    decodeUpdateLoop context context.inputIndex context.inputState [char] :=
  if_neg active

theorem decodeBase64Quantum_frame {context : Base64DecodingContext} {index : ℕ} {state : InputState} :
    decodeBase64Quantum { context with inputIndex := index, inputState := state } =
      (decodeBase64Quantum context).map fun c => { c with inputIndex := index, inputState := state } := by
  unfold decodeBase64Quantum
  cases decodeBase64Quantum1 context.inputBuffer context.outputBuffer with
  | error e => rfl
  | ok result =>
    cases context.text <;> rfl

theorem decodeUpdateLoop_eq {index : ℕ} {state : InputState} {chars : List ℕ} (active : state ≠ .finished) :
    decodeUpdateLoop context index state chars =
    chars.foldlM decodeBase64Step { context with inputIndex := index, inputState := state } := by
  have stays : ∀ char, stateAfter char ≠ .finished := by
    intro char
    unfold stateAfter
    split <;> decide
  induction chars generalizing context index state with
  | nil => rfl
  | cons char rest ih =>
    rw [foldlM_cons]
    rw [decodeBase64Step_active active]
    by_cases digit : char = charEquals ∨ base64CharToDigit char < 0x40
    · unfold decodeUpdateLoop
      rw [if_pos digit, if_pos digit]
      by_cases more : index < 3
      · rw [if_pos more, if_pos more]
        exact ih (stays char)
      · have frame := @decodeBase64Quantum_frame { context with inputBuffer := context.inputBuffer.set index char }
          index state
        rw [if_neg more, if_neg more, frame]
        cases decodeBase64Quantum { context with inputBuffer := context.inputBuffer.set index char } with
        | error e => rfl
        | ok c => exact ih (stays char)
    · unfold decodeUpdateLoop
      rw [if_neg digit, if_neg digit]
      by_cases start : state = .lineStart
      · rw [if_pos start, if_pos start]
        exact (decodeBase64Step_finished rfl rest).symm
      · rw [if_neg start, if_neg start]
        exact ih (stays char)

theorem decodeBase64Update_eq (context : Base64DecodingContext) (p : Packet ℕ) :
    decodeBase64Update context p.items p.start p.stop = p.contents.foldlM decodeBase64Step context := by
  unfold decodeBase64Update
  rw [range_of_le p.ordered p.inside]
  show (if context.inputState = .finished then _ else decodeUpdateLoop _ _ _ p.contents) = _
  by_cases finished : context.inputState = .finished
  · rw [if_pos finished, decodeBase64Step_finished finished]
  · rw [if_neg finished, decodeUpdateLoop_eq finished]

theorem base64_digits : ∀ d < 64, base64CharToDigit (base64DigitToChar d) = d ∧
    base64DigitToChar d ≠ charEquals ∧ base64DigitToChar d ≠ cpNewline := by
  decide +kernel

theorem decodeBase64Char_digit {input : List ℕ} {index d : ℕ} (small : d < 64)
    (here : input[index]? = some (base64DigitToChar d)) : decodeBase64Char input index = .ok d := by
  have read : base64CharToDigit (input.getD index 0) = d := by
    rw [getD_eq_getElem?_getD, here]
    exact (base64_digits d small).1
  unfold decodeBase64Char
  rw [read, if_neg (by omega)]

section
variable {a b c : UInt8} {m0 m1 m2 : UInt8}

theorem decodeBase64Quantum1_three :
    decodeBase64Quantum1 [base64DigitToChar (a.toNat / 4), base64DigitToChar (a.toNat % 4 * 16 + b.toNat / 16),
      base64DigitToChar (b.toNat % 16 * 4 + c.toNat / 64), base64DigitToChar (c.toNat % 64)] [m0, m1, m2] =
        .ok ([a, b, c], 3) := by
  have small0 := byte_lt a
  have small1 := byte_lt b
  have small2 := byte_lt c
  have open3 := (base64_digits (c.toNat % 64) (by omega)).2.1
  have high : lsh (a.toNat / 4) 18 + lsh (a.toNat % 4 * 16 + b.toNat / 16) 12 + (lsh (b.toNat % 16 * 4 + c.toNat / 64) 6 +
      c.toNat % 64) = (a.toNat * 256 + b.toNat) * 256 + c.toNat := by
    rw [show lsh (a.toNat / 4) 18 = a.toNat / 4 * 2 ^ 18 from lsh_left _ 18,
      show lsh (a.toNat % 4 * 16 + b.toNat / 16) 12 = (a.toNat % 4 * 16 + b.toNat / 16) * 2 ^ 12 from lsh_left _ 12,
      show lsh (b.toNat % 16 * 4 + c.toNat / 64) 6 = (b.toNat % 16 * 4 + c.toNat / 64) * 2 ^ 6 from lsh_left _ 6]
    omega
  have byte0 : lsh ((a.toNat * 256 + b.toNat) * 256 + c.toNat) (-16) = a.toNat := by
    rw [show lsh _ (-16) = _ / 2 ^ 16 from lsh_right _ 16]
    omega
  have byte1 : 0xFF &&& lsh ((a.toNat * 256 + b.toNat) * 256 + c.toNat) (-8) = b.toNat := by
    rw [Nat.and_comm, show lsh _ (-8) = _ / 2 ^ 8 from lsh_right _ 8, show _ &&& 0xFF = _ % 2 ^ 8 from land_ones _ 8]
    omega
  have byte2 : 0xFF &&& ((a.toNat * 256 + b.toNat) * 256 + c.toNat) = c.toNat := by
    rw [Nat.and_comm, show _ &&& 0xFF = _ % 2 ^ 8 from land_ones _ 8]
    omega
  unfold decodeBase64Quantum1
  rw [@decodeBase64Char_digit _ 0 (a.toNat / 4) (by omega) rfl,
    @decodeBase64Char_digit _ 1 (a.toNat % 4 * 16 + b.toNat / 16) (by omega) rfl,
    @decodeBase64Char_digit _ 2 (b.toNat % 16 * 4 + c.toNat / 64) (by omega) rfl,
    @decodeBase64Char_digit _ 3 (c.toNat % 64) (by omega) rfl]
  show (if base64DigitToChar (c.toNat % 64) ≠ charEquals then _ else _) = _
  rw [if_pos open3]
  show (bytevectorU8Set _ 0 (lsh (_ + _ + (_ + _)) _) >>= _) = _
  rw [high, byte0]
  rw [bytevectorU8Set_byte (show 0 < 3 by decide)]
  show (bytevectorU8Set [a, m1, m2] 1 _ >>= _) = _
  rw [byte1, bytevectorU8Set_byte (show 1 < 3 by decide)]
  show (bytevectorU8Set [a, b, m2] 2 _ >>= _) = _
  rw [byte2, bytevectorU8Set_byte (show 2 < 3 by decide)]
  rfl

theorem decodeBase64Quantum1_two :
    decodeBase64Quantum1 [base64DigitToChar (a.toNat / 4), base64DigitToChar (a.toNat % 4 * 16 + b.toNat / 16),
      base64DigitToChar (b.toNat % 16 * 4), charEquals] [m0, m1, m2] = .ok ([a, b, m2], 2) := by
  have small0 := byte_lt a
  have small1 := byte_lt b
  have open2 := (base64_digits (b.toNat % 16 * 4) (by omega)).2.1
  have high : lsh (a.toNat / 4) 10 + lsh (a.toNat % 4 * 16 + b.toNat / 16) 4 + lsh (b.toNat % 16 * 4) (-2) =
      a.toNat * 256 + b.toNat := by
    rw [show lsh (a.toNat / 4) 10 = a.toNat / 4 * 2 ^ 10 from lsh_left _ 10,
      show lsh (a.toNat % 4 * 16 + b.toNat / 16) 4 = (a.toNat % 4 * 16 + b.toNat / 16) * 2 ^ 4 from lsh_left _ 4,
      show lsh (b.toNat % 16 * 4) (-2) = b.toNat % 16 * 4 / 2 ^ 2 from lsh_right _ 2]
    omega
  have byte0 : lsh (a.toNat * 256 + b.toNat) (-8) = a.toNat := by
    rw [show lsh _ (-8) = _ / 2 ^ 8 from lsh_right _ 8]
    omega
  have byte1 : 0xFF &&& (a.toNat * 256 + b.toNat) = b.toNat := by
    rw [Nat.and_comm, show _ &&& 0xFF = _ % 2 ^ 8 from land_ones _ 8]
    omega
  unfold decodeBase64Quantum1
  rw [@decodeBase64Char_digit _ 0 (a.toNat / 4) (by omega) rfl,
    @decodeBase64Char_digit _ 1 (a.toNat % 4 * 16 + b.toNat / 16) (by omega) rfl,
    @decodeBase64Char_digit _ 2 (b.toNat % 16 * 4) (by omega) rfl]
  simp [bind, Except.bind, open2,
    high, byte0, byte1, bytevectorU8Set_byte (show 0 < [m0, m1, m2].length from Nat.succ_pos 2),
    bytevectorU8Set_byte (show 1 < [a, m1, m2].length from Nat.succ_lt_succ (Nat.succ_pos 1))]

theorem decodeBase64Quantum1_one :
    decodeBase64Quantum1 [base64DigitToChar (a.toNat / 4), base64DigitToChar (a.toNat % 4 * 16), charEquals, charEquals]
      [m0, m1, m2] = .ok ([a, m1, m2], 1) := by
  have small0 := byte_lt a
  have byte0 : lsh (a.toNat / 4) 2 + lsh (a.toNat % 4 * 16) (-4) = a.toNat := by
    rw [show lsh (a.toNat / 4) 2 = a.toNat / 4 * 2 ^ 2 from lsh_left _ 2,
      show lsh (a.toNat % 4 * 16) (-4) = a.toNat % 4 * 16 / 2 ^ 4 from lsh_right _ 4]
    omega
  unfold decodeBase64Quantum1
  rw [@decodeBase64Char_digit _ 0 (a.toNat / 4) (by omega) rfl,
    @decodeBase64Char_digit _ 1 (a.toNat % 4 * 16) (by omega) rfl]
  simp [bind, Except.bind, byte0, bytevectorU8Set_byte (show 0 < [m0, m1, m2].length from Nat.succ_pos 2)]

end

/-- What a quantum adds to the port, and the return that it leaves pending. -/
def emit (text : Bool) (port : Bytevector) (pending : Bool) (bytes : Bytevector) : Bytevector × Bool :=
  if text then emitText port pending bytes else (port ++ bytes, pending)

namespace Base64DecodingContext

structure Ready (context : Base64DecodingContext) : Prop where
  input : context.inputBuffer.length = 4
  output : context.outputBuffer.length = 3
  index : context.inputIndex = 0
  active : context.inputState ≠ .finished

structure Reads (context context' : Base64DecodingContext) (bytes : Bytevector) : Prop where
  ready : context'.Ready
  text : context'.text = context.text
  written : emit context.text context.port context.pendingReturn bytes = (context'.port, context'.pendingReturn)

end Base64DecodingContext

def QuantumChar (char : ℕ) : Prop := (char = charEquals ∨ base64CharToDigit char < 0x40) ∧ char ≠ cpNewline

theorem quantumChar_digit {d : ℕ} (small : d < 64) : QuantumChar (base64DigitToChar d) := by
  obtain ⟨back, -, other⟩ := base64_digits d small
  exact ⟨.inr (by omega), other⟩

theorem quantumChar_equals : QuantumChar charEquals := ⟨.inl rfl, by decide⟩

theorem decodeBase64Step_put {context : Base64DecodingContext} {char : ℕ} (active : context.inputState ≠ .finished)
    (quantum : QuantumChar char) (more : context.inputIndex < 3) :
    decodeBase64Step context char = .ok { context with
      inputBuffer := context.inputBuffer.set context.inputIndex char
      inputIndex := context.inputIndex + 1
      inputState := .inLine } := by
  rw [decodeBase64Step_active active]
  unfold decodeUpdateLoop
  rw [if_pos quantum.1, if_pos more]
  unfold decodeUpdateLoop stateAfter
  rw [if_neg quantum.2]

def Base64DecodingContext.amid (context : Base64DecodingContext) (buffer : List ℕ) (index : ℕ) :
    Base64DecodingContext :=
  { context with inputBuffer := buffer, inputIndex := index, inputState := .inLine }

theorem decodeBase64Step_first (ready : context.Ready) (quantum : QuantumChar char) : decodeBase64Step context char =
    .ok (context.amid (context.inputBuffer.set 0 char) 1) := by
  rw [decodeBase64Step_put ready.active quantum (by rw [ready.index]; decide), ready.index]
  rfl

theorem decodeBase64Step_amid {buffer : List ℕ} {index char : ℕ} (quantum : QuantumChar char) (more : index < 3) :
    decodeBase64Step (context.amid buffer index) char = .ok (context.amid (buffer.set index char) (index + 1)) :=
  @decodeBase64Step_put (context.amid buffer index) char (show InputState.inLine ≠ .finished by decide) quantum more

theorem decodeBase64Step_last (active : context.inputState ≠ .finished)
    (quantum : QuantumChar char) (last : context.inputIndex = 3) :
    decodeBase64Step context char =
      (decodeBase64Quantum { context with inputBuffer := context.inputBuffer.set 3 char }).map fun c =>
        { c with inputIndex := 0, inputState := .inLine } := by
  rw [decodeBase64Step_active active]
  unfold decodeUpdateLoop stateAfter
  rw [if_pos quantum.1, last, if_neg quantum.2]
  rfl

theorem decodeBase64Quantum_eq {out bytes : Bytevector} {n : ℕ}
    (decoded : decodeBase64Quantum1 context.inputBuffer context.outputBuffer = .ok (out, n))
    (taken : out.take n = bytes) :
    decodeBase64Quantum context = .ok { context with
      outputBuffer := out
      port := (emit context.text context.port context.pendingReturn bytes).1
      pendingReturn := (emit context.text context.port context.pendingReturn bytes).2 } := by
  unfold decodeBase64Quantum emit
  rw [decoded]
  show (if context.text = true then _ else _) = _
  cases text : context.text with
  | false =>
    rw [if_neg (by decide), if_neg (by decide), taken]
  | true =>
    rw [if_pos rfl, if_pos rfl]
    rw [taken]

theorem quantum_reads {context : Base64DecodingContext} {k0 k1 k2 k3 n : ℕ} {bytes : Bytevector}
    (ready : context.Ready) (quantum0 : QuantumChar k0) (quantum1 : QuantumChar k1) (quantum2 : QuantumChar k2)
    (quantum3 : QuantumChar k3)
    (decodes : ∀ m0 m1 m2, ∃ out, decodeBase64Quantum1 [k0, k1, k2, k3] [m0, m1, m2] = .ok (out, n) ∧
      out.length = 3 ∧ out.take n = bytes) :
    ∃ context', [k0, k1, k2, k3].foldlM decodeBase64Step context = .ok context' ∧ context.Reads context' bytes ∧
      context'.inputState = .inLine := by
  obtain ⟨m0, m1, m2, output⟩ := length_eq_three.mp ready.output
  obtain ⟨i0, i1, i2, i3, input⟩ := length_eq_four.mp ready.input
  obtain ⟨out, decoded, size, taken⟩ := decodes m0 m1 m2
  have last : decodeBase64Step (context.amid [k0, k1, k2, i3] 3) k3 = .ok { context with
      inputBuffer := [k0, k1, k2, k3]
      inputIndex := 0
      inputState := .inLine
      outputBuffer := out
      port := (emit context.text context.port context.pendingReturn bytes).1
      pendingReturn := (emit context.text context.port context.pendingReturn bytes).2 } := by
    rw [decodeBase64Step_last (show InputState.inLine ≠ .finished by decide) quantum3 rfl]
    rw [decodeBase64Quantum_eq (by show decodeBase64Quantum1 _ context.outputBuffer = _; rw [output]; exact decoded) taken]
    rfl
  have steps : [k0, k1, k2, k3].foldlM decodeBase64Step context =
      decodeBase64Step (context.amid [k0, k1, k2, i3] 3) k3 := by
    rw [foldlM_cons, decodeBase64Step_first ready quantum0, input]
    show (decodeBase64Step (context.amid [k0, i1, i2, i3] 1) k1 >>= _) = _
    rw [decodeBase64Step_amid quantum1 (by decide)]
    show (decodeBase64Step (context.amid [k0, k1, i2, i3] 2) k2 >>= _) = _
    rw [decodeBase64Step_amid quantum2 (by decide)]
    show (decodeBase64Step (context.amid [k0, k1, k2, i3] 3) k3 >>= .ok) = _
    cases decodeBase64Step (context.amid [k0, k1, k2, i3] 3) k3 <;> rfl
  exact ⟨_, steps.trans last, ⟨⟨rfl, size, rfl, show InputState.inLine ≠ .finished by decide⟩, rfl, rfl⟩, rfl⟩

theorem emitText_append {first last : Bytevector} :
    emitText port pending (first ++ last) = emitText (emitText port pending first).1 (emitText port pending first).2 last := by
  induction first generalizing port pending with
  | nil => rfl
  | cons b rest ih => exact ih

theorem emit_append {text pending : Bool} {port first last : Bytevector} :
    emit text port pending (first ++ last) = emit text (emit text port pending first).1 (emit text port pending first).2 last := by
  cases text with
  | false => exact congrArg (·, pending) (append_assoc port first last).symm
  | true => exact emitText_append

theorem Base64DecodingContext.Reads.trans {c c' c'' : Base64DecodingContext} {first last : Bytevector}
    (before : c.Reads c' first) (after : c'.Reads c'' last) : c.Reads c'' (first ++ last) where
  ready := after.ready
  text := after.text.trans before.text
  written := by
    rw [emit_append, before.written, ← before.text]
    exact after.written

theorem Base64DecodingContext.Reads.refl {c : Base64DecodingContext} (ready : c.Ready) : c.Reads c [] where
  ready := ready
  text := rfl
  written := by
    cases c.text with
    | false => exact congrArg (·, c.pendingReturn) (append_nil c.port)
    | true => rfl

theorem lineText_reads {context : Base64DecodingContext} {bytes : Bytevector} (ready : context.Ready) :
    ∃ context', (lineText bytes).foldlM decodeBase64Step context = .ok context' ∧ context.Reads context' bytes ∧
      (bytes ≠ [] → context'.inputState = .inLine) := by
  induction bytes using lineText.induct generalizing context with
  | case1 a b c rest ih =>
    have small0 := byte_lt a
    have small1 := byte_lt b
    have small2 := byte_lt c
    obtain ⟨c1, quantum, first, state⟩ := @quantum_reads context _ _ _ _ 3 [a, b, c] ready
      (quantumChar_digit (show a.toNat / 4 < 64 by omega))
      (quantumChar_digit (show a.toNat % 4 * 16 + b.toNat / 16 < 64 by omega))
      (quantumChar_digit (show b.toNat % 16 * 4 + c.toNat / 64 < 64 by omega))
      (quantumChar_digit (show c.toNat % 64 < 64 by omega))
      fun _ _ _ => ⟨_, decodeBase64Quantum1_three, rfl, rfl⟩
    obtain ⟨c2, line, later, after⟩ := ih first.ready
    refine ⟨c2, ?_, first.trans later, fun _ => ?_⟩
    · show ([_, _, _, _] ++ lineText rest).foldlM decodeBase64Step context = _
      rw [foldlM_append, quantum]
      exact line
    · cases rest with
      | nil =>
        cases line
        exact state
      | cons d rest => exact after (cons_ne_nil d rest)
  | case2 a b =>
    have small0 := byte_lt a
    have small1 := byte_lt b
    obtain ⟨c1, quantum, first, state⟩ := @quantum_reads context _ _ _ _ 2 [a, b] ready
      (quantumChar_digit (show a.toNat / 4 < 64 by omega))
      (quantumChar_digit (show a.toNat % 4 * 16 + b.toNat / 16 < 64 by omega))
      (quantumChar_digit (show b.toNat % 16 * 4 < 64 by omega)) quantumChar_equals
      fun _ _ _ => ⟨_, decodeBase64Quantum1_two, rfl, rfl⟩
    exact ⟨c1, quantum, first, fun _ => state⟩
  | case3 a =>
    have small0 := byte_lt a
    obtain ⟨c1, quantum, first, state⟩ := @quantum_reads context _ _ _ _ 1 [a] ready
      (quantumChar_digit (show a.toNat / 4 < 64 by omega))
      (quantumChar_digit (show a.toNat % 4 * 16 < 64 by omega)) quantumChar_equals quantumChar_equals
      fun _ _ _ => ⟨_, decodeBase64Quantum1_one, rfl, rfl⟩
    exact ⟨c1, quantum, first, fun _ => state⟩
  | case4 => exact ⟨context, rfl, .refl ready, absurd rfl⟩

theorem decodeBase64Step_newline (ready : context.Ready) (state : context.inputState = .inLine) : ∃ context',
    decodeBase64Step context cpNewline = .ok context' ∧ context.Reads context' [] := by
  have skipped : ¬ (cpNewline = charEquals ∨ base64CharToDigit cpNewline < 0x40) := by decide +kernel
  refine ⟨{ context with inputState := .lineStart }, ?_,
    ⟨⟨ready.input, ready.output, ready.index, by show InputState.lineStart ≠ .finished; decide⟩, rfl, ?_⟩⟩
  · rw [decodeBase64Step_active ready.active]
    unfold decodeUpdateLoop
    rw [if_neg skipped, state, if_neg (by decide)]
    unfold decodeUpdateLoop stateAfter
    rw [if_pos rfl]
  · exact (Base64DecodingContext.Reads.refl ready).written

theorem encodeLines_reads {context : Base64DecodingContext} {bytes : Bytevector} (ready : context.Ready) :
    ∃ context', (encodeLines bytes).foldlM decodeBase64Step context = .ok context' ∧ context.Reads context' bytes := by
  induction bytes using encodeLines.induct generalizing context with
  | case1 =>
    rw [encodeLines_nil]
    exact ⟨context, rfl, .refl ready⟩
  | case2 bytes filled ih =>
    have some_bytes : bytes.take 48 ≠ [] := by
      have positive := length_pos_of_ne_nil filled
      apply ne_nil_of_length_pos
      rw [length_take]
      omega
    obtain ⟨c1, line, first, state⟩ := @lineText_reads context (bytes.take 48) ready
    obtain ⟨c2, newline, second⟩ := decodeBase64Step_newline first.ready (state some_bytes)
    obtain ⟨c3, lines, third⟩ := ih second.ready
    have joined := (first.trans second).trans third
    rw [append_nil, take_append_drop] at joined
    refine ⟨c3, ?_, joined⟩
    rw [encodeLines, if_neg filled, append_assoc, foldlM_append, line]
    show (decodeBase64Step c1 cpNewline >>= (encodeLines (bytes.drop 48)).foldlM decodeBase64Step) = _
    rw [newline]
    exact lines

def released (written : Bytevector × Bool) : Bytevector :=
  if written.2 then written.1 ++ [UInt8.ofNat cpReturn] else written.1

theorem released_plain {b : UInt8} : released (emitPlain port b) = port ++ [b] := by
  unfold released emitPlain
  by_cases return_ : cpReturn = b.toNat
  · rw [if_pos return_, if_pos rfl, return_, UInt8.ofNat_toNat]
  · rw [if_neg return_]
    rfl

theorem released_byte {b : UInt8} (other : b.toNat ≠ cpNewline) :
    released (emitByte port pending b) = released (port, pending) ++ [b] := by
  unfold emitByte
  cases pending with
  | false => exact released_plain
  | true =>
    rw [if_neg (other.symm)]
    exact released_plain

theorem emitText_crlf {rest : Bytevector} :
    emitText port pending (bvCrlf ++ rest) = emitText (released (port, pending) ++ [10]) false rest := by
  cases pending <;> rfl

theorem released_expandNewlines {port bytes : Bytevector} :
    released (emitText port pending (expandNewlines bytes)) = released (port, pending) ++ bytes := by
  induction bytes generalizing port pending with
  | nil => exact (append_nil _).symm
  | cons b rest ih =>
    by_cases newline : b.toNat = cpNewline
    · have same : b = 10 := UInt8.toNat_inj.mp newline
      rw [expandNewlines_newline newline, emitText_crlf, ih, same]
      show released (port, pending) ++ [10] ++ rest = _
      rw [append_assoc]
      rfl
    · rw [expandNewlines_other newline]
      show released (emitText (emitByte port pending b).1 (emitByte port pending b).2 (expandNewlines rest)) = _
      rw [ih]
      rw [released_byte newline, append_assoc]
      rfl

theorem released_emit {text : Bool} : released (emit text [] false (stream text bytes)) = bytes := by
  cases text with
  | false => rfl
  | true => exact released_expandNewlines

theorem decodeBase64Finalize_eq (ready : context.Ready) :
    (decodeBase64Finalize context).map (·.port) = .ok (released (context.port, context.pendingReturn)) := by
  unfold decodeBase64Finalize released
  rw [if_neg (by rw [ready.index]; decide)]
  cases context.pendingReturn <;> rfl

theorem lineText_length : (lineText bytes).length = (bytes.length + 2) / 3 * 4 := by
  induction bytes using lineText.induct with
  | case1 a b c rest ih =>
    show (lineText rest).length + 4 = (rest.length + 3 + 2) / 3 * 4
    omega
  | case2 a b =>
    show 4 = (2 + 2) / 3 * 4
    decide
  | case3 a =>
    show 4 = (1 + 2) / 3 * 4
    decide
  | case4 => rfl

theorem lineText_chars : ∀ char ∈ lineText bytes, QuantumChar char := by
  induction bytes using lineText.induct with
  | case1 a b c rest ih =>
    have small0 := byte_lt a
    have small1 := byte_lt b
    have small2 := byte_lt c
    exact forall_mem_cons.mpr ⟨quantumChar_digit (by omega), forall_mem_cons.mpr
      ⟨quantumChar_digit (by omega), forall_mem_cons.mpr ⟨quantumChar_digit (by omega),
        forall_mem_cons.mpr ⟨quantumChar_digit (by omega), ih⟩⟩⟩⟩
  | case2 a b =>
    have small0 := byte_lt a
    have small1 := byte_lt b
    exact forall_mem_cons.mpr ⟨quantumChar_digit (by omega), forall_mem_cons.mpr
      ⟨quantumChar_digit (by omega), forall_mem_cons.mpr ⟨quantumChar_digit (by omega),
        forall_mem_cons.mpr ⟨quantumChar_equals, nofun⟩⟩⟩⟩
  | case3 a =>
    have small0 := byte_lt a
    exact forall_mem_cons.mpr ⟨quantumChar_digit (by omega), forall_mem_cons.mpr
      ⟨quantumChar_digit (by omega), forall_mem_cons.mpr ⟨quantumChar_equals,
        forall_mem_cons.mpr ⟨quantumChar_equals, nofun⟩⟩⟩⟩
  | case4 => nofun

def linesOf (text : List ℕ) : List (List ℕ) := text.splitOnP (· == cpNewline)

theorem encodeLines_width : ∀ line ∈ linesOf (encodeLines bytes), line.length ≤ 64 := by
  induction bytes using encodeLines.induct with
  | case1 =>
    rw [encodeLines_nil]
    exact forall_mem_cons.mpr ⟨Nat.zero_le _, nofun⟩
  | case2 bytes filled ih =>
    have plain : ∀ char ∈ lineText (bytes.take 48), (char == cpNewline) = false := by
      intro char among
      exact beq_eq_false_iff_ne.mpr (lineText_chars char among).2
    rw [encodeLines, if_neg filled, append_assoc]
    show ∀ line ∈ splitOnP _ (_ ++ cpNewline :: encodeLines (bytes.drop 48)), _
    rw [splitOnP_append_cons _ _ rfl, splitOnP_eq_singleton plain]
    refine forall_mem_cons.mpr ⟨?_, ih⟩
    rw [lineText_length, length_take]
    omega

/-- However the bytes and their text are cut into packets, the text has short lines, and decoding it
signals nothing and writes the bytes. -/
theorem base64_round_trip (text : Bool) (packets : List (Packet UInt8)) : ∃ encoded, encodeBase64Packets text packets =
    .ok encoded ∧ (∀ line ∈ linesOf encoded, line.length ≤ 64) ∧ ∀ pieces : List (Packet ℕ),
    pieces.flatMap Packet.contents = encoded → decodeBase64Packets text pieces =
    .ok (packets.flatMap Packet.contents) := by
  refine ⟨_, encodeBase64Packets_eq text packets, encodeLines_width, fun pieces cut => ?_⟩
  have start : (decodeBase64Initialize text).Ready :=
    ⟨length_replicate, length_replicate, rfl, show InputState.lineStart ≠ .finished by decide⟩
  obtain ⟨context, decoded, read⟩ := @encodeLines_reads _ (stream text (packets.flatMap Packet.contents)) start
  have finalized := decodeBase64Finalize_eq read.ready
  rw [← read.written] at finalized
  unfold decodeBase64Packets
  rw [foldlM_packets decodeBase64Update_eq, cut, decoded]
  show (decodeBase64Finalize context >>= fun c => .ok c.port) = _
  refine .trans ?_ (finalized.trans (congrArg Except.ok released_emit))
  rfl

end MitScheme.Runtime.MimeCodec
