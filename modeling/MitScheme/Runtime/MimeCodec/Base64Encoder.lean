import MitScheme.Runtime.MimeCodec.Base64

/-!
What the encoder writes depends on the bytes alone, not on how they are cut: the lines of at most 48
bytes each, in text mode of the bytes with every newline turned into a return and a newline.
-/

namespace MitScheme.Runtime.MimeCodec

open Library Utf List

def lineText : Bytevector → List ℕ
  | a :: b :: c :: rest =>
    base64DigitToChar (a.toNat / 4) :: base64DigitToChar (a.toNat % 4 * 16 + b.toNat / 16) ::
      base64DigitToChar (b.toNat % 16 * 4 + c.toNat / 64) :: base64DigitToChar (c.toNat % 64) :: lineText rest
  | [a, b] =>
    [base64DigitToChar (a.toNat / 4), base64DigitToChar (a.toNat % 4 * 16 + b.toNat / 16),
      base64DigitToChar (b.toNat % 16 * 4), charEquals]
  | [a] => [base64DigitToChar (a.toNat / 4), base64DigitToChar (a.toNat % 4 * 16), charEquals, charEquals]
  | [] => []

def encodeLines (bytes : Bytevector) : List ℕ :=
  if bytes = [] then []
  else lineText (bytes.take 48) ++ [cpNewline] ++ encodeLines (bytes.drop 48)
termination_by bytes.length
decreasing_by
  rename_i filled
  have positive := List.length_pos_of_ne_nil filled
  rw [List.length_drop]
  omega

theorem encodeLines_nil : encodeLines [] = [] := by
  rw [encodeLines, if_pos rfl]

theorem encodeLines_full {first rest : Bytevector} (full : first.length = 48) :
    encodeLines (first ++ rest) = lineText first ++ [cpNewline] ++ encodeLines rest := by
  rw [encodeLines, if_neg (by intro none; simp_all), take_left' full, drop_left' full]

theorem encodeLines_short {bytes : Bytevector} (filled : bytes ≠ []) (short : bytes.length ≤ 48) :
    encodeLines bytes = lineText bytes ++ [cpNewline] := by
  rw [encodeLines, if_neg filled, take_of_length_le short, drop_eq_nil_of_le short, encodeLines_nil, append_nil]

theorem writeDigit_eq (d : ℕ) : writeDigit d = base64DigitToChar (d % 64) := by
  unfold writeDigit
  rw [Nat.and_comm, show d &&& 0x3F = d % 64 from land_ones d 6]

theorem writeDigit_first (a : UInt8) : writeDigit (lsh a.toNat (-2)) = base64DigitToChar (a.toNat / 4) := by
  have small := byte_lt a
  rw [writeDigit_eq, show lsh a.toNat (-2) = a.toNat / 2 ^ 2 from lsh_right a.toNat 2]
  exact congrArg base64DigitToChar (by omega)

theorem writeDigit_second (a b : UInt8) :
    writeDigit (lsh a.toNat 4 ||| lsh b.toNat (-4)) = base64DigitToChar (a.toNat % 4 * 16 + b.toNat / 16) := by
  have small := byte_lt b
  rw [writeDigit_eq, show lsh a.toNat 4 = a.toNat * 2 ^ 4 from lsh_left a.toNat 4,
    show lsh b.toNat (-4) = b.toNat / 2 ^ 4 from lsh_right b.toNat 4, lor_add _ _ 4 (by omega)]
  exact congrArg base64DigitToChar (by omega)

theorem writeDigit_third (b c : UInt8) :
    writeDigit (lsh b.toNat 2 ||| lsh c.toNat (-6)) = base64DigitToChar (b.toNat % 16 * 4 + c.toNat / 64) := by
  have small := byte_lt c
  rw [writeDigit_eq, show lsh b.toNat 2 = b.toNat * 2 ^ 2 from lsh_left b.toNat 2,
    show lsh c.toNat (-6) = c.toNat / 2 ^ 6 from lsh_right c.toNat 6, lor_add _ _ 2 (by omega)]
  exact congrArg base64DigitToChar (by omega)

theorem writeDigit_second_last (a : UInt8) : writeDigit (lsh a.toNat 4) = base64DigitToChar (a.toNat % 4 * 16) := by
  rw [writeDigit_eq, show lsh a.toNat 4 = a.toNat * 2 ^ 4 from lsh_left a.toNat 4]
  exact congrArg base64DigitToChar (by omega)

theorem writeDigit_third_last (b : UInt8) : writeDigit (lsh b.toNat 2) = base64DigitToChar (b.toNat % 16 * 4) := by
  rw [writeDigit_eq, show lsh b.toNat 2 = b.toNat * 2 ^ 2 from lsh_left b.toNat 2]
  exact congrArg base64DigitToChar (by omega)

theorem writeLineLoop_eq {buffer : Bytevector} {stop fuel start : ℕ} {port : List ℕ}
    (inside : stop ≤ buffer.length) (enough : stop - start < fuel) :
    writeLineLoop buffer stop fuel start port = .ok (port ++ lineText ((buffer.take stop).drop start)) := by
  induction fuel generalizing start port with
  | zero => exact absurd enough (Nat.not_lt_zero _)
  | succ fuel ih =>
    have size : ((buffer.take stop).drop start).length = stop - start := by
      rw [length_drop, length_take, min_eq_left inside]
    have next : (buffer.take stop).drop (start + 3) = ((buffer.take stop).drop start).drop 3 := drop_drop.symm
    have read := @bytevectorU8Ref_window buffer start stop
    unfold writeLineLoop
    generalize (buffer.take stop).drop start = left at size next read ⊢
    obtain _ | ⟨a, _ | ⟨b, _ | ⟨c, rest⟩⟩⟩ := left
    · rw [length_nil] at size
      rw [if_neg (by omega), if_neg (by omega), if_neg (by omega)]
      exact congrArg Except.ok (append_nil port).symm
    · rw [length_singleton] at size
      have first := @read 0 a rfl
      rw [add_zero] at first
      rw [if_neg (by omega), if_neg (by omega), if_pos size.symm, first]
      show Except.ok (port ++ [writeDigit _, writeDigit _] ++ [charEquals, charEquals]) = _
      rw [writeDigit_first, writeDigit_second_last, append_assoc]
      rfl
    · have two : stop - start = 2 := size.symm
      have first := @read 0 a rfl
      have second := @read 1 b rfl
      rw [add_zero] at first
      rw [if_neg (by omega), if_pos two, first, second]
      show Except.ok (port ++ [writeDigit _, writeDigit _, writeDigit _] ++ [charEquals]) = _
      rw [writeDigit_first, writeDigit_second, writeDigit_third_last, append_assoc]
      rfl
    · rw [length_cons, length_cons, length_cons] at size
      have first := @read 0 a rfl
      have second := @read 1 b rfl
      have third := @read 2 c rfl
      rw [add_zero] at first
      rw [if_pos (by omega), first, second, third]
      show writeLineLoop buffer stop fuel (start + 3)
        (port ++ [writeDigit _, writeDigit _, writeDigit _, writeDigit _]) = _
      rw [ih (by omega), next, writeDigit_first, writeDigit_second, writeDigit_third, writeDigit_eq, append_assoc]
      rfl

theorem window_append {α : Type} {items : List α} {start next : ℕ} (ordered : start ≤ next) :
    (items.take next).drop start ++ items.drop next = items.drop start := by
  rw [drop_take, ← Nat.add_sub_cancel' ordered, Nat.add_sub_cancel_left, ← drop_drop]
  exact take_append_drop _ _

namespace Base64EncodingContext

structure Valid (context : Base64EncodingContext) : Prop where
  size : context.buffer.length = 48
  room : context.index < 48

def promise (context : Base64EncodingContext) (rest : Bytevector) : List ℕ :=
  context.port ++ encodeLines (context.buffer.take context.index ++ rest)

structure Takes (context context' : Base64EncodingContext) (bytes : Bytevector) : Prop where
  valid : context'.Valid
  text : context'.text = context.text
  promise : ∀ rest, context'.promise rest = context.promise (bytes ++ rest)

theorem Takes.refl {context : Base64EncodingContext} (valid : context.Valid) : context.Takes context [] :=
  ⟨valid, rfl, fun _ => rfl⟩

theorem Takes.trans {c c' c'' : Base64EncodingContext} {first last : Bytevector} (before : c.Takes c' first)
    (after : c'.Takes c'' last) : c.Takes c'' (first ++ last) :=
  ⟨after.valid, after.text.trans before.text, fun rest => by
    rw [after.promise, before.promise, append_assoc]⟩

end Base64EncodingContext

theorem writeBase64Line_eq {context : Base64EncodingContext} (size : context.buffer.length = 48)
    (filled : 0 < context.index) (inside : context.index ≤ 48) : writeBase64Line context =
    .ok { context with port := context.port ++ lineText (context.buffer.take context.index) ++ [cpNewline], index := 0 } := by
  unfold writeBase64Line
  rw [if_pos filled, writeLineLoop_eq (by omega) (by omega)]
  rfl

theorem flushFull_takes {context : Base64EncodingContext} {bytes : Bytevector} (valid : context.Valid)
    (fits : context.index + bytes.length ≤ 48) :
    ∃ context', flushFull { context with
        buffer := context.buffer.take context.index ++ bytes ++ context.buffer.drop (context.index + bytes.length)
        index := context.index + bytes.length } = .ok context' ∧ context.Takes context' bytes := by
  have size := valid.size
  have taken : (context.buffer.take context.index).length = context.index := by
    rw [length_take]
    omega
  have copied : (context.buffer.take context.index ++ bytes).length = context.index + bytes.length := by
    rw [length_append, taken]
  have buffered : (context.buffer.take context.index ++ bytes ++
      context.buffer.drop (context.index + bytes.length)).take (context.index + bytes.length) =
        context.buffer.take context.index ++ bytes := take_left' copied
  have same : (context.buffer.take context.index ++ bytes ++
      context.buffer.drop (context.index + bytes.length)).length = 48 := by
    rw [length_append, length_drop]
    omega
  unfold flushFull
  by_cases full : context.index + bytes.length = 48
  · rw [if_pos full, writeBase64Line_eq same (by show 0 < context.index + bytes.length; omega) (full.le)]
    refine ⟨_, rfl, ⟨same, show 0 < 48 by decide⟩, rfl, fun rest => ?_⟩
    show context.port ++ lineText (take (context.index + bytes.length) _) ++ [cpNewline] ++
      encodeLines (take 0 _ ++ rest) = context.port ++ encodeLines _
    rw [buffered, ← append_assoc (take context.index _), encodeLines_full (copied.trans full), take_zero, nil_append]
    simp
  · rw [if_neg full]
    refine ⟨_, rfl, ⟨same, by show context.index + bytes.length < 48; omega⟩, rfl, fun rest => ?_⟩
    show context.port ++ encodeLines (take (context.index + bytes.length) _ ++ rest) = _
    rw [buffered, append_assoc]
    rfl

theorem encodeBase64_takes {bytes : Bytevector} {stop fuel start : ℕ} {context : Base64EncodingContext}
    (valid : context.Valid) (inside : stop ≤ bytes.length) (enough : stop - start < fuel) :
    ∃ context', encodeBase64 bytes stop fuel context start = .ok context' ∧
      context.Takes context' ((bytes.take stop).drop start) := by
  induction fuel generalizing context start with
  | zero => exact absurd enough (Nat.not_lt_zero _)
  | succ fuel ih =>
    unfold encodeBase64
    by_cases more : start < stop
    · have room := valid.room
      rw [if_pos more]
      dsimp only
      generalize next_eq : min stop (start + (48 - context.index)) = next
      have ahead : start < next ∧ next ≤ stop ∧ context.index + (next - start) ≤ 48 := by omega
      have chunk : (bytevectorCopy bytes start next).length = next - start := by
        unfold bytevectorCopy
        rw [length_drop, length_take]
        omega
      have copied : bytevectorCopyInto context.buffer context.index bytes start next =
          .ok (context.buffer.take context.index ++ bytevectorCopy bytes start next ++
            context.buffer.drop (context.index + (bytevectorCopy bytes start next).length),
            context.index + (bytevectorCopy bytes start next).length) := by
        unfold bytevectorCopyInto
        rw [if_pos ⟨by omega, by omega, by rw [valid.size]; omega⟩, chunk]
      obtain ⟨flushed, written, first⟩ := @flushFull_takes context (bytevectorCopy bytes start next) valid
        (by rw [chunk]; exact ahead.2.2)
      obtain ⟨context', encoded, later⟩ := @ih next flushed first.valid (by omega)
      refine ⟨context', ?_, ?_⟩
      · rw [copied]
        show (flushFull _ >>= _) = _
        rw [written]
        exact encoded
      · have joined := first.trans later
        have whole : bytevectorCopy bytes start next ++ (bytes.take stop).drop next = (bytes.take stop).drop start := by
          unfold bytevectorCopy
          rw [show bytes.take next = (bytes.take stop).take next by rw [take_take, min_eq_left ahead.2.1]]
          exact window_append (le_of_lt ahead.1)
        rwa [whole] at joined
    · rw [if_neg more, drop_eq_nil_of_le (by rw [length_take]; omega)]
      exact ⟨context, rfl, .refl valid⟩

def expandNewlines (bytes : Bytevector) : Bytevector :=
  bytes.flatMap fun b => if b.toNat = cpNewline then bvCrlf else [b]

def stream (text : Bool) (bytes : Bytevector) : Bytevector := if text then expandNewlines bytes else bytes

theorem expandNewlines_append {first last : Bytevector} :
    expandNewlines (first ++ last) = expandNewlines first ++ expandNewlines last := flatMap_append

theorem expandNewlines_newline {b : UInt8} {rest : Bytevector} (newline : b.toNat = cpNewline) :
    expandNewlines (b :: rest) = bvCrlf ++ expandNewlines rest := by
  unfold expandNewlines
  rw [flatMap_cons, if_pos newline]

theorem expandNewlines_other {b : UInt8} {rest : Bytevector} (other : b.toNat ≠ cpNewline) :
    expandNewlines (b :: rest) = b :: expandNewlines rest := by
  unfold expandNewlines
  rw [flatMap_cons, if_neg other]
  rfl

theorem stream_append {text : Bool} {first last : Bytevector} :
    stream text (first ++ last) = stream text first ++ stream text last := by
  unfold stream
  split
  · exact expandNewlines_append
  · rfl

theorem expandNewlines_plain {bytes : Bytevector} (plain : ∀ b ∈ bytes, b.toNat ≠ cpNewline) :
    expandNewlines bytes = bytes := by
  induction bytes with
  | nil => rfl
  | cons b rest ih =>
    obtain ⟨here, later⟩ := forall_mem_cons.mp plain
    rw [expandNewlines_other here, ih later]

theorem findNewline_cases {bytes : Bytevector} {stop fuel start : ℕ} (inside : stop ≤ bytes.length)
    (enough : stop - start < fuel) :
    (∃ i, findNewline bytes stop fuel start = .ok (some i) ∧ start ≤ i ∧ i < stop ∧
      (∀ b ∈ (bytes.take i).drop start, b.toNat ≠ cpNewline) ∧
      ∃ b, b.toNat = cpNewline ∧ bytes.drop i = b :: bytes.drop (i + 1)) ∨
    (findNewline bytes stop fuel start = .ok none ∧
      ∀ b ∈ (bytes.take stop).drop start, b.toNat ≠ cpNewline) := by
  induction fuel generalizing start with
  | zero => exact absurd enough (Nat.not_lt_zero _)
  | succ fuel ih =>
    unfold findNewline
    by_cases more : start < stop
    · have here : bytes.drop start = bytes.get ⟨start, by omega⟩ :: bytes.drop (start + 1) :=
        drop_eq_getElem_cons (by omega)
      have read := @bytevectorU8Ref_at bytes start 0 _ (by rw [here]; rfl)
      rw [add_zero] at read
      rw [if_pos more, read]
      generalize bytes.get ⟨start, by omega⟩ = first at here read
      by_cases newline : cpNewline = first.toNat
      · refine .inl ⟨start, ?_, le_refl _, more, ?_, first, newline.symm, here⟩
        · show (if cpNewline = first.toNat then _ else _) = _
          rw [if_pos newline]
        · rw [drop_eq_nil_of_le (by rw [length_take]; omega)]
          nofun
      · have extend : ∀ {limit}, start < limit →
            (∀ b ∈ (bytes.take limit).drop (start + 1), b.toNat ≠ cpNewline) →
              ∀ b ∈ (bytes.take limit).drop start, b.toNat ≠ cpNewline := by
          intro limit before plain
          rw [drop_take, here, show limit - start = limit - (start + 1) + 1 by omega, take_succ_cons, ← drop_take]
          exact forall_mem_cons.mpr ⟨fun same => newline same.symm, plain⟩
        have next : (.ok first.toNat >>= fun u8 =>
            if cpNewline = u8 then .ok (some start) else findNewline bytes stop fuel (start + 1)) =
              findNewline bytes stop fuel (start + 1) := if_neg newline
        rw [next]
        rcases @ih (start + 1) (by omega) with ⟨i, found, after, before, plain, at_newline⟩ | ⟨found, plain⟩
        · exact .inl ⟨i, found, by omega, before, extend (by omega) plain, at_newline⟩
        · exact .inr ⟨found, extend more plain⟩
    · rw [if_neg more, drop_eq_nil_of_le (by rw [length_take]; omega)]
      exact .inr ⟨rfl, nofun⟩

theorem encodeTextLoop_takes {bytes : Bytevector} {stop fuel start : ℕ} {context : Base64EncodingContext}
    (valid : context.Valid) (inside : stop ≤ bytes.length) (enough : stop - start < fuel) :
    ∃ context', encodeTextLoop bytes stop fuel context start = .ok context' ∧
      context.Takes context' (expandNewlines ((bytes.take stop).drop start)) := by
  induction fuel generalizing context start with
  | zero => exact absurd enough (Nat.not_lt_zero _)
  | succ fuel ih =>
    unfold encodeTextLoop
    rcases @findNewline_cases bytes stop (bytes.length + 1) start inside (by omega) with
      ⟨i, found, after, before, plain, b, newline, at_newline⟩ | ⟨found, plain⟩
    · obtain ⟨c1, encoded1, first⟩ := @encodeBase64_takes bytes i (bytes.length + 1) start context valid
        (by omega) (by omega)
      obtain ⟨c2, encoded2, second⟩ := @encodeBase64_takes bvCrlf 2 3 0 c1 first.valid (by decide) (by decide)
      obtain ⟨c3, encoded3, third⟩ := @ih (i + 1) c2 second.valid (by omega)
      refine ⟨c3, ?_, ?_⟩
      · rw [found]
        show (encodeBase64 bytes i _ context start >>= fun c => encodeBase64 bvCrlf 2 3 c 0 >>= _) = _
        rw [encoded1]
        show (encodeBase64 bvCrlf 2 3 c1 0 >>= _) = _
        rw [encoded2]
        exact encoded3
      · have joined := (first.trans second).trans third
        have split : (bytes.take stop).drop start = (bytes.take i).drop start ++ b :: (bytes.take stop).drop (i + 1) := by
          rw [← @window_append _ (bytes.take stop) start i after, take_take, min_eq_left (by omega),
            @drop_take _ i stop, at_newline, show stop - i = stop - (i + 1) + 1 by omega, take_succ_cons, ← drop_take]
        have expanded : expandNewlines ((bytes.take stop).drop start) =
            (bytes.take i).drop start ++ bvCrlf ++ expandNewlines ((bytes.take stop).drop (i + 1)) := by
          rw [split, expandNewlines_append, expandNewlines_newline newline, expandNewlines_plain plain, append_assoc]
        rw [expanded]
        exact joined
    · rw [found]
      obtain ⟨context', encoded, taken⟩ := @encodeBase64_takes bytes stop (bytes.length + 1) start context valid
        inside (by omega)
      rw [expandNewlines_plain plain]
      exact ⟨context', encoded, taken⟩

theorem encodeBase64Update_takes {context : Base64EncodingContext} (valid : context.Valid) (p : Packet UInt8) :
    ∃ context', encodeBase64Update context p.items p.start p.stop = .ok context' ∧
      context.Takes context' (stream context.text p.contents) := by
  unfold encodeBase64Update stream
  rw [range_of_le p.ordered p.inside]
  split
  · exact encodeTextLoop_takes valid p.inside (Nat.lt_succ_of_le ((Nat.sub_le _ _).trans p.inside))
  · exact encodeBase64_takes valid p.inside (Nat.lt_succ_of_le ((Nat.sub_le _ _).trans p.inside))

theorem encodeBase64Finalize_eq {context : Base64EncodingContext} (valid : context.Valid) :
    ∃ context', encodeBase64Finalize context = .ok context' ∧ context'.port = context.promise [] := by
  have size := valid.size
  have room := valid.room
  unfold encodeBase64Finalize Base64EncodingContext.promise
  rw [append_nil]
  by_cases filled : 0 < context.index
  · have some_bytes : context.buffer.take context.index ≠ [] := by
      apply ne_nil_of_length_pos
      rw [length_take]
      omega
    refine ⟨_, writeBase64Line_eq size filled (by omega), ?_⟩
    rw [encodeLines_short some_bytes (by rw [length_take]; omega), append_assoc]
  · have none_left : context.buffer.take context.index = [] := by
      rw [Nat.eq_zero_of_not_pos filled, take_zero]
    refine ⟨context, if_neg filled, ?_⟩
    rw [none_left, encodeLines_nil, append_nil]

theorem encodeBase64Packets_eq (text : Bool) (packets : List (Packet UInt8)) :
    encodeBase64Packets text packets = .ok (encodeLines (stream text (packets.flatMap Packet.contents))) := by
  have start : (encodeBase64Initialize text).Valid := ⟨length_replicate, show 0 < 48 by decide⟩
  obtain ⟨context, updated, taken⟩ := @foldlM_carries _ _ _
    (fun context p => encodeBase64Update context p.items p.start p.stop) (fun _ => True)
    (fun past context => (encodeBase64Initialize text).Takes context (stream text past)) (fun _ => trivial)
    (by
      intro past context p _ taken
      obtain ⟨context', updated, next⟩ := encodeBase64Update_takes taken.valid p
      rw [taken.text] at next
      exact ⟨context', updated, by rw [stream_append]; exact taken.trans next⟩)
    packets [] (encodeBase64Initialize text) trivial
    (by
      have empty : stream text [] = [] := by cases text <;> rfl
      rw [empty]
      exact .refl start)
  obtain ⟨context', finalized, written⟩ := encodeBase64Finalize_eq taken.valid
  unfold encodeBase64Packets
  rw [updated]
  show (encodeBase64Finalize context >>= fun c => .ok c.port) = _
  rw [finalized]
  show Except.ok context'.port = _
  rw [written, taken.promise, append_nil]
  rfl

end MitScheme.Runtime.MimeCodec
