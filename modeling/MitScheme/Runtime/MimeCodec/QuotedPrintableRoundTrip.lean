import MitScheme.Runtime.MimeCodec.QuotedPrintableDecoder

/-!
The encoder keeps a page: full lines that are short, printable and end in no blank, and a last line with
room for a soft break. The page stands for the input so far, up to what is pending.
-/

namespace MitScheme.Runtime.MimeCodec

open Library Utf List

def Printable (char : ℕ) : Prop := (0x21 ≤ char ∧ char < 0x7F) ∨ char = 32 ∨ char = 9

def EndsBlank (line : List ℕ) : Prop := ∃ last ∈ line.getLast?, charLwsp last = true

structure GoodLine (line : List ℕ) : Prop where
  short : line.length ≤ 76
  printable : ∀ char ∈ line, Printable char
  ends : ¬ EndsBlank line

def joinLines (lines : List (List ℕ)) : List ℕ := lines.flatMap (· ++ [qpNewline])

theorem joinLines_concat {lines : List (List ℕ)} {line : List ℕ} :
    joinLines (lines ++ [line]) = joinLines lines ++ (line ++ [qpNewline]) := by
  unfold joinLines
  rw [flatMap_append, flatMap_singleton]

/-- The text is good lines and a line of `column` characters, and stands for `out`. -/
structure Page (port : List ℕ) (column : ℕ) (out : List ℕ) (blank : Bool) : Prop where
  layout : ∃ lines current, port = joinLines lines ++ current ∧ (∀ line ∈ lines, GoodLine line) ∧
    (∀ char ∈ current, Printable char) ∧ current.length = column ∧ (EndsBlank current ↔ blank = true)
  reads : qpRun (.clear, []) port = some (if blank then .blank else .clear, out)

theorem endsBlank_concat {line : List ℕ} {char : ℕ} : EndsBlank (line ++ [char]) ↔ charLwsp char = true := by
  unfold EndsBlank
  rw [getLast?_concat]
  constructor
  · rintro ⟨last, same, lwsp⟩
    cases same
    exact lwsp
  · exact fun lwsp => ⟨char, rfl, lwsp⟩

theorem endsBlank_nil : EndsBlank [] ↔ false = true := by
  constructor
  · rintro ⟨last, same, -⟩
    cases same
  · exact fun false_true => absurd false_true (by decide)

theorem printable_of_clear {char : ℕ} (clear : qpEncoded char = false) : Printable char := by
  unfold qpEncoded charLwsp at clear
  unfold Printable
  simp only [Bool.not_eq_false', Bool.or_eq_true, Bool.and_eq_true, decide_eq_true_eq, beq_iff_eq, bne_iff_ne] at clear
  omega

variable {blank : Bool}

theorem qpStep_clear {out : List ℕ} {char : ℕ} (clear : qpEncoded char = false) :
    qpStep (if blank then .blank else .clear, out) char =
      some (if charLwsp char then .blank else .clear, out ++ [char]) := by
  have newline : char ≠ qpNewline := by
    intro same
    rw [same] at clear
    exact absurd clear (by decide)
  have equals : char ≠ qpEquals := by
    intro same
    rw [same] at clear
    exact absurd clear (by decide)
  have plain : qpPlain out char = some (if charLwsp char then .blank else .clear, out ++ [char]) := by
    unfold qpPlain
    rw [if_neg equals, clear]
    cases charLwsp char <;> rfl
  cases blank with
  | false => exact (if_neg newline).trans plain
  | true => exact (if_neg newline).trans plain

theorem qpStep_to_equals {out : List ℕ} :
    qpStep (if blank then .blank else .clear, out) qpEquals = some (.equals, out) := by
  cases blank <;> rfl

section
variable {port out : List ℕ} {column : ℕ} {blank : Bool}

theorem Page.char (page : Page port column out blank) {char : ℕ} (clear : qpEncoded char = false) :
    Page (port ++ [char]) (column + 1) (out ++ [char]) (charLwsp char) := by
  obtain ⟨lines, current, rfl, good, printable, rfl, ends⟩ := page.layout
  refine ⟨⟨lines, current ++ [char], append_assoc _ _ _, good, ?_, length_append, endsBlank_concat⟩, ?_⟩
  · intro c among
    rcases mem_append.mp among with among | among
    · exact printable c among
    · rw [mem_singleton.mp among]
      exact printable_of_clear clear
  · rw [qpRun_append, page.reads]
    show (qpStep _ char).bind _ = _
    rw [qpStep_clear clear]
    rfl

def hexText (d : ℕ) : List ℕ := [qpEquals, qpHex (d / 16), qpHex (d % 16)]

theorem qpHex_digit {c : ℕ} (small : c < 16) : HexDigit (qpHex c) ∧ hexValue (qpHex c) = c := by
  unfold HexDigit hexValue qpHex
  split
  · rw [if_pos (by omega)]
    omega
  · rw [if_neg (by omega)]
    omega

theorem printable_hexDigit {char : ℕ} (digit : HexDigit char) : Printable char ∧ charLwsp char = false := by
  unfold HexDigit at digit
  refine ⟨by unfold Printable; omega, ?_⟩
  rw [← Bool.not_eq_true, charLwsp_iff]
  omega

theorem Page.hex (page : Page port column out blank) {d : ℕ} (small : d < 256) :
    Page (port ++ hexText d) (column + 3) (out ++ [d]) false := by
  obtain ⟨lines, current, rfl, good, printable, rfl, ends⟩ := page.layout
  obtain ⟨digit1, value1⟩ := @qpHex_digit (d / 16) (by omega)
  obtain ⟨digit2, value2⟩ := @qpHex_digit (d % 16) (by omega)
  have apart : qpHex (d / 16) ≠ qpNewline := by
    intro same
    rw [same] at digit1
    exact absurd digit1 (by decide)
  refine ⟨⟨lines, current ++ hexText d, append_assoc _ _ _, good, ?_, length_append, ?_⟩, ?_⟩
  · intro c among
    rcases mem_append.mp among with among | among
    · exact printable c among
    · rcases mem_cons.mp among with rfl | among
      · exact .inl (by decide)
      rcases mem_cons.mp among with rfl | among
      · exact (printable_hexDigit digit1).1
      · rw [mem_singleton.mp among]
        exact (printable_hexDigit digit2).1
  · have split : current ++ hexText d = (current ++ [qpEquals, qpHex (d / 16)]) ++ [qpHex (d % 16)] := by
      rw [append_assoc]
      rfl
    rw [split, endsBlank_concat, (printable_hexDigit digit2).2]
  · rw [qpRun_append, page.reads]
    show (qpStep _ qpEquals).bind (qpRun · [qpHex (d / 16), qpHex (d % 16)]) = _
    rw [qpStep_to_equals]
    show (qpStep (.equals, out) (qpHex (d / 16))).bind (qpRun · [qpHex (d % 16)]) = _
    have first : qpStep (.equals, out) (qpHex (d / 16)) = some (.hex (qpHex (d / 16)), out) :=
      (if_neg apart).trans (if_pos digit1)
    rw [first]
    show (qpStep (.hex _, out) (qpHex (d % 16))).bind _ = _
    have second : qpStep (.hex (qpHex (d / 16)), out) (qpHex (d % 16)) =
        some (.clear, out ++ [hexValue (qpHex (d / 16)) * 16 + hexValue (qpHex (d % 16))]) := if_pos digit2
    rw [second, value1, value2, Nat.div_add_mod']
    rfl

theorem Page.soft (page : Page port column out blank) (room : column ≤ 75) :
    Page (port ++ [qpEquals, qpNewline]) 0 out false := by
  obtain ⟨lines, current, rfl, good, printable, rfl, ends⟩ := page.layout
  have ended : GoodLine (current ++ [qpEquals]) := by
    refine ⟨by rw [length_append, length_singleton]; omega, ?_, ?_⟩
    · intro c among
      rcases mem_append.mp among with among | among
      · exact printable c among
      · rw [mem_singleton.mp among]
        exact .inl (by decide)
    · rw [endsBlank_concat]
      decide
  refine ⟨⟨lines ++ [current ++ [qpEquals]], [], ?_, ?_, by simp, rfl, ?_⟩, ?_⟩
  · rw [joinLines_concat, append_nil, append_assoc, append_assoc]
    rfl
  · intro line among
    rcases mem_append.mp among with among | among
    · exact good line among
    · rw [mem_singleton.mp among]
      exact ended
  · exact endsBlank_nil
  · rw [qpRun_append, page.reads]
    show (qpStep _ qpEquals).bind (qpRun · [qpNewline]) = _
    rw [qpStep_to_equals]
    rfl

theorem Page.hard (page : Page port column out false) (room : column ≤ 76) :
    Page (port ++ [qpNewline]) 0 (out ++ [qpNewline]) false := by
  obtain ⟨lines, current, rfl, good, printable, rfl, ends⟩ := page.layout
  refine ⟨⟨lines ++ [current], [], ?_, ?_, by simp, rfl, ?_⟩, ?_⟩
  · rw [joinLines_concat, append_nil, append_assoc]
  · intro line among
    rcases mem_append.mp among with among | among
    · exact good line among
    · rw [mem_singleton.mp among]
      exact ⟨room, printable, fun blank => absurd (ends.mp blank) (by decide)⟩
  · exact endsBlank_nil
  · rw [qpRun_append, page.reads]
    rfl

theorem splitOnP_joinLines {lines : List (List ℕ)} {current : List ℕ} (good : ∀ line ∈ lines, GoodLine line)
    (printable : ∀ char ∈ current, Printable char) :
    (joinLines lines ++ current).splitOnP (· == qpNewline) = lines ++ [current] := by
  have plain : ∀ {line : List ℕ}, (∀ char ∈ line, Printable char) → ∀ char ∈ line, (char == qpNewline) = false := by
    intro line printable char among
    rw [beq_eq_false_iff_ne]
    rintro rfl
    exact absurd (printable qpNewline among) (by unfold Printable qpNewline; omega)
  induction lines with
  | nil => exact splitOnP_eq_singleton (plain printable)
  | cons line rest ih =>
    obtain ⟨first, later⟩ := forall_mem_cons.mp good
    unfold joinLines at ih ⊢
    rw [flatMap_cons, append_assoc, append_assoc]
    show splitOnP _ (line ++ qpNewline :: (flatMap _ rest ++ current)) = _
    rw [splitOnP_append_cons _ _ rfl, splitOnP_eq_singleton (plain first.printable), ih later]
    rfl

theorem Page.lines (page : Page port column out false) (room : column ≤ 76) :
    ∀ line ∈ port.splitOnP (· == qpNewline), GoodLine line := by
  obtain ⟨lines, current, rfl, good, printable, rfl, ends⟩ := page.layout
  rw [splitOnP_joinLines good printable]
  intro line among
  rcases mem_append.mp among with among | among
  · exact good line among
  · rw [mem_singleton.mp among]
    exact ⟨room, printable, fun blank => absurd (ends.mp blank) (by decide)⟩

end

/-- The context has written, or keeps as pending output, what stands for `past`; `blank` tells whether
it ends in a blank that is not encoded. -/
inductive Wrote : QpEncodingContext → List ℕ → Bool → Prop where
  | plain {port past : List ℕ} {text : Bool} {lwsp : Option ℕ} {column : ℕ} {blank : Bool} :
      Page port column past blank → column ≤ 75 → Wrote ⟨port, text, lwsp, column, none⟩ past blank
  | clear {port out : List ℕ} {text : Bool} {lwsp : Option ℕ} {char : ℕ} {blank : Bool} :
      Page port 75 out blank → qpEncoded char = false →
        Wrote ⟨port, text, lwsp, 75, some [char]⟩ (out ++ [char]) (charLwsp char)
  | hex {port out : List ℕ} {text : Bool} {lwsp : Option ℕ} {d : ℕ} {blank : Bool} :
      Page port 73 out blank → d < 256 → Wrote ⟨port, text, lwsp, 73, some (hexText d)⟩ (out ++ [d]) false

variable {context : QpEncodingContext} {past : List ℕ}

theorem Wrote.set_pendingLwsp
    (wrote : Wrote context past blank) (lwsp : Option ℕ) : Wrote { context with pendingLwsp := lwsp } past blank := by
  cases wrote with
  | plain page room => exact .plain page room
  | clear page clear => exact .clear page clear
  | hex page small => exact .hex page small

theorem Wrote.flush (wrote : Wrote context past blank) :
    ∃ port column, writeQpPendingOutput context false = ⟨port, context.text, context.pendingLwsp, column, none⟩ ∧
    Page port column past blank ∧ column ≤ 75 := by
  cases wrote with
  | plain page room => exact ⟨_, _, rfl, page, room⟩
  | @clear port out text lwsp char blank page clear =>
    exact ⟨_, 1, rfl, (page.soft (le_refl _)).char clear, by decide⟩
  | @hex port out text lwsp d blank page small =>
    exact ⟨_, 3, rfl, (page.soft (by decide)).hex small, by decide⟩

theorem Wrote.fit (wrote : Wrote context past false) :
    ∃ port column, writeQpPendingOutput context true = ⟨port, context.text, context.pendingLwsp, column, none⟩ ∧
      Page port column past false ∧ column ≤ 76 := by
  generalize blank_eq : false = blank at wrote
  cases wrote with
  | plain page room => exact ⟨_, _, rfl, page, by omega⟩
  | @clear port out text lwsp char blank page clear =>
    exact ⟨_, 76, rfl, page.char clear, le_refl _⟩
  | @hex port out text lwsp d blank page small => exact ⟨_, 76, rfl, page.hex small, le_refl _⟩

theorem writeQpClear_wrote {char : ℕ} (wrote : Wrote context past blank) (clear : qpEncoded char = false) :
    Wrote (writeQpClear context char) (past ++ [char]) (charLwsp char) ∧ (writeQpClear context char).pendingLwsp =
    context.pendingLwsp ∧ (writeQpClear context char).text = context.text := by
  obtain ⟨port, column, flushed, page, room⟩ := wrote.flush
  unfold writeQpClear
  rw [flushed]
  by_cases space : column < 75
  · rw [if_pos space]
    exact ⟨.plain (page.char clear) space, rfl, rfl⟩
  · obtain rfl : column = 75 := by omega
    cases text : context.text with
    | false => exact ⟨.plain ((page.soft room).char clear) (by decide), rfl, rfl⟩
    | true => exact ⟨.clear page clear, rfl, rfl⟩

theorem hexText_eq (d : ℕ) : [qpEquals, qpHex (lsh d (-4)), qpHex (d &&& 0x0F)] = hexText d := by
  unfold hexText
  rw [show lsh d (-4) = d / 16 from lsh_right d 4, show d &&& 0x0F = d % 16 from land_ones d 4]

theorem writeQpEncoded_wrote {d : ℕ}
    (wrote : Wrote context past blank) (small : d < 256) : ∃ context', writeQpEncoded context d = .ok context' ∧
    Wrote context' (past ++ [d]) false ∧ context'.pendingLwsp = context.pendingLwsp ∧ context'.text = context.text := by
  obtain ⟨port, column, flushed, page, room⟩ := wrote.flush
  unfold writeQpEncoded
  rw [flushed]
  dsimp only
  rw [if_pos (show d ≤ 0xFF by omega), hexText_eq]
  by_cases last : column = 73
  · subst last
    exact ⟨_, rfl, .hex page small, rfl, rfl⟩
  · rw [if_neg last]
    by_cases full : column > 73
    · rw [if_pos full]
      exact ⟨_, rfl, .plain ((page.soft room).hex small) (show 0 + 3 ≤ 75 by decide), rfl, rfl⟩
    · rw [if_neg full]
      exact ⟨_, rfl, .plain (page.hex small) (by show column + 3 ≤ 75; omega), rfl, rfl⟩

theorem writeQpHardBreak_wrote (wrote : Wrote context past false) :
    Wrote (writeQpHardBreak context) (past ++ [qpNewline]) false ∧ (writeQpHardBreak context).pendingLwsp =
    context.pendingLwsp ∧ (writeQpHardBreak context).text = context.text := by
  obtain ⟨port, column, fitted, page, room⟩ := wrote.fit
  unfold writeQpHardBreak
  rw [fitted]
  exact ⟨.plain (page.hard room) (by decide), rfl, rfl⟩

/-- What is written and the pending blank stand for the input so far. -/
structure Encoded (context : QpEncodingContext) (past : List ℕ) : Prop where
  wrote : ∃ out blank, Wrote context out blank ∧ past = out ++ context.pendingLwsp.toList ∧
    (context.pendingLwsp = none → blank = false)
  lwsp : ∀ p ∈ context.pendingLwsp, charLwsp p = true

theorem charLwsp_small {char : ℕ} (lwsp : charLwsp char = true) : char < 256 := by
  have blank := charLwsp_iff.mp lwsp
  omega

theorem Wrote.encoded (wrote : Wrote context past false)
    (no_lwsp : context.pendingLwsp = none) : Encoded context past := by
  refine ⟨⟨past, false, wrote, ?_, fun _ => rfl⟩, ?_⟩
  · rw [no_lwsp]
    exact (append_nil past).symm
  · rw [no_lwsp]
    nofun

theorem encodeQpLoop_encoded {type : PartEnd} {context : QpEncodingContext} {chars past : List ℕ} {blank : Bool}
    (wrote : Wrote context past blank) (no_lwsp : context.pendingLwsp = none) (small : ∀ c ∈ chars, c < 256)
    (behind : blank = true → chars ≠ []) : ∃ context', encodeQpLoop type context chars = .ok context' ∧ context'.text =
    context.text ∧ Encoded context' (past ++ chars ++ if type = .lineEnd then [qpNewline] else []) := by
  induction chars generalizing context past blank with
  | nil =>
    have ended : blank = false := Bool.eq_false_iff.mpr fun blank => behind blank rfl
    subst ended
    unfold encodeQpLoop
    rw [append_nil]
    by_cases line : type = .lineEnd
    · rw [if_pos line, if_pos line]
      obtain ⟨broken, lwsp, text⟩ := writeQpHardBreak_wrote wrote
      exact ⟨_, rfl, text, broken.encoded (lwsp.trans no_lwsp)⟩
    · rw [if_neg line, if_neg line, append_nil]
      exact ⟨context, rfl, rfl, wrote.encoded no_lwsp⟩
  | cons char rest ih =>
    obtain ⟨first, later⟩ := forall_mem_cons.mp small
    have eight : (!char8Bit char) = false := by
      unfold char8Bit
      simp [first]
    rw [show past ++ char :: rest = past ++ [char] ++ rest from append_cons past char rest]
    unfold encodeQpLoop
    rw [eight, if_neg (by decide)]
    cases lwsp : charLwsp char with
    | false =>
      rw [if_pos (by decide)]
      -- a character that is no blank
      obtain ⟨c1, written, wrote1, lwsp1, text1⟩ : ∃ c1, writeQpChar context char = .ok c1 ∧
          Wrote c1 (past ++ [char]) false ∧ c1.pendingLwsp = context.pendingLwsp ∧ c1.text = context.text := by
        unfold writeQpChar
        cases encoded : qpEncoded char with
        | true => exact writeQpEncoded_wrote wrote first
        | false =>
          obtain ⟨wrote1, lwsp1, text1⟩ := writeQpClear_wrote wrote encoded
          rw [lwsp] at wrote1
          exact ⟨_, rfl, wrote1, lwsp1, text1⟩
      obtain ⟨c2, looped, text2, encoded⟩ := ih wrote1 (lwsp1.trans no_lwsp) later (fun impossible => by cases impossible)
      refine ⟨c2, ?_, text2.trans text1, encoded⟩
      rw [written]
      exact looped
    | true =>
      rw [if_neg (by decide)]
      by_cases wait : type = .part ∧ rest = []
      · -- the last blank of the packet waits
        obtain ⟨rfl, rfl⟩ := wait
        refine ⟨_, rfl, rfl, ⟨⟨past, blank, wrote.set_pendingLwsp _, ?_, nofun⟩, ?_⟩⟩
        · rw [if_neg (by decide), append_nil, append_nil]
          rfl
        · rintro p same
          cases same
          exact lwsp
      · rw [if_neg wait]
        cases rest with
        | nil =>
          -- the last blank of the line is encoded
          obtain ⟨c1, written, wrote1, lwsp1, text1⟩ := writeQpEncoded_wrote wrote first
          obtain ⟨c2, looped, text2, encoded⟩ := ih wrote1 (lwsp1.trans no_lwsp) later (fun impossible => by cases impossible)
          refine ⟨c2, ?_, text2.trans text1, encoded⟩
          show (writeQpEncoded context char >>= fun c => encodeQpLoop type c []) = _
          rw [written]
          exact looped
        | cons next rest =>
          obtain ⟨wrote1, lwsp1, text1⟩ := writeQpClear_wrote wrote (qpEncoded_lwsp lwsp)
          obtain ⟨c2, looped, text2, encoded⟩ := ih wrote1 (lwsp1.trans no_lwsp) later fun _ => cons_ne_nil next rest
          exact ⟨c2, looped, text2.trans text1, encoded⟩

theorem encodeQp_encoded {type : PartEnd} {context : QpEncodingContext} {chars past : List ℕ}
    (encoded : Encoded context past) (small : ∀ c ∈ chars, c < 256) :
    ∃ context', encodeQp context chars type = .ok context' ∧ context'.text = context.text ∧
      Encoded context' (past ++ chars ++ if type = .lineEnd then [qpNewline] else []) := by
  obtain ⟨out, blank, wrote, rfl, behind⟩ := encoded.wrote
  unfold encodeQp encodeQpPendingLwsp
  cases pending : context.pendingLwsp with
  | none =>
    obtain rfl := behind pending
    rw [Option.toList_none, append_nil]
    exact encodeQpLoop_encoded wrote pending small fun impossible => by cases impossible
  | some p =>
    have lwsp := encoded.lwsp p pending
    have bare := wrote.set_pendingLwsp none
    cases chars with
    | cons first rest =>
      obtain ⟨wrote1, lwsp1, text1⟩ := writeQpClear_wrote bare (qpEncoded_lwsp lwsp)
      obtain ⟨c2, looped, text2, encoded⟩ := @encodeQpLoop_encoded type _ (first :: rest) _ _ wrote1 lwsp1 small
        fun _ => cons_ne_nil first rest
      exact ⟨c2, looped, text2.trans text1, encoded⟩
    | nil =>
      by_cases part : type = .part
      · subst part
        refine ⟨context, rfl, rfl, ?_⟩
        rw [if_neg (by decide), append_nil, append_nil, ← pending]
        exact encoded
      · obtain ⟨c1, written, wrote1, lwsp1, text1⟩ := writeQpEncoded_wrote bare (charLwsp_small lwsp)
        obtain ⟨c2, looped, text2, encoded⟩ := @encodeQpLoop_encoded type c1 [] _ _ wrote1 lwsp1 (by simp)
          fun impossible => by cases impossible
        refine ⟨c2, ?_, text2.trans text1, encoded⟩
        show ((if type ≠ .part then writeQpEncoded { context with pendingLwsp := none } p else _) >>= fun c =>
          encodeQpLoop type c []) = _
        rw [if_pos part, written]
        exact looped

theorem encodeQpLines_encoded {fuel : ℕ} {chars past : List ℕ}
    (encoded : Encoded context past) (small : ∀ c ∈ chars, c < 256) (enough : chars.length < fuel) :
    ∃ context', encodeQpLines fuel context chars = .ok context' ∧ context'.text = context.text ∧
      Encoded context' (past ++ chars) := by
  induction fuel generalizing context chars past with
  | zero => exact absurd enough (Nat.not_lt_zero _)
  | succ fuel ih =>
    unfold encodeQpLines
    cases found : splitNewline chars with
    | none =>
      obtain ⟨c1, written, text1, encoded1⟩ := @encodeQp_encoded .part _ _ _ encoded small
      rw [if_neg (by decide), append_nil] at encoded1
      exact ⟨c1, written, text1, encoded1⟩
    | some parts =>
      obtain ⟨before, after⟩ := parts
      obtain ⟨split, -⟩ := splitNewline_some found
      subst split
      rw [length_append, length_cons] at enough
      obtain ⟨c1, written, text1, encoded1⟩ := @encodeQp_encoded .lineEnd _ before _ encoded
        fun c among => small c (mem_append_left _ among)
      obtain ⟨c2, rest, text2, encoded2⟩ := ih encoded1
        (fun c among => small c (mem_append_right _ (mem_cons_of_mem _ among))) (show after.length < fuel by omega)
      refine ⟨c2, ?_, text2.trans text1, ?_⟩
      · show (encodeQp context before .lineEnd >>= fun c => encodeQpLines fuel c after) = _
        rw [written]
        exact rest
      · rw [append_assoc, append_assoc] at encoded2
        exact encoded2

theorem encodeQuotedPrintableUpdate_encoded {p : Packet ℕ}
    (encoded : Encoded context past) (small : ∀ c ∈ p.contents, c < 256) :
    ∃ context', encodeQuotedPrintableUpdate context p.items p.start p.stop = .ok context' ∧
      context'.text = context.text ∧ Encoded context' (past ++ p.contents) := by
  unfold encodeQuotedPrintableUpdate
  rw [range_of_le p.ordered p.inside]
  show ∃ context', (if context.text = true then encodeQpLines _ _ p.contents else encodeQp _ p.contents _) = _ ∧ _
  have short : p.contents.length < p.items.length + 1 := by
    unfold Packet.contents
    rw [length_drop, length_take]
    omega
  by_cases text : context.text = true
  · rw [if_pos text]
    exact encodeQpLines_encoded encoded small short
  · rw [if_neg text]
    obtain ⟨c1, written, text1, encoded1⟩ := @encodeQp_encoded .part _ _ _ encoded small
    rw [if_neg (by decide), append_nil] at encoded1
    exact ⟨c1, written, text1, encoded1⟩

theorem encodeQuotedPrintableFinalize_encoded
    (encoded : Encoded context past) : ∃ context' column, encodeQuotedPrintableFinalize context = .ok context' ∧
    Page context'.port column past false ∧ column ≤ 76 := by
  obtain ⟨out, blank, wrote, rfl, behind⟩ := encoded.wrote
  unfold encodeQuotedPrintableFinalize encodeQpPendingLwsp
  cases pending : context.pendingLwsp with
  | none =>
    obtain rfl := behind pending
    obtain ⟨port, column, fitted, page, room⟩ := wrote.fit
    rw [Option.toList_none, append_nil]
    refine ⟨_, column, rfl, ?_, room⟩
    rw [fitted]
    exact page
  | some p =>
    obtain ⟨c1, written, wrote1, lwsp1, text1⟩ :=
      writeQpEncoded_wrote (wrote.set_pendingLwsp none) (charLwsp_small (encoded.lwsp p pending))
    obtain ⟨port, column, fitted, page, room⟩ := wrote1.fit
    refine ⟨writeQpPendingOutput c1 true, column, ?_, ?_, room⟩
    · show (writeQpEncoded { context with pendingLwsp := none } p >>= fun c => .ok (writeQpPendingOutput c true)) = _
      rw [written]
      rfl
    · rw [fitted]
      exact page

/-- However a string of 8-bit characters and its encoding are cut into packets, the lines are short,
printable and end in no blank, and decoding gives the string. -/
theorem quoted_printable_round_trip (D : DigitTable) (text : Bool) (packets : List (Packet ℕ))
    (eight : ∀ char ∈ packets.flatMap Packet.contents, char < 256) :
    ∃ encoded, encodeQuotedPrintablePackets text packets = .ok encoded ∧
      (∀ line ∈ encoded.splitOnP (· == qpNewline), GoodLine line) ∧
      ∀ pieces : List (Packet ℕ), pieces.flatMap Packet.contents = encoded →
        decodeQuotedPrintablePackets D text pieces = .ok (packets.flatMap Packet.contents) := by
  have start : Encoded (encodeQuotedPrintableInitialize text) [] := by
    refine ⟨⟨[], false, .plain ⟨⟨[], [], rfl, by simp, by simp, rfl, endsBlank_nil⟩, rfl⟩ (by decide), rfl, fun _ => rfl⟩, fun _ none => by cases none⟩
  obtain ⟨context, updated, encoded⟩ := @foldlM_carries _ _ _
    (fun context p => encodeQuotedPrintableUpdate context p.items p.start p.stop)
    (fun past => ∀ char ∈ past, char < 256) (fun past context => Encoded context past)
    (fun small c among => small c (mem_append_left _ among))
    (by
      intro past context p small encoded
      obtain ⟨c1, written, -, encoded1⟩ := encodeQuotedPrintableUpdate_encoded encoded
        fun c among => small c (mem_append_right _ among)
      exact ⟨c1, written, encoded1⟩)
    packets [] (encodeQuotedPrintableInitialize text) eight start
  obtain ⟨context', column, finalized, page, room⟩ := encodeQuotedPrintableFinalize_encoded encoded
  refine ⟨context'.port, ?_, page.lines room, fun pieces cut => ?_⟩
  · unfold encodeQuotedPrintablePackets
    rw [updated]
    show (encodeQuotedPrintableFinalize context >>= fun c => .ok c.port) = _
    rw [finalized]
    rfl
  · apply decodeQuotedPrintablePackets_eq
    rw [cut]
    exact page.reads

def asciiDigits : DigitTable := ⟨fun c => if 48 ≤ c ∧ c ≤ 57 then some (c - 48) else none, fun _ _ => rfl, true⟩

theorem quoted_printable_round_trip_blank :
    ∃ encoded, encodeQuotedPrintablePackets true
        [⟨[97, 32], none, none, by decide, by decide⟩, ⟨[10, 233], none, none, by decide, by decide⟩] = .ok encoded ∧
      (∀ line ∈ encoded.splitOnP (· == qpNewline), GoodLine line) ∧
      ∀ pieces : List (Packet ℕ), pieces.flatMap Packet.contents = encoded →
        decodeQuotedPrintablePackets asciiDigits true pieces = .ok [97, 32, 10, 233] :=
  quoted_printable_round_trip asciiDigits true
    [⟨[97, 32], none, none, by decide, by decide⟩, ⟨[10, 233], none, none, by decide, by decide⟩] (by decide)

end MitScheme.Runtime.MimeCodec
