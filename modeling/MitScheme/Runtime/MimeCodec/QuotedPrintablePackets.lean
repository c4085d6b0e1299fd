import MitScheme.Runtime.MimeCodec.QuotedPrintableRoundTrip
import Mathlib.Data.List.Induction

/-!
A machine tells the texts that the decoder takes from any packets. On these it decodes a packet as the characters of the
packet one at a time; on every other text there are packets that it does not decode alike.
-/

namespace MitScheme.Runtime.MimeCodec

open Library Utf List Option QpDecodingContext Packet

variable {D : DigitTable}

inductive QpReading where
  | clear
  | blank
  | equals
  | digit
  /-- An equals sign and a character that is no digit. -/
  | stray
  /-- Blanks behind such a character. -/
  | strayBlank
deriving DecidableEq, Repr

def hexP (D : DigitTable) (char : ℕ) : Bool := (charToDigit16 D char).isSome

/-- A character that is neither a newline nor read behind an equals sign. -/
def qpReadPlain (char : ℕ) : QpReading :=
  if char = qpEquals then .equals else if charLwsp char then .blank else .clear

/-- A newline is not read behind a blank, nor a blank behind an unfinished escape, nor anything but the end of the line
behind an escape without digits. Unchecked operations take any other character for the second digit. -/
def qpRead (D : DigitTable) : QpReading → ℕ → Option QpReading
  | .clear, char => if char = qpNewline then some .clear else some (qpReadPlain char)
  | .blank, char => if char = qpNewline then none else some (qpReadPlain char)
  | .equals, char =>
    if char = qpNewline then some .clear
    else if charLwsp char then none
    else if hexP D char then some .digit else some .stray
  | .digit, char =>
    if char = qpNewline then some .clear
    else if hexP D char then some .clear
    else if charLwsp char || D.checks then none else some .clear
  | .stray, char => if char = qpNewline then some .clear else if charLwsp char then some .strayBlank else none
  | .strayBlank, char => if charLwsp char then some .strayBlank else none

def qpReads (D : DigitTable) (reading : QpReading) (chars : List ℕ) : Option QpReading := chars.foldlM (qpRead D) reading

def Tolerated (D : DigitTable) (chars : List ℕ) : Prop := (qpReads D .clear chars).isSome = true

instance (chars : List ℕ) : Decidable (Tolerated D chars) := inferInstanceAs (Decidable (_ = true))

variable {reading : QpReading}

theorem qpReads_append {first last : List ℕ} :
    qpReads D reading (first ++ last) = (qpReads D reading first).bind (qpReads D · last) := foldlM_append

def QpPending.blanks : QpPending → List ℕ
  | .string blanks => blanks
  | _ => []

variable {char c1 c2 : ℕ} {rest blanks chars port : List ℕ} {context : QpDecodingContext}
  {reading reading' : QpReading} {text : Bool} {pending : QpPending}

theorem qpReads_cons : qpReads D reading (char :: rest) = (qpRead D reading char).bind (qpReads D · rest) := rfl

def qpFeed (D : DigitTable) (context : QpDecodingContext) (char : ℕ) : Except Error QpDecodingContext :=
  if char = qpNewline then finishQp context [] .lineEnd
  else if charLwsp char then finishQp context [char] .part
  else resumeQp D context char []

inductive Awaits (D : DigitTable) : QpReading → QpPending → Prop where
  | clear : Awaits D .clear .none
  | blank {blanks : List ℕ} : Awaits D .blank (.string blanks)
  | equals : Awaits D .equals (.char qpEquals)
  | digit {c : ℕ} : hexP D c = true → Awaits D .digit (.char c)
  | stray : Awaits D .stray .none
  | strayBlank {blanks : List ℕ} : Awaits D .strayBlank (.string blanks)

theorem charToDigit16_lt {c d : ℕ} (digit : charToDigit16 D c = some d) : d < 16 := by
  unfold charToDigit16 at digit
  repeat' split at digit
  all_goals cases digit
  all_goals omega

/-- The test of an escape is passed with the character in it. -/
def Taken (D : DigitTable) (char : ℕ) : Prop := hexP D char = true ∨ D.checks = false

theorem digitBelow16_taken (taken : Taken D char) : digitBelow16 D.checks (charToDigit16 D char) = .ok true := by
  cases value : charToDigit16 D char with
  | none =>
    have unchecked := taken.resolve_left (by simp [hexP, value])
    exact if_neg (by simp [unchecked])
  | some d => simp [digitBelow16, charToDigit16_lt value]

theorem decodeQpHex_taken (taken1 : Taken D c1) (taken2 : Taken D c2) :
    decodeQpHex D context c1 c2 = .ok ({ context with port := context.port ++
      [lsh ((charToDigit16 D c1).getD 0) 4 ||| (charToDigit16 D c2).getD 0] }, true) := by
  simp [decodeQpHex, digitsBelow16, digitBelow16_taken taken1, digitBelow16_taken taken2, bind, Except.bind]

theorem decodeQpHex_stray (checks : D.checks = true) (stray : hexP D c1 = false ∨ hexP D c2 = false) :
    decodeQpHex D context c1 c2 = .error (.wrongType .unspecific "integer-less?") := by
  unfold hexP at stray
  cases value1 : charToDigit16 D c1 with
  | none => simp [decodeQpHex, value1, digitsBelow16, digitBelow16, checks, bind, Except.bind]
  | some d1 =>
    have small1 := charToDigit16_lt value1
    cases value2 : charToDigit16 D c2 with
    | none => simp [decodeQpHex, value1, value2, digitsBelow16, digitBelow16, checks, small1, bind, Except.bind]
    | some d2 => simp [value1, value2] at stray

theorem not_hexP_equals : hexP D qpEquals = false := by
  have read : D.value qpEquals = none := D.ascii qpEquals (by decide)
  simp only [hexP, charToDigit16, read]
  decide

theorem not_lwsp_equals : charLwsp qpEquals = false := by decide

theorem not_hexP_lwsp (lwsp : charLwsp char = true) : hexP D char = false := by
  have read : D.value char = none := by
    rcases charLwsp_iff.mp lwsp with rfl | rfl <;> exact D.ascii _ (by decide)
  rcases charLwsp_iff.mp lwsp with rfl | rfl
  all_goals
    simp only [hexP, charToDigit16, read]
    decide

theorem ne_newline_of_lwsp (lwsp : charLwsp char = true) : char ≠ qpNewline := by
  rintro rfl
  cases lwsp

theorem ne_equals_of_hexP (digit : hexP D char = true) : char ≠ qpEquals := by
  rintro rfl
  rw [not_hexP_equals] at digit
  cases digit

theorem not_lwsp_of_hexP (digit : hexP D char = true) : charLwsp char = false := by
  cases lwsp : charLwsp char with
  | false => rfl
  | true =>
    rw [not_hexP_lwsp lwsp] at digit
    cases digit

theorem qpRead_digit (newline : char ≠ qpNewline) (read : qpRead D .digit char = some reading') :
    Taken D char ∧ charLwsp char = false ∧ reading' = .clear := by
  unfold qpRead at read
  dsimp only at read
  rw [if_neg newline] at read
  split at read
  · next digit =>
    cases read
    exact ⟨.inl digit, not_lwsp_of_hexP digit, rfl⟩
  · split at read
    · cases read
    · next unchecked =>
      cases read
      simp only [Bool.or_eq_true, not_or, Bool.not_eq_true] at unchecked
      exact ⟨.inr unchecked.2, unchecked.1, rfl⟩

theorem blanks_concat (all : ∀ b ∈ blanks, charLwsp b = true) (lwsp : charLwsp char = true) :
    ∀ b ∈ blanks ++ [char], charLwsp b = true := by
  intro b among
  rcases mem_append.mp among with among | among
  · exact all b among
  · rwa [mem_singleton.mp among]

theorem qpRead_lwsp (lwsp : charLwsp char = true)
    (read : qpRead D reading char = some reading') :
    ((reading = .clear ∨ reading = .blank) ∧ reading' = .blank) ∨
      ((reading = .stray ∨ reading = .strayBlank) ∧ reading' = .strayBlank) := by
  have newline := ne_newline_of_lwsp lwsp
  have equals : char ≠ qpEquals := by
    rintro rfl
    cases lwsp
  have plain : qpReadPlain char = .blank := by rw [qpReadPlain, if_neg equals, if_pos lwsp]
  cases reading <;> simp_all [qpRead, not_hexP_lwsp lwsp]

theorem apart_cons (apart : qpNewline ∉ char :: rest) : char ≠ qpNewline ∧ qpNewline ∉ rest :=
  ⟨fun same => apart (same ▸ mem_cons_self), fun among => apart (mem_cons_of_mem char among)⟩

theorem qpReads_blanks (filled : blanks ≠ [])
    (all : ∀ b ∈ blanks, charLwsp b = true) (read : qpReads D reading blanks = some reading') :
    ((reading = .clear ∨ reading = .blank) ∧ reading' = .blank) ∨
      ((reading = .stray ∨ reading = .strayBlank) ∧ reading' = .strayBlank) := by
  induction blanks generalizing reading with
  | nil => exact absurd rfl filled
  | cons b rest ih =>
    obtain ⟨lwsp, later⟩ := forall_mem_cons.mp all
    obtain ⟨middle, first, read⟩ := bind_eq_some_iff.mp read
    cases rest with
    | nil =>
      cases read
      exact qpRead_lwsp lwsp first
    | cons c rest =>
      have before := qpRead_lwsp lwsp first
      have after := ih (cons_ne_nil c rest) later read
      rcases before with ⟨state, rfl⟩ | ⟨state, rfl⟩
      · exact .inl ⟨state, by simpa using after⟩
      · exact .inr ⟨state, by simpa using after⟩

def Solid (chars : List ℕ) : Prop := ∀ c ∈ chars.getLast?, charLwsp c = false

theorem Solid.tail (solid : Solid (char :: rest)) : Solid rest := by
  cases rest with
  | nil => exact nofun
  | cons next rest =>
    unfold Solid at solid
    rwa [getLast?_cons_cons] at solid

theorem not_solid_of_stray (stray : reading = .stray ∨ reading = .strayBlank)
    (apart : qpNewline ∉ chars) (filled : chars ≠ []) (read : qpReads D reading chars = some reading') : ¬Solid chars := by
  induction chars generalizing reading with
  | nil => exact absurd rfl filled
  | cons char rest ih =>
    obtain ⟨middle, first, read⟩ := bind_eq_some_iff.mp read
    obtain ⟨other, apart'⟩ := apart_cons apart
    have blank : charLwsp char = true ∧ middle = .strayBlank := by
      rcases stray with rfl | rfl <;> simp_all [qpRead]
    cases rest with
    | nil =>
      intro solid
      have last := solid char rfl
      rw [blank.1] at last
      cases last
    | cons next rest => exact fun solid => ih (.inr blank.2) apart' (cons_ne_nil next rest) read solid.tail

theorem append_blanks_none (port : List ℕ) : port ++ QpPending.none.blanks = port := append_nil port

theorem decodeQpLoop_cons {rest port : List ℕ} :
    decodeQpLoop D (char :: rest) ⟨port, text, .none⟩ =
      if char = qpEquals then handleEquals D rest ⟨port, text, .none⟩
      else decodeQpLoop D rest ⟨port ++ if qpEncoded char then [] else [char], text, .none⟩ := by
  rw [decodeQpLoop]
  by_cases equals : char = qpEquals
  · rw [if_pos equals, if_pos equals, equals, if_pos qpEncoded_equals]
  · rw [if_neg equals, if_neg equals]
    cases qpEncoded char
    · rfl
    · rw [if_pos rfl, if_pos rfl, append_nil]

theorem qpFeed_lwsp (lwsp : charLwsp char = true) (plain : ∀ c, pending ≠ .char c) :
    qpFeed D ⟨port, text, pending⟩ char = .ok ⟨port, text, .string (pending.blanks ++ [char])⟩ := by
  rw [qpFeed, if_neg (ne_newline_of_lwsp lwsp), if_pos lwsp]
  cases pending with
  | none => rfl
  | string blanks => rfl
  | char c => exact absurd rfl (plain c)

theorem qpFeed_plain (newline : char ≠ qpNewline) (lwsp : charLwsp char = false) (plain : ∀ c, pending ≠ .char c) :
    qpFeed D ⟨port, text, pending⟩ char = decodeQpLoop D [char] ⟨port ++ pending.blanks, text, .none⟩ := by
  rw [qpFeed, if_neg newline, lwsp]
  cases pending with
  | none => exact congrArg (decodeQpLoop D [char] ⟨·, text, .none⟩) (append_nil port).symm
  | string blanks => rfl
  | char c => exact absurd rfl (plain c)

theorem qpFeed_equals (newline : char ≠ qpNewline) (lwsp : charLwsp char = false) :
    qpFeed D ⟨port, text, .char qpEquals⟩ char = handleEquals D [char] ⟨port, text, .none⟩ := by
  rw [qpFeed, if_neg newline, lwsp]
  rfl

theorem qpFeed_digits {c char : ℕ} (digit1 : hexP D c = true) (taken2 : Taken D char) (lwsp2 : charLwsp char = false)
    (newline : char ≠ qpNewline) : qpFeed D ⟨port, text, .char c⟩ char =
      .ok ⟨port ++ [lsh ((charToDigit16 D c).getD 0) 4 ||| (charToDigit16 D char).getD 0], text, .none⟩ := by
  rw [qpFeed, if_neg newline, lwsp2, if_neg Bool.false_ne_true, resumeQp]
  dsimp only
  rw [if_neg (ne_equals_of_hexP digit1), decodeQpHex_taken (.inl digit1) taken2]
  simp [bind, Except.bind, decodeQpLoop]

theorem qpReads_digits {reading' : QpReading} (apart : qpNewline ∉ c1 :: c2 :: rest)
    (solid : Solid (c1 :: c2 :: rest)) (read : qpReads D .equals (c1 :: c2 :: rest) = some reading') :
    hexP D c1 = true ∧ Taken D c2 ∧ charLwsp c2 = false ∧ qpReads D .clear rest = some reading' := by
  obtain ⟨other1, apart'⟩ := apart_cons apart
  have other2 := (apart_cons apart').1
  rw [qpReads_cons] at read
  obtain ⟨middle, first, read⟩ := bind_eq_some_iff.mp read
  unfold qpRead at first
  dsimp only at first
  rw [if_neg other1] at first
  split at first
  · cases first
  split at first
  · next digit1 =>
    cases first
    obtain ⟨middle, second, read⟩ := bind_eq_some_iff.mp read
    obtain ⟨taken2, lwsp2, rfl⟩ := qpRead_digit other2 second
    exact ⟨digit1, taken2, lwsp2, read⟩
  · cases first
    exact absurd solid.tail (not_solid_of_stray (.inl rfl) apart' (cons_ne_nil c2 rest) read)

theorem qpReadPlain_cases (char : ℕ) : (char = qpEquals ∧ qpReadPlain char = .equals) ∨
    (char ≠ qpEquals ∧ charLwsp char = true ∧ qpReadPlain char = .blank) ∨
    (char ≠ qpEquals ∧ charLwsp char = false ∧ qpReadPlain char = .clear) := by
  by_cases equals : char = qpEquals
  · exact .inl ⟨equals, if_pos equals⟩
  · cases lwsp : charLwsp char <;> simp [qpReadPlain, equals, lwsp]

theorem decodeQpLoop_eq {text : Bool} (n : ℕ) :
    (∀ {chars port : List ℕ} {pending : QpPending} {reading reading' : QpReading}, chars.length < n → qpNewline ∉ chars →
      Solid chars → chars ≠ [] ∨ pending = .none → (reading = .clear ∨ reading = .blank) → (∀ c, pending ≠ .char c) →
      qpReads D reading chars = some reading' →
        decodeQpLoop D chars ⟨port ++ pending.blanks, text, .none⟩ = chars.foldlM (qpFeed D) ⟨port, text, pending⟩) ∧
    (∀ {chars port : List ℕ} {reading' : QpReading}, chars.length < n → qpNewline ∉ chars → Solid chars →
      qpReads D .equals chars = some reading' →
        handleEquals D chars ⟨port, text, .none⟩ = chars.foldlM (qpFeed D) ⟨port, text, .char qpEquals⟩) := by
  induction n with
  | zero => exact ⟨fun short => absurd short (Nat.not_lt_zero _), fun short => absurd short (Nat.not_lt_zero _)⟩
  | succ n ih =>
    obtain ⟨loop, equals⟩ := ih
    refine ⟨?_, ?_⟩
    · intro chars port pending reading reading' short apart solid filled state plain read
      cases chars with
      | nil =>
        have nothing : pending = .none := filled.resolve_left (fun full => full rfl)
        subst nothing
        rw [append_blanks_none]
        rfl
      | cons char rest =>
        obtain ⟨other, apart'⟩ := apart_cons apart
        have short' : rest.length < n := Nat.lt_of_succ_lt_succ short
        have first : qpRead D reading char = some (qpReadPlain char) := by
          rcases state with rfl | rfl <;> exact if_neg other
        rw [qpReads_cons, first] at read
        rw [foldlM_cons, decodeQpLoop_cons]
        rcases qpReadPlain_cases char with ⟨is_equals, reads⟩ | ⟨not_equals, lwsp, reads⟩ | ⟨not_equals, lwsp, reads⟩
        · subst is_equals
          rw [qpFeed_plain other not_lwsp_equals plain, decodeQpLoop_cons]
          exact equals short' apart' solid.tail read
        · rw [reads] at read
          have more : rest ≠ [] := by
            rintro rfl
            have last := solid char rfl
            rw [lwsp] at last
            cases last
          rw [if_neg not_equals, qpEncoded_lwsp lwsp, qpFeed_lwsp lwsp plain, append_assoc]
          exact @loop rest port (.string (pending.blanks ++ [char])) _ _ short' apart' solid.tail (.inl more) (.inr rfl) nofun read
        · rw [reads] at read
          rw [if_neg not_equals, qpFeed_plain other lwsp plain, decodeQpLoop_cons, if_neg not_equals]
          have rest_eq := @loop rest (port ++ pending.blanks ++ if qpEncoded char then [] else [char]) .none _ _ short' apart'
            solid.tail (.inr rfl) (.inl rfl) nofun read
          rw [append_blanks_none] at rest_eq
          rw [rest_eq]
          rfl
    · intro chars port reading' short apart solid read
      obtain _ | ⟨c1, _ | ⟨c2, rest⟩⟩ := chars
      · rfl
      · rw [foldlM_cons, qpFeed_equals (apart_cons apart).1 (solid c1 rfl)]
        cases handleEquals D [c1] ⟨port, text, .none⟩ <;> rfl
      · obtain ⟨digit1, taken2, lwsp2, read⟩ := qpReads_digits apart solid read
        obtain ⟨other1, apart'⟩ := apart_cons apart
        obtain ⟨other2, apart''⟩ := apart_cons apart'
        have pending : handleEquals D [c1] ⟨port, text, .none⟩ = .ok ⟨port, text, .char c1⟩ := by
          exact if_pos digit1
        have short' : rest.length < n := by
          rw [length_cons, length_cons] at short
          omega
        have rest_eq := @loop rest (port ++ [lsh ((charToDigit16 D c1).getD 0) 4 ||| (charToDigit16 D c2).getD 0]) .none _ _ short'
          apart'' solid.tail.tail (.inr rfl) (.inl rfl) nofun read
        rw [append_blanks_none] at rest_eq
        rw [foldlM_cons, qpFeed_equals other1 (not_lwsp_of_hexP digit1), pending, handleEquals, decodeQpHex_taken (.inl digit1) taken2]
        show decodeQpLoop D rest _ = (c2 :: rest).foldlM (qpFeed D) _
        rw [foldlM_cons, qpFeed_digits digit1 taken2 lwsp2 other2, rest_eq]
        rfl

theorem resumeQp_eq {first : ℕ} (awaits : Awaits D reading context.pending) (apart : qpNewline ∉ first :: rest)
    (solid : Solid (first :: rest)) (read : qpReads D reading (first :: rest) = some reading') :
    resumeQp D context first rest = (first :: rest).foldlM (qpFeed D) context := by
  obtain ⟨port, text, pending⟩ := context
  obtain ⟨loop, equals⟩ := @decodeQpLoop_eq D text ((first :: rest).length + 1)
  have filled := cons_ne_nil first rest
  cases awaits with
  | clear =>
    have whole := @loop _ port .none _ _ (Nat.lt_succ_self _) apart solid (.inr rfl) (.inl rfl) nofun read
    rwa [append_blanks_none] at whole
  | @blank blanks => exact @loop _ port (.string blanks) _ _ (Nat.lt_succ_self _) apart solid (.inl filled) (.inr rfl) nofun read
  | equals => exact equals (Nat.lt_succ_self _) apart solid read
  | @digit c digit1 =>
    obtain ⟨other, apart'⟩ := apart_cons apart
    obtain ⟨middle, step, read⟩ := bind_eq_some_iff.mp read
    obtain ⟨taken2, lwsp2, rfl⟩ := qpRead_digit other step
    have rest_eq := @loop rest (port ++ [lsh ((charToDigit16 D c).getD 0) 4 ||| (charToDigit16 D first).getD 0]) .none _ _
      (Nat.lt_succ_of_lt (Nat.lt_succ_self _)) apart' solid.tail (.inr rfl) (.inl rfl) nofun read
    rw [append_blanks_none] at rest_eq
    rw [resumeQp]
    dsimp only
    rw [if_neg (ne_equals_of_hexP digit1), decodeQpHex_taken (.inl digit1) taken2, foldlM_cons,
      qpFeed_digits digit1 taken2 lwsp2 other]
    exact rest_eq
  | stray => exact absurd solid (not_solid_of_stray (.inl rfl) apart filled read)
  | strayBlank => exact absurd solid (not_solid_of_stray (.inr rfl) apart filled read)

theorem qpFeed_awaits
    (awaits : Awaits D reading context.pending) (read : qpRead D reading char = some reading') :
    ∃ context', qpFeed D context char = .ok context' ∧ context'.text = context.text ∧ Awaits D reading' context'.pending := by
  obtain ⟨port, text, pending⟩ := context
  by_cases newline : char = qpNewline
  · subst newline
    rw [qpFeed, if_pos rfl]
    cases awaits with
    | clear | stray =>
      cases read
      exact ⟨_, rfl, rfl, .clear⟩
    | equals =>
      cases read
      exact ⟨_, rfl, rfl, .clear⟩
    | @digit c digit =>
      cases read
      have not_equals := ne_equals_of_hexP digit
      refine ⟨⟨port ++ [qpEquals, c], text, .none⟩, ?_, rfl, .clear⟩
      simp [finishQp, not_equals]
    | blank | strayBlank => cases read
  · cases lwsp : charLwsp char with
    | true =>
      have plain : ∀ c, pending ≠ .char c := by
        rintro c rfl
        rcases qpRead_lwsp lwsp read with ⟨rfl | rfl, -⟩ | ⟨rfl | rfl, -⟩ <;> cases awaits
      refine ⟨_, qpFeed_lwsp lwsp plain, rfl, ?_⟩
      rcases qpRead_lwsp lwsp read with ⟨-, rfl⟩ | ⟨-, rfl⟩
      · exact .blank
      · exact .strayBlank
    | false =>
      have plainly : ∀ {pending : QpPending}, (∀ c, pending ≠ .char c) → some (qpReadPlain char) = some reading' →
          ∃ context', qpFeed D ⟨port, text, pending⟩ char = .ok context' ∧ context'.text = text ∧
            Awaits D reading' context'.pending := by
        rintro pending plain ⟨⟩
        rw [qpFeed_plain newline lwsp plain, decodeQpLoop_cons]
        rcases qpReadPlain_cases char with ⟨is_equals, reads⟩ | ⟨-, blank, -⟩ | ⟨not_equals, -, reads⟩
        · rw [if_pos is_equals, reads]
          exact ⟨_, rfl, rfl, .equals⟩
        · rw [lwsp] at blank
          cases blank
        · rw [if_neg not_equals, reads]
          exact ⟨_, rfl, rfl, .clear⟩
      cases awaits with
      | clear => exact plainly nofun (by simpa [qpRead, newline] using read)
      | blank => exact plainly nofun (by simpa [qpRead, newline] using read)
      | equals =>
        rw [qpFeed_equals newline lwsp]
        cases digit : hexP D char with
        | true =>
          have next : reading' = .digit := by simpa [qpRead, newline, lwsp, digit] using read.symm
          subst next
          exact ⟨_, if_pos digit, rfl, .digit digit⟩
        | false =>
          have next : reading' = .stray := by simpa [qpRead, newline, lwsp, digit] using read.symm
          subst next
          exact ⟨_, if_neg (by rw [show (charToDigit16 D char).isSome = false from digit]; exact Bool.false_ne_true), rfl, .stray⟩
      | @digit c digit1 =>
        obtain ⟨taken2, lwsp2, rfl⟩ := qpRead_digit newline read
        exact ⟨_, qpFeed_digits digit1 taken2 lwsp2 newline, rfl, .clear⟩
      | stray => simp [qpRead, newline, lwsp] at read
      | strayBlank => simp [qpRead, lwsp] at read

theorem qpFeed_all {context : QpDecodingContext} {reading reading' : QpReading} {chars : List ℕ}
    (awaits : Awaits D reading context.pending) (read : qpReads D reading chars = some reading') :
    ∃ context', chars.foldlM (qpFeed D) context = .ok context' ∧ context'.text = context.text ∧
      Awaits D reading' context'.pending := by
  induction chars generalizing context reading with
  | nil =>
    cases read
    exact ⟨context, rfl, rfl, awaits⟩
  | cons char rest ih =>
    obtain ⟨middle, first, read⟩ := bind_eq_some_iff.mp read
    obtain ⟨c1, fed, text1, awaits1⟩ := qpFeed_awaits awaits first
    obtain ⟨c2, rest_fed, text2, awaits2⟩ := ih awaits1 read
    refine ⟨c2, ?_, text2.trans text1, awaits2⟩
    rw [foldlM_cons, fed]
    exact rest_fed

theorem finishQp_blanks {port blanks : List ℕ} {text : Bool} {pending : QpPending} (plain : ∀ c, pending ≠ .char c)
    (all : ∀ b ∈ blanks, charLwsp b = true) :
    finishQp ⟨port, text, pending⟩ blanks .part = blanks.foldlM (qpFeed D) ⟨port, text, pending⟩ := by
  have waiting : ∀ {blanks : List ℕ} (before : List ℕ), (∀ b ∈ blanks, charLwsp b = true) →
      blanks.foldlM (qpFeed D) ⟨port, text, .string before⟩ = .ok ⟨port, text, .string (before ++ blanks)⟩ := by
    intro blanks
    induction blanks with
    | nil =>
      intro before _
      rw [append_nil]
      rfl
    | cons b rest ih =>
      intro before all
      obtain ⟨lwsp, later⟩ := forall_mem_cons.mp all
      have fed : qpFeed D ⟨port, text, .string before⟩ b = .ok ⟨port, text, .string (before ++ [b])⟩ := qpFeed_lwsp lwsp nofun
      rw [foldlM_cons, fed]
      exact (ih (before ++ [b]) later).trans (by rw [append_assoc, singleton_append])
  cases blanks with
  | nil => rfl
  | cons b rest =>
    obtain ⟨lwsp, later⟩ := forall_mem_cons.mp all
    rw [foldlM_cons, qpFeed_lwsp lwsp plain]
    refine .trans ?_ (waiting _ later).symm
    rw [append_assoc]
    cases pending with
    | none => rfl
    | string before => rfl
    | char c => exact absurd rfl (plain c)

theorem solid_body (chars : List ℕ) : Solid (skipLwspBackwards chars).1 := by
  rcases eq_nil_or_concat (skipLwspBackwards chars).1 with empty | ⟨init, last, body⟩
  · rw [empty]
    exact nofun
  · rw [concat_eq_append] at body
    intro c is_last
    rw [body, getLast?_concat] at is_last
    cases is_last
    exact skipLwspBackwards_last body

section
variable (awaits : Awaits D reading context.pending)
include awaits

theorem decodeQp_part_eq (apart : qpNewline ∉ chars) (read : qpReads D reading chars = some reading') :
    decodeQp D context chars .part = chars.foldlM (qpFeed D) context := by
  have whole := skipLwspBackwards_append chars
  have all := skipLwspBackwards_blanks chars
  have solid := solid_body chars
  unfold decodeQp
  generalize skipLwspBackwards chars = parts at whole all solid
  obtain ⟨body, blanks⟩ := parts
  subst whole
  rw [qpReads_append] at read
  obtain ⟨middle, before, after⟩ := bind_eq_some_iff.mp read
  obtain ⟨c1, fed, -, awaits1⟩ := qpFeed_all awaits before
  rw [foldlM_append]
  have finished : finishQp c1 blanks .part = blanks.foldlM (qpFeed D) c1 := by
    obtain ⟨port, text, pending⟩ := c1
    cases blanks with
    | nil => rfl
    | cons b rest =>
      refine finishQp_blanks ?_ all
      rintro c rfl
      rcases qpReads_blanks (cons_ne_nil b rest) all after with ⟨rfl | rfl, -⟩ | ⟨rfl | rfl, -⟩ <;> cases awaits1
  cases body with
  | nil =>
    cases fed
    exact finished
  | cons first rest =>
    have apart' : qpNewline ∉ first :: rest := fun among => apart (mem_append_left blanks among)
    show (resumeQp D context first rest >>= fun context => finishQp context blanks .part) = _
    rw [resumeQp_eq awaits apart' solid before, fed]
    exact finished

theorem decodeQp_line_eq {before : List ℕ} (apart : qpNewline ∉ before)
    (read : qpReads D reading (before ++ [qpNewline]) = some reading') :
    decodeQp D context (skipLwspBackwards before).1 .lineEnd = (before ++ [qpNewline]).foldlM (qpFeed D) context := by
  have whole := skipLwspBackwards_append before
  have solid := solid_body before
  rw [qpReads_append] at read
  obtain ⟨middle, line, last⟩ := bind_eq_some_iff.mp read
  have none_left : (skipLwspBackwards before).2 = [] := by
    by_contra filled
    have all := skipLwspBackwards_blanks before
    rw [← whole, qpReads_append] at line
    obtain ⟨inner, -, blanks⟩ := bind_eq_some_iff.mp line
    rcases qpReads_blanks filled all blanks with ⟨-, rfl⟩ | ⟨-, rfl⟩ <;> cases last
  rw [none_left, append_nil] at whole
  have same : skipLwspBackwards before = (before, []) := Prod.ext whole none_left
  obtain ⟨c1, fed, -, awaits1⟩ := qpFeed_all awaits line
  have ended : [qpNewline].foldlM (qpFeed D) c1 = finishQp c1 [] .lineEnd := by
    rw [foldlM_cons, qpFeed]
    cases finishQp c1 [] .lineEnd <;> rfl
  rw [foldlM_append, fed, whole]
  show _ = [qpNewline].foldlM (qpFeed D) c1
  rw [ended]
  unfold decodeQp
  rw [same]
  rw [whole] at solid
  cases before with
  | nil =>
    cases fed
    rfl
  | cons first rest =>
    show (resumeQp D context first rest >>= fun context => finishQp context [] .lineEnd) = _
    rw [resumeQp_eq awaits apart solid line, fed]
    rfl

theorem decodeQpLines_eq {fuel : ℕ} (enough : chars.length < fuel) (read : qpReads D reading chars = some reading') :
    decodeQpLines D fuel context chars = chars.foldlM (qpFeed D) context := by
  induction fuel generalizing context reading chars with
  | zero => exact absurd enough (Nat.not_lt_zero _)
  | succ fuel ih =>
    unfold decodeQpLines
    cases found : splitNewline chars with
    | none => exact decodeQp_part_eq awaits (splitNewline_none found) read
    | some parts =>
      obtain ⟨before, after⟩ := parts
      obtain ⟨split, apart⟩ := splitNewline_some found
      subst split
      rw [append_cons, qpReads_append] at read
      obtain ⟨middle, line, rest⟩ := bind_eq_some_iff.mp read
      obtain ⟨c1, fed, -, awaits1⟩ := qpFeed_all awaits line
      rw [length_append, length_cons] at enough
      rw [append_cons, foldlM_append]
      show (decodeQp D context (skipLwspBackwards before).1 .lineEnd >>= fun c => decodeQpLines D fuel c after) = _
      rw [decodeQp_line_eq awaits apart line, fed]
      exact ih awaits1 (show after.length < fuel by omega) rest

end

def decodeQpSingly (D : DigitTable) (context : QpDecodingContext) (chars : List ℕ) : Except Error (List ℕ) := do
  let context ← chars.foldlM (qpFeed D) context
  let context ← decodeQuotedPrintableFinalize D context
  .ok context.port

theorem decodeQuotedPrintableUpdate_packet (p : Packet ℕ) :
    decodeQuotedPrintableUpdate D context p.items p.start p.stop = decodeQpLines D (p.items.length + 1) context p.contents := by
  unfold decodeQuotedPrintableUpdate
  rw [range_of_le p.ordered p.inside]
  rfl

theorem contents_length_lt (p : Packet ℕ) : p.contents.length < p.items.length + 1 := by
  unfold contents
  rw [length_drop, length_take]
  omega

theorem decodeQuotedPrintablePackets_tolerated {packets : List (Packet ℕ)}
    (tolerated : Tolerated D (packets.flatMap contents)) : decodeQuotedPrintablePackets D text packets =
    decodeQpSingly D (decodeQuotedPrintableInitialize text) (packets.flatMap contents) := by
  have prefixes : ∀ {first last : List ℕ}, Tolerated D (first ++ last) → Tolerated D first := by
    intro first last tolerated
    unfold Tolerated at tolerated ⊢
    rw [qpReads_append] at tolerated
    cases read : qpReads D .clear first with
    | none =>
      rw [read] at tolerated
      cases tolerated
    | some reading => rfl
  obtain ⟨context, updated, fed⟩ := @foldlM_carries _ _ _
    (fun context p => decodeQuotedPrintableUpdate D context p.items p.start p.stop) (Tolerated D)
    (fun past context => past.foldlM (qpFeed D) (decodeQuotedPrintableInitialize text) = .ok context)
    prefixes
    (by
      intro past context p tolerated fed
      obtain ⟨reading', read⟩ := isSome_iff_exists.mp tolerated
      rw [qpReads_append] at read
      obtain ⟨reading, before, after⟩ := bind_eq_some_iff.mp read
      obtain ⟨c, same, -, awaits⟩ := @qpFeed_all D (decodeQuotedPrintableInitialize text) _ _ past .clear before
      cases fed.symm.trans same
      obtain ⟨c', fed', -, -⟩ := qpFeed_all awaits after
      refine ⟨c', ?_, ?_⟩
      · rw [decodeQuotedPrintableUpdate_packet, decodeQpLines_eq awaits (contents_length_lt p) after, fed']
      · rw [foldlM_append, fed]
        exact fed')
    packets [] (decodeQuotedPrintableInitialize text) tolerated rfl
  rw [nil_append] at fed
  unfold decodeQuotedPrintablePackets decodeQpSingly
  rw [updated, fed]

theorem decodeQuotedPrintableFinalize_ok (context : QpDecodingContext) :
    ∃ out, decodeQuotedPrintableFinalize D context = .ok ⟨context.port ++ out, context.text, .none⟩ ∧
      ∀ port, decodeQuotedPrintableFinalize D ⟨port, context.text, context.pending⟩ = .ok ⟨port ++ out, context.text, .none⟩ := by
  obtain ⟨port, text, pending⟩ := context
  cases pending with
  | none => exact ⟨[], by rw [append_nil]; rfl, fun port => by rw [append_nil]; rfl⟩
  | string blanks => exact ⟨[], by rw [append_nil]; rfl, fun port => by rw [append_nil]; rfl⟩
  | char c =>
    have finished : ∀ port, decodeQuotedPrintableFinalize D ⟨port, text, .char c⟩ =
        .ok ⟨port ++ if c = qpEquals then [qpEquals] else [qpEquals, c], text, .none⟩ := by
      intro port
      show finishQp ⟨port, text, .char c⟩ [] .inputEnd = _
      rw [finishQp, if_neg nofun]
      dsimp only
      split <;> rfl
    exact ⟨_, finished port, finished⟩

def QpDecodingContext.behind (port : List ℕ) (context : QpDecodingContext) : QpDecodingContext :=
  { context with port := port ++ context.port }

theorem decodeQpHex_behind (port : List ℕ) (context : QpDecodingContext) (c1 c2 : ℕ) :
    decodeQpHex D (context.behind port) c1 c2 =
      (decodeQpHex D context c1 c2).map fun (context, used) => (context.behind port, used) := by
  unfold decodeQpHex
  cases digitsBelow16 D.checks (charToDigit16 D c1) (charToDigit16 D c2) with
  | error e => rfl
  | ok below => cases below <;> simp [bind, Except.bind, Except.map, behind]

theorem qpReads_line (all : ∀ b ∈ blanks, charLwsp b = true) (newline : char ≠ qpNewline)
    (state : reading = .clear ∨ reading = .blank) : ∃ reading', qpReads D reading (blanks ++ [char]) = some reading' := by
  have plain : ∀ {reading : QpReading} {c : ℕ}, (reading = .clear ∨ reading = .blank) → c ≠ qpNewline →
      qpRead D reading c = some (qpReadPlain c) := by
    rintro reading c (rfl | rfl) other <;> exact if_neg other
  induction blanks generalizing reading with
  | nil => exact ⟨qpReadPlain char, by rw [nil_append, qpReads_cons, plain state newline]; rfl⟩
  | cons b blanks ih =>
    obtain ⟨lwsp, later⟩ := forall_mem_cons.mp all
    have blank : qpReadPlain b = .clear ∨ qpReadPlain b = .blank := by
      rcases charLwsp_iff.mp lwsp with rfl | rfl <;> decide
    obtain ⟨reading', read⟩ := ih later blank
    exact ⟨reading', by rw [cons_append, qpReads_cons, plain state (ne_newline_of_lwsp lwsp)]; exact read⟩

theorem decodeQpLoop_behind (port : List ℕ) (context : QpDecodingContext) (char : ℕ) :
    decodeQpLoop D [char] (context.behind port) = (decodeQpLoop D [char] context).map (·.behind port) := by
  simp only [decodeQpLoop, handleEquals]
  split
  · split <;> rfl
  · simp [Except.map, behind]

theorem finishQp_behind (port blanks : List ℕ) (context : QpDecodingContext) (type : PartEnd) :
    finishQp (context.behind port) blanks type = (finishQp context blanks type).map (·.behind port) := by
  obtain ⟨before, text, pending⟩ := context
  unfold finishQp
  split
  · show (decodeQpPendingString pending blanks >>= _) = .map _ (decodeQpPendingString pending blanks >>= _)
    cases decodeQpPendingString pending blanks <;> rfl
  · cases pending with
    | none => cases type <;> simp [Except.map, behind]
    | string before => rfl
    | char c =>
      simp only [behind]
      split
      · cases type <;> simp [Except.map]
      · simp [Except.map]

theorem qpFeed_behind (port : List ℕ) (context : QpDecodingContext) (char : ℕ) :
    qpFeed D (context.behind port) char = (qpFeed D context char).map (·.behind port) := by
  obtain ⟨before, text, pending⟩ := context
  unfold qpFeed
  split
  · exact finishQp_behind port [] _ .lineEnd
  split
  · exact finishQp_behind port [char] _ .part
  · cases pending with
    | none => exact decodeQpLoop_behind port _ char
    | string blanks =>
      have looped := @decodeQpLoop_behind D port ⟨before ++ blanks, text, .none⟩ char
      unfold behind at looped
      rw [← append_assoc] at looped
      exact looped
    | char c =>
      simp only [resumeQp, behind]
      split
      · simp only [handleEquals]
        split
        · rfl
        · simp [Except.map]
      · have digits := @decodeQpHex_behind D port ⟨before, text, .none⟩ c char
        unfold behind at digits
        rw [digits]
        cases decodeQpHex D ⟨before, text, .none⟩ c char with
        | error e => rfl
        | ok result =>
          obtain ⟨context, used⟩ := result
          cases used with
          | true =>
            simp [bind, Except.bind, Except.map, decodeQpLoop]
          | false => exact decodeQpLoop_behind port context char

theorem qpFeed_all_behind (port : List ℕ) (context : QpDecodingContext) (chars : List ℕ) :
    chars.foldlM (qpFeed D) (context.behind port) = (chars.foldlM (qpFeed D) context).map (·.behind port) := by
  induction chars generalizing context with
  | nil => rfl
  | cons char rest ih =>
    rw [foldlM_cons, foldlM_cons, qpFeed_behind]
    cases qpFeed D context char with
    | error e => rfl
    | ok context' => exact ih context'

def Traced (D : DigitTable) (chars : List ℕ) : QpReading → Prop
  | .blank => ∃ before blanks, chars = before ++ blanks ∧ blanks ≠ [] ∧ (∀ b ∈ blanks, charLwsp b = true) ∧
      qpReads D .clear before = some .clear
  | .equals => ∃ before reading, chars = before ++ [qpEquals] ∧ (reading = .clear ∨ reading = .blank) ∧
      qpReads D .clear before = some reading
  | .stray => ∃ before reading c, chars = before ++ [qpEquals, c] ∧ c ≠ qpNewline ∧ charLwsp c = false ∧ hexP D c = false ∧
      (reading = .clear ∨ reading = .blank) ∧ qpReads D .clear before = some reading
  | .strayBlank => ∃ before reading c blanks, chars = before ++ [qpEquals, c] ++ blanks ∧ c ≠ qpNewline ∧ charLwsp c = false ∧
      hexP D c = false ∧ blanks ≠ [] ∧ (∀ b ∈ blanks, charLwsp b = true) ∧ (reading = .clear ∨ reading = .blank) ∧
      qpReads D .clear before = some reading ∧ qpReads D .clear (before ++ [qpEquals, c]) = some .stray
  | _ => True

theorem traced_step (traced : Traced D chars reading) (before : qpReads D .clear chars = some reading)
    (read : qpRead D reading char = some reading') : Traced D (chars ++ [char]) reading' := by
  have plainly : (reading = .clear ∨ reading = .blank) → char ≠ qpNewline → reading' = qpReadPlain char →
      Traced D (chars ++ [char]) reading' := by
    rintro state newline rfl
    rcases qpReadPlain_cases char with ⟨rfl, reads⟩ | ⟨-, lwsp, reads⟩ | ⟨-, -, reads⟩
    · exact ⟨chars, reading, rfl, state, before⟩
    · rw [reads]
      rcases state with rfl | rfl
      · exact ⟨chars, [char], rfl, cons_ne_nil char [], by simpa using lwsp, before⟩
      · obtain ⟨start, blanks, rfl, filled, all, clear⟩ := traced
        exact ⟨start, blanks ++ [char], append_assoc .., by simp, blanks_concat all lwsp, clear⟩
    · rw [reads]
      trivial
  by_cases newline : char = qpNewline
  · subst newline
    cases reading <;> cases read <;> trivial
  · cases reading with
    | clear => exact plainly (.inl rfl) newline (by simpa [qpRead, newline] using read.symm)
    | blank => exact plainly (.inr rfl) newline (by simpa [qpRead, newline] using read.symm)
    | equals =>
      obtain ⟨start, reading, rfl, state, clear⟩ := traced
      cases lwsp : charLwsp char with
      | true => simp [qpRead, newline, lwsp] at read
      | false =>
        cases digit : hexP D char with
        | true =>
          have next : reading' = .digit := by simpa [qpRead, newline, lwsp, digit] using read.symm
          subst next
          trivial
        | false =>
          have next : reading' = .stray := by simpa [qpRead, newline, lwsp, digit] using read.symm
          subst next
          exact ⟨start, reading, char, by simp, newline, lwsp, digit, state, clear⟩
    | digit =>
      obtain ⟨-, -, rfl⟩ := qpRead_digit newline read
      trivial
    | stray =>
      obtain ⟨start, reading, c, rfl, other, blank, digit, state, clear⟩ := traced
      have next : charLwsp char = true ∧ reading' = .strayBlank := by
        simp_all [qpRead]
      obtain ⟨lwsp, rfl⟩ := next
      exact ⟨start, reading, c, [char], rfl, other, blank, digit, cons_ne_nil char [], by simpa using lwsp, state, clear, before⟩
    | strayBlank =>
      obtain ⟨start, reading, c, blanks, rfl, other, blank, digit, filled, all, state, clear, stray⟩ := traced
      have next : charLwsp char = true ∧ reading' = .strayBlank := by
        simp_all [qpRead]
      obtain ⟨lwsp, rfl⟩ := next
      exact ⟨start, reading, c, blanks ++ [char], append_assoc .., other, blank, digit, by simp, blanks_concat all lwsp, state,
        clear, stray⟩

theorem traced (read : qpReads D .clear chars = some reading) : Traced D chars reading := by
  induction chars using reverseRecOn generalizing reading with
  | nil =>
    cases read
    trivial
  | append_singleton chars char ih =>
    rw [qpReads_append] at read
    obtain ⟨middle, before, last⟩ := bind_eq_some_iff.mp read
    obtain ⟨next, step, last⟩ := bind_eq_some_iff.mp last
    cases last
    exact traced_step (ih before) before step

theorem exists_unread (unread : qpReads D reading chars = none) : ∃ before char rest reading',
    chars = before ++ char :: rest ∧ qpReads D reading before = some reading' ∧ qpRead D reading' char = none := by
  induction chars generalizing reading with
  | nil => cases unread
  | cons char rest ih =>
    rw [qpReads_cons] at unread
    cases step : qpRead D reading char with
    | none => exact ⟨[], char, rest, reading, rfl, rfl, step⟩
    | some middle =>
      rw [step] at unread
      obtain ⟨before, char', rest', reading', rfl, read, stuck⟩ := ih unread
      exact ⟨char :: before, char', rest', reading', rfl, by rw [qpReads_cons, step]; exact read, stuck⟩

theorem decodeQpLines_singleton : decodeQpLines D 2 context [char] = qpFeed D context char := by
  rw [decodeQpLines, splitNewline, qpFeed]
  by_cases newline : char = qpNewline
  · rw [if_pos newline, if_pos newline]
    show (finishQp context [] .lineEnd >>= fun c => decodeQpLines D 1 c []) = _
    cases finishQp context [] .lineEnd <;> rfl
  · rw [if_neg newline, if_neg newline]
    cases lwsp : charLwsp char with
    | true =>
      have blank : skipLwspBackwards [char] = ([], [char]) := by simp [skipLwspBackwards, lwsp]
      rw [decodeQp, blank]
      rfl
    | false =>
      have solid : skipLwspBackwards [char] = ([char], []) := by simp [skipLwspBackwards, lwsp]
      rw [decodeQp, solid]
      show (resumeQp D context char [] >>= fun context => finishQp context [] .part) = resumeQp D context char []
      cases resumeQp D context char [] <;> rfl

theorem updates_singletons (chars : List ℕ) (context : QpDecodingContext) :
    (chars.map fun c => whole [c]).foldlM
      (fun context p => decodeQuotedPrintableUpdate D context p.items p.start p.stop) context = chars.foldlM (qpFeed D) context := by
  induction chars generalizing context with
  | nil => rfl
  | cons char rest ih =>
    show (decodeQpLines D 2 context [char] >>= _) = _
    rw [decodeQpLines_singleton]
    exact congrArg (qpFeed D context char >>= ·) (funext ih)

/-- Packets of one character, then a packet, then packets of one character again. -/
def qpAround (before chars rest : List ℕ) : List (Packet ℕ) :=
  (before.map fun c => whole [c]) ++ whole chars :: rest.map fun c => whole [c]

theorem contents_qpAround (before chars rest : List ℕ) :
    (qpAround before chars rest).flatMap contents = before ++ chars ++ rest := by
  rw [qpAround, flatMap_append, flatMap_cons, contents_singletons, contents_singletons, contents_whole,
    append_assoc]

theorem decodeQuotedPrintablePackets_around {before chars : List ℕ} (rest : List ℕ)
    (fed : before.foldlM (qpFeed D) (decodeQuotedPrintableInitialize text) = .ok context) :
    decodeQuotedPrintablePackets D text (qpAround before chars rest) =
      (decodeQpLines D (chars.length + 1) context chars >>= fun context => decodeQpSingly D context rest) := by
  have updated := updates_singletons (D := D) before (decodeQuotedPrintableInitialize text)
  rw [fed] at updated
  unfold decodeQuotedPrintablePackets decodeQpSingly qpAround
  rw [foldlM_append, updated]
  show (foldlM _ context _ >>= _) = _
  rw [foldlM_cons, decodeQuotedPrintableUpdate_packet, contents_whole]
  show ((decodeQpLines D (chars.length + 1) context chars >>= _) >>= _) = _
  cases decodeQpLines D (chars.length + 1) context chars with
  | error e => rfl
  | ok next =>
    show (foldlM _ next _ >>= _) = _
    rw [updates_singletons]
    rfl

theorem decodeQpSingly_behind {port out : List ℕ} (decoded : decodeQpSingly D ⟨port, text, pending⟩ chars = .ok out) :
    ∃ rest, out = port ++ rest ∧ ∀ port', decodeQpSingly D ⟨port', text, pending⟩ chars = .ok (port' ++ rest) := by
  have behind : ∀ port', chars.foldlM (qpFeed D) ⟨port', text, pending⟩ =
      (chars.foldlM (qpFeed D) ⟨[], text, pending⟩).map (·.behind port') := fun port' => by
    rw [← qpFeed_all_behind, behind, append_nil]
  unfold decodeQpSingly at decoded ⊢
  cases fed : chars.foldlM (qpFeed D) ⟨[], text, pending⟩ with
  | error e =>
    rw [behind, fed] at decoded
    cases decoded
  | ok context =>
    obtain ⟨last, -, finalized⟩ := decodeQuotedPrintableFinalize_ok (D := D) context
    have ended : ∀ port', decodeQuotedPrintableFinalize D (context.behind port') =
        .ok ⟨port' ++ context.port ++ last, context.text, .none⟩ := fun port' => finalized _
    have returns : ∀ port', (chars.foldlM (qpFeed D) ⟨port', text, pending⟩ >>= fun context =>
        decodeQuotedPrintableFinalize D context >>= fun context => .ok context.port) = .ok (port' ++ context.port ++ last) := by
      intro port'
      rw [behind, fed]
      show (decodeQuotedPrintableFinalize D (context.behind port') >>= _) = _
      rw [ended]
      rfl
    cases decoded.symm.trans (returns port)
    exact ⟨context.port ++ last, append_assoc .., fun port' => (returns port').trans (by rw [append_assoc])⟩

theorem decodeQpSingly_append {chars rest : List ℕ} : decodeQpSingly D context (chars ++ rest) =
    chars.foldlM (qpFeed D) context >>= fun context => decodeQpSingly D context rest := by
  unfold decodeQpSingly
  rw [foldlM_append]
  exact bind_assoc ..

theorem stray_fed {c : ℕ} (awaits : Awaits D reading context.pending) (state : reading = .clear ∨ reading = .blank)
    (newline : c ≠ qpNewline) (stray : hexP D c = false) (solid : charLwsp c = false) : [qpEquals, c].foldlM (qpFeed D) context =
      .ok ⟨context.port ++ context.pending.blanks ++ [qpEquals, c], context.text, .none⟩ := by
  obtain ⟨port, text, pending⟩ := context
  have plain : ∀ c, pending ≠ .char c := by
    rintro c rfl
    rcases state with rfl | rfl <;> cases awaits
  have escape : handleEquals D [c] ⟨port ++ pending.blanks, text, .none⟩ =
      .ok ⟨port ++ pending.blanks ++ [qpEquals, c], text, .none⟩ := by
    rw [handleEquals, show (charToDigit16 D c).isSome = false from stray]
    rfl
  rw [foldlM_cons, qpFeed_plain (by decide) not_lwsp_equals plain, decodeQpLoop_cons, if_pos rfl]
  show ([c].foldlM (qpFeed D) ⟨port ++ pending.blanks, text, .char qpEquals⟩) = _
  rw [foldlM_cons, qpFeed_equals newline solid, escape]
  rfl

theorem not_newline_of_blanks (all : ∀ b ∈ blanks, charLwsp b = true) : qpNewline ∉ blanks := fun among => by
  have lwsp := all _ among
  cases lwsp

theorem splitNewline_append {before : List ℕ} (after : List ℕ) (apart : qpNewline ∉ before) :
    splitNewline (before ++ qpNewline :: after) = some (before, after) := by
  induction before with
  | nil => exact if_pos rfl
  | cons char rest ih =>
    have other : char ≠ qpNewline := fun same => apart (same ▸ mem_cons_self)
    rw [cons_append, splitNewline, if_neg other, ih fun among => apart (mem_cons_of_mem char among)]
    rfl

theorem skipLwspBackwards_all (all : ∀ b ∈ blanks, charLwsp b = true) : (skipLwspBackwards blanks).1 = [] := by
  rcases eq_nil_or_concat (skipLwspBackwards blanks).1 with empty | ⟨init, last, body⟩
  · exact empty
  · rw [concat_eq_append] at body
    have among : last ∈ blanks := by
      rw [← skipLwspBackwards_append blanks, body]
      simp
    have solid := skipLwspBackwards_last body
    rw [all last among] at solid
    cases solid

theorem skipLwspBackwards_solid {last : ℕ} (solid : charLwsp last = false) :
    skipLwspBackwards (chars ++ [last]) = (chars ++ [last], []) := by
  have whole := skipLwspBackwards_append (chars ++ [last])
  have none_left : (skipLwspBackwards (chars ++ [last])).2 = [] := by
    rcases eq_nil_or_concat (skipLwspBackwards (chars ++ [last])).2 with empty | ⟨init, b, blanks⟩
    · exact empty
    · rw [concat_eq_append] at blanks
      rw [blanks, ← append_assoc] at whole
      obtain ⟨-, same⟩ := append_inj' whole rfl
      have among : last ∈ (skipLwspBackwards (chars ++ [last])).2 := by
        rw [blanks, same]
        exact mem_append_right init (mem_singleton_self last)
      rw [skipLwspBackwards_blanks _ last among] at solid
      cases solid
  rw [none_left, append_nil] at whole
  exact Prod.ext whole none_left

theorem newline_lost {before blanks rest out : List ℕ} (filled : blanks ≠ [])
    (all : ∀ b ∈ blanks, charLwsp b = true) (state : reading = .clear ∨ reading = .stray)
    (read : qpReads D .clear before = some reading)
    (together : decodeQuotedPrintablePackets D text (qpAround before (blanks ++ [qpNewline]) rest) = .ok out) :
    decodeQuotedPrintablePackets D text (qpAround (before ++ blanks) [qpNewline] rest) ≠ .ok out := by
  obtain ⟨⟨port, text', pending⟩, fed, -, awaits⟩ := @qpFeed_all D (decodeQuotedPrintableInitialize text) _ _ before .clear read
  have nothing : pending = .none := by rcases state with rfl | rfl <;> cases awaits <;> rfl
  subst nothing
  have waiting : (before ++ blanks).foldlM (qpFeed D) (decodeQuotedPrintableInitialize text) = .ok ⟨port, text', .string blanks⟩ := by
    rw [foldlM_append, fed]
    show blanks.foldlM (qpFeed D) ⟨port, text', .none⟩ = _
    have finished := @finishQp_blanks D port blanks text' .none nofun all
    rw [← finished]
    cases blanks with
    | nil => exact absurd rfl filled
    | cons b blanks => rfl
  -- Together with its blanks the newline ends the line, behind pending blanks it only discards them.
  have joined : decodeQpLines D ((blanks ++ [qpNewline]).length + 1) ⟨port, text', .none⟩ (blanks ++ [qpNewline]) =
      .ok ⟨port ++ [qpNewline], text', .none⟩ := by
    rw [decodeQpLines, splitNewline_append [] (not_newline_of_blanks all), length_append]
    dsimp only
    rw [skipLwspBackwards_all all]
    rfl
  intro apart
  rw [decodeQuotedPrintablePackets_around rest fed, joined] at together
  rw [decodeQuotedPrintablePackets_around rest waiting] at apart
  obtain ⟨last, rfl, rest_decoded⟩ := decodeQpSingly_behind apart
  have lengths := congrArg (·.map length) ((rest_decoded (port ++ [qpNewline])).symm.trans together)
  simp [Except.map] at lengths

section
variable {c : ℕ} (awaits : Awaits D reading context.pending) (state : reading = .clear ∨ reading = .blank) (newline : c ≠ qpNewline)
  (all : ∀ b ∈ blanks, charLwsp b = true) (newline' : char ≠ qpNewline) (solid : charLwsp char = false)
include awaits state newline all newline' solid

theorem decodeQpLines_escape (fuel : ℕ) : decodeQpLines D (fuel + 1) context (qpEquals :: c :: (blanks ++ [char])) =
    handleEquals D (c :: (blanks ++ [char])) ⟨context.port ++ context.pending.blanks, context.text, .none⟩ >>=
      fun context => finishQp context [] .part := by
  have apart : qpNewline ∉ qpEquals :: c :: (blanks ++ [char]) := by
    have equals : qpNewline ≠ qpEquals := by decide
    simp [equals, newline.symm, not_newline_of_blanks all, newline'.symm]
  have whole : splitNewline (qpEquals :: c :: (blanks ++ [char])) = none := by
    cases found : splitNewline (qpEquals :: c :: (blanks ++ [char])) with
    | none => rfl
    | some parts =>
      have split := (splitNewline_some found).1
      rw [split] at apart
      exact absurd (mem_append_right _ mem_cons_self) apart
  have body : skipLwspBackwards (qpEquals :: c :: (blanks ++ [char])) = (qpEquals :: c :: (blanks ++ [char]), []) := by
    have split : qpEquals :: c :: (blanks ++ [char]) = (qpEquals :: c :: blanks) ++ [char] := rfl
    rw [split, skipLwspBackwards_solid solid]
  have resumed : resumeQp D context qpEquals (c :: (blanks ++ [char])) =
      handleEquals D (c :: (blanks ++ [char])) ⟨context.port ++ context.pending.blanks, context.text, .none⟩ := by
    obtain ⟨port, text, pending⟩ := context
    rcases state with rfl | rfl
    · cases awaits
      rw [append_blanks_none]
      exact decodeQpLoop_cons.trans (if_pos rfl)
    · cases awaits
      exact decodeQpLoop_cons.trans (if_pos rfl)
  rw [decodeQpLines, whole]
  rw [decodeQp, body]
  show (resumeQp D context qpEquals (c :: (blanks ++ [char])) >>= _) = _
  rw [resumed]

theorem decodeQpLines_stray (checks : D.checks = true) (stray : hexP D c = false) (fuel : ℕ) :
    decodeQpLines D (fuel + 1) context (qpEquals :: c :: (blanks ++ [char])) = .error (.wrongType .unspecific "integer-less?") := by
  rw [decodeQpLines_escape awaits state newline all newline' solid]
  obtain ⟨next, rest, more⟩ := exists_cons_of_ne_nil (append_ne_nil_of_right_ne_nil blanks (cons_ne_nil char []))
  rw [more, handleEquals, decodeQpHex_stray checks (.inl stray)]
  rfl

/-- Without checks the escape is a character, and the rest of the packet is read behind it. -/
theorem decodeQpLines_unchecked (unchecked : D.checks = false) (stray : hexP D c = false) (fuel : ℕ) :
    ∃ v < 16, ∃ rest : List ℕ, decodeQpLines D (fuel + 1) context (qpEquals :: c :: (blanks ++ [char])) =
      rest.foldlM (qpFeed D) ⟨context.port ++ context.pending.blanks ++ [v], context.text, .none⟩ := by
  rw [decodeQpLines_escape awaits state newline all newline' solid]
  have line : Solid (blanks ++ [char]) := fun c last => by
    rw [getLast?_concat, mem_some_iff] at last
    rwa [← last]
  have apart : qpNewline ∉ blanks ++ [char] := by simp [not_newline_of_blanks all, newline'.symm]
  obtain ⟨next, rest, more⟩ := exists_cons_of_ne_nil (append_ne_nil_of_right_ne_nil blanks (cons_ne_nil char []))
  obtain ⟨reading', read⟩ : ∃ reading', qpReads D .clear rest = some reading' := by
    cases blanks with
    | nil =>
      cases more
      exact ⟨_, rfl⟩
    | cons b blanks =>
      cases more
      exact qpReads_line (fun b among => all b (mem_cons_of_mem _ among)) newline' (.inl rfl)
  rw [more] at line apart ⊢
  have small : (charToDigit16 D next).getD 0 < 16 := by
    cases value : charToDigit16 D next with
    | none => decide
    | some d => exact charToDigit16_lt value
  have nothing : charToDigit16 D c = none := by simpa [hexP] using stray
  refine ⟨lsh 0 4 ||| (charToDigit16 D next).getD 0, by simpa [lsh] using small, rest, ?_⟩
  obtain ⟨loop, -⟩ := @decodeQpLoop_eq D context.text (rest.length + 1)
  have looped := @loop rest (context.port ++ context.pending.blanks ++ [lsh 0 4 ||| (charToDigit16 D next).getD 0]) .none _ _
    (Nat.lt_succ_self _) (apart_cons apart).2 line.tail (.inr rfl) (.inl rfl) nofun read
  rw [append_blanks_none] at looped
  rw [handleEquals, decodeQpHex_taken (.inr unchecked) (.inr unchecked), nothing, ← looped]
  show (decodeQpLoop D rest ⟨context.port ++ context.pending.blanks ++ [lsh 0 4 ||| (charToDigit16 D next).getD 0], _, _⟩ >>= _) = _
  generalize decodeQpLoop D rest _ = result
  cases result <;> rfl

end

/-- The decoder does not depend on how the text is cut into packets: it signals no error, and it writes what it writes
for the whole text in one packet. -/
def IndependentOfPackets (D : DigitTable) (text : Bool) (chars : List ℕ) : Prop :=
  ∀ packets : List (Packet ℕ), packets.flatMap contents = chars →
    ∃ out, decodeQuotedPrintablePackets D text packets = .ok out ∧
      decodeQuotedPrintablePackets D text [whole chars] = .ok out

theorem tolerated_of_independent (independent : IndependentOfPackets D text chars) : Tolerated D chars := by
  cases unread : qpReads D .clear chars with
  | some reading => exact isSome_iff_exists.mpr ⟨reading, unread⟩
  | none =>
    exfalso
    obtain ⟨before, char, rest, reading, rfl, read, stuck⟩ := exists_unread unread
    have trace := traced read
    obtain ⟨context, fed, -, awaits⟩ := @qpFeed_all D (decodeQuotedPrintableInitialize text) _ _ before .clear read
    have alike : ∀ {first middle last : List ℕ}, first ++ middle ++ last = before ++ char :: rest →
        ∃ out, decodeQuotedPrintablePackets D text (qpAround first middle last) = .ok out ∧
          decodeQuotedPrintablePackets D text [.whole (before ++ char :: rest)] = .ok out :=
      fun same => independent _ ((contents_qpAround _ _ _).trans same)
    -- An error in one of the packets
    have fails : ∀ {first middle : List ℕ} {context : QpDecodingContext} {e : Error},
        first.foldlM (qpFeed D) (decodeQuotedPrintableInitialize text) = .ok context →
          decodeQpLines D (middle.length + 1) context middle = .error e → first ++ middle ++ rest ≠ before ++ char :: rest := by
      intro first middle context e fed error same
      obtain ⟨out, decoded, -⟩ := alike same
      rw [decodeQuotedPrintablePackets_around rest fed, error] at decoded
      cases decoded
    -- A newline that comes with its blanks or without them
    have loses : ∀ {first blanks : List ℕ} {reading : QpReading}, blanks ≠ [] → (∀ b ∈ blanks, charLwsp b = true) →
        (reading = .clear ∨ reading = .stray) → qpReads D .clear first = some reading → before = first ++ blanks →
          char ≠ qpNewline := by
      rintro first blanks reading filled all state clear rfl rfl
      obtain ⟨out, together, whole⟩ := @alike first (blanks ++ [qpNewline]) rest (by simp)
      obtain ⟨out', apart, whole'⟩ := @alike (first ++ blanks) [qpNewline] rest (by simp)
      cases whole.symm.trans whole'
      exact newline_lost filled all state clear together apart
    have single : ∀ {e : Error}, qpFeed D context char ≠ .error e := by
      intro e error
      refine @fails before [char] context e fed ?_ (by simp)
      show decodeQpLines D 2 context [char] = _
      rw [decodeQpLines_singleton, error]
    have blank_pending : ∀ {c : ℕ}, context.pending = .char c → charLwsp char = false := by
      intro c pending
      cases lwsp : charLwsp char with
      | false => rfl
      | true =>
        have error : qpFeed D context char = .error (.wrongType .unspecific "string-append") := by
          rw [qpFeed, if_neg (ne_newline_of_lwsp lwsp), if_pos lwsp, finishQp, pending]
          rfl
        exact absurd error single
    -- An escape without digits that is cut behind its first character
    have stray_escape : ∀ {first blanks : List ℕ} {reading : QpReading} {c : ℕ}, (reading = .clear ∨ reading = .blank) →
        qpReads D .clear first = some reading → c ≠ qpNewline → hexP D c = false → charLwsp c = false →
          (∀ b ∈ blanks, charLwsp b = true) → charLwsp char = false → before = first ++ [qpEquals, c] ++ blanks →
            char = qpNewline := by
      rintro first blanks reading c state clear newline stray solid_c all solid rfl
      by_contra newline'
      obtain ⟨context, fed, -, awaits⟩ := @qpFeed_all D (decodeQuotedPrintableInitialize text) _ _ first .clear clear
      cases checks : D.checks with
      | true => exact fails fed (decodeQpLines_stray awaits state newline all newline' solid checks stray _) (by simp)
      | false =>
        obtain ⟨v, small, chars, escaped⟩ := decodeQpLines_unchecked awaits state newline all newline' solid checks stray
          (qpEquals :: c :: (blanks ++ [char])).length
        have cut := stray_fed awaits state newline stray solid_c
        obtain ⟨out, together, whole⟩ := @alike first (qpEquals :: c :: (blanks ++ [char])) rest (by simp)
        obtain ⟨out', apart, whole'⟩ := @alike (first ++ [qpEquals, c]) [] (blanks ++ char :: rest) (by simp)
        cases whole.symm.trans whole'
        rw [decodeQuotedPrintablePackets_around rest fed, escaped, ← decodeQpSingly_append] at together
        rw [decodeQuotedPrintablePackets_around _ (by rw [foldlM_append, fed]; exact cut)] at apart
        obtain ⟨after, same, -⟩ := decodeQpSingly_behind together
        obtain ⟨after', same', -⟩ := decodeQpSingly_behind apart
        have equals : v = qpEquals ∧ after = c :: after' := by simpa using same.symm.trans same'
        rw [equals.1] at small
        exact absurd small (by decide)
    cases reading with
    | clear => by_cases newline : char = qpNewline <;> simp [qpRead, newline] at stuck
    | blank =>
      obtain ⟨first, blanks, split, filled, all, clear⟩ := trace
      have newline := loses filled all (.inl rfl) clear split
      simp [qpRead, newline] at stuck
    | equals =>
      have pending : context.pending = .char qpEquals := by
        cases h : context.pending <;> rw [h] at awaits <;> cases awaits
        rfl
      have solid := blank_pending pending
      simp only [qpRead, solid, Bool.false_eq_true, if_false] at stuck
      split at stuck
      · cases stuck
      · split at stuck <;> cases stuck
    | digit =>
      obtain ⟨c, pending⟩ : ∃ c, context.pending = .char c := by
        cases h : context.pending <;> rw [h] at awaits <;> cases awaits
        exact ⟨_, rfl⟩
      have solid := blank_pending pending
      have unread : char ≠ qpNewline ∧ hexP D char = false ∧ D.checks = true := by
        by_cases newline : char = qpNewline
        · simp [qpRead, newline] at stuck
        · cases digit : hexP D char <;> simp_all [qpRead]
      have not_equals : c ≠ qpEquals := by
        rw [pending] at awaits
        cases awaits with
        | digit digit => exact ne_equals_of_hexP digit
      refine single (e := .wrongType .unspecific "integer-less?") ?_
      rw [qpFeed, if_neg unread.1, solid, resumeQp, pending]
      dsimp only
      rw [if_neg not_equals, decodeQpHex_stray unread.2.2 (.inr unread.2.1)]
      rfl
    | stray =>
      obtain ⟨first, reading, c, split, newline, blank, stray, state, clear⟩ := trace
      have unread : char ≠ qpNewline ∧ charLwsp char = false := by
        by_cases newline : char = qpNewline
        · simp [qpRead, newline] at stuck
        · simp_all [qpRead]
      exact unread.1 (@stray_escape first [] reading c state clear newline stray blank (by simp) unread.2
        (by rw [split, append_nil]))
    | strayBlank =>
      obtain ⟨first, reading, c, blanks, split, newline, blank, stray, filled, all, state, clear, behind⟩ := trace
      have solid : charLwsp char = false := by
        simp_all [qpRead]
      exact loses filled all (.inr rfl) behind split (stray_escape state clear newline stray blank all solid split)

/-- The decoder is independent of the packets on the texts that the machine reads, and on no others. -/
theorem decodeQuotedPrintable_independent_iff (D : DigitTable) (text : Bool) (chars : List ℕ) :
    IndependentOfPackets D text chars ↔ Tolerated D chars := by
  refine ⟨tolerated_of_independent, ?_⟩
  rintro tolerated packets rfl
  obtain ⟨reading, read⟩ := isSome_iff_exists.mp tolerated
  obtain ⟨context, fed, -, -⟩ := @qpFeed_all D (decodeQuotedPrintableInitialize text) _ _ _ .clear read
  obtain ⟨last, finalized, -⟩ := decodeQuotedPrintableFinalize_ok (D := D) context
  have singly : decodeQpSingly D (decodeQuotedPrintableInitialize text) (packets.flatMap contents) =
      .ok (context.port ++ last) := by
    unfold decodeQpSingly
    rw [fed]
    show (decodeQuotedPrintableFinalize D context >>= _) = _
    rw [finalized]
    rfl
  have whole : [.whole (packets.flatMap contents)].flatMap contents = packets.flatMap contents := by
    simp
  refine ⟨_, (decodeQuotedPrintablePackets_tolerated tolerated).trans singly, ?_⟩
  rw [decodeQuotedPrintablePackets_tolerated (by rwa [whole]), whole, singly]

theorem newline_lost_behind_blank :
    decodeQuotedPrintablePackets asciiDigits false [whole [97, 32], whole [10]] = .ok [97] ∧
      decodeQuotedPrintablePackets asciiDigits false [whole [97, 32, 10]] = .ok [97, 10] := by
  decide

end MitScheme.Runtime.MimeCodec
