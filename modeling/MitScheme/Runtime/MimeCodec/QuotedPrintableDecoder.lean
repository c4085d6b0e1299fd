import MitScheme.Runtime.MimeCodec.QuotedPrintable

/-!
A machine that reads one character after the other says what a legal text stands for. On legal text the
decoder follows it whatever the packets are: what is pending is the state of the machine.
-/

namespace MitScheme.Runtime.MimeCodec

open Library Utf List Option

/-- What the machine has read last. -/
inductive QpState where
  | clear
  | blank
  | equals
  | hex (c : ℕ)
deriving DecidableEq, Repr

def HexDigit (char : ℕ) : Prop := (48 ≤ char ∧ char ≤ 57) ∨ (65 ≤ char ∧ char ≤ 70)

instance (char : ℕ) : Decidable (HexDigit char) := inferInstanceAs (Decidable (_ ∨ _))

def hexValue (char : ℕ) : ℕ := if char ≤ 57 then char - 48 else char - 55

def qpPlain (out : List ℕ) (char : ℕ) : Option (QpState × List ℕ) :=
  if char = qpEquals then some (.equals, out)
  else if charLwsp char then some (.blank, out ++ [char])
  else if qpEncoded char then none
  else some (.clear, out ++ [char])

/-- The machine; a newline behind a blank is not legal, because decoding drops the blank. -/
def qpStep (s : QpState × List ℕ) (char : ℕ) : Option (QpState × List ℕ) :=
  match s.1 with
  | .clear => if char = qpNewline then some (.clear, s.2 ++ [qpNewline]) else qpPlain s.2 char
  | .blank => if char = qpNewline then none else qpPlain s.2 char
  | .equals =>
    if char = qpNewline then some (.clear, s.2)
    else if HexDigit char then some (.hex char, s.2) else none
  | .hex c => if HexDigit char then some (.clear, s.2 ++ [hexValue c * 16 + hexValue char]) else none

def qpRun (s : QpState × List ℕ) (chars : List ℕ) : Option (QpState × List ℕ) := chars.foldlM qpStep s

variable {char : ℕ} {D : DigitTable} {context : QpDecodingContext} {out chars : List ℕ} {s s' : QpState × List ℕ}
  {s : QpState × List ℕ}

theorem qpRun_cons {rest : List ℕ} : qpRun s (char :: rest) = (qpStep s char).bind (qpRun · rest) := rfl

theorem qpRun_append {first last : List ℕ} :
    qpRun s (first ++ last) = (qpRun s first).bind (qpRun · last) := foldlM_append

theorem hexValue_lt (digit : HexDigit char) : hexValue char < 16 := by
  unfold HexDigit at digit
  unfold hexValue
  split <;> omega

theorem charToDigit16_hex (digit : HexDigit char) : charToDigit16 D char = some (hexValue char) := by
  unfold HexDigit at digit
  by_cases decimal : 48 ≤ char ∧ char ≤ 57
  · have read : D.value char = some (char - 48) := by
      rw [D.ascii char (by omega), if_pos decimal]
    have value : hexValue char = char - 48 := if_pos decimal.2
    unfold charToDigit16
    rw [read, value]
    exact if_pos (by omega)
  · have read : D.value char = none := by
      rw [D.ascii char (by omega), if_neg decimal]
    have value : hexValue char = char - 55 := if_neg (by omega)
    unfold charToDigit16
    rw [read, value]
    exact if_pos (by omega)

theorem decodeQpHex_legal {c1 c2 : ℕ} (digit1 : HexDigit c1) (digit2 : HexDigit c2) : decodeQpHex D context c1 c2 =
    .ok ({ context with port := context.port ++ [hexValue c1 * 16 + hexValue c2] }, true) := by
  have small1 := hexValue_lt digit1
  have small2 := hexValue_lt digit2
  have value : lsh (hexValue c1) 4 ||| hexValue c2 = hexValue c1 * 16 + hexValue c2 := by
    rw [show lsh (hexValue c1) 4 = hexValue c1 * 2 ^ 4 from lsh_left _ 4]
    exact lor_add _ _ 4 small2
  unfold decodeQpHex digitsBelow16 digitBelow16
  rw [charToDigit16_hex digit1, charToDigit16_hex digit2]
  simp [bind, Except.bind, small1, small2, value]

theorem not_hexDigit_equals : ¬ HexDigit qpEquals := by decide

def QpState.pending : QpState → QpPending
  | .clear => .none
  | .blank => .none
  | .equals => .char qpEquals
  | .hex c => .char c

theorem charLwsp_iff : charLwsp char = true ↔ char = 32 ∨ char = 9 := by
  unfold charLwsp
  rw [Bool.or_eq_true, beq_iff_eq, beq_iff_eq]

theorem qpEncoded_lwsp (lwsp : charLwsp char = true) : qpEncoded char = false := by
  unfold qpEncoded
  rw [lwsp, Bool.or_true]
  rfl

theorem qpEncoded_equals : qpEncoded qpEquals = true := by decide

theorem qpPlain_loop {text : Bool} {rest out out' : List ℕ} {q' : QpState}
    (stepped : qpPlain out char = some (q', out')) : decodeQpLoop D (char :: rest) ⟨out, text, .none⟩ = if char =
    qpEquals then handleEquals D rest ⟨out, text, .none⟩ else decodeQpLoop D rest ⟨out', text, .none⟩ := by
  rw [decodeQpLoop]
  unfold qpPlain at stepped
  by_cases equals : char = qpEquals
  · rw [if_pos equals, if_pos equals, equals, if_pos qpEncoded_equals]
  · rw [if_neg equals, if_neg equals]
    rw [if_neg equals] at stepped
    by_cases lwsp : charLwsp char = true
    · rw [if_pos lwsp] at stepped
      obtain ⟨-, rfl⟩ := Prod.mk.inj (some.inj stepped)
      rw [qpEncoded_lwsp lwsp]
      rfl
    · rw [if_neg lwsp] at stepped
      by_cases encoded : qpEncoded char = true
      · rw [if_pos encoded] at stepped
        cases stepped
      · rw [if_neg encoded] at stepped
        obtain ⟨-, rfl⟩ := Prod.mk.inj (some.inj stepped)
        rw [if_neg encoded]

theorem qpStep_equals {s' : QpState × List ℕ} (other : char ≠ qpNewline)
    (stepped : qpStep (.equals, out) char = some s') : HexDigit char ∧ s' = (.hex char, out) := by
  unfold qpStep at stepped
  dsimp only at stepped
  rw [if_neg other] at stepped
  split at stepped
  · rename_i digit
    exact ⟨digit, (some.inj stepped).symm⟩
  · cases stepped

theorem qpStep_hex {c char : ℕ} {s' : QpState × List ℕ} (stepped : qpStep (.hex c, out) char = some s') :
    HexDigit char ∧ s' = (.clear, out ++ [hexValue c * 16 + hexValue char]) := by
  unfold qpStep at stepped
  dsimp only at stepped
  split at stepped
  · rename_i digit
    exact ⟨digit, (some.inj stepped).symm⟩
  · cases stepped

theorem qpStep_lwsp (lwsp : charLwsp char = true)
    (stepped : qpStep s char = some s') : (s.1 = .clear ∨ s.1 = .blank) ∧ s' = (.blank, s.2 ++ [char]) := by
  have blank := charLwsp_iff.mp lwsp
  have other : char ≠ qpNewline := by
    unfold qpNewline
    omega
  have plain : ∀ out, qpPlain out char = some (.blank, out ++ [char]) := by
    intro out
    unfold qpPlain qpEquals
    rw [if_neg (by omega), if_pos lwsp]
  obtain ⟨q, out⟩ := s
  cases q with
  | clear =>
    rw [show qpStep (.clear, out) char = qpPlain out char from if_neg other, plain] at stepped
    exact ⟨.inl rfl, (some.inj stepped).symm⟩
  | blank =>
    rw [show qpStep (.blank, out) char = qpPlain out char from if_neg other, plain] at stepped
    exact ⟨.inr rfl, (some.inj stepped).symm⟩
  | equals =>
    have digit := (qpStep_equals other stepped).1
    unfold HexDigit at digit
    omega
  | hex c =>
    have digit := (qpStep_hex stepped).1
    unfold HexDigit at digit
    omega

theorem decodeQpLoop_follows {D : DigitTable} {text : Bool} (n : ℕ) :
    (∀ {chars out out' : List ℕ} {q q' : QpState}, chars.length ≤ n → qpNewline ∉ chars →
      (q = .clear ∨ q = .blank) → qpRun (q, out) chars = some (q', out') →
        decodeQpLoop D chars ⟨out, text, .none⟩ = .ok ⟨out', text, q'.pending⟩) ∧
    (∀ {chars out out' : List ℕ} {q' : QpState}, chars.length ≤ n → qpNewline ∉ chars →
      qpRun (.equals, out) chars = some (q', out') →
        handleEquals D chars ⟨out, text, .none⟩ = .ok ⟨out', text, q'.pending⟩) := by
  induction n with
  | zero =>
    refine ⟨?_, ?_⟩
    · intro chars out out' q q' short _ state ran
      rw [length_eq_zero_iff.mp (Nat.le_zero.mp short)] at ran ⊢
      cases ran
      rcases state with rfl | rfl <;> rfl
    · intro chars out out' q' short _ ran
      rw [length_eq_zero_iff.mp (Nat.le_zero.mp short)] at ran ⊢
      cases ran
      rfl
  | succ n ih =>
    obtain ⟨loop, equals⟩ := ih
    refine ⟨?_, ?_⟩
    · intro chars out out' q q' short apart state ran
      cases chars with
      | nil =>
        cases ran
        rcases state with rfl | rfl <;> rfl
      | cons char rest =>
        have other : char ≠ qpNewline := fun same => apart (by rw [same]; exact mem_cons_self)
        have apart' : qpNewline ∉ rest := fun among => apart (mem_cons_of_mem char among)
        have short' : rest.length ≤ n := Nat.le_of_succ_le_succ short
        have plain : qpStep (q, out) char = qpPlain out char := by
          rcases state with rfl | rfl <;> exact if_neg other
        rw [qpRun_cons, plain] at ran
        obtain ⟨⟨q1, out1⟩, stepped, ran⟩ := bind_eq_some_iff.mp ran
        rw [qpPlain_loop stepped]
        unfold qpPlain at stepped
        by_cases is_equals : char = qpEquals
        · rw [if_pos is_equals] at stepped ⊢
          obtain ⟨rfl, rfl⟩ := Prod.mk.inj (some.inj stepped)
          exact equals short' apart' ran
        · rw [if_neg is_equals] at stepped ⊢
          refine loop short' apart' ?_ ran
          split at stepped
          · obtain ⟨rfl, -⟩ := Prod.mk.inj (some.inj stepped)
            exact .inr rfl
          split at stepped
          · cases stepped
          · obtain ⟨rfl, -⟩ := Prod.mk.inj (some.inj stepped)
            exact .inl rfl
    · intro chars out out' q' short apart ran
      obtain _ | ⟨c1, _ | ⟨c2, rest⟩⟩ := chars
      · cases ran
        rfl
      · obtain ⟨s1, stepped, ran⟩ := bind_eq_some_iff.mp ran
        obtain ⟨digit1, rfl⟩ := qpStep_equals (fun same => apart (by rw [same]; exact mem_cons_self)) stepped
        cases ran
        rw [handleEquals, charToDigit16_hex digit1]
        rfl
      · rw [qpRun_cons] at ran
        obtain ⟨s1, stepped, ran⟩ := bind_eq_some_iff.mp ran
        obtain ⟨digit1, rfl⟩ := qpStep_equals (fun same => apart (by rw [same]; exact mem_cons_self)) stepped
        obtain ⟨s2, stepped, ran⟩ := bind_eq_some_iff.mp ran
        obtain ⟨digit2, rfl⟩ := qpStep_hex stepped
        rw [handleEquals, decodeQpHex_legal digit1 digit2]
        refine loop ?_ ?_ (.inl rfl) ran
        · rw [length_cons, length_cons] at short
          omega
        · exact fun among => apart (mem_cons_of_mem c1 (mem_cons_of_mem c2 among))

inductive Follows : QpDecodingContext → QpState × List ℕ → Prop where
  | clear {out : List ℕ} {text : Bool} : Follows ⟨out, text, .none⟩ (.clear, out)
  | blank {port blanks : List ℕ} {text : Bool} : blanks ≠ [] →
      Follows ⟨port, text, .string blanks⟩ (.blank, port ++ blanks)
  | equals {out : List ℕ} {text : Bool} : Follows ⟨out, text, .char qpEquals⟩ (.equals, out)
  | hex {out : List ℕ} {text : Bool} {c : ℕ} : HexDigit c → Follows ⟨out, text, .char c⟩ (.hex c, out)

theorem resumeQp_follows {first : ℕ}
    {rest out' : List ℕ} {q' : QpState} (follows : Follows context s) (apart : qpNewline ∉ first :: rest)
    (ran : qpRun s (first :: rest) = some (q', out')) :
    resumeQp D context first rest = .ok ⟨out', context.text, q'.pending⟩ := by
  have both := @decodeQpLoop_follows D context.text (first :: rest).length
  cases follows with
  | clear => exact both.1 (le_refl _) apart (.inl rfl) ran
  | blank filled => exact both.1 (le_refl _) apart (.inr rfl) ran
  | equals => exact both.2 (le_refl _) apart ran
  | @hex out text c digit =>
    obtain ⟨s1, stepped, ran⟩ := bind_eq_some_iff.mp ran
    obtain ⟨digit', rfl⟩ := qpStep_hex stepped
    have other : c ≠ qpEquals := fun same => not_hexDigit_equals (same ▸ digit)
    have looped := both.1 (Nat.le_succ _) (fun among => apart (mem_cons_of_mem first among)) (.inl rfl) ran
    unfold resumeQp
    dsimp only
    rw [if_neg other, decodeQpHex_legal digit digit']
    exact looped

theorem skipLwspBackwards_append (chars : List ℕ) :
    (skipLwspBackwards chars).1 ++ (skipLwspBackwards chars).2 = chars := by
  induction chars with
  | nil => rfl
  | cons char rest ih =>
    unfold skipLwspBackwards
    dsimp only
    split
    · rename_i both
      have empty := isEmpty_iff.mp (Bool.and_eq_true_iff.mp both).1
      rw [empty, nil_append] at ih
      rw [nil_append, ih]
    · rw [cons_append, ih]

theorem skipLwspBackwards_blanks (chars : List ℕ) : ∀ b ∈ (skipLwspBackwards chars).2, charLwsp b = true := by
  induction chars with
  | nil => nofun
  | cons char rest ih =>
    unfold skipLwspBackwards
    dsimp only
    split
    · rename_i both
      exact forall_mem_cons.mpr ⟨(Bool.and_eq_true_iff.mp both).2, ih⟩
    · exact ih

theorem skipLwspBackwards_last {chars init : List ℕ} {last : ℕ}
    (body : (skipLwspBackwards chars).1 = init ++ [last]) : charLwsp last = false := by
  induction chars generalizing init with
  | nil => cases init <;> cases body
  | cons char rest ih =>
    unfold skipLwspBackwards at body
    dsimp only at body
    split at body
    · cases init <;> cases body
    · rename_i both
      cases init with
      | nil =>
        obtain ⟨rfl, empty⟩ := cons.inj body
        rw [empty] at both
        exact Bool.not_eq_true _ ▸ fun lwsp => both (Bool.and_eq_true_iff.mpr ⟨rfl, lwsp⟩)
      | cons c init => exact ih (cons.inj body).2

theorem qpRun_blanks {blanks : List ℕ} (filled : blanks ≠ []) (all : ∀ b ∈ blanks, charLwsp b = true)
    (ran : qpRun s blanks = some s') : (s.1 = .clear ∨ s.1 = .blank) ∧ s' = (.blank, s.2 ++ blanks) := by
  induction blanks generalizing s with
  | nil => exact absurd rfl filled
  | cons b rest ih =>
    obtain ⟨lwsp, later⟩ := forall_mem_cons.mp all
    obtain ⟨s1, stepped, ran⟩ := bind_eq_some_iff.mp ran
    obtain ⟨state, rfl⟩ := qpStep_lwsp lwsp stepped
    refine ⟨state, ?_⟩
    cases rest with
    | nil =>
      cases ran
      rfl
    | cons c rest =>
      rw [(ih (cons_ne_nil c rest) later ran).2, append_assoc]
      rfl

theorem qpStep_blank (stepped : qpStep s char = some s') (other : charLwsp char = false) : s'.1 ≠ .blank := by
  have plain : ∀ {out}, qpPlain out char = some s' → s'.1 ≠ .blank := by
    intro out stepped
    unfold qpPlain at stepped
    rw [other] at stepped
    split at stepped
    · cases stepped
      nofun
    · split at stepped
      · rename_i lwsp
        cases lwsp
      split at stepped
      · cases stepped
      · cases stepped
        nofun
  unfold qpStep at stepped
  split at stepped
  · split at stepped
    · cases stepped
      nofun
    · exact plain stepped
  · split at stepped
    · cases stepped
    · exact plain stepped
  · split at stepped
    · cases stepped
      nofun
    split at stepped
    · cases stepped
      nofun
    · cases stepped
  · split at stepped
    · cases stepped
      nofun
    · cases stepped

theorem qpRun_last_blank {init : List ℕ} {last : ℕ}
    (ran : qpRun s (init ++ [last]) = some s') (other : charLwsp last = false) : s'.1 ≠ .blank := by
  rw [qpRun_append] at ran
  obtain ⟨s1, -, ran⟩ := bind_eq_some_iff.mp ran
  obtain ⟨s2, stepped, ran⟩ := bind_eq_some_iff.mp ran
  cases ran
  exact qpStep_blank stepped other

theorem finishQp_part {out blanks : List ℕ} {text : Bool} {q : QpState} {s' : QpState × List ℕ}
    (hex : ∀ c, q = .hex c → HexDigit c) (behind : q ≠ .blank) (all : ∀ b ∈ blanks, charLwsp b = true)
    (ran : qpRun (q, out) blanks = some s') :
    ∃ context, finishQp ⟨out, text, q.pending⟩ blanks .part = .ok context ∧ context.text = text ∧ Follows context s' := by
  unfold finishQp decodeQpPendingString
  cases blanks with
  | nil =>
    cases ran
    refine ⟨_, rfl, rfl, ?_⟩
    cases q with
    | clear => exact .clear
    | blank => exact absurd rfl behind
    | equals => exact .equals
    | hex c => exact .hex (hex c rfl)
  | cons b rest =>
    obtain ⟨state, rfl⟩ := qpRun_blanks (cons_ne_nil b rest) all ran
    rcases state with state | state
    · cases state
      exact ⟨_, rfl, rfl, .blank (cons_ne_nil b rest)⟩
    · exact absurd state behind

theorem qpRun_hex {chars out : List ℕ} {c : ℕ} (start : ∀ c, s.1 = .hex c → HexDigit c)
    (ran : qpRun s chars = some (.hex c, out)) : HexDigit c := by
  induction chars generalizing s with
  | nil =>
    cases ran
    exact start c rfl
  | cons char rest ih =>
    obtain ⟨s1, stepped, ran⟩ := bind_eq_some_iff.mp ran
    refine ih ?_ ran
    intro d state
    have plain : ∀ {out}, qpPlain out char = some s1 → HexDigit d := by
      intro out stepped
      unfold qpPlain at stepped
      repeat' split at stepped
      all_goals cases stepped
      all_goals cases state
    unfold qpStep at stepped
    split at stepped
    · split at stepped
      · cases stepped
        cases state
      · exact plain stepped
    · split at stepped
      · cases stepped
      · exact plain stepped
    · split at stepped
      · cases stepped
        cases state
      split at stepped
      · rename_i digit
        cases stepped
        cases state
        exact digit
      · cases stepped
    · split at stepped
      · cases stepped
        cases state
      · cases stepped

theorem Follows.hexDigit (follows : Follows context s) : ∀ c, s.1 = .hex c → HexDigit c := by
  intro c state
  cases follows with
  | clear => cases state
  | blank => cases state
  | equals => cases state
  | hex digit =>
    cases state
    exact digit

theorem decodeQp_part (follows : Follows context s) (apart : qpNewline ∉ chars) (ran : qpRun s chars = some s') :
    ∃ context', decodeQp D context chars .part = .ok context' ∧ context'.text = context.text ∧ Follows context' s' := by
  have whole := skipLwspBackwards_append chars
  have all := skipLwspBackwards_blanks chars
  have ends := @skipLwspBackwards_last chars
  unfold decodeQp
  generalize skipLwspBackwards chars = parts at whole all ends
  obtain ⟨body, blanks⟩ := parts
  subst whole
  rw [qpRun_append] at ran
  obtain ⟨⟨q1, out1⟩, ran1, ran2⟩ := bind_eq_some_iff.mp ran
  cases body with
  | nil =>
    -- nothing but blanks: they join what is pending
    cases ran1
    cases blanks with
    | nil =>
      cases ran2
      exact ⟨context, rfl, rfl, follows⟩
    | cons b rest =>
      obtain ⟨state, rfl⟩ := qpRun_blanks (cons_ne_nil b rest) all ran2
      cases follows with
      | clear => exact ⟨_, rfl, rfl, .blank (cons_ne_nil b rest)⟩
      | @blank port before text filled =>
        refine ⟨_, rfl, rfl, ?_⟩
        rw [append_assoc]
        exact .blank (append_ne_nil_of_left_ne_nil filled _)
      | equals => rcases state with state | state <;> cases state
      | hex digit => rcases state with state | state <;> cases state
  | cons first rest =>
    have apart' : qpNewline ∉ first :: rest := fun among => apart (mem_append_left blanks among)
    have behind : q1 ≠ .blank := by
      obtain ⟨init, last, same⟩ := eq_nil_or_concat (first :: rest) |>.resolve_left (cons_ne_nil first rest)
      rw [concat_eq_append] at same
      rw [same] at ran1
      exact qpRun_last_blank ran1 (ends same)
    have hex : ∀ c, q1 = .hex c → HexDigit c := fun c same => qpRun_hex follows.hexDigit (same ▸ ran1)
    obtain ⟨context', finished, text, after⟩ := @finishQp_part out1 blanks context.text q1 s' hex behind all ran2
    refine ⟨context', ?_, text, after⟩
    show (resumeQp D context first rest >>= fun c => finishQp c blanks .part) = _
    rw [resumeQp_follows follows apart' ran1]
    exact finished

theorem skipLwspBackwards_none (none_left : (skipLwspBackwards chars).2 = []) :
    skipLwspBackwards chars = (chars, []) := by
  have whole := skipLwspBackwards_append chars
  rw [none_left, append_nil] at whole
  exact Prod.ext whole none_left

theorem qpStep_newline {q : QpState} {s' : QpState × List ℕ} (stepped : qpStep (q, out) qpNewline = some s') :
    (q = .clear ∧ s' = (.clear, out ++ [qpNewline])) ∨ (q = .equals ∧ s' = (.clear, out)) := by
  cases q with
  | clear => exact .inl ⟨rfl, (some.inj stepped).symm⟩
  | blank => cases stepped
  | equals => exact .inr ⟨rfl, (some.inj stepped).symm⟩
  | hex c =>
    have digit := (qpStep_hex stepped).1
    exact absurd digit (by decide)

theorem finishQp_lineEnd {out : List ℕ} {text : Bool} {q : QpState} {s' : QpState × List ℕ}
    (stepped : qpStep (q, out) qpNewline = some s') :
    ∃ context, finishQp ⟨out, text, q.pending⟩ [] .lineEnd = .ok context ∧ context.text = text ∧ Follows context s' := by
  rcases qpStep_newline stepped with ⟨rfl, rfl⟩ | ⟨rfl, rfl⟩
  · exact ⟨_, rfl, rfl, .clear⟩
  · exact ⟨_, rfl, rfl, .clear⟩

theorem decodeQp_line {D : DigitTable} {context : QpDecodingContext} {s s' : QpState × List ℕ} {before : List ℕ}
    (follows : Follows context s) (apart : qpNewline ∉ before) (ran : qpRun s (before ++ [qpNewline]) = some s') :
    ∃ context', decodeQp D context (skipLwspBackwards before).1 .lineEnd = .ok context' ∧
      context'.text = context.text ∧ Follows context' s' := by
  rw [qpRun_append] at ran
  obtain ⟨⟨q1, out1⟩, ran1, ran2⟩ := bind_eq_some_iff.mp ran
  obtain ⟨s2, stepped, ran2⟩ := bind_eq_some_iff.mp ran2
  cases ran2
  -- a line that ends in a blank is not legal
  have none_left : (skipLwspBackwards before).2 = [] := by
    by_contra filled
    rw [← skipLwspBackwards_append before, qpRun_append] at ran1
    obtain ⟨s0, -, ran0⟩ := bind_eq_some_iff.mp ran1
    obtain ⟨-, state⟩ := qpRun_blanks filled (skipLwspBackwards_blanks before) ran0
    obtain ⟨rfl, rfl⟩ := Prod.mk.inj state
    rcases qpStep_newline stepped with ⟨state, -⟩ | ⟨state, -⟩ <;> cases state
  have skipped := skipLwspBackwards_none none_left
  rw [skipped]
  unfold decodeQp
  rw [skipped]
  cases before with
  | nil =>
    cases ran1
    cases follows with
    | clear =>
      rcases qpStep_newline stepped with ⟨-, rfl⟩ | ⟨state, -⟩
      · exact ⟨_, rfl, rfl, .clear⟩
      · cases state
    | blank filled => cases stepped
    | equals =>
      rcases qpStep_newline stepped with ⟨state, -⟩ | ⟨-, rfl⟩
      · cases state
      · exact ⟨_, rfl, rfl, .clear⟩
    | hex digit => rcases qpStep_newline stepped with ⟨state, -⟩ | ⟨state, -⟩ <;> cases state
  | cons first rest =>
    obtain ⟨context', finished, text, after⟩ := @finishQp_lineEnd out1 context.text q1 s' stepped
    refine ⟨context', ?_, text, after⟩
    show (resumeQp D context first rest >>= fun c => finishQp c [] .lineEnd) = _
    rw [resumeQp_follows follows apart ran1]
    exact finished

theorem splitNewline_some {chars before after : List ℕ} (found : splitNewline chars = some (before, after)) :
    chars = before ++ qpNewline :: after ∧ qpNewline ∉ before := by
  induction chars generalizing before with
  | nil => cases found
  | cons char rest ih =>
    unfold splitNewline at found
    by_cases newline : char = qpNewline
    · rw [if_pos newline] at found
      obtain ⟨rfl, rfl⟩ := Prod.mk.inj (some.inj found)
      exact ⟨by rw [newline]; rfl, not_mem_nil⟩
    · rw [if_neg newline] at found
      obtain ⟨⟨before', after'⟩, found', same⟩ := map_eq_some_iff.mp found
      obtain ⟨rfl, rfl⟩ := Prod.mk.inj same
      obtain ⟨split, apart⟩ := ih found'
      refine ⟨by rw [split]; rfl, ?_⟩
      exact not_mem_cons_of_ne_of_not_mem (.symm newline) apart

theorem splitNewline_none (found : splitNewline chars = none) : qpNewline ∉ chars := by
  induction chars with
  | nil => exact not_mem_nil
  | cons char rest ih =>
    unfold splitNewline at found
    by_cases newline : char = qpNewline
    · rw [if_pos newline] at found
      cases found
    · rw [if_neg newline] at found
      exact not_mem_cons_of_ne_of_not_mem (.symm newline) (ih (map_eq_none_iff.mp found))

theorem decodeQpLines_follows {D : DigitTable} {fuel : ℕ} {context : QpDecodingContext} {s s' : QpState × List ℕ}
    {chars : List ℕ} (follows : Follows context s) (enough : chars.length < fuel) (ran : qpRun s chars = some s') :
    ∃ context', decodeQpLines D fuel context chars = .ok context' ∧ context'.text = context.text ∧
      Follows context' s' := by
  induction fuel generalizing context s chars with
  | zero => exact absurd enough (Nat.not_lt_zero _)
  | succ fuel ih =>
    unfold decodeQpLines
    cases found : splitNewline chars with
    | none => exact decodeQp_part follows (splitNewline_none found) ran
    | some parts =>
      obtain ⟨before, after⟩ := parts
      obtain ⟨split, apart⟩ := splitNewline_some found
      subst split
      rw [append_cons, qpRun_append] at ran
      obtain ⟨s1, ran1, ran2⟩ := bind_eq_some_iff.mp ran
      obtain ⟨c1, line, text1, follows1⟩ := @decodeQp_line D _ _ _ _ follows apart ran1
      rw [length_append, length_cons] at enough
      obtain ⟨c2, rest, text2, follows2⟩ := ih follows1 (show after.length < fuel by omega) ran2
      refine ⟨c2, ?_, text2.trans text1, follows2⟩
      show (decodeQp D context (skipLwspBackwards before).1 .lineEnd >>= fun c => decodeQpLines D fuel c after) = _
      rw [line]
      exact rest

theorem decodeQuotedPrintableUpdate_follows
    {p : Packet ℕ} (follows : Follows context s) (ran : qpRun s p.contents = some s') :
    ∃ context', decodeQuotedPrintableUpdate D context p.items p.start p.stop = .ok context' ∧ Follows context' s' := by
  unfold decodeQuotedPrintableUpdate
  rw [range_of_le p.ordered p.inside]
  have short : p.contents.length < p.items.length + 1 := by
    unfold Packet.contents
    rw [length_drop, length_take]
    omega
  obtain ⟨context', updated, -, after⟩ := @decodeQpLines_follows D (p.items.length + 1) _ _ _ _ follows short ran
  exact ⟨context', updated, after⟩

theorem decodeQuotedPrintablePackets_eq {text : Bool} {pieces : List (Packet ℕ)}
    (legal : qpRun (.clear, []) (pieces.flatMap Packet.contents) = some (.clear, out)) :
    decodeQuotedPrintablePackets D text pieces = .ok out := by
  obtain ⟨context, updated, s, ran, follows⟩ := @foldlM_carries _ _ _
    (fun context p => decodeQuotedPrintableUpdate D context p.items p.start p.stop)
    (fun past => ∃ s, qpRun (.clear, []) past = some s)
    (fun past context => ∃ s, qpRun (.clear, []) past = some s ∧ Follows context s)
    (by
      rintro first last ⟨s, ran⟩
      rw [qpRun_append] at ran
      obtain ⟨s1, ran1, -⟩ := bind_eq_some_iff.mp ran
      exact ⟨s1, ran1⟩)
    (by
      rintro past context p ⟨s', ran⟩ ⟨s, ran1, follows⟩
      have ran2 := ran
      rw [qpRun_append, ran1] at ran2
      obtain ⟨context', updated, after⟩ := decodeQuotedPrintableUpdate_follows follows ran2
      exact ⟨context', updated, s', ran, after⟩)
    pieces [] (decodeQuotedPrintableInitialize text) ⟨_, legal⟩ ⟨_, rfl, .clear⟩
  cases ran.symm.trans legal
  unfold decodeQuotedPrintablePackets
  rw [updated]
  cases follows
  rfl

end MitScheme.Runtime.MimeCodec
