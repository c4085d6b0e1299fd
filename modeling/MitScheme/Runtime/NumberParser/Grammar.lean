import MitScheme.Runtime.NumberParser.Forms

namespace MitScheme.Runtime.NumberParser

open Library Arithmetic List Option FloatForm

section
variable (parseComplex : List ℕ → Number → Option Exactness → ℕ → Option Sign → Parsed)
variable (exactness : Option Exactness) {radix : ℕ} (sign : Option Sign) (comp : Comp)

theorem parseDotted3_before (k : ℕ) {char : ℕ} (no_sharp : char ≠ '#'.toNat) (s : List ℕ) (integer : ℕ) (rexponent : ℤ) :
    parseDotted3 parseComplex exactness radix sign comp integer rexponent (List.replicate k '#'.toNat ++ char :: s) =
      parseDotted4 parseComplex exactness radix sign comp char s integer rexponent := by
  rw [parseDotted3_sharps, parseDotted3, if_neg no_sharp]

theorem parseDotted2_before (r : Run radix) {char : ℕ} {s : List ℕ} (stops : r.Stops (char :: s)) (integer : ℕ) (rexponent : ℤ) :
    parseDotted2 parseComplex exactness radix sign comp (r.spelling ++ char :: s) integer rexponent =
      parseDotted4 parseComplex exactness radix sign comp char s (DigitChar.read integer r.digits) (rexponent - r.digits.length) := by
  obtain ⟨digits, sharps⟩ := r
  obtain ⟨no_sharp, other⟩ := stops
  rw [Run.spelling, append_assoc, parseDotted2_spelling]
  cases sharps with
  | zero =>
    rw [replicate_zero, nil_append, parseDotted2, other rfl]
    exact if_neg no_sharp
  | succ k =>
    have sharp_other : charToDigit '#'.toNat radix = none := charToDigit_of_lt (by decide) radix
    rw [replicate_succ, cons_append, parseDotted2, sharp_other]
    exact parseDotted3_before parseComplex exactness sign comp k no_sharp s _ _

/-- After the digits and the sharps of a number with a point there is its end, an exponent, or something that is
rejected. -/
theorem exponent_or_end {char : ℕ} (no_sharp : char ≠ '#'.toNat) (s : List ℕ) : NoMarker char ∨
    (∃ (e : AnyExponent) (rest : List ℕ), e.marker = char ∧ s = e.tail ++ rest ∧ NoDigit rest ∧
      (exponentMarker e.marker = true → radix = 10) ∧ (exponentMarker e.marker = false → radix = 16)) ∨
    ∀ (integer : ℕ) (rexponent : ℤ), parseDotted4 parseComplex exactness radix sign comp char s integer rexponent = rejected := by
  by_cases exponent : exponentMarker char = true
  · refine .inr ?_
    by_cases ten : radix = 10
    · have known : char ∈ exponentMarkers ++ powerMarkers := mem_append_left _ (of_decide_eq_true exponent)
      rcases exponent_cases parseComplex exactness sign comp known s with ⟨e, rest, marker, split, before⟩ | rejects
      · exact .inl ⟨e, rest, marker, split, before, fun _ => ten, fun other => absurd (marker ▸ exponent) (by rw [other]; decide)⟩
      · refine .inr fun integer rexponent => ?_
        rw [parseDotted4, if_pos exponent, if_pos ten, rejects]
    · refine .inr fun integer rexponent => ?_
      rw [parseDotted4, if_pos exponent, if_neg ten]
  · by_cases power : isP char = true
    · refine .inr ?_
      by_cases sixteen : radix = 16
      · have known : char ∈ exponentMarkers ++ powerMarkers := mem_append_right _ (mem_powerMarkers power)
        rcases exponent_cases parseComplex exactness sign comp known s with ⟨e, rest, marker, split, before⟩ | rejects
        · exact .inl ⟨e, rest, marker, split, before, fun ten => absurd (marker ▸ ten) exponent, fun _ => sixteen⟩
        · refine .inr fun integer rexponent => ?_
          rw [parseDotted4, if_neg exponent, if_pos power, if_pos sixteen, rejects]
      · refine .inr fun integer rexponent => ?_
        rw [parseDotted4, if_neg exponent, if_pos power, if_neg sixteen]
    · exact .inl ⟨no_sharp, Bool.not_eq_true _ ▸ exponent, Bool.not_eq_true _ ▸ power⟩

def Begins (sign : Option Sign) (s : List ℕ) : Prop :=
  ∃ (form : Form radix) (rest : List ℕ), form.WellFormed sign ∧ form.Stops rest ∧ s = form.spelling ++ rest

variable {sign}

theorem begins_float {whole r : Run radix} {t : List ℕ}
    (leading : whole.digits = [] → whole.sharps = 0 ∧ r.digits ≠ [] ∧ (sign ≠ none ∨ radix = 10 ∨ radix = 16))
    (sharp : whole.sharps ≠ 0 → r.digits = []) (no_sharp : Before (· ≠ '#'.toNat) t)
    (no_digit : whole.sharps + r.sharps = 0 → Before (fun char => charToDigit char radix = none) t) :
    @Begins radix sign (whole.spelling ++ '.'.toNat :: (r.spelling ++ t)) ∨
      ∃ char s, t = char :: s ∧ char ≠ '#'.toNat ∧ ∀ (integer : ℕ) (rexponent : ℤ),
        parseDotted4 parseComplex exactness radix sign comp char s integer rexponent = rejected := by
  have wellFormed : ∀ exponent : Option AnyExponent, (∀ e, exponent = some e → exponentMarker e.marker = true → radix = 10) →
      (∀ e, exponent = some e → exponentMarker e.marker = false → radix = 16) →
      (⟨whole, some r, exponent⟩ : FloatForm radix).WellFormed sign := fun exponent ten two =>
    ⟨.inl (some_ne_none _), leading, sharp, ten, fun e is other _ => two e is other⟩
  have alone : Before NoMarker t → @Begins radix sign (whole.spelling ++ '.'.toNat :: (r.spelling ++ t)) := by
    intro before
    refine ⟨.float ⟨whole, some r, none⟩, t, wellFormed none (fun _ is => nomatch is) (fun _ is => nomatch is), ⟨before, no_digit⟩, ?_⟩
    simp [Form.spelling, spelling, fractionSpelling, exponentSpelling]
  cases t with
  | nil => exact .inl (alone trivial)
  | cons char s =>
    rcases exponent_or_end parseComplex exactness sign comp no_sharp s with none | ⟨e, rest, marker, split, before, ten, two⟩ | rejects
    · exact .inl (alone none)
    · refine .inl ⟨.float ⟨whole, some r, some e⟩, rest, wellFormed (some e) (fun _ is => some.inj is ▸ ten)
        (fun _ is => some.inj is ▸ two), before, ?_⟩
      rw [split, ← marker]
      simp [Form.spelling, spelling, fractionSpelling, exponentSpelling]
    · exact .inr ⟨char, s, rfl, no_sharp, rejects⟩

theorem parseDotted1_eq (d : DigitChar radix) (s : List ℕ) :
    parseDotted1 parseComplex exactness radix sign comp (d.char :: s) =
      parseDotted2 parseComplex exactness radix sign comp (d.char :: s) 0 0 := by
  rw [parseDotted1, parseDotted2, d.is]
  simp

theorem leading_point (allowed : sign ≠ none ∨ radix = 10 ∨ radix = 16) (s : List ℕ) :
    @Begins radix sign ('.'.toNat :: s) ∨ parseDotted1 parseComplex exactness radix sign comp s = rejected := by
  obtain ⟨⟨ds, k⟩, t, split, stops⟩ := @exists_run radix s
  cases ds with
  | nil =>
    refine .inr ?_
    have none : s = [] ∨ ∃ char t, s = char :: t ∧ charToDigit char radix = none := by
      rw [split]
      cases k with
      | zero =>
        cases t with
        | nil => exact .inl rfl
        | cons char t => exact .inr ⟨char, t, rfl, stops.2 rfl⟩
      | succ k => exact .inr ⟨'#'.toNat, replicate k '#'.toNat ++ t, rfl, charToDigit_of_lt (by decide) radix⟩
    rcases none with rfl | ⟨char, t, rfl, other⟩
    · rfl
    · rw [parseDotted1, other]
  | cons d ds =>
    have no_sharp : Before (· ≠ '#'.toNat) t := .mono stops fun _ stop => stop.1
    have no_digit : (⟨[], 0⟩ : Run radix).sharps + (⟨d :: ds, k⟩ : Run radix).sharps = 0 →
        Before (fun char => charToDigit char radix = none) t := fun none => .mono stops fun _ stop => stop.2 (by
      rwa [zero_add] at none)
    rcases @begins_float parseComplex exactness radix sign comp ⟨[], 0⟩ ⟨d :: ds, k⟩ t (fun _ => ⟨rfl, cons_ne_nil _ _, allowed⟩)
      (absurd rfl) no_sharp no_digit with begins | ⟨char, s', is, -, rejects⟩
    · rw [split]
      exact .inl begins
    · refine .inr ?_
      rw [is] at stops split
      have spelled : s = d.char :: ((⟨ds, k⟩ : Run radix).spelling ++ char :: s') := split
      rw [spelled, parseDotted1_eq]
      exact (parseDotted2_before parseComplex exactness sign comp ⟨d :: ds, k⟩ stops 0 0).trans (rejects _ _)

theorem leading_digit (d : DigitChar radix) (s : List ℕ) : @Begins radix sign (d.char :: s) ∨
    parseTopLevelWith parseComplex (signSpelling sign ++ d.char :: s) exactness (some radix) comp = rejected := by
  obtain ⟨⟨ds, k⟩, t, split, stops⟩ := @exists_run radix s
  obtain ⟨whole, is⟩ : ∃ whole : Run radix, whole = ⟨d :: ds, k⟩ := ⟨_, rfl⟩
  have nonempty : whole.digits ≠ [] := by
    rw [is]
    exact cons_ne_nil _ _
  have spelled : d.char :: s = whole.spelling ++ t := by
    rw [split, is]
    rfl
  have stops : whole.Stops t := by
    rw [is]
    exact stops
  rw [spelled, parseTopLevelWith_run parseComplex exactness comp sign nonempty stops]
  cases t with
  | nil => exact .inl ⟨.integer whole, [], nonempty, ⟨trivial, trivial⟩, rfl⟩
  | cons char t =>
    obtain ⟨no_sharp, no_digit⟩ := stops
    unfold afterDigits
    simp only
    split
    · rename_i slash
      obtain ⟨denominator, rest, split, stops⟩ := @exists_run radix t
      by_cases empty : denominator.spelling = []
      · have run := parseDigits_run (whole.exactness exactness) denominator stops 0
        refine .inr ?_
        rw [parseDenominator1, split, run, empty]
        exact if_neg (lt_irrefl _)
      · refine .inl ⟨.ratio whole denominator, rest, ⟨nonempty, empty⟩, stops, ?_⟩
        rw [slash, split, Form.spelling, append_assoc, cons_append]
    · rename_i no_slash
      split
      · rename_i point
        rw [point]
        by_cases unsharp : whole.sharps = 0
        · obtain ⟨r, rest, split, stops⟩ := @exists_run radix t
          have before : Before (· ≠ '#'.toNat) rest := .mono stops fun _ stop => stop.1
          rcases @begins_float parseComplex (exactness.or (some .implicitInexact)) radix sign comp whole r rest
            (fun none => absurd none nonempty) (absurd unsharp) before
            (fun none => .mono stops fun _ stop => stop.2 (by omega)) with begins | ⟨char, s', is, -, rejects⟩
          · rw [split]
            exact .inl begins
          · refine .inr ?_
            rw [is] at stops
            have same : (whole.exactness exactness).or (some .implicitInexact) = exactness.or (some .implicitInexact) := by
              rw [Run.exactness, if_pos unsharp]
            rw [if_neg (by rw [decide_eq_true_eq]; exact fun sharp => sharp unsharp), split, is, same,
              parseDotted2_before parseComplex _ sign comp r stops]
            exact rejects _ _
        · obtain ⟨k, rest, split, stops⟩ := exists_sharps t
          have spelled' : t = (⟨[], k⟩ : Run radix).spelling ++ rest := split
          rcases @begins_float parseComplex (exactness.or (some .implicitInexact)) radix sign comp whole ⟨[], k⟩ rest
            (fun none => absurd none nonempty) (fun _ => rfl) stops (fun none => by omega) with begins | ⟨char, s', is, other, rejects⟩
          · rw [spelled']
            exact .inl begins
          · refine .inr ?_
            rw [if_pos (decide_eq_true unsharp), Run.exactness, if_neg unsharp, split, is,
              parseDotted3_before parseComplex _ sign comp k other]
            exact rejects _ _
      · rename_i no_point
        have scaled : (∃ (e : AnyExponent) (rest : List ℕ), e.marker = char ∧ t = e.tail ++ rest ∧ NoDigit rest) →
            (exponentMarker char = true → radix = 10) → @Begins radix sign (whole.spelling ++ char :: t) := by
          rintro ⟨e, rest, marker, split, before⟩ ten
          refine ⟨.float ⟨whole, none, some e⟩, rest, ⟨.inr (some_ne_none _), fun none => absurd none nonempty, fun _ => rfl,
            fun e' is exponent => ten ?_, fun _ _ _ pointed => absurd rfl pointed⟩, before, ?_⟩
          · rw [← marker, some.inj is]
            exact exponent
          · rw [split, ← marker]
            simp [Form.spelling, spelling, fractionSpelling, exponentSpelling]
        split
        · rename_i exponent
          by_cases ten : radix = 10
          · have known : char ∈ exponentMarkers ++ powerMarkers := mem_append_left _ (of_decide_eq_true exponent)
            rw [if_pos ten]
            exact (exponent_cases parseComplex _ sign comp known t).imp (fun found => scaled found fun _ => ten)
              fun rejects => rejects _ _ _
          · exact .inr (if_neg ten)
        · rename_i no_marker
          split
          · rename_i power
            have known : char ∈ exponentMarkers ++ powerMarkers := mem_append_right _ (mem_powerMarkers power)
            exact (exponent_cases parseComplex _ sign comp known t).imp (fun found => scaled found fun exponent => absurd exponent no_marker)
              fun rejects => rejects _ _ _
          · rename_i no_power
            exact .inl ⟨.integer whole, char :: t, nonempty, ⟨⟨no_sharp, no_digit⟩,
              ⟨no_sharp, Bool.not_eq_true _ ▸ no_marker, Bool.not_eq_true _ ▸ no_power⟩, no_slash, no_point⟩, rfl⟩

/-- Nothing is made of the string, or it is a sign with the imaginary unit. -/
def Otherwise (comp : Comp) (result : Parsed) : Prop := result = rejected ∨ ∃ s sign, result = signedUnit comp s sign

theorem leading_word (sign : Sign) (char : ℕ) (s : List ℕ) (other : charToDigit char radix = none) (no_point : char ≠ '.'.toNat) :
    @Begins radix (some sign) (char :: s) ∨ Otherwise comp (findLeader parseComplex exactness radix comp (char :: s) sign) := by
  have nan : ∀ (quiet : Bool) (rest : List ℕ), dropPrefixCi (nanWord quiet) (char :: s) = some rest →
      @Begins radix (some sign) (char :: s) := by
    intro quiet rest drops
    obtain ⟨spelled, split, spells⟩ := exists_spells drops
    obtain ⟨payload, rest', split', before⟩ := @exists_digits radix rest
    exact ⟨.nan quiet spelled payload, rest', ⟨some_ne_none _, spells⟩, before, by rw [split, split', Form.spelling,
      append_assoc]⟩
  cases first : dropPrefixCi infinityWord (char :: s) with
  | some rest =>
    obtain ⟨spelled, split, spells⟩ := exists_spells first
    exact .inl ⟨.infinity spelled, rest, ⟨some_ne_none _, spells⟩, trivial, split⟩
  | none =>
    cases second : dropPrefixCi (nanWord true) (char :: s) with
    | some rest => exact .inl (nan true rest second)
    | none =>
      cases third : dropPrefixCi (nanWord false) (char :: s) with
      | some rest => exact .inl (nan false rest third)
      | none =>
        refine .inr ?_
        simp only [infinityWord, nanWord, if_true, Bool.false_eq_true, if_false] at first second third
        simp only [findLeader, other, if_neg no_point, first, second, third]
        split
        · exact .inr ⟨s, sign, rfl⟩
        · exact .inl rfl

theorem begins_or_otherwise (s : List ℕ) : (∃ (sign : Option Sign) (t : List ℕ), s = signSpelling sign ++ t ∧ @Begins radix sign t) ∨
    Otherwise comp (parseTopLevelWith parseComplex s exactness (some radix) comp) := by
  cases s with
  | nil => exact .inr (.inl rfl)
  | cons char s =>
    cases signed : sign? char with
    | some sign =>
      have spelled : char :: s = signSpelling (some sign) ++ s := by rw [sign?_eq_some.mp signed, signSpelling, singleton_append]
      have leader : parseTopLevelWith parseComplex (char :: s) exactness (some radix) comp =
          findLeader parseComplex exactness radix comp s sign := by
        rw [parseTopLevelWith, signed]
        rfl
      rw [leader]
      cases s with
      | nil => exact .inr (.inl rfl)
      | cons first s =>
        cases is : charToDigit first radix with
        | some digit =>
          rcases @leading_digit parseComplex exactness radix (some sign) comp ⟨first, digit, is⟩ s with begins | rejects
          · exact .inl ⟨some sign, _, spelled, begins⟩
          · have same := leader
            rw [spelled] at same
            exact .inr (.inl (same.symm.trans rejects))
        | none =>
          by_cases point : first = '.'.toNat
          · rcases @leading_point parseComplex (exactness.or (some .implicitInexact)) radix (some sign) comp
              (.inl (some_ne_none _)) s with begins | rejects
            · exact .inl ⟨some sign, _, spelled, point ▸ begins⟩
            · refine .inr (.inl ?_)
              simp only [findLeader, is, if_pos point]
              exact rejects
          · exact (leading_word parseComplex exactness comp sign first s is point).imp (fun begins => ⟨some sign, _, spelled, begins⟩) id
    | none =>
      by_cases point : char = '.'.toNat
      · by_cases pointed : some radix = none ∨ some radix = some 10 ∨ some radix = some 16
        · have allowed : radix = 10 ∨ radix = 16 := by simpa using pointed
          rcases @leading_point parseComplex (exactness.or (some .implicitInexact)) radix none comp (.inr allowed) s with begins | rejects
          · exact .inl ⟨none, _, rfl, point ▸ begins⟩
          · refine .inr (.inl ?_)
            simp only [parseTopLevelWith, signed, if_pos point, if_pos pointed, getD_some]
            exact rejects
        · refine .inr (.inl ?_)
          simp only [parseTopLevelWith, signed, if_pos point, if_neg pointed]
      · cases is : charToDigit char radix with
        | some digit =>
          rcases @leading_digit parseComplex exactness radix none comp ⟨char, digit, is⟩ s with begins | rejects
          · exact .inl ⟨none, _, rfl, begins⟩
          · exact .inr (.inl rejects)
        | none =>
          refine .inr (.inl ?_)
          simp only [parseTopLevelWith, signed, if_neg point, getD_some, is]

end

/-- A string, read with an exactness and a radix or without them, is a body after marks that leave it with others. -/
inductive Prefixed (given : Option Exactness) (radix : Option ℕ) (body : List ℕ) : List ℕ → Option Exactness → Option ℕ → Prop where
  | body : Before (· ≠ '#'.toNat) body → Prefixed given radix body body given radix
  | radix {mark r : ℕ} {s : List ℕ} {e : Option Exactness} : marker? mark = some (.radix r) →
      Prefixed given radix body s e (some r) → Prefixed given radix body ('#'.toNat :: mark :: s) e none
  | exactness {mark : ℕ} {e : Exactness} {s : List ℕ} {r : Option ℕ} : marker? mark = some (.exactness e) →
      Prefixed given radix body s (some e) r → Prefixed given radix body ('#'.toNat :: mark :: s) none r

section
variable (trig : Trigonometry) (defaultRadix : Option ℕ) {given : Option Exactness} {radix : Option ℕ} {body s : List ℕ}
  {e : Option Exactness} {r : Option ℕ}

section
variable (prefixed : Prefixed given radix body s e r)
include prefixed

theorem Prefixed.parse :
    parsePrefix trig defaultRadix s e r = parseTopLevel trig body given (radix.or defaultRadix) .real := by
  induction prefixed with
  | body before =>
    cases body with
    | nil =>
      rfl
    | cons char s => exact parsePrefix_none trig before s _ _ _
  | radix mark _ ih =>
    rw [parsePrefix.eq_def]
    simp only [if_true, mark]
    exact ih
  | exactness mark _ ih =>
    rw [parsePrefix.eq_def]
    simp only [if_true, mark]
    exact ih

theorem Prefixed.given_ne (start : e ≠ some .implicitInexact) : given ≠ some .implicitInexact := by
  induction prefixed with
  | body => exact start
  | radix _ _ ih => exact ih start
  | exactness mark _ ih =>
    refine ih fun is => ?_
    rw [some.inj is] at mark
    unfold marker? at mark
    split_ifs at mark <;> simp at mark

theorem Prefixed.radix_known (start : ∀ x, r = some x → x ∈ [2, 8, 10, 16]) :
    ∀ x, radix = some x → x ∈ [2, 8, 10, 16] := by
  induction prefixed with
  | body => exact start
  | radix mark _ ih =>
    refine ih fun x is => ?_
    have same := some.inj is
    subst same
    unfold marker? at mark
    split_ifs at mark <;> simp at mark <;> simp [← mark]
  | exactness _ _ ih => exact ih start

end

theorem prefixed_or_rejected (s : List ℕ) (e : Option Exactness) (r : Option ℕ) :
    (∃ given radix body, Prefixed given radix body s e r) ∨ parsePrefix trig defaultRadix s e r = rejected := by
  induction s, e, r using parsePrefix.induct with
  | case1 e r => exact .inl ⟨e, r, [], .body trivial⟩
  | case2 e r =>
    refine .inr ?_
    exact if_pos rfl
  | case3 e mark s r known ih =>
    rcases ih with ⟨given, radix, body, prefixed⟩ | rejects
    · exact .inl ⟨given, radix, body, .radix known prefixed⟩
    · refine .inr ?_
      rw [parsePrefix.eq_def]
      simp only [if_true, known]
      exact rejects
  | case4 e r mark s r' known twice =>
    refine .inr ?_
    rw [parsePrefix.eq_def]
    simp [known, if_neg twice]
  | case5 r mark s e known ih =>
    rcases ih with ⟨given, radix, body, prefixed⟩ | rejects
    · exact .inl ⟨given, radix, body, .exactness known prefixed⟩
    · refine .inr ?_
      rw [parsePrefix.eq_def]
      simp only [if_true, known]
      exact rejects
  | case6 e r mark s e' known twice =>
    refine .inr ?_
    rw [parsePrefix.eq_def]
    simp [known, if_neg twice]
  | case7 e r mark s unknown =>
    refine .inr ?_
    rw [parsePrefix.eq_def]
    simp [unknown]
  | case8 char s e r no_sharp => exact .inl ⟨e, r, char :: s, .body no_sharp⟩

end

end MitScheme.Runtime.NumberParser
