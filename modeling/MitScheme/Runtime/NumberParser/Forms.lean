import MitScheme.Runtime.NumberParser.Points

namespace MitScheme.Runtime.NumberParser

open Library Arithmetic List DigitChar

def infinityWord : List ℕ := "inf.0".toList.map Char.toNat

def nanWord (quiet : Bool) : List ℕ := if quiet then "nan.".toList.map Char.toNat else "snan.".toList.map Char.toNat

def Spells (word spelled : List ℕ) : Prop := dropPrefixCi word spelled = some []

theorem dropPrefixCi_append {word spelled : List ℕ} (spells : Spells word spelled) (rest : List ℕ) :
    dropPrefixCi word (spelled ++ rest) = some rest := by
  induction word generalizing spelled with
  | nil =>
    have empty : spelled = [] := Option.some.inj spells
    rw [empty]
    rfl
  | cons p ps ih =>
    cases spelled with
    | nil => exact nomatch spells
    | cons c s =>
      unfold Spells at spells ih
      rw [dropPrefixCi] at spells
      rw [cons_append, dropPrefixCi]
      split at spells
      · rename_i same
        rw [if_pos same]
        exact ih spells
      · exact nomatch spells

theorem exists_spells {word s rest : List ℕ} (drops : dropPrefixCi word s = some rest) :
    ∃ spelled, s = spelled ++ rest ∧ Spells word spelled := by
  induction word generalizing s with
  | nil => exact ⟨[], Option.some.inj drops, rfl⟩
  | cons p ps ih =>
    cases s with
    | nil => exact nomatch drops
    | cons c s =>
      rw [dropPrefixCi] at drops
      split at drops
      · rename_i same
        obtain ⟨spelled, split, spells⟩ := ih drops
        exact ⟨c :: spelled, congrArg (c :: ·) split, (if_pos same).trans spells⟩
      · exact nomatch drops

theorem folded {letter char : ℕ} (lower : letter ∈ ['i'.toNat, 'n'.toNat, 's'.toNat]) (same : charCiEq letter char = true) :
    char = letter ∨ char = letter - 32 ∨ letter = 's'.toNat ∧ char = 0x17F := by
  have fixed : charFoldcase letter = letter := by
    clear same
    revert letter
    decide
  have codes : 'A'.toNat = 65 ∧ 'Z'.toNat = 90 ∧ 's'.toNat = 115 ∧ 'k'.toNat = 107 := ⟨rfl, rfl, rfl, rfl⟩
  have range : letter = 105 ∨ letter = 110 ∨ letter = 115 := by simpa using lower
  have equal : letter = charFoldcase char := fixed ▸ of_decide_eq_true same
  unfold charFoldcase at equal
  split_ifs at equal <;> omega

theorem letter_other {radix char : ℕ} (known : radix ∈ [2, 8, 10, 16])
    (member : char ∈ ['i'.toNat, 'I'.toNat, 'n'.toNat, 'N'.toNat, 's'.toNat, 'S'.toNat, 0x17F]) :
    charToDigit char radix = none ∧ char ≠ '.'.toNat := by
  have table : ∀ radix ∈ [2, 8, 10, 16], ∀ char ∈ ['i'.toNat, 'I'.toNat, 'n'.toNat, 'N'.toNat, 's'.toNat, 'S'.toNat, 0x17F],
      charToDigit char radix = none ∧ char ≠ '.'.toNat := by decide
  exact table radix known char member

theorem Spells.cons {p : ℕ} {ps spelled : List ℕ} (spells : Spells (p :: ps) spelled) :
    ∃ c s, spelled = c :: s ∧ charCiEq p c = true := by
  cases spelled with
  | nil => exact nomatch spells
  | cons c s =>
    refine ⟨c, s, rfl, ?_⟩
    unfold Spells at spells
    rw [dropPrefixCi] at spells
    by_contra other
    rw [if_neg other] at spells
    exact nomatch spells

theorem dropPrefixCi_other {p q : ℕ} {qs : List ℕ} {c : ℕ} (lower : p ∈ ['i'.toNat, 'n'.toNat, 's'.toNat])
    (lower' : q ∈ ['i'.toNat, 'n'.toNat, 's'.toNat]) (other : p ≠ q) (same : charCiEq p c = true) (s : List ℕ) :
    dropPrefixCi (q :: qs) (c :: s) = none := by
  have range : p = 105 ∨ p = 110 ∨ p = 115 := by simpa using lower
  have range' : q = 105 ∨ q = 110 ∨ q = 115 := by simpa using lower'
  refine if_neg fun same' => ?_
  have first := folded lower same
  have second := folded lower' same'
  omega

/-- The forms of real numbers, without their signs. -/
inductive Form (radix : ℕ) where
  | integer (whole : Run radix)
  | ratio (numerator denominator : Run radix)
  | float (x : FloatForm radix)
  | infinity (spelled : List ℕ)
  | nan (quiet : Bool) (spelled : List ℕ) (payload : List (DigitChar radix))

namespace Form

variable {radix : ℕ}

def spelling : Form radix → List ℕ
  | integer whole => whole.spelling
  | ratio numerator denominator => numerator.spelling ++ '/'.toNat :: denominator.spelling
  | float x => x.spelling
  | infinity spelled => spelled
  | nan _ spelled payload => spelled ++ DigitChar.spelling payload

def WellFormed (sign : Option Sign) : Form radix → Prop
  | integer whole => whole.digits ≠ []
  | ratio numerator denominator => numerator.digits ≠ [] ∧ denominator.spelling ≠ []
  | float x => x.WellFormed sign
  | infinity spelled => sign ≠ none ∧ Spells infinityWord spelled
  | nan quiet spelled _ => sign ≠ none ∧ Spells (nanWord quiet) spelled

def Stops (rest : List ℕ) : Form radix → Prop
  | integer whole => whole.Stops rest ∧ Before (fun char => NoMarker char ∧ char ≠ '/'.toNat ∧ char ≠ '.'.toNat) rest
  | ratio _ denominator => denominator.Stops rest
  | float x => x.Stops rest
  | infinity _ => True
  | nan _ _ _ => Before (fun char => charToDigit char radix = none) rest

section
variable (parseComplex : List ℕ → Number → Option Exactness → ℕ → Option Sign → Parsed)
variable (given : Option Exactness) (sign : Option Sign) (comp : Comp) (rest : List ℕ)

def value : Form radix → Except Failure (Option Number)
  | integer whole => .ok (some (finishInteger sign (whole.exactness given) (whole.value 0)))
  | ratio numerator denominator =>
    (finishRational sign (denominator.exactness (numerator.exactness given)) (numerator.value 0) (denominator.value 0)).map some
  | float x => (finishReal sign (given.or (some .implicitInexact)) x.integer x.rexponent radix (x.base rest) x.bexponent).map some
  | infinity _ => .ok (if given = some .exact then none else some (.flonum (Flonum.infinite (sign = some .minus))))
  | nan quiet _ payload => finishNan sign given quiet (read 0 payload)

def exactness : Form radix → Option Exactness
  | integer whole => whole.exactness given
  | ratio numerator denominator => denominator.exactness (numerator.exactness given)
  | float _ => given.or (some .implicitInexact)
  | infinity _ => given
  | nan _ _ _ => given

def isFloat : Form radix → Bool
  | float _ => true
  | _ => false

def isNan : Form radix → Bool
  | nan _ _ _ => true
  | _ => false

def passOn (form : Form radix) : Option Number → Parsed
  | none => rejected
  | some x => if rest = [] ∧ form.isNan then accepted x else parseComplex rest x (form.exactness given) radix sign

def read (form : Form radix) : Parsed :=
  if comp = .imag ∧ rest = [] ∧ form.isFloat then rejected
  else form.value given sign rest >>= form.passOn parseComplex given sign rest

end

end Form

section
variable {parseComplex : List ℕ → Number → Option Exactness → ℕ → Option Sign → Parsed}
variable (given : Option Exactness) {radix : ℕ} {sign : Option Sign} {comp : Comp} {rest : List ℕ}

theorem parseNanPayload_spelling (quiet : Bool) (ds : List (DigitChar radix)) (rest : List ℕ) (payload : ℕ) :
    parseNanPayload parseComplex given radix sign quiet (DigitChar.spelling ds ++ rest) payload =
      parseNanPayload parseComplex given radix sign quiet rest (read payload ds) := by
  induction ds generalizing payload with
  | nil => rfl
  | cons d ds ih =>
    rw [DigitChar.spelling, map_cons, cons_append, parseNanPayload, d.is]
    exact ih _

variable (atEnd : ∀ x exactness radix sign, parseComplex [] x exactness radix sign = ended comp (.ok x))

theorem passOn_some {form : Form radix} (other : ¬form.isNan = true) (x : Number) :
    form.passOn parseComplex given sign rest (some x) = parseComplex rest x (form.exactness given) radix sign :=
  if_neg fun nan => other nan.2

theorem read_other (form : Form radix) (other : ¬form.isFloat = true) :
    form.read parseComplex given sign comp rest = form.value given sign rest >>= form.passOn parseComplex given sign rest :=
  if_neg fun skipped => other skipped.2.2

theorem parseTopLevelWith_ratio {numerator denominator : Run radix} (wellFormed : (Form.ratio numerator denominator).WellFormed sign)
    (stops : (Form.ratio numerator denominator).Stops rest) :
    parseTopLevelWith parseComplex (signSpelling sign ++ ((Form.ratio numerator denominator).spelling ++ rest)) given (some radix)
      comp = (Form.ratio numerator denominator).read parseComplex given sign comp rest := by
  obtain ⟨digits, nonempty⟩ := wellFormed
  have slash : numerator.Stops ('/'.toNat :: (denominator.spelling ++ rest)) :=
    ⟨by decide, fun _ => charToDigit_of_lt (by decide) radix⟩
  have consumed : rest.length < (denominator.spelling ++ rest).length := by
    have positive := length_pos_iff.mpr nonempty
    rw [length_append]
    omega
  have run := parseDigits_run (numerator.exactness given) denominator stops 0
  rw [Form.spelling, append_assoc, cons_append, parseTopLevelWith_run parseComplex given comp sign digits slash]
  rw [read_other given (.ratio numerator denominator) Bool.false_ne_true]
  simp only [afterDigits, if_true, parseDenominator1, run, if_pos consumed, Form.value, finishRational]
  split
  · rfl
  · exact (@passOn_some parseComplex given radix sign rest (.ratio numerator denominator) Bool.false_ne_true _).symm

include atEnd

theorem parseTopLevelWith_integer {whole : Run radix} (wellFormed : (Form.integer whole).WellFormed sign)
    (stops : (Form.integer whole).Stops rest) :
    parseTopLevelWith parseComplex (signSpelling sign ++ (whole.spelling ++ rest)) given (some radix) comp =
      (Form.integer whole).read parseComplex given sign comp rest := by
  obtain ⟨run, follows⟩ := stops
  rw [parseTopLevelWith_run parseComplex given comp sign wellFormed run]
  rw [read_other given (.integer whole) Bool.false_ne_true]
  cases rest with
  | nil => exact (atEnd _ _ _ _).symm
  | cons char s =>
    obtain ⟨⟨-, no_marker, no_power⟩, no_slash, no_point⟩ := follows
    simp only [afterDigits, if_neg no_slash, if_neg no_point, no_marker, no_power, Bool.false_eq_true, if_false]
    rfl

theorem read_float {x : FloatForm radix} : (Form.float x).read parseComplex given sign comp rest =
    continued parseComplex (given.or (some .implicitInexact)) sign comp radix rest
      (finishReal sign (given.or (some .implicitInexact)) x.integer x.rexponent radix (x.base rest) x.bexponent) := by
  have value : (Form.float x).value given sign rest = (finishReal sign (given.or (some .implicitInexact)) x.integer x.rexponent radix
    (x.base rest) x.bexponent).map some := rfl
  unfold Form.read
  rw [value]
  generalize finishReal sign (given.or (some .implicitInexact)) x.integer x.rexponent radix (x.base rest) x.bexponent = real
  cases rest with
  | nil =>
    unfold continued ended
    by_cases imag : comp = .imag
    · rw [if_pos ⟨imag, rfl, rfl⟩]
      exact (if_pos imag).symm
    · rw [if_neg (fun skipped => imag skipped.1)]
      cases real with
      | error failure =>
        rw [if_neg imag]
        rfl
      | ok real =>
        rw [if_neg imag]
        exact (atEnd _ _ _ _).trans (if_neg imag)
  | cons char s =>
    rw [if_neg (fun skipped => nomatch skipped.2.1)]
    cases real <;> rfl

omit atEnd

theorem findLeader_word {char : ℕ} (sign : Sign) (known : radix ∈ [2, 8, 10, 16])
    (member : char ∈ ['i'.toNat, 'I'.toNat, 'n'.toNat, 'N'.toNat, 's'.toNat, 'S'.toNat, 0x17F]) (s : List ℕ) :
    parseTopLevelWith parseComplex (signSpelling (some sign) ++ char :: s) given (some radix) comp =
      match dropPrefixCi infinityWord (char :: s), dropPrefixCi (nanWord true) (char :: s), dropPrefixCi (nanWord false) (char :: s) with
      | some rest, _, _ =>
        if given = some .exact then rejected
        else parseComplex rest (.flonum (Flonum.infinite (sign = .minus))) given radix (some sign)
      | none, some rest, _ => parseNanPayload parseComplex given radix (some sign) true rest 0
      | none, none, some rest => parseNanPayload parseComplex given radix (some sign) false rest 0
      | none, none, none => if isI char then signedUnit comp s sign else rejected := by
  obtain ⟨other, no_point⟩ := letter_other known member
  simp only [signSpelling, singleton_append, parseTopLevelWith, sign?_eq_some.mpr rfl, findLeader, Option.getD_some, other,
    if_neg no_point]
  rfl

theorem infinity_letters {spelled : List ℕ} (spells : Spells infinityWord spelled) : ∃ c s, spelled = c :: s ∧
    charCiEq 'i'.toNat c = true ∧ c ∈ ['i'.toNat, 'I'.toNat, 'n'.toNat, 'N'.toNat, 's'.toNat, 'S'.toNat, 0x17F] := by
  have word : infinityWord = 'i'.toNat :: infinityWord.tail := rfl
  rw [word] at spells
  obtain ⟨c, s, split, same⟩ := spells.cons
  refine ⟨c, s, split, same, ?_⟩
  have codes : 'i'.toNat = 105 ∧ 'I'.toNat = 73 ∧ 's'.toNat = 115 := ⟨rfl, rfl, rfl⟩
  simp only [mem_cons]
  have letter := folded (by decide) same
  omega

theorem nan_letters {quiet : Bool} {spelled : List ℕ} (spells : Spells (nanWord quiet) spelled) : ∃ c s, spelled = c :: s ∧
    charCiEq (if quiet then 'n'.toNat else 's'.toNat) c = true ∧
    c ∈ ['i'.toNat, 'I'.toNat, 'n'.toNat, 'N'.toNat, 's'.toNat, 'S'.toNat, 0x17F] := by
  have word : nanWord quiet = (if quiet then 'n'.toNat else 's'.toNat) :: (nanWord quiet).tail := by
    cases quiet <;> rfl
  rw [word] at spells
  obtain ⟨c, s, split, same⟩ := spells.cons
  refine ⟨c, s, split, same, ?_⟩
  have codes : 'n'.toNat = 110 ∧ 'N'.toNat = 78 ∧ 's'.toNat = 115 ∧ 'S'.toNat = 83 := ⟨rfl, rfl, rfl, rfl⟩
  simp only [mem_cons]
  cases quiet with
  | true =>
    have letter := folded (by decide) same
    simp only [if_true] at letter
    omega
  | false =>
    have letter := folded (by decide) same
    simp only [Bool.false_eq_true, if_false] at letter
    omega

theorem parseTopLevelWith_infinity (known : radix ∈ [2, 8, 10, 16]) {spelled : List ℕ}
    (wellFormed : (Form.infinity spelled : Form radix).WellFormed sign) :
    parseTopLevelWith parseComplex (signSpelling sign ++ (spelled ++ rest)) given (some radix) comp =
      (Form.infinity spelled : Form radix).read parseComplex given sign comp rest := by
  obtain ⟨signed, spells⟩ := wellFormed
  obtain ⟨c, s, split, -, member⟩ := infinity_letters spells
  have drops := dropPrefixCi_append spells rest
  cases sign with
  | none => exact absurd rfl signed
  | some sign =>
    rw [split, cons_append] at drops ⊢
    rw [findLeader_word given sign known member, drops, read_other given (.infinity (c :: s)) Bool.false_ne_true]
    unfold Form.value
    by_cases exact : given = some .exact
    · simp only [if_pos exact]
      rfl
    · simp only [if_neg exact, Option.some.injEq]
      exact (@passOn_some parseComplex given radix (some sign) rest (.infinity (c :: s)) Bool.false_ne_true _).symm

theorem parseNanPayload_before (quiet : Bool) (stops : Before (fun char => charToDigit char radix = none) rest)
    (spelled : List ℕ) (ds : List (DigitChar radix)) :
    parseNanPayload parseComplex given radix sign quiet rest (read 0 ds) =
      (Form.nan quiet spelled ds).read parseComplex given sign comp rest := by
  have value : (Form.nan quiet spelled ds).value given sign rest = finishNan sign given quiet (read 0 ds) := rfl
  rw [read_other given (.nan quiet spelled ds) Bool.false_ne_true, value]
  cases rest with
  | nil =>
    unfold parseNanPayload
    generalize finishNan sign given quiet (read 0 ds) = nan
    rcases nan with failure | (_ | nan) <;> rfl
  | cons char s =>
    have other : charToDigit char radix = none := stops
    rw [parseNanPayload, other]
    generalize finishNan sign given quiet (read 0 ds) = nan
    rcases nan with failure | (_ | nan) <;> rfl

theorem parseTopLevelWith_nan (known : radix ∈ [2, 8, 10, 16]) {quiet : Bool} {spelled : List ℕ} {payload : List (DigitChar radix)}
    (wellFormed : (Form.nan quiet spelled payload).WellFormed sign) (stops : (Form.nan quiet spelled payload).Stops rest) :
    parseTopLevelWith parseComplex (signSpelling sign ++ ((Form.nan quiet spelled payload).spelling ++ rest)) given (some radix) comp =
      (Form.nan quiet spelled payload).read parseComplex given sign comp rest := by
  obtain ⟨signed, spells⟩ := wellFormed
  obtain ⟨c, s, split, same, member⟩ := nan_letters spells
  have drops := dropPrefixCi_append spells (DigitChar.spelling payload ++ rest)
  cases sign with
  | none => exact absurd rfl signed
  | some sign =>
    have letter : (if quiet then 'n'.toNat else 's'.toNat) ∈ ['i'.toNat, 'n'.toNat, 's'.toNat] := by
      cases quiet <;> decide
    have no_infinity : dropPrefixCi infinityWord (c :: (s ++ (DigitChar.spelling payload ++ rest))) = none :=
      dropPrefixCi_other letter (by decide) (by cases quiet <;> decide) same _
    have payload' := @parseNanPayload_spelling parseComplex given radix (some sign) quiet payload rest 0
    rw [Form.spelling, append_assoc]
    rw [split, cons_append] at drops ⊢
    rw [findLeader_word given sign known member, no_infinity]
    cases quiet with
    | true =>
      rw [drops, ← parseNanPayload_before given true stops (c :: s) payload]
      exact payload'
    | false =>
      have no_quiet : dropPrefixCi (nanWord true) (c :: (s ++ (DigitChar.spelling payload ++ rest))) = none :=
        dropPrefixCi_other letter (by decide) (by decide) same _
      rw [no_quiet, drops, ← parseNanPayload_before given false stops (c :: s) payload]
      exact payload'

theorem parseTopLevelWith_form (atEnd : ∀ x exactness radix sign, parseComplex [] x exactness radix sign = ended comp (.ok x))
    (known : radix ∈ [2, 8, 10, 16]) {form : Form radix} (wellFormed : form.WellFormed sign) (stops : form.Stops rest) :
    parseTopLevelWith parseComplex (signSpelling sign ++ (form.spelling ++ rest)) given (some radix) comp =
      form.read parseComplex given sign comp rest := by
  cases form with
  | integer whole => exact parseTopLevelWith_integer given atEnd wellFormed stops
  | ratio numerator denominator => exact parseTopLevelWith_ratio given wellFormed stops
  | float x =>
    rw [read_float given atEnd]
    exact parseTopLevelWith_float parseComplex given comp known wellFormed stops
  | infinity spelled => exact parseTopLevelWith_infinity given known wellFormed
  | nan quiet spelled payload => exact parseTopLevelWith_nan given known wellFormed stops

end

end MitScheme.Runtime.NumberParser
