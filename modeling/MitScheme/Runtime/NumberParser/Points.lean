import MitScheme.Runtime.NumberParser.Literals

namespace MitScheme.Runtime.NumberParser

open Library Arithmetic List Option

structure FloatForm (radix : ℕ) where
  whole : Run radix
  fraction : Option (Run radix)
  exponent : Option AnyExponent

/-- What can follow the digits of a number that is not a ratio: no marker, and no sharp. -/
def NoMarker (char : ℕ) : Prop := char ≠ '#'.toNat ∧ exponentMarker char = false ∧ isP char = false

namespace FloatForm

variable {radix : ℕ} (x : FloatForm radix)

def fractionSpelling : List ℕ :=
  match x.fraction with
  | none => []
  | some r => '.'.toNat :: r.spelling

def exponentSpelling : List ℕ :=
  match x.exponent with
  | none => []
  | some e => e.marker :: e.tail

def spelling : List ℕ := x.whole.spelling ++ x.fractionSpelling ++ x.exponentSpelling

def fractionDigits : List (DigitChar radix) := (x.fraction.map Run.digits).getD []

/-- All the digits, without the point, and zeros for the sharps before it. -/
def integer : ℕ := DigitChar.read (x.whole.value 0) x.fractionDigits

def rexponent : ℤ := -(x.fractionDigits.length : ℤ)

def bexponent : ℤ := (x.exponent.map ExponentPart.value).getD 0

def sharps : ℕ := x.whole.sharps + (x.fraction.map Run.sharps).getD 0

/-- The base of the exponent. Without an exponent it is ten, or the radix for a number that has sharps and ends the
string. -/
def base (rest : List ℕ) : ℕ :=
  match x.exponent with
  | some e => e.base
  | none => if rest = [] ∧ x.sharps ≠ 0 then radix else 10

/-- The forms that the parser reads. A leading point needs a sign in the other radices, and the exponents depend on the
radix. -/
structure WellFormed (sign : Option Sign) : Prop where
  parts : x.fraction ≠ none ∨ x.exponent ≠ none
  leading : x.whole.digits = [] → x.whole.sharps = 0 ∧ x.fractionDigits ≠ [] ∧ (sign ≠ none ∨ radix = 10 ∨ radix = 16)
  sharp : x.whole.sharps ≠ 0 → x.fractionDigits = []
  ten : ∀ e, x.exponent = some e → exponentMarker e.marker = true → radix = 10
  two : ∀ e, x.exponent = some e → exponentMarker e.marker = false → x.fraction ≠ none → radix = 16

def Stops (rest : List ℕ) : Prop :=
  match x.exponent with
  | some _ => NoDigit rest
  | none => Before NoMarker rest ∧ (x.sharps = 0 → Before (fun char => charToDigit char radix = none) rest)

end FloatForm

section
variable (parseComplex : List ℕ → Number → Option Exactness → ℕ → Option Sign → Parsed)
variable (exactness : Option Exactness) {radix : ℕ} {sign : Option Sign} (comp : Comp)

theorem marker_other (known : radix ∈ [2, 8, 10, 16]) {marker : ℕ} (member : marker ∈ exponentMarkers ++ powerMarkers)
    (ten : exponentMarker marker = true → radix = 10) : charToDigit marker radix = none ∧ marker ≠ '#'.toNat := by
  have table : ∀ marker ∈ exponentMarkers ++ powerMarkers, marker < 128 ∧ 65 ≤ marker ∧
      (exponentMarker marker = true → 68 ≤ marker) ∧ (exponentMarker marker = false → 80 ≤ marker ∧ marker < 97 ∨ 112 ≤ marker) := by
    decide
  obtain ⟨ascii, letter, -, power⟩ := table marker member
  have small : radix ≤ 16 := by
    simp only [mem_cons, not_mem_nil, or_false] at known
    omega
  have sharp : '#'.toNat = 35 := rfl
  refine ⟨?_, by omega⟩
  rw [charToDigit_ascii ascii]
  by_cases exponent : exponentMarker marker = true
  · have decimal := ten exponent
    rw [if_neg (by omega), if_neg (by omega), if_neg (by omega)]
  · have range := power (Bool.not_eq_true _ ▸ exponent)
    rw [if_neg (by omega), if_neg (by omega), if_neg (by omega)]

theorem parseTopLevelWith_run (sign : Option Sign) {r : Run radix} (nonempty : r.digits ≠ []) {rest : List ℕ} (stops : r.Stops rest) :
    parseTopLevelWith parseComplex (signSpelling sign ++ (r.spelling ++ rest)) exactness (some radix) comp =
      afterDigits parseComplex radix sign comp ⟨rest, r.value 0, r.exactness exactness, decide (r.sharps ≠ 0)⟩ := by
  obtain ⟨ds, sharps⟩ := r
  cases ds with
  | nil => exact absurd rfl nonempty
  | cons d ds =>
    have run := parseDigits_run exactness ⟨ds, sharps⟩ stops d.digit
    have value : Run.value ⟨d :: ds, sharps⟩ 0 = Run.value ⟨ds, sharps⟩ d.digit := by rw [Run.value, read_cons, Run.value]
    rw [value]
    have spelled : Run.spelling ⟨d :: ds, sharps⟩ ++ rest = d.char :: (Run.spelling ⟨ds, sharps⟩ ++ rest) := rfl
    rw [spelled, parseTopLevelWith_digit, parseInteger, run]
    rfl

theorem parseDotted3_sharps (sign : Option Sign) (k integer : ℕ) (rexponent : ℤ) (rest : List ℕ) :
    parseDotted3 parseComplex exactness radix sign comp integer rexponent (List.replicate k '#'.toNat ++ rest) =
      parseDotted3 parseComplex exactness radix sign comp integer rexponent rest := by
  induction k with
  | zero => rfl
  | succ k ih =>
    exact ih

theorem power_of_not_exponent {e : AnyExponent} (other : ¬exponentMarker e.marker = true) : isP e.marker = true := by
  have table : ∀ marker ∈ exponentMarkers ++ powerMarkers, exponentMarker marker = false → isP marker = true := by decide
  exact table _ e.known (Bool.not_eq_true _ ▸ other)

theorem afterDigits_exponent (sign : Option Sign) (e : AnyExponent) (ten : exponentMarker e.marker = true → radix = 10) (s : List ℕ)
    (integer : ℕ) (sharp : Bool) :
    afterDigits parseComplex radix sign comp ⟨e.marker :: s, integer, exactness, sharp⟩ =
      parseExponent1 parseComplex (exactness.or (some .implicitInexact)) radix sign comp s integer 0 e.base := by
  have table : ∀ marker ∈ exponentMarkers ++ powerMarkers, marker ≠ '/'.toNat ∧ marker ≠ '.'.toNat := by decide
  obtain ⟨no_slash, no_point⟩ := table _ e.known
  unfold afterDigits ExponentPart.base
  simp only [if_neg no_slash, if_neg no_point]
  by_cases exponent : exponentMarker e.marker = true
  · rw [if_pos exponent, if_pos (ten exponent), if_pos exponent]
  · rw [if_neg exponent, if_pos (power_of_not_exponent exponent), if_neg exponent]

variable {x : FloatForm radix} {rest : List ℕ}

theorem parseDotted4_exponent {e : AnyExponent} (ten : exponentMarker e.marker = true → radix = 10)
    (two : exponentMarker e.marker = false → radix = 16) (stops : NoDigit rest) (integer : ℕ) (rexponent : ℤ) :
    parseDotted4 parseComplex exactness radix sign comp e.marker (e.tail ++ rest) integer rexponent =
      continued parseComplex exactness sign comp radix rest (finishReal sign exactness integer rexponent radix e.base e.value) := by
  unfold parseDotted4 ExponentPart.base
  by_cases exponent : exponentMarker e.marker = true
  · rw [if_pos exponent, if_pos (ten exponent), if_pos exponent, parseExponent1_before parseComplex exactness sign comp e stops]
  · rw [if_neg exponent, if_pos (power_of_not_exponent exponent), if_pos (two (Bool.not_eq_true _ ▸ exponent)), if_neg exponent,
      parseExponent1_before parseComplex exactness sign comp e stops]

section
variable (known : radix ∈ [2, 8, 10, 16])
include known

section
variable (wellFormed : x.WellFormed sign)
include wellFormed

/-- Behind the digits, and behind the sharps. -/
theorem parseDotted_tail (pointed : x.fraction ≠ none) (stops : x.Stops rest) (integer : ℕ) (rexponent : ℤ) :
    (if x.sharps = 0 then parseDotted2 parseComplex exactness radix sign comp (x.exponentSpelling ++ rest) integer rexponent
      else parseDotted3 parseComplex exactness radix sign comp integer rexponent (x.exponentSpelling ++ rest)) =
      continued parseComplex exactness sign comp radix rest
        (finishReal sign exactness integer rexponent radix (x.base rest) x.bexponent) := by
  unfold FloatForm.exponentSpelling FloatForm.base FloatForm.bexponent
  unfold FloatForm.Stops at stops
  cases exponent : x.exponent with
  | none =>
    rw [exponent] at stops
    simp only [nil_append]
    cases rest with
    | nil => split <;> simp [*, parseDotted2, parseDotted3, continued]
    | cons char s =>
      obtain ⟨⟨no_sharp, no_marker, no_power⟩, other⟩ := stops
      split
      · next unsharp =>
        rw [parseDotted2, other unsharp]
        simp only [if_neg no_sharp, parseDotted4, no_marker, no_power, Bool.false_eq_true, if_false]
        rfl
      · rw [parseDotted3, if_neg no_sharp, parseDotted4, no_marker, no_power]
        rfl
  | some e =>
    rw [exponent] at stops
    obtain ⟨other, no_sharp⟩ := marker_other known e.known (wellFormed.ten e exponent)
    have four := @parseDotted4_exponent parseComplex exactness radix sign comp rest e (wellFormed.ten e exponent)
      (fun two => wellFormed.two e exponent two pointed) stops integer rexponent
    rw [cons_append, parseDotted2, parseDotted3, other]
    simp only [if_neg no_sharp, ite_self]
    exact four

theorem parseDotted2_fraction (stops : x.Stops rest) {r : Run radix}
    (fraction : x.fraction = some r) (unsharp : x.whole.sharps = 0) (integer : ℕ) :
    parseDotted2 parseComplex exactness radix sign comp (r.spelling ++ (x.exponentSpelling ++ rest)) integer 0 =
      continued parseComplex exactness sign comp radix rest
        (finishReal sign exactness (DigitChar.read integer x.fractionDigits) x.rexponent radix (x.base rest) x.bexponent) := by
  have pointed : x.fraction ≠ none := by
    rw [fraction]
    exact some_ne_none _
  have digits : x.fractionDigits = r.digits := by rw [FloatForm.fractionDigits, fraction, map_some, getD_some]
  have sharps : x.sharps = r.sharps := by
    rw [FloatForm.sharps, unsharp, fraction, map_some, getD_some, zero_add]
  rw [Run.spelling, append_assoc, parseDotted2_spelling, FloatForm.rexponent, digits, zero_sub]
  cases count : r.sharps with
  | zero =>
    have tail := parseDotted_tail parseComplex exactness comp known wellFormed pointed stops
    simp only [if_pos (sharps.trans count)] at tail
    exact tail _ _
  | succ k =>
    have other : charToDigit '#'.toNat radix = none := charToDigit_of_lt (by decide) radix
    have nonzero : x.sharps ≠ 0 := by omega
    rw [replicate_succ, cons_append, parseDotted2, other]
    simp only [if_true, parseDotted3_sharps]
    exact (if_neg nonzero).symm.trans (parseDotted_tail parseComplex exactness comp known wellFormed pointed stops _ _)

theorem parseDotted3_fraction (stops : x.Stops rest) {r : Run radix}
    (fraction : x.fraction = some r) (sharp : x.whole.sharps ≠ 0) (integer : ℕ) :
    parseDotted3 parseComplex exactness radix sign comp integer 0 (r.spelling ++ (x.exponentSpelling ++ rest)) =
      continued parseComplex exactness sign comp radix rest
        (finishReal sign exactness (DigitChar.read integer x.fractionDigits) x.rexponent radix (x.base rest) x.bexponent) := by
  have pointed : x.fraction ≠ none := by
    rw [fraction]
    exact some_ne_none _
  have digits : r.digits = x.fractionDigits := by rw [FloatForm.fractionDigits, fraction, map_some, getD_some]
  have none := wellFormed.sharp sharp
  have nonzero : x.sharps ≠ 0 := by
    rw [FloatForm.sharps]
    omega
  have rexponent : x.rexponent = 0 := by
    rw [FloatForm.rexponent, none]
    rfl
  rw [Run.spelling, digits, none, rexponent]
  exact (parseDotted3_sharps parseComplex exactness comp sign _ _ _ _).trans
    ((if_neg nonzero).symm.trans (parseDotted_tail parseComplex exactness comp known wellFormed pointed stops _ _))

theorem whole_stops : x.whole.Stops (x.fractionSpelling ++ x.exponentSpelling ++ rest) := by
  unfold FloatForm.fractionSpelling FloatForm.exponentSpelling
  cases fraction : x.fraction with
  | some r => exact ⟨by decide, fun _ => charToDigit_of_lt (by decide) radix⟩
  | none =>
    cases exponent : x.exponent with
    | none => exact absurd (wellFormed.parts.resolve_left fun some => some fraction) fun some => some exponent
    | some e =>
      obtain ⟨other, no_sharp⟩ := marker_other known e.known (wellFormed.ten e exponent)
      exact ⟨no_sharp, fun _ => other⟩

end

end

theorem parseTopLevelWith_float (known : radix ∈ [2, 8, 10, 16]) (wellFormed : x.WellFormed sign) (stops : x.Stops rest) :
    parseTopLevelWith parseComplex (signSpelling sign ++ (x.spelling ++ rest)) exactness (some radix) comp =
      continued parseComplex (exactness.or (some .implicitInexact)) sign comp radix rest
        (finishReal sign (exactness.or (some .implicitInexact)) x.integer x.rexponent radix (x.base rest) x.bexponent) := by
  have inexact : ∀ k : ℕ, (if k = 0 then exactness else exactness.or (some .implicitInexact)).or (some .implicitInexact) =
      exactness.or (some .implicitInexact) := by
    intro k
    split
    · rfl
    · cases exactness <;> rfl
  by_cases leading : x.whole.digits = []
  · obtain ⟨unsharp, some_digit, allowed⟩ := wellFormed.leading leading
    cases fraction : x.fraction with
    | none => exact absurd (by rw [FloatForm.fractionDigits, fraction]; rfl) some_digit
    | some r =>
      have digits : x.fractionDigits = r.digits := by rw [FloatForm.fractionDigits, fraction, map_some, getD_some]
      have empty : x.whole.spelling = [] := by
        rw [Run.spelling, leading, unsharp]
        rfl
      have integer : x.whole.value 0 = 0 := by
        rw [Run.value, leading, unsharp, pow_zero]
        rfl
      have two := parseDotted2_fraction parseComplex (exactness.or (some .implicitInexact)) comp known wellFormed stops fraction unsharp 0
      have one : parseDotted1 parseComplex (exactness.or (some .implicitInexact)) radix sign comp
          (r.spelling ++ (x.exponentSpelling ++ rest)) =
            continued parseComplex (exactness.or (some .implicitInexact)) sign comp radix rest
              (finishReal sign (exactness.or (some .implicitInexact)) x.integer x.rexponent radix (x.base rest) x.bexponent) := by
        rw [FloatForm.integer, integer, ← two]
        obtain ⟨ds, sharps⟩ := r
        cases ds with
        | nil => exact absurd digits some_digit
        | cons d ds =>
          have spelled : Run.spelling ⟨d :: ds, sharps⟩ ++ (x.exponentSpelling ++ rest) =
              d.char :: (Run.spelling ⟨ds, sharps⟩ ++ (x.exponentSpelling ++ rest)) := rfl
          rw [spelled, parseDotted1, parseDotted2, d.is]
          simp
      rw [FloatForm.spelling, empty, FloatForm.fractionSpelling, fraction, nil_append, append_assoc, cons_append, ← one]
      have point_other : charToDigit '.'.toNat radix = none := charToDigit_of_lt (by decide) radix
      cases sign with
      | none =>
        have pointed : some radix = none ∨ some radix = some 10 ∨ some radix = some 16 :=
          .inr ((allowed.resolve_left fun signed => signed rfl).imp (congrArg some) (congrArg some))
        simp only [signSpelling, nil_append, parseTopLevelWith, (by decide : sign? '.'.toNat = none), if_true, if_pos pointed,
          getD_some]
      | some sign =>
        simp only [signSpelling, singleton_append, parseTopLevelWith, sign?_eq_some.mpr rfl, findLeader, getD_some,
          point_other, if_true]
  · rw [FloatForm.spelling, append_assoc, append_assoc, ← append_assoc x.fractionSpelling,
      parseTopLevelWith_run parseComplex exactness comp sign leading (whole_stops known wellFormed)]
    cases fraction : x.fraction with
    | some r =>
      have point : x.fractionSpelling ++ x.exponentSpelling ++ rest = '.'.toNat :: (r.spelling ++ (x.exponentSpelling ++ rest)) := by
        rw [FloatForm.fractionSpelling, fraction, append_assoc, cons_append]
      rw [point]
      simp only [afterDigits, if_neg (by decide : '.'.toNat ≠ '/'.toNat), if_true]
      by_cases unsharp : x.whole.sharps = 0
      · rw [if_neg (by rw [decide_eq_true_eq]; exact fun sharp => sharp unsharp), Run.exactness, inexact]
        exact parseDotted2_fraction parseComplex _ comp known wellFormed stops fraction unsharp _
      · rw [if_pos (decide_eq_true unsharp), Run.exactness, if_neg unsharp]
        exact parseDotted3_fraction parseComplex _ comp known wellFormed stops fraction unsharp _
    | none =>
      have digits : x.fractionDigits = [] := by
        rw [FloatForm.fractionDigits, fraction]
        rfl
      have integer : x.integer = x.whole.value 0 := by
        rw [FloatForm.integer, digits]
        rfl
      have rexponent : x.rexponent = 0 := by
        rw [FloatForm.rexponent, digits]
        rfl
      cases exponent : x.exponent with
      | none => exact absurd (wellFormed.parts.resolve_left fun some => some fraction) fun some => some exponent
      | some e =>
        have spelled : x.fractionSpelling ++ x.exponentSpelling ++ rest = e.marker :: (e.tail ++ rest) := by
          rw [FloatForm.fractionSpelling, fraction, FloatForm.exponentSpelling, exponent]
          rfl
        have stops : NoDigit rest := by rwa [FloatForm.Stops, exponent] at stops
        have result := @parseExponent1_before parseComplex (exactness.or (some .implicitInexact)) radix sign comp _ e rest stops x.integer 0
          e.base
        have base : x.base rest = e.base := by rw [FloatForm.base, exponent]
        have bexponent : x.bexponent = e.value := by rw [FloatForm.bexponent, exponent, map_some, getD_some]
        rw [spelled, rexponent, base, bexponent, ← result, integer, afterDigits_exponent, Run.exactness, inexact]
        exact wellFormed.ten e exponent

end

end MitScheme.Runtime.NumberParser
