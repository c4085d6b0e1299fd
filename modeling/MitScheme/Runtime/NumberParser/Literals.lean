import MitScheme.Runtime.NumberParser.Parser

namespace MitScheme.Runtime.NumberParser

open Library Arithmetic List Option

theorem charToDigit_of_lt {char : ℕ} (small : char < 48) (radix : ℕ) : charToDigit char radix = none := by
  rw [charToDigit_ascii (by omega), if_neg (by omega), if_neg (by omega), if_neg (by omega)]

theorem sign?_eq_some {char : ℕ} {sign : Sign} : sign? char = some sign ↔ char = sign.char := by
  unfold sign?
  cases sign with
  | plus =>
    split
    · rename_i plus
      exact iff_of_true rfl plus
    · rename_i other
      split
      · exact iff_of_false (by decide) other
      · exact iff_of_false (by decide) other
  | minus =>
    split
    · rename_i plus
      exact iff_of_false (by decide) (by rw [plus]; decide)
    · split
      · rename_i minus
        exact iff_of_true rfl minus
      · rename_i other
        exact iff_of_false (by decide) other

theorem Sign.char_lt (sign : Sign) : sign.char < 48 := by
  cases sign <;> decide

structure DigitChar (radix : ℕ) where
  char : ℕ
  digit : ℕ
  is : charToDigit char radix = some digit

namespace DigitChar

variable {radix : ℕ}

theorem lower (d : DigitChar radix) : 48 ≤ d.char := by
  by_contra small
  have none := charToDigit_of_lt (not_le.mp small) radix
  rw [d.is] at none
  exact nomatch none

theorem ne_of_lt (d : DigitChar radix) {char : ℕ} (small : char < 48) : d.char ≠ char :=
  (small.trans_le d.lower).ne'

theorem sign? (d : DigitChar radix) : sign? d.char = none := by
  cases signed : NumberParser.sign? d.char with
  | none => rfl
  | some sign => exact absurd (sign?_eq_some.mp signed) (d.ne_of_lt sign.char_lt)

def spelling (ds : List (DigitChar radix)) : List ℕ := ds.map char

def read (integer : ℕ) (ds : List (DigitChar radix)) : ℕ := ds.foldl (fun n d => n * radix + d.digit) integer

theorem read_append (integer : ℕ) (xs ys : List (DigitChar radix)) : read integer (xs ++ ys) = read (read integer xs) ys :=
  foldl_append

end DigitChar

section
variable {radix : ℕ} (exactness : Option Exactness) (ds : List (DigitChar radix)) (rest : List ℕ)

theorem parseDigits_spelling (integer : ℕ) : parseDigits exactness radix (DigitChar.spelling ds ++ rest) integer =
    parseDigits exactness radix rest (DigitChar.read integer ds) := by
  induction ds generalizing integer with
  | nil => rfl
  | cons d ds ih =>
    rw [DigitChar.spelling, map_cons, cons_append, parseDigits, d.is]
    exact ih _

end

def signSpelling : Option Sign → List ℕ
  | none => []
  | some sign => [sign.char]

theorem parseTopLevelWith_digit (parseComplex : List ℕ → Number → Option Exactness → ℕ → Option Sign → Parsed)
    (sign : Option Sign) (exactness : Option Exactness) {radix : ℕ} (d : DigitChar radix) (s : List ℕ) (comp : Comp) :
    parseTopLevelWith parseComplex (signSpelling sign ++ d.char :: s) exactness (some radix) comp =
      parseInteger parseComplex exactness radix sign comp s d.digit := by
  cases sign with
  | none =>
    have point : d.char ≠ '.'.toNat := d.ne_of_lt (by decide)
    simp only [signSpelling, nil_append, parseTopLevelWith, d.sign?, if_neg point, getD_some, d.is]
  | some sign =>
    simp [signSpelling, parseTopLevelWith, sign?_eq_some.mpr rfl, findLeader, d.is]

theorem parsePrefix_none (trig : Trigonometry) {char : ℕ} (no_sharp : char ≠ '#'.toNat) (s : List ℕ)
    (exactness : Option Exactness) (radix defaultRadix : Option ℕ) :
    parsePrefix trig defaultRadix (char :: s) exactness radix =
      parseTopLevel trig (char :: s) exactness (radix.or defaultRadix) .real := by
  unfold parsePrefix
  exact if_neg no_sharp

theorem stringToNumber_eq (trig : Trigonometry) (s : List ℕ) {radix : ℕ} (known : radix ∈ [2, 8, 10, 16]) :
    stringToNumber trig s (some radix) = parsePrefix trig (some radix) s none none := by
  unfold stringToNumber parseNumber
  simp only [mem_cons, not_mem_nil, or_false] at known
  rcases known with rfl | rfl | rfl | rfl <;> simp

structure ExponentPart (markers : List ℕ) where
  marker : ℕ
  known : marker ∈ markers
  sign : Option Sign
  first : DigitChar 10
  digits : List (DigitChar 10)

namespace ExponentPart

variable {markers : List ℕ}

def tail (e : ExponentPart markers) : List ℕ := signSpelling e.sign ++ e.first.char :: DigitChar.spelling e.digits

def value (e : ExponentPart markers) : ℤ :=
  if e.sign = some .minus then -DigitChar.read e.first.digit e.digits else DigitChar.read e.first.digit e.digits

end ExponentPart

structure Literal (radix : ℕ) (markers : List ℕ) where
  sign : Option Sign
  whole : List (DigitChar radix)
  fraction : Option (List (DigitChar radix))
  exponent : Option (ExponentPart markers)
  some_digit : whole = [] → ∃ d ds, fraction = some (d :: ds)

namespace Literal

variable {radix : ℕ} {markers : List ℕ} (l : Literal radix markers)

def fractionSpelling : List ℕ :=
  match l.fraction with
  | none => []
  | some ds => '.'.toNat :: DigitChar.spelling ds

def exponentSpelling : List ℕ :=
  match l.exponent with
  | none => []
  | some e => e.marker :: e.tail

def spelling : List ℕ := signSpelling l.sign ++ DigitChar.spelling l.whole ++ l.fractionSpelling ++ l.exponentSpelling

def negative : Bool := l.sign = some .minus

def integer : ℕ := DigitChar.read 0 (l.whole ++ l.fraction.getD [])

def rexponent : ℤ := -((l.fraction.getD []).length : ℤ)

def bexponent : ℤ := (l.exponent.map ExponentPart.value).getD 0

/-- The magnitude that the literal stands for, exactly; the exponent is one of the base. -/
def magnitude (base : ℕ) : ℚ := l.integer * radix ^ l.rexponent * base ^ l.bexponent

end Literal

section
variable (parseComplex : List ℕ → Number → Option Exactness → ℕ → Option Sign → Parsed)
variable (exactness : Option Exactness) {radix : ℕ} (sign : Option Sign) (comp : Comp)

theorem parseDotted2_spelling (ds : List (DigitChar radix)) (rest : List ℕ) (integer : ℕ) (rexponent : ℤ) :
    parseDotted2 parseComplex exactness radix sign comp (DigitChar.spelling ds ++ rest) integer rexponent =
      parseDotted2 parseComplex exactness radix sign comp rest (DigitChar.read integer ds) (rexponent - ds.length) := by
  induction ds generalizing integer rexponent with
  | nil => rw [length_nil, Nat.cast_zero, sub_zero]; rfl
  | cons d ds ih =>
    rw [DigitChar.spelling, map_cons, cons_append, parseDotted2, d.is, length_cons, Nat.cast_succ, add_comm, ← sub_sub]
    exact ih _ _

theorem read_cons (d : DigitChar radix) (ds : List (DigitChar radix)) :
    DigitChar.read 0 (d :: ds) = DigitChar.read d.digit ds := by
  simp [DigitChar.read]

end

structure ExactnessMark where
  char : ℕ
  exactness : Exactness
  is : marker? char = some (.exactness exactness)

def prefixSpelling : Option ExactnessMark → List ℕ
  | none => []
  | some mark => ['#'.toNat, mark.char]

section
variable (trig : Trigonometry) {radix : ℕ} {markers : List ℕ} (l : Literal radix markers)

theorem Literal.spelling_cons : ∃ char s, l.spelling = char :: s ∧ char ≠ '#'.toNat := by
  unfold Literal.spelling
  cases l.sign with
  | some sign => exact ⟨_, _, rfl, by cases sign <;> decide⟩
  | none =>
    cases whole : l.whole with
    | cons d ds => exact ⟨_, _, rfl, d.ne_of_lt (by decide)⟩
    | nil =>
      obtain ⟨d, ds, fraction⟩ := l.some_digit whole
      simp only [Literal.fractionSpelling, fraction]
      exact ⟨_, _, rfl, by decide⟩

theorem stringToNumber_top (known : radix ∈ [2, 8, 10, 16]) (mark : Option ExactnessMark) :
    stringToNumber trig (prefixSpelling mark ++ l.spelling) (some radix) =
      parseTopLevel trig l.spelling (mark.map ExactnessMark.exactness) (some radix) .real := by
  obtain ⟨char, s, spelled, no_sharp⟩ := l.spelling_cons
  rw [stringToNumber_eq trig _ known, spelled]
  cases mark with
  | none => exact parsePrefix_none trig no_sharp s _ _ _
  | some mark =>
    have marked : parsePrefix trig (some radix) ('#'.toNat :: mark.char :: char :: s) none none =
        parsePrefix trig (some radix) (char :: s) (some mark.exactness) none := by
      rw [parsePrefix.eq_def]
      simp [mark.is]
    exact marked.trans (parsePrefix_none trig no_sharp s _ _ _)

end

def Before (stop : ℕ → Prop) : List ℕ → Prop
  | [] => True
  | char :: _ => stop char

theorem Before.mono {stop stop' : ℕ → Prop} {s : List ℕ} (before : Before stop s) (weaker : ∀ char, stop char → stop' char) :
    Before stop' s := by
  cases s with
  | nil => trivial
  | cons char s => exact weaker char before

structure Run (radix : ℕ) where
  digits : List (DigitChar radix)
  sharps : ℕ

namespace Run

variable {radix : ℕ} (r : Run radix)

def spelling : List ℕ := DigitChar.spelling r.digits ++ List.replicate r.sharps '#'.toNat

def value (integer : ℕ) : ℕ := DigitChar.read integer r.digits * radix ^ r.sharps

def exactness (exactness : Option Exactness) : Option Exactness :=
  if r.sharps = 0 then exactness else exactness.or (some .implicitInexact)

def Stops : List ℕ → Prop := Before fun char => char ≠ '#'.toNat ∧ (r.sharps = 0 → charToDigit char radix = none)

end Run

section
variable {radix : ℕ}

theorem parseSharps_replicate (k : ℕ) {rest : List ℕ} (stops : Before (· ≠ '#'.toNat) rest) (integer : ℕ) :
    parseSharps radix (List.replicate k '#'.toNat ++ rest) integer = (rest, integer * radix ^ k) := by
  induction k generalizing integer with
  | zero =>
    rw [pow_zero, mul_one]
    cases rest with
    | nil => rfl
    | cons char rest => exact if_neg stops
  | succ k ih =>
    rw [replicate_succ, cons_append, parseSharps, if_pos rfl, ih, pow_succ', mul_assoc]

theorem parseDigits_run (exactness : Option Exactness) (r : Run radix) {rest : List ℕ} (stops : r.Stops rest) (integer : ℕ) :
    parseDigits exactness radix (r.spelling ++ rest) integer =
      ⟨rest, r.value integer, r.exactness exactness, decide (r.sharps ≠ 0)⟩ := by
  obtain ⟨digits, sharps⟩ := r
  rw [Run.spelling, append_assoc, parseDigits_spelling]
  unfold Run.value Run.exactness
  cases sharps with
  | zero =>
    rw [replicate_zero, nil_append, pow_zero, mul_one]
    cases rest with
    | nil => rfl
    | cons char rest =>
      obtain ⟨no_sharp, other⟩ := stops
      rw [parseDigits, other rfl]
      exact if_neg no_sharp
  | succ k =>
    have other : charToDigit '#'.toNat radix = none := charToDigit_of_lt (by decide) radix
    have before : Before (· ≠ '#'.toNat) rest := .mono stops fun _ stop => stop.1
    rw [replicate_succ, cons_append, parseDigits, other]
    simp only [if_true, parseSharps_replicate k before, pow_succ', mul_assoc, Nat.succ_ne_zero, if_false, ne_eq, not_false_eq_true,
      decide_true]

theorem exists_digits (s : List ℕ) : ∃ (ds : List (DigitChar radix)) (rest : List ℕ),
    s = DigitChar.spelling ds ++ rest ∧ Before (fun char => charToDigit char radix = none) rest := by
  induction s with
  | nil => exact ⟨[], [], rfl, trivial⟩
  | cons char s ih =>
    cases is : charToDigit char radix with
    | none => exact ⟨[], char :: s, rfl, is⟩
    | some digit =>
      obtain ⟨ds, rest, split, before⟩ := ih
      exact ⟨⟨char, digit, is⟩ :: ds, rest, congrArg (char :: ·) split, before⟩

theorem exists_sharps (s : List ℕ) : ∃ (k : ℕ) (rest : List ℕ),
    s = List.replicate k '#'.toNat ++ rest ∧ Before (· ≠ '#'.toNat) rest := by
  induction s with
  | nil => exact ⟨0, [], rfl, trivial⟩
  | cons char s ih =>
    by_cases sharp : char = '#'.toNat
    · obtain ⟨k, rest, split, before⟩ := ih
      exact ⟨k + 1, rest, by rw [sharp, split]; rfl, before⟩
    · exact ⟨0, char :: s, rfl, sharp⟩

theorem exists_run (s : List ℕ) : ∃ (r : Run radix) (rest : List ℕ), s = r.spelling ++ rest ∧ r.Stops rest := by
  obtain ⟨ds, t, split, digits⟩ := @exists_digits radix s
  obtain ⟨k, rest, split', sharps⟩ := exists_sharps t
  refine ⟨⟨ds, k⟩, rest, by rw [Run.spelling, append_assoc, ← split', split], ?_⟩
  cases rest with
  | nil => trivial
  | cons char rest =>
    refine ⟨sharps, fun none => ?_⟩
    subst none
    rw [split'] at digits
    exact digits

end

def powerMarkers : List ℕ := "pP".toList.map Char.toNat

theorem mem_powerMarkers {char : ℕ} (power : isP char = true) : char ∈ powerMarkers := by
  have letters : char = 'p'.toNat ∨ char = 'P'.toNat := by simpa [isP] using power
  rcases letters with rfl | rfl <;> decide

abbrev AnyExponent := ExponentPart (exponentMarkers ++ powerMarkers)

def ExponentPart.base {markers : List ℕ} (e : ExponentPart markers) : ℕ := if exponentMarker e.marker then 10 else 2

section
variable (parseComplex : List ℕ → Number → Option Exactness → ℕ → Option Sign → Parsed)
variable (exactness : Option Exactness) {radix : ℕ} (sign : Option Sign) (comp : Comp)

/-- What is made of a number at the end of the string, or before the rest of it. -/
def continued (radix : ℕ) (rest : List ℕ) (x : Except Failure Number) : Parsed :=
  match rest with
  | [] => ended comp x
  | char :: s => x >>= fun real => parseComplex (char :: s) real exactness radix sign

abbrev NoDigit : List ℕ → Prop := Before fun char => charToDigit char 10 = none

theorem exponentDigits_before (ds : List (DigitChar 10)) {rest : List ℕ} (stops : NoDigit rest) (eint : ℕ) :
    exponentDigits (DigitChar.spelling ds ++ rest) eint = (rest, DigitChar.read eint ds) := by
  induction ds generalizing eint with
  | nil =>
    cases rest with
    | nil => rfl
    | cons char rest =>
      have other : charToDigit char 10 = none := stops
      rw [DigitChar.spelling, map_nil, nil_append, exponentDigits, other]
      rfl
  | cons d ds ih =>
    rw [DigitChar.spelling, map_cons, cons_append, exponentDigits, d.is]
    exact ih _

theorem continueExponent_eq (rest : List ℕ) (integer : ℕ) (rexponent : ℤ) (base eint : ℕ) (esign : Option Sign) :
    continueExponent parseComplex exactness radix sign comp rest integer rexponent base eint esign =
      continued parseComplex exactness sign comp radix rest
        (finishReal sign exactness integer rexponent radix base (if esign = some .minus then -eint else eint)) := by
  cases rest <;> rfl

theorem parseExponent1_before {markers : List ℕ} (e : ExponentPart markers) {rest : List ℕ} (stops : NoDigit rest) (integer : ℕ)
    (rexponent : ℤ) (base : ℕ) :
    parseExponent1 parseComplex exactness radix sign comp (e.tail ++ rest) integer rexponent base =
      continued parseComplex exactness sign comp radix rest
        (finishReal sign exactness integer rexponent radix base e.value) := by
  have digits : ∀ esign : Option Sign, getDigits parseComplex exactness radix sign comp
      (e.first.char :: (DigitChar.spelling e.digits ++ rest)) integer rexponent base esign =
        continued parseComplex exactness sign comp radix rest (finishReal sign exactness integer rexponent radix base
          (if esign = some .minus then -DigitChar.read e.first.digit e.digits else DigitChar.read e.first.digit e.digits)) := by
    intro esign
    simp [getDigits, e.first.is, exponentDigits_before e.digits stops, continueExponent_eq]
  unfold ExponentPart.tail ExponentPart.value
  cases e.sign with
  | none =>
    simp only [signSpelling, nil_append, cons_append, parseExponent1, e.first.sign?]
    exact digits none
  | some esign =>
    simp only [signSpelling, cons_append, parseExponent1, sign?_eq_some.mpr rfl]
    exact digits (some esign)

theorem exponent_cases {markers : List ℕ} {marker : ℕ} (known : marker ∈ markers) (s : List ℕ) :
    (∃ (e : ExponentPart markers) (rest : List ℕ), e.marker = marker ∧ s = e.tail ++ rest ∧ NoDigit rest) ∨
      ∀ (integer : ℕ) (rexponent : ℤ) (base : ℕ),
        parseExponent1 parseComplex exactness radix sign comp s integer rexponent base = rejected := by
  have digits : ∀ s : List ℕ, (∃ (first : DigitChar 10) (ds : List (DigitChar 10)) (rest : List ℕ),
      s = first.char :: (DigitChar.spelling ds ++ rest) ∧ NoDigit rest) ∨ ∀ (integer : ℕ) (rexponent : ℤ) (base : ℕ)
        (esign : Option Sign), getDigits parseComplex exactness radix sign comp s integer rexponent base esign = rejected := by
    intro s
    cases s with
    | nil => exact .inr fun _ _ _ _ => rfl
    | cons char s =>
      cases is : charToDigit char 10 with
      | none =>
        refine .inr fun _ _ _ _ => ?_
        rw [getDigits, is]
      | some digit =>
        obtain ⟨ds, rest, split, before⟩ := @exists_digits 10 s
        exact .inl ⟨⟨char, digit, is⟩, ds, rest, congrArg (char :: ·) split, before⟩
  cases s with
  | nil => exact .inr fun _ _ _ => rfl
  | cons char s =>
    cases signed : sign? char with
    | none =>
      rcases digits (char :: s) with ⟨first, ds, rest, split, before⟩ | rejects
      · exact .inl ⟨⟨marker, known, none, first, ds⟩, rest, rfl, split, before⟩
      · refine .inr fun integer rexponent base => ?_
        rw [parseExponent1, signed]
        exact rejects integer rexponent base none
    | some esign =>
      rcases digits s with ⟨first, ds, rest, split, before⟩ | rejects
      · refine .inl ⟨⟨marker, known, some esign, first, ds⟩, rest, rfl, ?_, before⟩
        rw [sign?_eq_some.mp signed, split]
        rfl
      · refine .inr fun integer rexponent base => ?_
        rw [parseExponent1, signed]
        exact rejects integer rexponent base (some esign)

end

end MitScheme.Runtime.NumberParser
