import MitScheme.Runtime.NumberParser.BinaryLiterals

namespace MitScheme.Runtime.NumberParser

open Library Microcode Arithmetic List

/-- The integer is made a finite flonum. One whose length the microcode loses is made some flonum, which may be. -/
def MadeFinite (n : ℕ) : Prop := n < Bignum.overflowBound ∨ ¬Counted n ∧ Convertible n

theorem madeFinite_iff {n : ℕ} : MadeFinite n ↔ Convertible n := by
  unfold MadeFinite
  by_cases counted : Counted n
  · rw [convertible_iff counted, or_iff_left fun wide => wide.1 counted]
  · have large : ¬n < Bignum.overflowBound := fun small => counted (counted_of_small (small.trans_le overflowBound_bounds.2))
    rw [or_iff_right large, and_iff_right counted]

section
variable {radix base n : ℕ} {rexponent bexponent : ℤ} {sign : Option Sign} {exactness : Option Exactness}

theorem shortcut_ok_iff (power : radix ∈ [2, 8, 16]) (power' : base ∈ [2, 8, 16]) :
    (∃ x, shortcut sign n rexponent radix base bexponent = .ok x) ↔ FixnumExponents rexponent radix base bexponent ∧ MadeFinite n := by
  rw [shortcut_eq, madeFinite_iff]
  by_cases fixnums : FixnumExponents rexponent radix base bexponent
  · rw [binaryExponent_ok power power' fixnums, and_iff_right fixnums, ok_then]
    by_cases converts : Convertible n
    · obtain ⟨x, converted, finite⟩ := converts
      rw [ldexp_convertible converted finite]
      exact iff_of_true ⟨_, rfl⟩ ⟨x, converted, finite⟩
    · obtain ⟨failure, stopped⟩ := ldexp_not_convertible converts (exponentOfTwo rexponent radix base bexponent)
      rw [stopped]
      exact iff_of_false (fun ok => nomatch ok.choose_spec) converts
  · obtain ⟨failure, stopped⟩ := binaryExponent_error fixnums
    rw [stopped]
    exact iff_of_false (fun ok => nomatch ok.choose_spec) fun both => fixnums both.1

theorem not_powerOfTwo_ten : ¬powerOfTwo 10 = true := by decide

/-- The number is made by the shortcut. -/
def FloatForm.Shortcut (x : FloatForm radix) (given : Option Exactness) (rest : List ℕ) : Prop :=
  radix ≠ 10 ∧ x.Scaled rest ∧ given ≠ some .exact

theorem finishReal_ok_iff {given : Option Exactness} {x : FloatForm radix} {rest : List ℕ} (known : radix ∈ [2, 8, 10, 16])
    (wellFormed : x.WellFormed sign) :
    (∃ y, finishReal sign (given.or (some .implicitInexact)) x.integer x.rexponent radix (x.base rest) x.bexponent = .ok y) ↔
      (x.Shortcut given rest → FixnumExponents x.rexponent radix (x.base rest) x.bexponent ∧ MadeFinite x.integer) ∧
        (¬x.Shortcut given rest → Shiftable radix x.rexponent ∧ Shiftable (x.base rest) x.bexponent) := by
  by_cases short : x.Shortcut given rest
  · obtain ⟨ten, scaled, inexact⟩ := short
    have power : radix ∈ [2, 8, 16] := by
      simp only [mem_cons, not_mem_nil, or_false] at known ⊢
      omega
    have base := FloatForm.base_scaled power wellFormed scaled
    rw [finishReal_scaled power base (isInexact_given inexact), shortcut_ok_iff power base]
    exact ⟨fun all => ⟨fun _ => all, fun other => absurd ⟨ten, scaled, inexact⟩ other⟩, fun all => all.1 ⟨ten, scaled, inexact⟩⟩
  · rw [iff_true_intro (fun is => absurd is short), true_and, imp_iff_right short]
    by_cases fast : radix = 10 ∧ x.base rest = 10 ∧ isInexact (given.or (some .implicitInexact)) = true
    · obtain ⟨rfl, base, inexact⟩ := fast
      rw [base, finishReal_decimal sign inexact]
      have ten : ∀ e, Shiftable 10 e := shiftable_of_ne (by decide)
      refine iff_of_true ?_ ⟨ten _, ten _⟩
      cases exactFlonumPowersOf10[(x.rexponent + x.bexponent).natAbs]? with
      | none => exact highPrecisionMethod_ok_iff.mpr ⟨ten _, ten _⟩
      | some powerOf10 =>
        cases integerToFlonum x.integer with
        | none => exact highPrecisionMethod_ok_iff.mpr ⟨ten _, ten _⟩
        | some y => exact ⟨_, rfl⟩
    · have slow : ¬(powerOfTwo radix = true ∧ powerOfTwo (x.base rest) = true ∧
          isInexact (given.or (some .implicitInexact)) = true) := by
        rintro ⟨first, second, inexact⟩
        refine short ⟨?_, ?_, ?_⟩
        · rintro rfl
          exact not_powerOfTwo_ten first
        · by_contra unscaled
          rw [FloatForm.base_not_scaled unscaled] at second
          exact not_powerOfTwo_ten second
        · rintro rfl
          exact absurd inexact (by decide)
      rw [finishReal_slow fast slow, highPrecisionMethod_ok_iff]

theorem DigitChar.read_eq_zero (positive : 0 < radix) (integer : ℕ) (ds : List (DigitChar radix)) :
    DigitChar.read integer ds = 0 ↔ integer = 0 ∧ ∀ d ∈ ds, d.digit = 0 := by
  induction ds generalizing integer with
  | nil => simp [DigitChar.read]
  | cons d ds ih =>
    have first : DigitChar.read integer (d :: ds) = DigitChar.read (integer * radix + d.digit) ds := rfl
    rw [first, ih, Nat.add_eq_zero_iff, mul_eq_zero, or_iff_left positive.ne', and_assoc, forall_mem_cons]

theorem Run.value_eq_zero (positive : 0 < radix) (r : Run radix) : r.value 0 = 0 ↔ ∀ d ∈ r.digits, d.digit = 0 := by
  rw [Run.value, mul_eq_zero, or_iff_left (Nat.pow_pos positive).ne', DigitChar.read_eq_zero positive, and_iff_right rfl]

theorem finishNan_error_iff {given : Option Exactness} {quiet : Bool} {payload : ℕ} :
    (∃ failure, finishNan sign given quiet payload = .error failure) ↔ given ≠ some .exact ∧ 2 ^ 51 ≤ payload := by
  unfold finishNan Flonum.makeNan
  by_cases small : payload < 2 ^ 51
  · refine iff_of_false ?_ fun large => absurd small (not_lt.mpr large.2)
    rintro ⟨failure, stopped⟩
    split at stopped
    · rename_i made
      rw [Bool.and_eq_true, Bool.or_eq_true, decide_eq_true_eq] at made
      rw [if_neg fun none => made.1.elim (fun is => by rw [none.1] at is; cases is) fun some => some none.2] at stopped
      cases stopped
    · cases stopped
  · rw [dif_neg small]
    by_cases exact : given = some .exact
    · refine iff_of_false ?_ fun large => large.1 exact
      rintro ⟨failure, stopped⟩
      rw [exact, if_neg (by simp)] at stopped
      cases stopped
    · have payload_ne : payload ≠ 0 := by
        rintro rfl
        exact small (by decide)
      rw [if_pos (by simp [payload_ne, exact])]
      exact iff_of_true ⟨_, rfl⟩ ⟨exact, not_lt.mp small⟩

end

theorem made_of_map {x : Except Failure Number} (no_error : ¬∃ failure, x.map some = .error failure) : ∃ y, x.map some = .ok (some y) := by
  cases x with
  | error failure => exact absurd ⟨failure, rfl⟩ no_error
  | ok y => exact ⟨y, rfl⟩

namespace Form

variable {radix : ℕ}

/-- A denominator of zeros, a payload that is too large for a NaN, an exponent of two whose integer is too large for a
flonum, or that is not a fixnum, or, outside of the shortcut, a power of two whose exponent is not a word. -/
def Faulty (given : Option Exactness) (rest : List ℕ) : Form radix → Prop
  | integer _ => False
  | ratio _ denominator => ∀ d ∈ denominator.digits, d.digit = 0
  | float x => x.Shortcut given rest ∧ ¬(FixnumExponents x.rexponent radix (x.base rest) x.bexponent ∧ MadeFinite x.integer) ∨
      ¬x.Shortcut given rest ∧ ¬(Shiftable radix x.rexponent ∧ Shiftable (x.base rest) x.bexponent)
  | infinity _ => False
  | nan _ _ payload => given ≠ some .exact ∧ 2 ^ 51 ≤ DigitChar.read 0 payload

/-- Infinities and NaNs are not exact, and a signalling NaN has a payload. -/
def Accepted (given : Option Exactness) : Form radix → Prop
  | infinity _ => given ≠ some .exact
  | nan quiet _ payload => given ≠ some .exact ∧ (quiet = true ∨ DigitChar.read 0 payload ≠ 0)
  | _ => True

variable {form : Form radix} {given : Option Exactness} {sign : Option Sign} {rest : List ℕ}

theorem value_error_iff (known : radix ∈ [2, 8, 10, 16]) (wellFormed : form.WellFormed sign) :
    (∃ failure, form.value given sign rest = .error failure) ↔ form.Faulty given rest := by
  have positive : 0 < radix := by
    simp only [mem_cons, not_mem_nil, or_false] at known
    omega
  cases form with
  | integer whole => exact iff_of_false (fun stopped => by cases stopped.choose_spec) id
  | ratio numerator denominator =>
    rw [Faulty, ← Run.value_eq_zero positive, value, finishRational]
    by_cases zero : denominator.value 0 = 0
    · rw [if_pos zero]
      exact iff_of_true ⟨_, rfl⟩ zero
    · rw [if_neg zero]
      exact iff_of_false (fun stopped => by cases stopped.choose_spec) zero
  | float x =>
    have ok := @finishReal_ok_iff radix sign given x rest known wellFormed
    rw [value]
    generalize finishReal sign (given.or (some .implicitInexact)) x.integer x.rexponent radix (x.base rest) x.bexponent = real at ok ⊢
    cases real with
    | error failure =>
      refine iff_of_true ⟨failure, rfl⟩ ?_
      have stopped := mt ok.mpr fun made => by cases made.choose_spec
      by_cases short : x.Shortcut given rest
      · exact .inl ⟨short, fun both => stopped ⟨fun _ => both, fun other => absurd short other⟩⟩
      · exact .inr ⟨short, fun both => stopped ⟨fun is => absurd is short, fun _ => both⟩⟩
    | ok y =>
      refine iff_of_false (fun stopped => by cases stopped.choose_spec) ?_
      obtain ⟨shortcut, slow⟩ := ok.mp ⟨y, rfl⟩
      rintro (⟨short, fails⟩ | ⟨other, fails⟩)
      · exact fails (shortcut short)
      · exact fails (slow other)
  | infinity spelled => exact iff_of_false (fun stopped => by cases stopped.choose_spec) id
  | nan quiet spelled payload => exact finishNan_error_iff

theorem accepted_of_value {x : Number} (made : form.value given sign rest = .ok (some x)) : form.Accepted given := by
  cases form with
  | integer | ratio | float => trivial
  | infinity spelled =>
    intro exact
    rw [value, if_pos exact] at made
    cases made
  | nan quiet spelled payload =>
    have made : finishNan sign given quiet (DigitChar.read 0 payload) = .ok (some x) := made
    unfold finishNan at made
    split at made
    · rename_i test
      have proper : given ≠ some .exact ∧ (quiet = true ∨ DigitChar.read 0 payload ≠ 0) := by simpa [and_comm] using test
      exact proper
    · cases made

theorem value_of_accepted (known : radix ∈ [2, 8, 10, 16]) (wellFormed : form.WellFormed sign) (accepts : form.Accepted given)
    (sound : ¬form.Faulty given rest) : ∃ x, form.value given sign rest = .ok (some x) := by
  have no_error := mt (value_error_iff known wellFormed).mp sound
  cases form with
  | integer whole => exact ⟨_, rfl⟩
  | ratio numerator denominator => exact made_of_map no_error
  | float x => exact made_of_map no_error
  | infinity spelled => exact ⟨_, congrArg Except.ok (if_neg accepts)⟩
  | nan quiet spelled payload =>
    have made : ¬∃ failure, finishNan sign given quiet (DigitChar.read 0 payload) = .error failure := no_error
    have proper : given ≠ some .exact ∧ (quiet = true ∨ DigitChar.read 0 payload ≠ 0) := accepts
    have test : ((quiet || DigitChar.read 0 payload ≠ 0) && given ≠ some .exact) = true := by simpa [and_comm] using proper
    have result : ∃ x, finishNan sign given quiet (DigitChar.read 0 payload) = .ok (some x) := by
      unfold finishNan at made ⊢
      rw [if_pos test] at made ⊢
      generalize Flonum.makeNan (sign = some .minus) quiet (DigitChar.read 0 payload) = nan at made ⊢
      cases nan with
      | error error => exact absurd ⟨_, rfl⟩ made
      | ok nan => exact ⟨_, rfl⟩
    exact result

end Form

section
variable (radix : ℕ) (given : Option Exactness)

/-- The string begins with a number that cannot be made. A number that would be an imaginary part without an `i` is not
made. -/
def FaultyPart (comp : Comp) (s : List ℕ) : Prop :=
  ∃ (sign : Option Sign) (form : Form radix) (rest : List ℕ), form.WellFormed sign ∧ form.Stops rest ∧
    s = signSpelling sign ++ (form.spelling ++ rest) ∧ form.Faulty given rest ∧ ¬(comp = .imag ∧ rest = [] ∧ form.isFloat)

/-- The number cannot be made, or the imaginary part or the angle that follows it. -/
def FaultyNumber (s : List ℕ) : Prop :=
  FaultyPart radix given .real s ∨
    ∃ (sign : Option Sign) (form : Form radix) (rest : List ℕ), form.WellFormed sign ∧ form.Stops rest ∧
      s = signSpelling sign ++ (form.spelling ++ rest) ∧ form.Accepted given ∧
      ((∃ (sign : Sign) (t : List ℕ), rest = sign.char :: t ∧ FaultyPart radix given .imag rest) ∨
        ∃ t : List ℕ, rest = '@'.toNat :: t ∧ FaultyPart radix given .angle t)

end

section
variable (trig : Trigonometry) {radix : ℕ} {given : Option Exactness} {comp : Comp} {s : List ℕ}

theorem parseComplex_part (part : comp ≠ .real) (rest : List ℕ) (x : Number) (exactness : Option Exactness) (radix : ℕ)
    (sign : Option Sign) : parseComplex trig comp rest x exactness radix sign = rejected ∨
      parseComplex trig comp rest x exactness radix sign = accepted x := by
  cases rest with
  | nil =>
    rw [parseComplex_atEnd, ended]
    split
    · exact .inl rfl
    · exact .inr rfl
  | cons char s =>
    unfold parseComplex parseComplexWith afterReal
    simp only
    split
    · split
      · exact .inl rfl
      · cases comp with
        | real => exact absurd rfl part
        | imag => exact .inr rfl
        | angle => exact .inl rfl
    · exact .inl rfl

theorem read_error_iff {K : List ℕ → Number → Option Exactness → ℕ → Option Sign → Parsed} {form : Form radix}
    {sign : Option Sign} {rest : List ℕ} (known : radix ∈ [2, 8, 10, 16]) (wellFormed : form.WellFormed sign)
    (atEnd : ∀ x exactness radix sign, ∃ result, K [] x exactness radix sign = .ok result) :
    (∃ failure, form.read K given sign comp rest = .error failure) ↔ form.Faulty given rest ∧
    ¬(comp = .imag ∧ rest = [] ∧ form.isFloat) ∨ ∃ x, form.value given sign rest = .ok (some x) ∧ rest ≠ [] ∧ ∃ failure,
    K rest x (form.exactness given) radix sign = .error failure := by
  unfold Form.read
  by_cases skipped : comp = .imag ∧ rest = [] ∧ form.isFloat = true
  · rw [if_pos skipped]
    refine iff_of_false (fun stopped => nomatch stopped.choose_spec) ?_
    rintro (⟨-, made⟩ | ⟨x, -, more, -⟩)
    · exact made skipped
    · exact more skipped.2.1
  · rw [if_neg skipped, and_iff_left skipped, ← Form.value_error_iff known wellFormed]
    cases value : form.value given sign rest with
    | error failure => exact iff_of_true ⟨failure, rfl⟩ (.inl ⟨failure, rfl⟩)
    | ok made =>
      rw [ok_then]
      cases made with
      | none =>
        refine iff_of_false (fun stopped => nomatch stopped.choose_spec) ?_
        rintro (⟨failure, is⟩ | ⟨x, is, -⟩) <;> exact nomatch is
      | some x =>
        have only : (∃ failure, (.ok (some x) : Except Failure (Option Number)) = .error failure) ↔ False :=
          iff_of_false (fun stopped => nomatch stopped.choose_spec) id
        rw [only, false_or]
        simp only [Except.ok.injEq, Option.some.injEq]
        constructor
        · rintro ⟨failure, stopped⟩
          rw [Form.passOn] at stopped
          split at stopped
          · exact nomatch stopped
          · refine ⟨x, rfl, ?_, failure, stopped⟩
            rintro rfl
            obtain ⟨result, ok⟩ := atEnd x (form.exactness given) radix sign
            rw [ok] at stopped
            exact nomatch stopped
        · rintro ⟨y, rfl, more, failure, stopped⟩
          refine ⟨failure, ?_⟩
          rw [Form.passOn, if_neg fun empty => more empty.1]
          exact stopped

theorem ended_ok (comp : Comp) (x : Number) : ∃ result, ended comp (.ok x) = .ok result := by
  unfold ended
  split <;> exact ⟨_, rfl⟩

theorem signedUnit_cases (comp : Comp) (s : List ℕ) (sign : Sign) : signedUnit comp s sign = rejected ∨
    (∃ x, signedUnit comp s sign = accepted x) ∨ comp = .real ∧ ∃ v, signedUnit comp s sign = .ok (some v) := by
  by_cases more : s ≠ []
  · exact .inl (if_pos more)
  · unfold signedUnit
    simp only [if_neg more]
    cases comp with
    | real => exact .inr (.inr ⟨rfl, _, rfl⟩)
    | imag => exact .inr (.inl ⟨_, rfl⟩)
    | angle => exact .inl rfl

theorem signedUnit_ok (comp : Comp) (s : List ℕ) (sign : Sign) : ∃ result, signedUnit comp s sign = .ok result := by
  rcases signedUnit_cases comp s sign with rejects | ⟨x, accepts⟩ | ⟨-, v, accepts⟩
  · exact ⟨_, rejects⟩
  · exact ⟨_, accepts⟩
  · exact ⟨_, accepts⟩

theorem parseTopLevel_error_iff (known : radix ∈ [2, 8, 10, 16]) :
    (∃ failure, parseTopLevel trig s given (some radix) comp = .error failure) ↔
      ∃ (sign : Option Sign) (form : Form radix) (rest : List ℕ), form.WellFormed sign ∧ form.Stops rest ∧
        s = signSpelling sign ++ (form.spelling ++ rest) ∧
        ∃ failure, form.read (parseComplex trig comp) given sign comp rest = .error failure := by
  have atEnd := parseComplex_atEnd trig comp
  constructor
  · rintro ⟨failure, stopped⟩
    rcases @begins_or_otherwise (parseComplex trig comp) given radix comp s with
      ⟨sign, t, split, form, rest, wellFormed, stops, spelled⟩ | (rejects | ⟨t, sign, unit⟩)
    · refine ⟨sign, form, rest, wellFormed, stops, by rw [split, spelled], failure, ?_⟩
      rw [← parseTopLevelWith_form given atEnd known wellFormed stops, ← spelled, ← split]
      exact stopped
    · rw [parseTopLevel, rejects] at stopped
      cases stopped
    · obtain ⟨result, ok⟩ := signedUnit_ok comp t sign
      rw [parseTopLevel, unit, ok] at stopped
      cases stopped
  · rintro ⟨sign, form, rest, wellFormed, stops, rfl, failure, stopped⟩
    exact ⟨failure, (parseTopLevelWith_form given atEnd known wellFormed stops).trans stopped⟩

theorem part_error_iff (known : radix ∈ [2, 8, 10, 16]) (part : comp ≠ .real) :
    (∃ failure, parseTopLevel trig s given (some radix) comp = .error failure) ↔ FaultyPart radix given comp s := by
  have passes : ∀ (rest : List ℕ) (x : Number) (exactness : Option Exactness) (radix : ℕ) (sign : Option Sign),
      ∃ result, parseComplex trig comp rest x exactness radix sign = .ok result := by
    intro rest x exactness radix sign
    rcases parseComplex_part trig part rest x exactness radix sign with rejects | accepts
    · exact ⟨_, rejects⟩
    · exact ⟨_, accepts⟩
  rw [parseTopLevel_error_iff trig known]
  refine exists_congr fun sign => exists_congr fun form => exists_congr fun rest => and_congr_right fun wellFormed =>
    and_congr_right fun _ => and_congr_right fun _ => ?_
  rw [read_error_iff known wellFormed fun x exactness radix sign => passes [] x exactness radix sign, or_iff_left]
  rintro ⟨x, -, -, failure, stopped⟩
  obtain ⟨result, ok⟩ := passes rest x (form.exactness given) radix sign
  rw [ok] at stopped
  exact nomatch stopped

theorem part_real (known : radix ∈ [2, 8, 10, 16]) (part : comp ≠ .real) {v : Value}
    (read : parseTopLevel trig s given (some radix) comp = .ok (some v)) : ∃ x, v = .real x := by
  have of_accepted : ∀ {x : Number}, accepted x = .ok (some v) → ∃ x, v = .real x := by
    intro x is
    exact ⟨x, (Option.some.inj (Except.ok.inj is)).symm⟩
  rcases @begins_or_otherwise (parseComplex trig comp) given radix comp s with
    ⟨sign, t, split, form, rest, wellFormed, stops, spelled⟩ | (rejects | ⟨t, sign, unit⟩)
  · rw [parseTopLevel, split, spelled, parseTopLevelWith_form given (parseComplex_atEnd trig comp) known wellFormed stops, Form.read] at read
    split at read
    · cases read
    · cases value : form.value given sign rest with
      | error failure =>
        rw [value] at read
        cases read
      | ok made =>
        rw [value, ok_then] at read
        cases made with
        | none => cases read
        | some x =>
          rw [Form.passOn] at read
          split at read
          · exact of_accepted read
          · rcases parseComplex_part trig part rest x (form.exactness given) radix sign with rejects | accepts
            · rw [rejects] at read
              cases read
            · exact of_accepted (accepts.symm.trans read)
  · rw [parseTopLevel, rejects] at read
    cases read
  · rw [parseTopLevel, unit] at read
    rcases signedUnit_cases comp t sign with rejects | ⟨x, accepts⟩ | ⟨real, -⟩
    · rw [rejects] at read
      cases read
    · exact of_accepted (accepts.symm.trans read)
    · exact absurd real part

theorem assert_error_iff {part : Parsed} (real : ∀ v, part = .ok (some v) → ∃ x, v = .real x) (expression : String)
    (made : Number → Value) : (∃ failure, (do
        match ← part with
        | none => rejected
        | some v =>
          let x ← assertReal expression v
          .ok (some (made x))) = .error failure) ↔ ∃ failure, part = .error failure := by
  rcases part with failure | (_ | v)
  · exact iff_of_true ⟨failure, rfl⟩ ⟨failure, rfl⟩
  · exact iff_of_false (fun stopped => nomatch stopped.choose_spec) fun stopped => nomatch stopped.choose_spec
  · obtain ⟨x, rfl⟩ := real v rfl
    exact iff_of_false (fun stopped => nomatch stopped.choose_spec) fun stopped => nomatch stopped.choose_spec

/-- The rest of the string after a real number: it gives an error if it begins with an imaginary part or an angle that
does. -/
theorem parseComplex_error_iff (known : radix ∈ [2, 8, 10, 16]) {exactness : Option Exactness} (sign : Option Sign) (x : Number)
    (rest : List ℕ) (same : (if exactness = some .implicitInexact then none else exactness) = given) :
    (∃ failure, parseComplex trig .real rest x exactness radix sign = .error failure) ↔
      (∃ (sign : Sign) (t : List ℕ), rest = sign.char :: t ∧ FaultyPart radix given .imag rest) ∨
        ∃ t : List ℕ, rest = '@'.toNat :: t ∧ FaultyPart radix given .angle t := by
  cases rest with
  | nil =>
    refine iff_of_false (fun stopped => ?_) ?_
    · obtain ⟨_, stopped⟩ := stopped
      cases stopped
    · rintro (⟨_, _, is, -⟩ | ⟨_, is, -⟩) <;> cases is
  | cons char t =>
    have imaginary_real : ∀ v, parseTopLevel trig (char :: t) given (some radix) .imag = .ok (some v) → ∃ y, v = .real y := fun v =>
      part_real trig known (by decide)
    have angle_real : ∀ v, parseTopLevel trig t given (some radix) .angle = .ok (some v) → ∃ y, v = .real y := fun v =>
      part_real trig known (by decide)
    rw [parseComplex_eq, parseComplexWith, same]
    unfold afterReal
    by_cases unit : isI char = true
    · rw [if_pos unit]
      refine iff_of_false (fun stopped => ?_) ?_
      · obtain ⟨failure, stopped⟩ := stopped
        split at stopped <;> cases stopped
      · rintro (⟨sign, _, is, -⟩ | ⟨_, is, -⟩)
        · rw [head_eq_of_cons_eq is] at unit
          cases sign <;> exact absurd unit (by decide)
        · rw [head_eq_of_cons_eq is] at unit
          exact absurd unit (by decide)
    · rw [if_neg unit]
      cases signed : sign? char with
      | some sign' =>
        have is := sign?_eq_some.mp signed
        rw [if_pos Option.isSome_some]
        refine (assert_error_iff imaginary_real "(real? imaginary)" (makeRectangular x)).trans ?_
        rw [part_error_iff trig known (by decide)]
        refine ⟨fun faulty => .inl ⟨sign', t, by rw [is], faulty⟩, ?_⟩
        rintro (⟨_, _, -, faulty⟩ | ⟨_, at_sign, -⟩)
        · exact faulty
        · have unsigned : sign? '@'.toNat = none := by decide
          rw [head_eq_of_cons_eq at_sign] at signed
          cases unsigned.symm.trans signed
      | none =>
        rw [if_neg (by decide)]
        have unsigned : ¬∃ (sign : Sign) (t' : List ℕ), char :: t = sign.char :: t' ∧ FaultyPart radix given .imag (char :: t) := by
          rintro ⟨sign', _, is, -⟩
          rw [head_eq_of_cons_eq is, sign?_eq_some.mpr rfl] at signed
          cases signed
        rw [or_iff_right unsigned]
        by_cases at_sign : char = '@'.toNat
        · rw [if_pos at_sign]
          refine (assert_error_iff angle_real "(real? angle)" (makePolar trig x)).trans ?_
          rw [part_error_iff trig known (by decide)]
          refine ⟨fun faulty => ⟨t, by rw [at_sign], faulty⟩, ?_⟩
          rintro ⟨t', is, faulty⟩
          rw [tail_eq_of_cons_eq is]
          exact faulty
        · rw [if_neg at_sign]
          refine iff_of_false (fun stopped => by cases stopped.choose_spec) ?_
          rintro ⟨_, is, -⟩
          exact at_sign (head_eq_of_cons_eq is)

section
variable (marked : given ≠ some .implicitInexact)
include marked

theorem or_implicit :
    (if given.or (some .implicitInexact) = some .implicitInexact then none else given.or (some .implicitInexact)) = given := by
  rcases given with _ | (_ | _ | _)
  · rfl
  · rfl
  · rfl
  · exact absurd rfl marked

theorem Run.exactness_given (r : Run radix) {exactness : Option Exactness}
    (is : exactness = given ∨ exactness = given.or (some .implicitInexact)) :
    r.exactness exactness = given ∨ r.exactness exactness = given.or (some .implicitInexact) := by
  unfold Run.exactness
  rcases is with rfl | rfl
  · split
    · exact .inl rfl
    · exact .inr rfl
  · refine .inr ?_
    split
    · rfl
    · cases given <;> rfl

theorem exactness_given (form : Form radix) :
    (if form.exactness given = some .implicitInexact then none else form.exactness given) = given := by
  have cases : form.exactness given = given ∨ form.exactness given = given.or (some .implicitInexact) := by
    cases form with
    | integer whole => exact whole.exactness_given marked (.inl rfl)
    | ratio numerator denominator => exact denominator.exactness_given marked (numerator.exactness_given marked (.inl rfl))
    | float x => exact .inr rfl
    | infinity spelled => exact .inl rfl
    | nan quiet spelled payload => exact .inl rfl
  rcases cases with is | is
  · rw [is, if_neg marked]
  · rw [is]
    exact or_implicit marked

end

theorem number_error_iff (known : radix ∈ [2, 8, 10, 16]) (marked : given ≠ some .implicitInexact) :
    (∃ failure, parseTopLevel trig s given (some radix) .real = .error failure) ↔ FaultyNumber radix given s := by
  have atEnd : ∀ (x : Number) (exactness : Option Exactness) (radix : ℕ) (sign : Option Sign),
      ∃ result, parseComplex trig .real [] x exactness radix sign = .ok result := fun x _ _ _ => ended_ok .real x
  have real : ∀ (form : Form radix) (rest : List ℕ), ¬(.real = Comp.imag ∧ rest = [] ∧ form.isFloat = true) := fun _ _ skipped =>
    nomatch skipped.1
  rw [parseTopLevel_error_iff trig known]
  constructor
  · rintro ⟨sign, form, rest, wellFormed, stops, split, stopped⟩
    rcases (read_error_iff known wellFormed atEnd).mp stopped with faulty | ⟨x, made, -, stopped⟩
    · exact .inl ⟨sign, form, rest, wellFormed, stops, split, faulty⟩
    · refine .inr ⟨sign, form, rest, wellFormed, stops, split, Form.accepted_of_value made, ?_⟩
      exact (parseComplex_error_iff trig known sign x rest (exactness_given marked form)).mp stopped
  · rintro (⟨sign, form, rest, wellFormed, stops, split, faulty⟩ | ⟨sign, form, rest, wellFormed, stops, split, accepts, faulty⟩)
    · exact ⟨sign, form, rest, wellFormed, stops, split, (read_error_iff known wellFormed atEnd).mpr (.inl faulty)⟩
    · refine ⟨sign, form, rest, wellFormed, stops, split, (read_error_iff known wellFormed atEnd).mpr ?_⟩
      by_cases first : form.Faulty given rest
      · exact .inl ⟨first, real form rest⟩
      · obtain ⟨x, made⟩ := Form.value_of_accepted known wellFormed accepts first
        refine .inr ⟨x, made, ?_, (parseComplex_error_iff trig known sign x rest (exactness_given marked form)).mpr faulty⟩
        rcases faulty with ⟨_, _, is, -⟩ | ⟨_, is, -⟩ <;>
        · rw [is]
          exact cons_ne_nil _ _

def FaultyString (defaultRadix : ℕ) (s : List ℕ) : Prop :=
  ∃ (given : Option Exactness) (marked : Option ℕ) (body : List ℕ),
    Prefixed given marked body s none none ∧ FaultyNumber (marked.getD defaultRadix) given body

end

end MitScheme.Runtime.NumberParser
