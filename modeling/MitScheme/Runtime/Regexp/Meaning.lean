import MitScheme.Runtime.Regexp.Sre

namespace MitScheme.Runtime.Regexp

open CharSets
open List (all_cons all_eq_true cons_ne_nil forall_mem_cons forall_mem_nil map_cons mem_flatMap mem_singleton)

theorem Sre.induct {P : Sre → Prop} (terminal : ∀ terminal, P (.terminal terminal))
    (or : ∀ sres, (∀ sre ∈ sres, P sre) → P (.or sres))
    (setOperation : ∀ operation sres, (∀ sre ∈ sres, P sre) → P (.setOperation operation sres))
    (operation : ∀ operation sres, (∀ sre ∈ sres, P sre) → P (.operation operation sres))
    (assertion : ∀ assertion, P (.assertion assertion))
    (within : ∀ scope sres, (∀ sre ∈ sres, P sre) → P (.within scope sres)) (sre : Sre) : P sre :=
  @Sre.rec P (fun sres => ∀ sre ∈ sres, P sre) terminal or setOperation operation assertion within
    (forall_mem_nil _) (fun _ _ first others => forall_mem_cons.mpr ⟨first, others⟩) sre

def pairChars : List Character → Set Character
  | low :: high :: string => {char | low.code ≤ char.code ∧ char.code ≤ high.code} ∪ pairChars string
  | _ => ∅

def specChars : RangeSpec → Set Character
  | .char char => {char}
  | .string string => pairChars string

section
variable (tables : Tables)

def terminalChars : Terminal → Set Character
  | .char char => {char}
  | .string string => {char | char ∈ string}
  | .charSet charSet _ => charSet.chars
  | .chars string => {char | char ∈ string}
  | .ranges specs => {char | ∃ spec ∈ specs, char ∈ specChars spec}
  | .name name => (nameToCharSet tables name).chars

def variants (set : Set Character) : Set Character :=
  {char | char ∈ set ∨ (∃ c ∈ set, mapped tables.upcase tables.changesWhenUpperCased c = char) ∨
    ∃ c ∈ set, mapped tables.downcase tables.changesWhenLowerCased c = char}

def limited (ascii : Bool) (set : Set Character) : Set Character :=
  if ascii then {char | char ∈ charSetAscii.chars ∧ char ∈ set} else set

/-- What `maybe-xform` makes of a set. -/
def transformed (ctx : Scopes) (set : Set Character) : Set Character :=
  if ctx.foldP then variants tables (limited ctx.asciiP set) else limited ctx.asciiP set

def wholeChars (ascii : Bool) : Set Character := (if ascii then charSetAscii else charSetUnicode tables.unicode).chars

def operate (ascii : Bool) (sets : List (Set Character)) : SetOperation → Set Character
  | .and => match sets with
    | [] => (charSetUnicode tables.unicode).chars
    | sets => {char | ∀ set ∈ sets, char ∈ set}
  | .difference => match sets with
    | [] => ∅
    | set :: sets => {char | char ∈ set ∧ ∀ other ∈ sets, char ∉ other}
  | .complement => {char | char ∈ wholeChars tables ascii ∧ ∀ set ∈ sets, char ∉ set}

section
variable (expand : Set Character → Set Character) (ascii : Bool)

mutual

/-- The set that an expression stands for, when the sets of its terminals are expanded. -/
def denote : Sre → Set Character
  | .terminal terminal => expand (terminalChars tables terminal)
  | .or sres => {char | ∃ set ∈ denoteEach sres, char ∈ set}
  | .setOperation operation sres => operate tables ascii (denoteEach sres) operation
  | .operation _ _ => ∅
  | .assertion _ => ∅
  | .within _ _ => ∅

def denoteEach : List Sre → List (Set Character)
  | [] => []
  | sre :: sres => denote sre :: denoteEach sres

end

end

/-- The set that an expression stands for in the context, when the sets of its terminals are expanded before
the context changes them. -/
def meaning (ctx : Scopes) (expand : Set Character → Set Character) (sre : Sre) : Set Character :=
  transformed tables ctx (denote tables (fun set => transformed tables ctx (expand set)) ctx.asciiP sre)

def folds (set : Set Character) : Set Character := {char | ∃ c ∈ set, tables.foldcase c = tables.foldcase char}

/-- The characters that the predicate of a set accepts when case is folded. -/
def ciAccepted (set : Set Character) : Set Character :=
  {char | ∃ c ∈ set, mapped tables.foldcase tables.changesWhenCaseFolded c = tables.foldcase char}

end

mutual

/-- Where case is folded, `w/case` and its like are not among the operands, and a difference has operands; elsewhere
`w/nocase` is not among them. -/
def plain (fold : Bool) : Sre → Bool
  | .terminal _ => true
  | .or sres => plainEach fold sres
  | .setOperation operation sres => !(fold && operation = .difference && sres.isEmpty) && plainEach fold sres
  | .operation _ _ => true
  | .assertion _ => true
  | .within scope sres => !fold && scope ≠ .wNocase && plainEach fold sres

def plainEach (fold : Bool) : List Sre → Bool
  | [] => true
  | sre :: sres => plain fold sre && plainEach fold sres

end

section
variable {tables : Tables} {ctx : Scopes} {sre : Sre} {sres : List Sre} {terminal : Terminal} {charSet : CharSet}
  {charSets : List CharSet} {char : Character} {fold : Bool}

@[simp] theorem plainEach_eq : plainEach fold sres = sres.all (plain fold) := by
  induction sres with
  | nil => rfl
  | cons sre sres ih => rw [plainEach, ih, all_cons]

@[simp] theorem validCsetSres_eq : validCsetSres tables sres = sres.all (validCsetSre tables) := by
  induction sres with
  | nil => rfl
  | cons sre sres ih => rw [validCsetSres, ih, all_cons]

@[simp] theorem validSres_eq : validSres tables sres = sres.all (validSre tables) := by
  induction sres with
  | nil => rfl
  | cons sre sres ih => rw [validSres, ih, all_cons]

@[simp] theorem denoteEach_eq {expand : Set Character → Set Character} {ascii : Bool} :
    denoteEach tables expand ascii sres = sres.map (denote tables expand ascii) := by
  induction sres with
  | nil => rfl
  | cons sre sres ih => rw [denoteEach, ih, map_cons]

theorem elementsToCharSet_spec (cpl : List Element) (parts : ∀ part, .charSet part ∉ cpl)
    (legal : ∀ element ∈ cpl, element.Legal) : ∃ charSet, elementsToCharSet cpl = .ok charSet ∧ Made charSet ∧
      ∀ char : Character, char ∈ charSet.chars ↔ ∃ element ∈ cpl, element.Covers char.code := by
  obtain ⟨charSet, returns, made, members⟩ := charSetStar_chars (fun part member => absurd member (parts part)) legal
  exact ⟨charSet, by rw [elementsToCharSet, returns]; rfl, made, members⟩

theorem charSetAscii_made : Made charSetAscii :=
  made_of_proper ⟨List.pairwise_pair.mpr (by decide), rfl, by simp [charCodeLimit]⟩

theorem charSetNewline_made : Made charSetNewline := (charsToCharSet_spec _).1

theorem nameToCharSet_made (name : CharSetName) : Made (nameToCharSet tables name) := by
  cases name with
  | any => exact charSetUnicode_made
  | nonl => exact (charSetDifference_spec charSetUnicode_made (by simpa using charSetNewline_made)).1
  | ascii => exact charSetAscii_made
  | _ => exact tables.property_made _

theorem pairRanges_spec {string : List Character} (ordered : orderedPairs string = true) :
    (∀ element ∈ pairRanges string, element.Legal ∧ ∀ part, element ≠ .charSet part) ∧
      ∀ char : Character, (∃ element ∈ pairRanges string, element.Covers char.code) ↔ char ∈ pairChars string := by
  induction string using orderedPairs.induct with
  | case1 low high string ih =>
    rw [orderedPairs, Bool.and_eq_true, decide_eq_true_eq] at ordered
    obtain ⟨legal, covers⟩ := ih ordered.2
    constructor
    · refine forall_mem_cons.mpr ⟨⟨⟨?_, ?_⟩, fun part same => by cases same⟩, legal⟩
      · exact high.small
      · exact ordered.1.trans (Nat.le_succ _)
    · intro char
      rw [pairRanges, List.exists_mem_cons_iff, covers]
      refine or_congr_left ?_
      change low.code ≤ char.code ∧ char.code < high.code + 1 ↔ _
      rw [Nat.lt_succ_iff]
      rfl
  | case2 => exact ⟨forall_mem_nil _, fun char => by simp [pairRanges, pairChars]⟩
  | case3 => cases ordered

theorem rangeSpecToRanges_spec {spec : RangeSpec} (valid : validRangeSpec tables spec = true) :
    (∀ element ∈ rangeSpecToRanges spec, element.Legal ∧ ∀ part, element ≠ .charSet part) ∧
      ∀ char : Character, (∃ element ∈ rangeSpecToRanges spec, element.Covers char.code) ↔ char ∈ specChars spec := by
  cases spec with
  | char c =>
    refine ⟨forall_mem_cons.mpr ⟨⟨trivial, fun part same => by cases same⟩, forall_mem_nil _⟩, ?_⟩
    intro char
    simp only [rangeSpecToRanges, mem_singleton, exists_eq_left, specChars, Set.mem_singleton_iff]
    exact ⟨fun same => character_ext same.symm, fun same => congrArg Character.code same.symm⟩
  | string string =>
    obtain ⟨legal, covers⟩ := pairRanges_spec valid
    simp only [rangeSpecToRanges, List.mem_reverse]
    exact ⟨legal, covers⟩

theorem covers_string {string : List Character} :
    (∃ element ∈ [Element.string string], element.Covers char.code) ↔ char ∈ string := by
  simp only [mem_singleton, exists_eq_left]
  constructor
  · rintro ⟨c, member, same⟩
    rwa [← character_ext same]
  · intro member
    exact ⟨char, member, rfl⟩

theorem terminalToCharSet_spec (valid : validTerminal tables terminal = true ∨ ∀ specs, terminal ≠ .ranges specs) :
    ∃ charSet, terminalToCharSet tables terminal = .ok charSet ∧ Made charSet ∧
      charSet.chars = terminalChars tables terminal := by
  have string_spec : ∀ string : List Character, ∃ charSet, elementsToCharSet [.string string] = .ok charSet ∧
      Made charSet ∧ charSet.chars = {char | char ∈ string} := by
    intro string
    obtain ⟨charSet, returns, made, members⟩ := elementsToCharSet_spec [.string string] (by simp)
      (by simp [Element.Legal])
    exact ⟨charSet, returns, made, Set.ext fun char => (members char).trans covers_string⟩
  cases terminal with
  | char c =>
    obtain ⟨charSet, returns, made, members⟩ := elementsToCharSet_spec [.char c] (by simp)
      (by simp [Element.Legal])
    refine ⟨charSet, returns, made, Set.ext fun char => (members char).trans ?_⟩
    simp only [mem_singleton, exists_eq_left]
    exact ⟨fun same => character_ext same.symm, fun same => congrArg Character.code same.symm⟩
  | string string => exact string_spec string
  | charSet charSet made => exact ⟨charSet, rfl, made, rfl⟩
  | chars string => exact string_spec string
  | ranges specs =>
    have valid : ∀ spec ∈ specs, validRangeSpec tables spec = true := by
      rcases valid with valid | other
      · exact all_eq_true.mp valid
      · exact absurd rfl (other specs)
    obtain ⟨charSet, returns, made, members⟩ := elementsToCharSet_spec (specs.flatMap rangeSpecToRanges)
      (by
        intro part member
        obtain ⟨spec, source, inside⟩ := mem_flatMap.mp member
        exact ((rangeSpecToRanges_spec (valid spec source)).1 _ inside).2 part rfl)
      (by
        intro element member
        obtain ⟨spec, source, inside⟩ := mem_flatMap.mp member
        exact ((rangeSpecToRanges_spec (valid spec source)).1 element inside).1)
    refine ⟨charSet, returns, made, Set.ext fun char => (members char).trans ?_⟩
    simp only [mem_flatMap]
    constructor
    · rintro ⟨element, ⟨spec, source, inside⟩, covers⟩
      exact ⟨spec, source, ((rangeSpecToRanges_spec (valid spec source)).2 char).mp ⟨element, inside, covers⟩⟩
    · rintro ⟨spec, source, inside⟩
      obtain ⟨element, member, covers⟩ := ((rangeSpecToRanges_spec (valid spec source)).2 char).mpr inside
      exact ⟨element, ⟨spec, source, member⟩, covers⟩
  | name name => exact ⟨_, rfl, nameToCharSet_made name, rfl⟩

theorem maybeXform_spec (tables : Tables) (ctx : Scopes) (made : Made charSet) : Made (maybeXform tables ctx charSet) ∧
    (maybeXform tables ctx charSet).chars = transformed tables ctx charSet.chars := by
  have pair : ∀ part ∈ [charSetAscii, charSet], Made part := by simpa using ⟨charSetAscii_made, made⟩
  have first : Made (if ctx.asciiP then charSetIntersection tables.unicode [charSetAscii, charSet] else charSet) ∧
      (if ctx.asciiP then charSetIntersection tables.unicode [charSetAscii, charSet] else charSet).chars =
        limited ctx.asciiP charSet.chars := by
    rw [limited]
    split
    · refine ⟨(charSetIntersection_spec pair).1, Set.ext fun char => ?_⟩
      rw [chars_intersection pair (cons_ne_nil _ _)]
      simp
    · exact ⟨made, rfl⟩
  rw [maybeXform, transformed]
  generalize (if ctx.asciiP then charSetIntersection tables.unicode [charSetAscii, charSet] else charSet) = limit at first
  obtain ⟨made', chars⟩ := first
  split
  · obtain ⟨up, ups⟩ := domainMapper_spec tables.upcase made' tables.upperCased_made
    obtain ⟨down, downs⟩ := domainMapper_spec tables.downcase made' tables.lowerCased_made
    have parts : ∀ part ∈ [limit, charSetUpcase tables limit, charSetDowncase tables limit], Made part := by
      simpa using ⟨made', up, down⟩
    refine ⟨(charSetUnion_spec parts).1, Set.ext fun char => (chars_union parts).trans ?_⟩
    simp only [List.mem_cons, List.not_mem_nil, or_false, exists_eq_or_imp, exists_eq_left, variants, ← chars]
    exact or_congr_right (or_congr (ups char) (downs char))
  · exact ⟨made', chars⟩

theorem maybeXformValue_charSet :
    maybeXformValue tables ctx (.charSet charSet) = .ok (.charSet (maybeXform tables ctx charSet)) := by
  rw [maybeXformValue]
  split
  · rfl
  · next neither =>
    rw [Bool.or_eq_true, not_or] at neither
    rw [maybeXform, if_neg neither.1, if_neg neither.2]

theorem valuesToCharSets_eq (charSets : List CharSet) : valuesToCharSets (charSets.map .charSet) = .ok charSets := by
  induction charSets with
  | nil => rfl
  | cons charSet charSets ih =>
    rw [map_cons, valuesToCharSets, ih]
    rfl

theorem applyToCharSets_eq {combine : List CharSet → CharSet} (single : ∀ charSet, combine [charSet] = charSet) :
    applyToCharSets combine (charSets.map .charSet) = .ok (.charSet (combine charSets)) := by
  rcases charSets with _ | ⟨first, _ | ⟨next, rest⟩⟩
  · rfl
  · exact congrArg (fun charSet => Except.ok (Value.charSet charSet)) (single first).symm
  · have values := valuesToCharSets_eq (first :: next :: rest)
    rw [applyToCharSets, values]
    · rfl
    · simp

theorem applyDifference_eq {charSets : List CharSet} :
    applyDifference (.charSet charSet :: charSets.map .charSet) = .ok (.charSet (charSetDifference charSet charSets)) := by
  rw [applyDifference, if_neg (cons_ne_nil _ _), ← map_cons, applyToCharSets_eq]
  exact fun charSet => rfl

theorem applySetOperation_spec (tables : Tables) (ctx : Scopes) {operation : SetOperation}
    (made : ∀ part ∈ charSets, Made part) (some : operation = .difference → charSets ≠ []) :
    ∃ charSet, applySetOperation tables ctx (charSets.map .charSet) operation = .ok (.charSet charSet) ∧ Made charSet ∧
      charSet.chars = operate tables ctx.asciiP (charSets.map CharSet.chars) operation := by
  have differ : ∀ charSet, Made charSet → ∃ charSet',
      applyDifference (.charSet charSet :: charSets.map .charSet) = .ok (.charSet charSet') ∧ Made charSet' ∧
        charSet'.chars = {char | char ∈ charSet.chars ∧ ∀ set ∈ charSets.map CharSet.chars, char ∉ set} := by
    intro charSet made'
    refine ⟨_, applyDifference_eq, (charSetDifference_spec made' made).1, Set.ext fun char => ?_⟩
    rw [chars_difference made' made]
    simp
  cases operation with
  | and =>
    refine ⟨_, applyToCharSets_eq fun charSet => rfl, (charSetIntersection_spec made).1, Set.ext fun char => ?_⟩
    rcases charSets with _ | ⟨first, rest⟩
    · rfl
    · rw [chars_intersection made (cons_ne_nil _ _)]
      simp [operate]
  | difference =>
    rcases charSets with _ | ⟨first, rest⟩
    · exact absurd rfl (some rfl)
    · obtain ⟨head, others⟩ := forall_mem_cons.mp made
      refine ⟨_, applyDifference_eq, (charSetDifference_spec head others).1, Set.ext fun char => ?_⟩
      rw [chars_difference head others]
      simp [operate]
  | complement =>
    refine differ _ ?_
    split
    · exact charSetAscii_made
    · exact charSetUnicode_made

theorem compileCsetSres_spec {expand : Set Character → Set Character} {ascii : Bool}
    (each : ∀ sre ∈ sres, ∃ charSet, compileCsetSre tables sre ctx = .ok (.charSet charSet) ∧ Made charSet ∧
      charSet.chars = denote tables expand ascii sre) :
    ∃ charSets : List CharSet, compileCsetSres tables sres ctx = .ok (charSets.map .charSet) ∧
      (∀ part ∈ charSets, Made part) ∧ charSets.map CharSet.chars = sres.map (denote tables expand ascii) := by
  induction sres with
  | nil => exact ⟨[], rfl, forall_mem_nil _, rfl⟩
  | cons sre sres ih =>
    obtain ⟨⟨charSet, value, made, chars⟩, others⟩ := forall_mem_cons.mp each
    obtain ⟨charSets, values, all, sets⟩ := ih others
    refine ⟨charSet :: charSets, ?_, forall_mem_cons.mpr ⟨made, all⟩, ?_⟩
    · rw [compileCsetSres, value, values]
      rfl
    · rw [map_cons, map_cons, chars, sets]

theorem compileCsetSre_spec (ctx : Scopes) (valid : validCsetSre tables sre = true) (simple : plain true sre = true) :
    ∃ charSet, compileCsetSre tables sre ctx = .ok (.charSet charSet) ∧ Made charSet ∧
      charSet.chars = denote tables (transformed tables ctx) ctx.asciiP sre := by
  induction sre using Sre.induct with
  | terminal terminal =>
    obtain ⟨charSet, returns, made, chars⟩ := terminalToCharSet_spec (.inl valid)
    obtain ⟨made', chars'⟩ := maybeXform_spec tables ctx made
    refine ⟨maybeXform tables ctx charSet, ?_, made', chars'.trans (congrArg _ chars)⟩
    rw [compileCsetSre, returns]
    rfl
  | or sres ih =>
    rw [validCsetSre, validCsetSres_eq, all_eq_true] at valid
    rw [plain, plainEach_eq, all_eq_true] at simple
    obtain ⟨charSets, values, made, sets⟩ := compileCsetSres_spec fun sre member =>
      ih sre member (valid sre member) (simple sre member)
    refine ⟨charSetUnion charSets, ?_, (charSetUnion_spec made).1, Set.ext fun char => ?_⟩
    · rw [compileCsetSre, values]
      exact applyToCharSets_eq fun charSet => rfl
    · rw [chars_union made, denote, denoteEach_eq, ← sets]
      simp
  | setOperation operation sres ih =>
    rw [validCsetSre, validCsetSres_eq, all_eq_true] at valid
    rw [plain, plainEach_eq, Bool.and_eq_true, all_eq_true] at simple
    obtain ⟨nonempty, simple⟩ := simple
    obtain ⟨charSets, values, made, sets⟩ := compileCsetSres_spec fun sre member =>
      ih sre member (valid sre member) (simple sre member)
    have some : operation = .difference → charSets ≠ [] := by
      rintro rfl rfl
      have none : sres = [] := List.map_eq_nil_iff.mp sets.symm
      simp [none] at nonempty
    obtain ⟨charSet, value, made', chars⟩ := applySetOperation_spec tables ctx made some
    refine ⟨charSet, ?_, made', ?_⟩
    · rw [compileCsetSre, values]
      exact value
    · rw [denote, denoteEach_eq, chars, sets]
  | operation _ _ _ => cases valid
  | assertion _ => cases valid
  | within _ _ _ => cases simple

theorem compileCharSet_spec (ctx : Scopes) (valid : validCsetSre tables sre = true) (simple : plain true sre = true) :
    ∃ charSet, compileCharSet tables sre ctx = insnCharSet tables charSet ctx.foldP ∧ Made charSet ∧
      charSet.chars = meaning tables ctx id sre := by
  obtain ⟨charSet, value, made, chars⟩ := compileCsetSre_spec ctx valid simple
  obtain ⟨made', chars'⟩ := maybeXform_spec tables ctx made
  refine ⟨maybeXform tables ctx charSet, ?_, made', chars'.trans (congrArg _ chars)⟩
  rw [compileCharSet, value]
  change maybeXformValue tables ctx (.charSet charSet) >>= valueToCharSet >>= _ = _
  rw [maybeXformValue_charSet]
  rfl

end

end MitScheme.Runtime.Regexp
