import MitScheme.Runtime.CharSet.Inclusion

/-!
The image of a char-set under a mapping of characters, which is made on a domain only, and the
predicate of the characters whose folding is among those of a char-set.
-/

namespace MitScheme.Runtime.CharSets

open Library List

/-- `integer->char`, on a code point below the limit. -/
def integerToChar (cp : Nat) : Option Character := if small : cp < charCodeLimit then some ⟨cp, small⟩ else none

def charSetSize (charSet : CharSet) : Nat := charSetRangeFold (fun start stop size => stop - start + size) 0 charSet

def scanIlist : List Nat → Option Nat
  | start :: stop :: ilist => if start < stop then some start else scanIlist ilist
  | _ => none

/-- `(char-set-ref char-set (char-set-cursor char-set))`; nothing is returned at the end. -/
def charSetFirst (charSet : CharSet) : Option Character := scanIlist (charSetToIlist charSet) >>= integerToChar

def charSetMap (proc : Character → Character) (charSet : CharSet) : List Character :=
  charSetFoldRight (fun item mapped => match integerToChar item.datum with
    | some char => proc char :: mapped
    | none => mapped) [] charSet

/-- The value of `char-set*` on a list of characters. -/
def charsToCharSet (chars : List Character) : CharSet := ilistToCharSet (cplToIlist (chars.map Element.char))

/-- `char-set-diff+intersection`, of two char-sets. -/
def charSetDiffIntersection (charSet domain : CharSet) : CharSet × CharSet :=
  (ilistToCharSet (ilistDifferenceStar (charSetToIlist charSet) [charSetToIlist domain]),
    ilistToCharSet (fold ilistIntersection (charSetToIlist charSet) [charSetToIlist domain]))

def domainMapper (proc : Character → Character) (domain charSet : CharSet) : CharSet :=
  let parts := charSetDiffIntersection charSet domain
  charSetUnion [parts.1, charsToCharSet (charSetMap proc parts.2)]

def charSetContains (charSet : CharSet) (char : Character) : Bool := codePointInCharSet char.code charSet

def CharSet.chars (charSet : CharSet) : Set Character := {char | charSetContains charSet char = true}

def mapped (proc : Character → Character) (domain : CharSet) (char : Character) : Character :=
  if charSetContains domain char then proc char else char

theorem character_ext {a b : Character} (same : a.code = b.code) : a = b := by
  cases a
  cases b
  cases same
  rfl

section
variable {charSet domain : CharSet} {charSets : List CharSet} {ilist : List Nat} {char : Character}
  {chars : List Character}

theorem mem_chars : char ∈ charSet.chars ↔ charSetContains charSet char = true := .rfl

theorem integerToChar_code (char : Character) : integerToChar char.code = some char := dif_pos char.small

theorem charsToCharSet_spec (chars : List Character) :
    Made (charsToCharSet chars) ∧ ∀ char, char ∈ (charsToCharSet chars).chars ↔ char ∈ chars := by
  have legal : ∀ element ∈ chars.map Element.char, element.Legal := by
    intro element member
    obtain ⟨char, -, rfl⟩ := mem_map.mp member
    exact trivial
  have parts : ∀ part, .charSet part ∈ chars.map Element.char → Made part := by
    intro part member
    obtain ⟨char, -, same⟩ := mem_map.mp member
    cases same
  obtain ⟨proper, members⟩ := cplLoop_spec parts legal (forall_mem_nil _) proper_nil.loose
  have proper : Proper (cplToIlist (chars.map .char)) := proper
  refine ⟨made_of_proper proper, ?_⟩
  intro char
  rw [mem_chars, charSetContains, charsToCharSet, member_of_proper proper, cplToIlist, members char.code char.small]
  constructor
  · rintro (⟨element, member, covers⟩ | ⟨range, member, -⟩ | outside)
    · obtain ⟨c, inside, rfl⟩ := mem_map.mp member
      have same : c.code = char.code := covers
      rwa [← character_ext same]
    · cases member
    · cases outside
  · intro member
    exact .inl ⟨.char char, mem_map_of_mem member, rfl⟩

theorem charsLoop_foldr {β : Type} (kons : Item → β → β) (start left : Nat) (acc : β) :
    charsLoop kons start left acc = ((List.range' start left).map Item.char).foldr kons acc := by
  induction left generalizing acc with
  | zero => rfl
  | succ left ih =>
    rw [charsLoop, ih, range'_concat, map_append, foldr_append, one_mul]
    rfl

theorem foldRunsRight_foldr {β : Type} (kons : Item → β → β) (rs : List (Nat × Nat)) (knil : β) :
    foldRunsRight (fun start stop acc => charsLoop kons start (stop - start) acc) rs knil =
      ((rs.flatMap fun r => List.range' r.1 (r.2 - r.1)).map Item.char).foldr kons knil := by
  induction rs with
  | nil => rfl
  | cons r rs ih =>
    rw [foldRunsRight] at ih ⊢
    rw [foldr_cons, ih, charsLoop_foldr, flatMap_cons, map_append, foldr_append]

section
variable (made : Made charSet)
include made

theorem charSetFoldRight_eq {β : Type} {kons : Item → β → β} {knil : β} :
    charSetFoldRight kons knil charSet = ((members charSet).map Item.char).foldr kons knil := by
  obtain ⟨ilist, -, -, folds, -⟩ := made.ranges
  have list := charSetToList_eq made
  rw [charSetToList, charSetFoldRight, folds, foldRunsRight_chars] at list
  rw [charSetFoldRight, folds, foldRunsRight_foldr, list]

theorem charSetMap_eq {proc : Character → Character} :
    charSetMap proc charSet = ((members charSet).filterMap integerToChar).map proc := by
  rw [charSetMap, charSetFoldRight_eq made]
  induction members charSet with
  | nil => rfl
  | cons cp cps ih =>
    rw [map_cons, foldr_cons, ih, Item.datum_char]
    cases found : integerToChar cp with
    | none => rw [filterMap_cons_none found]
    | some char => rw [filterMap_cons_some found, map_cons]

theorem mem_charSetMap {proc : Character → Character} :
    char ∈ charSetMap proc charSet ↔ ∃ c ∈ charSet.chars, proc c = char := by
  rw [charSetMap_eq made, mem_map]
  refine exists_congr fun c => and_congr_left fun _ => ?_
  rw [mem_filterMap, mem_chars, charSetContains, ← mem_members made]
  constructor
  · rintro ⟨cp, member, found⟩
    unfold integerToChar at found
    split at found
    · cases found
      exact member
    · cases found
  · intro member
    exact ⟨c.code, member, integerToChar_code c⟩

theorem charSetSize_eq : charSetSize charSet = (members charSet).length := by
  obtain ⟨ilist, -, -, foldsRight, folds⟩ := made.ranges
  have list := charSetToList_eq made
  rw [charSetToList, charSetFoldRight, foldsRight, foldRunsRight_chars] at list
  have lengths := congrArg length list
  rw [length_map, length_map] at lengths
  rw [charSetSize, folds, ← lengths]
  have sum : ∀ (rs : List (Nat × Nat)) (n : Nat), foldRuns (fun start stop size => stop - start + size) rs n =
      n + (rs.flatMap fun r => range' r.1 (r.2 - r.1)).length := by
    intro rs
    induction rs with
    | nil => exact fun n => rfl
    | cons r rs ih =>
      intro n
      refine (ih (r.2 - r.1 + n)).trans ?_
      rw [flatMap_cons, length_append, length_range']
      omega
  rw [sum, zero_add]

theorem charSetSize_zero : charSetSize charSet = 0 ↔ charSet.chars = ∅ := by
  rw [charSetSize_eq made, length_eq_zero_iff, members_eq_nil_iff made, Set.eq_empty_iff_forall_notMem]
  constructor
  · intro none char
    rw [mem_chars, charSetContains, none]
    exact Bool.false_ne_true
  · intro none cp
    rcases lt_or_ge cp charCodeLimit with small | large
    · exact Bool.eq_false_iff.mpr (none ⟨cp, small⟩)
    · exact made.outside large

theorem chars_single : charSet.chars = {char} ↔ members charSet = [char.code] := by
  have member : ∀ c : Character, c ∈ charSet.chars ↔ c.code ∈ members charSet := by
    intro c
    rw [mem_chars, charSetContains, mem_members made]
  constructor
  · intro single
    refine members_ascending.eq_of_mem_iff (pairwise_singleton _ _) fun cp => ?_
    rw [mem_singleton]
    constructor
    · intro inside
      have small : cp < charCodeLimit := by
        by_contra outside
        rw [mem_members made, made.outside (not_lt.mp outside)] at inside
        cases inside
      have only : (⟨cp, small⟩ : Character) ∈ ({char} : Set Character) := single ▸ (member ⟨cp, small⟩).mpr inside
      exact congrArg Character.code (Set.mem_singleton_iff.mp only)
    · rintro rfl
      exact (member char).mp (single ▸ Set.mem_singleton char)
  · intro list
    ext c
    rw [member, list, mem_singleton]
    exact ⟨character_ext, congrArg Character.code⟩

theorem charSetSize_one : charSetSize charSet = 1 ↔ ∃ char, charSet.chars = {char} := by
  rw [charSetSize_eq made, length_eq_one_iff]
  constructor
  · rintro ⟨cp, list⟩
    have inside : cp ∈ range charCodeLimit := mem_of_mem_filter (list ▸ mem_singleton_self cp)
    exact ⟨⟨cp, mem_range.mp inside⟩, (chars_single made).mpr list⟩
  · rintro ⟨char, single⟩
    exact ⟨char.code, (chars_single made).mp single⟩

theorem charSetFirst_single (single : charSet.chars = {char}) : charSetFirst charSet = some char := by
  have list := (chars_single made).mp single
  have member : ∀ cp, codePointInCharSet cp charSet = true ↔ cp = char.code := by
    intro cp
    rw [← mem_members made, list, mem_singleton]
  obtain ⟨ilist, stored, rfl⟩ := made
  simp only [stored.member] at member
  cases stored with
  | proper proper =>
    rw [charSetFirst, charSetToIlist_proper proper]
    obtain ⟨ascending, even, -⟩ := proper
    rcases ilist with _ | ⟨start, _ | ⟨stop, rest⟩⟩
    · have nothing := (member char.code).mpr rfl
      cases nothing
    · cases even
    · have less : start < stop := (pairwise_cons.mp ascending).1 stop mem_cons_self
      have first : start = char.code := (member start).mp (toggled_head ascending)
      rw [scanIlist, if_pos less, first]
      exact integerToChar_code char
  | emptyRange =>
    have nothing := (member char.code).mpr rfl
    rw [toggled_empty_range] at nothing
    cases nothing
  | inverted =>
    have zero := (member 0).mp (toggled_inverted_range (by decide))
    have one := (member 1).mp (toggled_inverted_range (by decide))
    omega

end

theorem chars_union (made : ∀ part ∈ charSets, Made part) :
    char ∈ (charSetUnion charSets).chars ↔ ∃ part ∈ charSets, char ∈ part.chars := by
  rw [mem_chars, charSetContains, (charSetUnion_spec made).2 char.code char.small, any_eq_true]
  rfl

theorem chars_intersection {table : UnicodeTable} (made : ∀ part ∈ charSets, Made part) (some : charSets ≠ []) :
    char ∈ (charSetIntersection table charSets).chars ↔ ∀ part ∈ charSets, char ∈ part.chars := by
  rw [mem_chars, charSetContains, (charSetIntersection_spec made).2 some char.code char.small, all_eq_true]
  rfl

theorem chars_difference (made : Made charSet) (others : ∀ part ∈ charSets, Made part) :
    char ∈ (charSetDifference charSet charSets).chars ↔ char ∈ charSet.chars ∧ ∀ part ∈ charSets, char ∉ part.chars := by
  rw [mem_chars, charSetContains, (charSetDifference_spec made others).2 char.code char.small, Bool.and_eq_true,
    all_eq_true]
  simp only [Bool.not_eq_true', ← Bool.not_eq_true]
  rfl

theorem charSetStar_chars {cpl : List Element} (parts : ∀ part, .charSet part ∈ cpl → Made part)
    (legal : ∀ element ∈ cpl, element.Legal) : ∃ charSet, charSetStar cpl = some charSet ∧ Made charSet ∧
      ∀ char : Character, char ∈ charSet.chars ↔ ∃ element ∈ cpl, element.Covers char.code := by
  have returns : charSetStar cpl = some (ilistToCharSet (cplToIlist cpl)) := if_pos legal
  obtain ⟨made, members⟩ := charSetStar_spec parts returns
  exact ⟨_, returns, made, fun char => members char.code char.small⟩

theorem charSetDiffIntersection_spec (made : Made charSet) (made' : Made domain) :
    (Made (charSetDiffIntersection charSet domain).1 ∧ Made (charSetDiffIntersection charSet domain).2) ∧
      ∀ char, (char ∈ (charSetDiffIntersection charSet domain).1.chars ↔ char ∈ charSet.chars ∧ char ∉ domain.chars) ∧
        (char ∈ (charSetDiffIntersection charSet domain).2.chars ↔ char ∈ charSet.chars ∧ char ∈ domain.chars) := by
  have others : ∀ part ∈ [domain], Made part := by simpa using made'
  have difference := charSetDifference_spec made others
  obtain ⟨left, left_members⟩ := difference
  obtain ⟨right, right_members⟩ := ilistIntersection_combines.all made others (cons_ne_nil _ _)
  refine ⟨⟨left, right⟩, ?_⟩
  intro char
  simp only [mem_chars, charSetContains]
  constructor
  · refine (Bool.eq_iff_iff.mp (left_members char.code char.small)).trans ?_
    simp
  · refine (Bool.eq_iff_iff.mp (right_members char.code char.small)).trans ?_
    rw [fold_and]
    simp

theorem domainMapper_spec (proc : Character → Character) (made : Made charSet) (made' : Made domain) :
    Made (domainMapper proc domain charSet) ∧
      ∀ char, char ∈ (domainMapper proc domain charSet).chars ↔ ∃ c ∈ charSet.chars, mapped proc domain c = char := by
  obtain ⟨⟨left, right⟩, split⟩ := charSetDiffIntersection_spec made made'
  obtain ⟨images, members⟩ := charsToCharSet_spec (charSetMap proc (charSetDiffIntersection charSet domain).2)
  have parts : ∀ part ∈ [(charSetDiffIntersection charSet domain).1,
      charsToCharSet (charSetMap proc (charSetDiffIntersection charSet domain).2)], Made part := by
    simpa using ⟨left, images⟩
  refine ⟨(charSetUnion_spec parts).1, ?_⟩
  intro char
  refine (chars_union parts).trans ?_
  simp only [mem_cons, not_mem_nil, or_false, exists_eq_or_imp, exists_eq_left, members, mem_charSetMap right]
  unfold mapped
  constructor
  · rintro (outside | ⟨c, inside, rfl⟩)
    · obtain ⟨member, absent⟩ := (split char).1.mp outside
      exact ⟨char, member, if_neg absent⟩
    · obtain ⟨member, present⟩ := (split c).2.mp inside
      exact ⟨c, member, if_pos present⟩
  · rintro ⟨c, member, rfl⟩
    by_cases present : charSetContains domain c = true
    · rw [if_pos present]
      exact .inr ⟨c, (split c).2.mpr ⟨member, present⟩, rfl⟩
    · rw [if_neg present]
      exact .inl ((split c).1.mpr ⟨member, present⟩)

end

end MitScheme.Runtime.CharSets
