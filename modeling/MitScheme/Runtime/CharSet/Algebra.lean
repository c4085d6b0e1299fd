import MitScheme.Runtime.CharSet.Folds
import MitScheme.Runtime.CharSet.Sweep

/-!
The exported constructors, the algebra and the predicates. The char-set that `ucs-range->char-set` makes of an empty
range, and its inversion, are the only ones that are not made of a proper inversion list.
-/

namespace MitScheme.Runtime.CharSets

open Library List

/-- An element of a code-point list; a name of a char-set stands for it. -/
inductive Element where
  | range (range : Range)
  | char (char : Character)
  | string (string : List Character)
  | charSet (charSet : CharSet)

/-- `cpl-element?` -/
def Element.Legal : Element → Prop
  | .range r => r.Legal
  | _ => True

instance (range : Range) : Decidable range.Legal := by
  cases range <;> unfold Range.Legal <;> infer_instance

instance (element : Element) : Decidable element.Legal := by
  cases element <;> unfold Element.Legal <;> infer_instance

def cplLoop : List Element → List Range → List Nat → List Nat
  | .range range :: cpl, ranges, ilist => cplLoop cpl (range :: ranges) ilist
  | .char char :: cpl, ranges, ilist => cplLoop cpl (charToRange char :: ranges) ilist
  | .string string :: cpl, ranges, ilist =>
    cplLoop cpl (string.foldl (fun ranges char => charToRange char :: ranges) ranges) ilist
  | .charSet charSet :: cpl, ranges, ilist => cplLoop cpl ranges (ilistUnion (charSetToIlist charSet) ilist)
  | [], ranges, ilist => ilistUnion (rangesToIlist ranges) ilist

def cplToIlist (cpl : List Element) : List Nat := cplLoop cpl [] []

/-- `char-set*`; nothing is returned when the argument is not a code-point list. -/
def charSetStar (cpl : List Element) : Option CharSet :=
  if ∀ element ∈ cpl, element.Legal then some (ilistToCharSet (cplToIlist cpl)) else none

def listToCharSet (chars : List Character) (baseSet : Option CharSet) : CharSet :=
  ilistToCharSet <| match baseSet with
    | none => charsToIlist chars
    | some baseSet => ilistUnion (charsToIlist chars) (charSetToIlist baseSet)

def stringToCharSet (string : List Character) (baseSet : Option CharSet) : CharSet := listToCharSet string baseSet

/-- `ucs-range->char-set`; nothing is returned when a bound is out of range. -/
def ucsRangeToCharSet (lower upper : Nat) (baseSet : Option CharSet) : Option CharSet :=
  if ¬lower ≤ upper then none
  else if ¬upper ≤ charCodeLimit then none
  else some <| ilistToCharSet <| match baseSet with
    | none => [lower, upper]
    | some baseSet => ilistUnion [lower, upper] (charSetToIlist baseSet)

def charSetAdjoin (charSet : CharSet) (chars : List Character) : CharSet :=
  if chars = [] then charSet else ilistToCharSet (ilistUnion (charSetToIlist charSet) (charsToIlist chars))

def charSetDelete (charSet : CharSet) (chars : List Character) : CharSet :=
  if chars = [] then charSet else ilistToCharSet (ilistDifference (charSetToIlist charSet) (charsToIlist chars))

def charSetInvert (charSet : CharSet) : CharSet := ilistToCharSet (ilistInvert (charSetToIlist charSet))

/-- `(char-set)` -/
def charSetEmpty : CharSet := ilistToCharSet (cplToIlist [])

/-- `fold` gives the procedure the element and then the accumulated value. -/
def fold {α β : Type} (kons : α → β → β) (knil : β) (list : List α) : β := list.foldl (fun value element => kons element value) knil

def charSetUnion : List CharSet → CharSet
  | charSet :: next :: charSets =>
    ilistToCharSet (fold ilistUnion (charSetToIlist charSet) ((next :: charSets).map charSetToIlist))
  | [charSet] => charSet
  | [] => charSetEmpty

def ilistDifferenceStar (ilist : List Nat) (ilists : List (List Nat)) : List Nat :=
  fold (fun ilist1 ilist2 => ilistDifference ilist2 ilist1) ilist ilists

def charSetDifference (charSet : CharSet) (charSets : List CharSet) : CharSet :=
  if charSets = [] then charSet
  else ilistToCharSet (ilistDifferenceStar (charSetToIlist charSet) (charSets.map charSetToIlist))

structure UnicodeTable where
  notAssigned : List Range
  legal : ∀ range ∈ notAssigned, range.Legal

def surrogates : List Range := [.pair 55296 57344]

/-- `char-set:unicode`, also named `char-set:full`. -/
def charSetUnicode (table : UnicodeTable) : CharSet :=
  charSetDifference (charSetInvert charSetEmpty)
    [ilistToCharSet (cplToIlist (surrogates.map .range)), ilistToCharSet (cplToIlist (table.notAssigned.map .range))]

def charSetIntersection (table : UnicodeTable) : List CharSet → CharSet
  | charSet :: next :: charSets =>
    ilistToCharSet (fold ilistIntersection (charSetToIlist charSet) ((next :: charSets).map charSetToIlist))
  | [charSet] => charSet
  | [] => charSetUnicode table

def charSetXor : List CharSet → Option CharSet
  | charSet :: charSets =>
    some (ilistToCharSet (fold ilistXor (charSetToIlist charSet) (charSets.map charSetToIlist)))
  | [] => none

/-- `char-set=` -/
def charSetEqual : List CharSet → Bool
  | charSet :: charSets => charSets.all fun charSet' => charSet'.low == charSet.low && charSet'.high == charSet.high
  | [] => true

def charSetEmptyP (charSet : CharSet) : Bool := 0 == charSet.low.length && 0 == charSet.high.length

/-- The char-sets that the constructors and the algebra build. -/
inductive Built (table : UnicodeTable) : CharSet → Prop where
  | charSetStar {cpl charSet} (parts : ∀ part, .charSet part ∈ cpl → Built table part)
      (returns : charSetStar cpl = some charSet) : Built table charSet
  | listToCharSet {chars baseSet} (base : ∀ charSet ∈ baseSet, Built table charSet) :
      Built table (listToCharSet chars baseSet)
  | stringToCharSet {string baseSet} (base : ∀ charSet ∈ baseSet, Built table charSet) :
      Built table (stringToCharSet string baseSet)
  | ucsRangeToCharSet {lower upper baseSet charSet} (base : ∀ charSet ∈ baseSet, Built table charSet)
      (returns : ucsRangeToCharSet lower upper baseSet = some charSet) : Built table charSet
  | union {charSets} (parts : ∀ part ∈ charSets, Built table part) : Built table (charSetUnion charSets)
  | intersection {charSets} (parts : ∀ part ∈ charSets, Built table part) : Built table (charSetIntersection table charSets)
  | difference {charSet charSets} (whole : Built table charSet) (parts : ∀ part ∈ charSets, Built table part) :
      Built table (charSetDifference charSet charSets)
  | xor {charSets charSet} (parts : ∀ part ∈ charSets, Built table part) (returns : charSetXor charSets = some charSet) :
      Built table charSet
  | invert {charSet} (whole : Built table charSet) : Built table (charSetInvert charSet)
  | adjoin {charSet chars} (whole : Built table charSet) : Built table (charSetAdjoin charSet chars)
  | delete {charSet chars} (whole : Built table charSet) : Built table (charSetDelete charSet chars)

/-- The value of `(ucs-range->char-set s s)`. -/
def EmptyRange (s : Nat) (charSet : CharSet) : Prop := ucsRangeToCharSet s s none = some charSet

/-- The inversion of such a char-set, when it has no bit vector and is not empty above. -/
def InvertedRange (s : Nat) (charSet : CharSet) : Prop :=
  32 ≤ s ∧ s < charCodeLimit ∧ ∃ range, EmptyRange s range ∧ charSet = charSetInvert range

section
variable {s : Nat} {ilist : List Nat} {charSet : CharSet}

theorem emptyRange_iff : EmptyRange s charSet ↔ s ≤ charCodeLimit ∧ charSet = ilistToCharSet [s, s] := by
  rw [EmptyRange, ucsRangeToCharSet, if_neg (not_not_intro le_rfl)]
  by_cases inside : s ≤ charCodeLimit
  · rw [if_neg (not_not_intro inside), Option.some_inj]
    exact ⟨fun same => ⟨inside, same.symm⟩, fun same => same.2.symm⟩
  · rw [if_pos inside]
    exact ⟨fun absent => absurd absent nofun, fun both => absurd both.1 inside⟩

theorem loose_empty_range (inside : s ≤ charCodeLimit) : Loose [s, s] :=
  ⟨pairwise_pair.mpr le_rfl, by simp, by simpa using inside⟩

theorem loose_inverted_range (inside : s < charCodeLimit) : Loose [0, s, s, charCodeLimit] := by
  refine ⟨?_, by simp, ?_⟩
  · simp only [pairwise_cons, mem_cons, not_mem_nil, or_false, forall_eq_or_imp, forall_eq,
      Pairwise.nil, and_true, IsEmpty.forall_iff, implies_true]
    omega
  · simp only [mem_cons, not_mem_nil, or_false, forall_eq_or_imp, forall_eq]
    omega

theorem chooseLowLimit_small (small : s < 32) : s < chooseLowLimit [s, s] := by
  obtain ⟨b, limit, -, least⟩ := chooseLowLimit_spec [s, s]
  have four : estimateSize b [s, s] ≤ estimateSize (2 ^ 2) [s, s] := least 2 (by decide) (by decide)
  have four' : estimateSize (2 ^ 2) [s, s] = 4 := by
    rw [estimateSize, estimateLoop, if_pos (by rw [lowCpsPerByte]; omega)]
    rfl
  rw [four', estimateSize, estimateLoop, lowCpsPerByte, highBytesPerCp] at four
  by_contra above
  rw [if_neg (by omega)] at four
  simp at four

theorem two_pow_le_four {j : Nat} (small : 2 ^ j < 6) : 2 ^ j ≤ 4 := by
  refine Nat.pow_le_pow_right (by decide) (Nat.le_of_not_lt fun large => ?_ : j ≤ 2)
  have power : 2 ^ 3 ≤ 2 ^ j := Nat.pow_le_pow_right (by decide) large
  omega

theorem chooseLowLimit_large (large : 32 ≤ s) : chooseLowLimit [s, s] = 0 := by
  obtain ⟨b, limit, cases, -⟩ := chooseLowLimit_spec [s, s]
  rcases cases with rfl | ⟨⟨j, rfl⟩, less⟩
  · exact limit
  · change 2 ^ j + (if s < 2 ^ j * 8 then 0 else 6) < 6 at less
    have power := two_pow_le_four (by omega : 2 ^ j < 6)
    rw [if_neg (by omega)] at less
    omega

theorem chooseLowLimit_inverted (large : 32 ≤ s) : chooseLowLimit [0, s, s, charCodeLimit] = 0 := by
  obtain ⟨b, limit, cases, -⟩ := chooseLowLimit_spec [0, s, s, charCodeLimit]
  rcases cases with rfl | ⟨⟨j, rfl⟩, less⟩
  · exact limit
  · change 2 ^ j + (if s < 2 ^ j * 8 then if charCodeLimit < 2 ^ j * 8 then 0 else 6 else 12) < 12 at less
    rw [if_neg (by rw [charCodeLimit]; omega : ¬charCodeLimit < 2 ^ j * 8)] at less
    by_cases covered : s < 2 ^ j * 8
    · rw [if_pos covered] at less
      have power := two_pow_le_four (by omega : 2 ^ j < 6)
      omega
    · rw [if_neg covered] at less
      omega

theorem stored_high (none : chooseLowLimit ilist = 0) (kept : skipLow 0 ilist = ilist) :
    (ilistToCharSet ilist).low = [] ∧ highPoints (ilistToCharSet ilist).high = ilist := by
  have limit := lowLimit_chosen ilist
  rw [lowLimit_eq] at limit
  refine ⟨eq_nil_of_length_eq_zero (by omega), ?_⟩
  rw [ilistToCharSet, none, highPoints_ilistToHigh, kept]

theorem skipLow_empty_range (positive : 0 < s) : skipLow 0 [s, s] = [s, s] := by
  rw [skipLow, if_neg (by omega), if_neg (by omega)]

theorem skipLow_inverted_range (positive : 0 < s) : skipLow 0 [0, s, s, charCodeLimit] = [0, s, s, charCodeLimit] := by
  rw [skipLow, if_neg (by omega), if_neg (by omega)]

/-- The lists that char-sets are made of. -/
inductive Stored : List Nat → Prop where
  | proper {points : List Nat} (proper : Proper points) : Stored points
  | emptyRange {s : Nat} (inside : s ≤ charCodeLimit) : Stored [s, s]
  | inverted {s : Nat} (large : 32 ≤ s) (inside : s < charCodeLimit) : Stored [0, s, s, charCodeLimit]

theorem Stored.loose (stored : Stored ilist) : Loose ilist := by
  cases stored with
  | proper proper => exact proper.loose
  | emptyRange inside => exact loose_empty_range inside
  | inverted _ inside => exact loose_inverted_range inside

theorem Stored.member (stored : Stored ilist) (cp : Nat) :
    codePointInCharSet cp (ilistToCharSet ilist) = toggled cp ilist :=
  (ilistToCharSet_holds stored.loose).member stored.loose cp

theorem charSetToIlist_high (none : chooseLowLimit ilist = 0) (kept : skipLow 0 ilist = ilist) (even : ilist.length % 2 = 0) :
    charSetToIlist (ilistToCharSet ilist) = ilist := by
  obtain ⟨low, high⟩ := stored_high none kept
  rw [charSetToIlist, charSetRangeFoldRight_high low (by rwa [high]), high, foldRunsRight_points even]

theorem charSetToIlist_proper (proper : Proper ilist) : charSetToIlist (ilistToCharSet ilist) = ilist :=
  charSetToIlist_eq (ilistToCharSet_holds proper.loose) proper

theorem toggled_empty_range {cp : Nat} : toggled cp [s, s] = false := by
  rw [toggled_interval (pairwise_pair.mpr le_rfl), decide_eq_false (by omega)]
  rfl

theorem holds_small (small : s < 32) : Holds (ilistToCharSet [s, s]) [] := by
  have limit := lowLimit_chosen [s, s]
  have holds := ilistToCharSet_holds (loose_empty_range (show s ≤ charCodeLimit by rw [charCodeLimit]; omega))
  refine ⟨fun cp inside => by rw [holds.bits cp inside, toggled_empty_range, toggled_nil], ?_⟩
  rw [holds.points, limit, skipLow, if_pos (chooseLowLimit_small small).le]

theorem charSetToIlist_small (small : s < 32) : charSetToIlist (ilistToCharSet [s, s]) = [] :=
  charSetToIlist_eq (holds_small small) proper_nil

theorem charSetToIlist_large (large : 32 ≤ s) : charSetToIlist (ilistToCharSet [s, s]) = [s, s] :=
  charSetToIlist_high (chooseLowLimit_large large) (skipLow_empty_range (by omega)) (by simp)

theorem charSetToIlist_inverted (large : 32 ≤ s) :
    charSetToIlist (ilistToCharSet [0, s, s, charCodeLimit]) = [0, s, s, charCodeLimit] :=
  charSetToIlist_high (chooseLowLimit_inverted large) (skipLow_inverted_range (by omega)) (by simp)

theorem Stored.read (stored : Stored ilist) : Stored (charSetToIlist (ilistToCharSet ilist)) ∧
    ∀ cp, toggled cp (charSetToIlist (ilistToCharSet ilist)) = codePointInCharSet cp (ilistToCharSet ilist) := by
  have members := stored.member
  cases stored with
  | proper proper =>
    rw [charSetToIlist_proper proper]
    exact ⟨.proper proper, fun cp => (members cp).symm⟩
  | @emptyRange s inside =>
    rcases lt_or_ge s 32 with small | large
    · rw [charSetToIlist_small small]
      exact ⟨.proper proper_nil, fun cp => by rw [members, toggled_empty_range, toggled_nil]⟩
    · rw [charSetToIlist_large large]
      exact ⟨.emptyRange inside, fun cp => (members cp).symm⟩
  | inverted large inside =>
    rw [charSetToIlist_inverted large]
    exact ⟨.inverted large inside, fun cp => (members cp).symm⟩

theorem ilistInvert_limit : ilistInvert [charCodeLimit, charCodeLimit] = [0, charCodeLimit] := by decide

theorem ilistInvert_empty_range (positive : 0 < s) (inside : s < charCodeLimit) :
    ilistInvert [s, s] = [0, s, s, charCodeLimit] := by
  rw [ilistInvert, if_pos positive, invertLoop, invertLoop, if_pos inside]
  · rfl
  · exact fun _ _ _ equal => cons_ne_nil _ _ equal.symm

theorem ilistInvert_inverted_range : ilistInvert [0, s, s, charCodeLimit] = [s, s] := by
  rw [ilistInvert, if_neg (lt_irrefl 0), invertLoop, invertLoop]
  · rfl
  · exact fun _ _ _ equal => cons_ne_nil _ _ equal.symm

theorem toggled_inverted_range {cp : Nat} (code : cp < charCodeLimit) : toggled cp [0, s, s, charCodeLimit] = true := by
  rw [toggled_cons, toggled_cons, toggled_cons, toggled_cons, decide_eq_false code.not_ge]
  cases decide (s ≤ cp) <;> rfl

theorem Stored.invert (stored : Stored ilist) : Stored (ilistInvert (charSetToIlist (ilistToCharSet ilist))) ∧
    ∀ cp < charCodeLimit, toggled cp (ilistInvert (charSetToIlist (ilistToCharSet ilist))) =
      !codePointInCharSet cp (ilistToCharSet ilist) := by
  have members := stored.member
  cases stored with
  | proper proper =>
    rw [charSetToIlist_proper proper]
    obtain ⟨proper', members'⟩ := ilistInvert_spec proper
    exact ⟨.proper proper', fun cp code => by rw [members' cp code, members]⟩
  | @emptyRange s inside =>
    rcases lt_or_ge s 32 with small | large
    · rw [charSetToIlist_small small]
      obtain ⟨proper', members'⟩ := ilistInvert_spec proper_nil
      exact ⟨.proper proper', fun cp code => by rw [members' cp code, members, toggled_empty_range, toggled_nil]⟩
    · rw [charSetToIlist_large large]
      rcases inside.eq_or_lt with rfl | inside
      · rw [ilistInvert_limit]
        refine ⟨.proper ⟨pairwise_pair.mpr (by decide), by simp, by simp⟩, fun cp code => ?_⟩
        rw [members, toggled_empty_range, toggled_interval (pairwise_pair.mpr (Nat.zero_le _)),
          decide_eq_true ⟨Nat.zero_le cp, code⟩]
        rfl
      · rw [ilistInvert_empty_range (by omega) inside]
        exact ⟨.inverted large inside, fun cp code => by
          rw [members, toggled_empty_range, toggled_inverted_range code]; rfl⟩
  | @inverted s large inside =>
    rw [charSetToIlist_inverted large, ilistInvert_inverted_range]
    exact ⟨.emptyRange inside.le, fun cp code => by
      rw [members, toggled_empty_range, toggled_inverted_range code]; rfl⟩

end

end MitScheme.Runtime.CharSets
