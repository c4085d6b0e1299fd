import MitScheme.Runtime.CharSet.Canonical
import Mathlib.Data.List.Sort

/-!
`char-set<=` and `char-set<` give the lists of the members, as characters, to procedures on inversion lists. Fixnum
operations that check their arguments signal an error at a character; otherwise each member is read as a point at which
membership changes.
-/

namespace MitScheme.Runtime.CharSets

open Library List
open Option (bind_eq_bind bind_some)

/-- What the lists hold: the characters that are members, and the points that the combiner adds. -/
inductive Item where
  | char (code : Nat)
  | fixnum (value : Nat)
  deriving DecidableEq

def Item.datum : Item → Nat
  | .char code => code
  | .fixnum value => value

@[simp] theorem Item.datum_char (code : Nat) : (Item.char code).datum = code := rfl

section
variable (checks : Bool)

@[simp] theorem Item.datum_fixnum (value : Nat) : (Item.fixnum value).datum = value := rfl

/-- The operand of a fixnum operation; nothing is returned for an error. -/
def fixOperand : Item → Option Nat
  | .char code => if checks then none else some code
  | .fixnum value => some value

def fixLess (a b : Item) : Option Bool := do return decide ((← fixOperand checks a) < (← fixOperand checks b))

def fixEqual (a b : Item) : Option Bool := do return decide ((← fixOperand checks a) = (← fixOperand checks b))

def fixMin (a b : Item) : Option Item := do return if ← fixLess checks a b then a else b

/-- `process` -/
def processItems (combine : Bool → Bool → Bool) (v : Nat) (start stop : Item) (result : List Item) :
    Option (List Item) := do
  if (← fixLess checks start stop) && combine (v &&& 1 == 1) (v &&& 2 == 2) then
    match result with
    | e :: s :: rest => return if ← fixEqual checks start e then stop :: s :: rest else stop :: start :: result
    | _ => return stop :: start :: result
  else return result

def itemsTail (combine : Bool → Bool → Bool) (v vi : Nat) (start : Item) : List Item → List Item → Option (List Item)
  | stop :: ilist, result => do
    itemsTail combine (v ^^^ vi) vi stop ilist (← processItems checks combine v start stop result)
  | [], result => do
    let limit := .fixnum charCodeLimit
    let result ← if ← fixLess checks start limit then processItems checks combine v start limit result else some result
    return result.reverse

def itemsLoop (combine : Bool → Bool → Bool) (v : Nat) (start : Item) (il1 il2 result : List Item) : Option (List Item) :=
  match il1, il2 with
  | [], il2 => itemsTail checks combine v 2 start il2 result
  | il1, [] => itemsTail checks combine v 1 start il1 result
  | x1 :: rest1, x2 :: rest2 => do
    let stop ← fixMin checks x1 x2
    let result' ← processItems checks combine v start stop result
    if ← fixLess checks stop x2 then itemsLoop combine (v ^^^ 1) stop rest1 (x2 :: rest2) result'
    else if ← fixLess checks stop x1 then itemsLoop combine (v ^^^ 2) stop (x1 :: rest1) rest2 result'
    else itemsLoop combine (v ^^^ 3) stop rest1 rest2 result'
termination_by il1.length + il2.length

/-- `ilist-combiner` -/
def itemsCombiner (combine : Bool → Bool → Bool) (il1 il2 : List Item) : Option (List Item) :=
  itemsLoop checks combine 0 (.fixnum 0) il1 il2 []

def ilistEqual : List Item → List Item → Option Bool
  | x1 :: ilist1, x2 :: ilist2 => do if ← fixEqual checks x1 x2 then ilistEqual ilist1 ilist2 else return false
  | ilist1, ilist2 => some (ilist1.isEmpty && ilist2.isEmpty)

/-- `ilist<=` -/
def ilistIncluded (ilist1 ilist2 : List Item) : Option Bool := do
  let difference ← itemsCombiner checks (fun a b => a && !b) ilist2 ilist1
  ilistEqual checks (← itemsCombiner checks (fun a b => a || b) difference ilist1) ilist2

/-- `ilist<` -/
def ilistStrictlyIncluded (ilist1 ilist2 : List Item) : Option Bool := do
  if ← ilistEqual checks ilist1 ilist2 then return false else ilistIncluded checks ilist1 ilist2

end

section
variable {β : Type} (kons : Item → β → β)

def charsLoop (start : Nat) : (left : Nat) → β → β
  | 0, acc => acc
  | left + 1, acc => charsLoop start left (kons (.char (start + left)) acc)

def charSetFoldRight (knil : β) (charSet : CharSet) : β :=
  charSetRangeFoldRight (fun start stop acc => charsLoop kons start (stop - start) acc) knil charSet

end

def charSetToList (charSet : CharSet) : List Item := charSetFoldRight List.cons [] charSet

section
variable (test : List Item → List Item → Option Bool)

def chainLoop : List (List Item) → Option Bool
  | ilist1 :: ilist2 :: ilists => do if ← test ilist1 ilist2 then chainLoop (ilist2 :: ilists) else return false
  | _ => none -- the loop goes on as long as there is one list, and takes the second of it

def chain (charSets : List CharSet) : Option Bool :=
  if charSets.length < 2 then some true else chainLoop test (charSets.map charSetToList)

end

/-- `char-set<=` -/
def charSetIncluded (checks : Bool) : List CharSet → Option Bool := chain (ilistIncluded checks)

/-- `char-set<` -/
def charSetStrictlyIncluded (checks : Bool) : List CharSet → Option Bool := chain (ilistStrictlyIncluded checks)

def Included (a b : CharSet) : Prop := ∀ cp, codePointInCharSet cp a = true → codePointInCharSet cp b = true

def StrictlyIncluded (a b : CharSet) : Prop := Included a b ∧ ¬Included b a

def Decides (returned : Option Bool) (property : Prop) : Prop :=
  ∃ verdict, returned = some verdict ∧ (verdict = true ↔ property)

def membersBelow (charSet : CharSet) (cp : Nat) : Nat := (List.range cp).countP fun code => codePointInCharSet code charSet

/-- The second char-set has an even number of members, and an odd number of them lies at or below each code
point at or below which an odd number of members of the first one lies. -/
def OddlyIncluded (a b : CharSet) : Prop :=
  membersBelow b charCodeLimit % 2 = 0 ∧
    ∀ cp < charCodeLimit, membersBelow a (cp + 1) % 2 = 1 → membersBelow b (cp + 1) % 2 = 1

section
variable {combine : Bool → Bool → Bool} {v vi : Nat} {a b start stop : Item} {il1 il2 ilist result : List Item}

@[simp] theorem fixOperand_unchecked : fixOperand false a = some a.datum := by cases a <;> rfl

@[simp] theorem fixLess_unchecked : fixLess false a b = some (decide (a.datum < b.datum)) := by simp [fixLess]

@[simp] theorem fixEqual_unchecked : fixEqual false a b = some (decide (a.datum = b.datum)) := by simp [fixEqual]

def Points (items : Option (List Item)) (points : List Nat) : Prop := ∃ ilist, items = some ilist ∧ ilist.map Item.datum = points

theorem processItems_points (combine : Bool → Bool → Bool) (v : Nat) (start stop : Item) (result : List Item) :
    Points (processItems false combine v start stop result)
      (process combine v start.datum stop.datum (result.map Item.datum)) := by
  unfold processItems process
  rw [fixLess_unchecked, bind_eq_bind, bind_some]
  generalize combine (v &&& 1 == 1) (v &&& 2 == 2) = wanted
  by_cases taken : start.datum < stop.datum ∧ wanted = true
  · rw [if_pos taken, if_pos (by simpa using taken)]
    rcases result with _ | ⟨e, _ | ⟨s, rest⟩⟩
    · exact ⟨_, rfl, rfl⟩
    · exact ⟨_, rfl, rfl⟩
    · dsimp only
      rw [fixEqual_unchecked]
      exact ⟨_, rfl, by by_cases touches : start.datum = e.datum <;> simp [touches]⟩
  · rw [if_neg taken, if_neg (by simpa using taken)]
    exact ⟨result, rfl, rfl⟩

theorem itemsTail_points (ilist result : List Item) (v : Nat) (start : Item) :
    Points (itemsTail false combine v vi start ilist result)
      (combinerTail combine v vi start.datum (ilist.map Item.datum) (result.map Item.datum)) := by
  induction ilist generalizing v start result with
  | nil =>
    simp only [itemsTail, fixLess_unchecked, bind_eq_bind, bind_some, map_nil, combinerTail]
    by_cases less : start.datum < charCodeLimit
    · obtain ⟨last, returns, same⟩ :=
        processItems_points combine v start (.fixnum charCodeLimit) result
      refine ⟨last.reverse, by simp [less, returns], ?_⟩
      rw [if_pos less, map_reverse, same]
      rfl
    · exact ⟨result.reverse, by simp [less], by simp [less]⟩
  | cons stop ilist ih =>
    obtain ⟨next, returns, same⟩ :=
      processItems_points combine v start stop result
    rw [itemsTail, returns, map_cons, combinerTail, ← same]
    exact ih next (v ^^^ vi) stop

theorem fixMin_unchecked : ∃ stop, fixMin false a b = some stop ∧ stop.datum = min a.datum b.datum := by
  refine ⟨if a.datum < b.datum then a else b, by simp [fixMin], ?_⟩
  split <;> omega

theorem itemsLoop_points (combine : Bool → Bool → Bool) (v : Nat) (start : Item) (il1 il2 result : List Item) :
    Points (itemsLoop false combine v start il1 il2 result)
      (combinerLoop combine v start.datum (il1.map Item.datum) (il2.map Item.datum) (result.map Item.datum)) := by
  generalize size : il1.length + il2.length = n
  induction n using Nat.strong_induction_on generalizing v start il1 il2 result with
  | _ n ih =>
    rcases il1 with _ | ⟨x1, rest1⟩
    · rw [itemsLoop, map_nil, combinerLoop]
      exact itemsTail_points il2 result v start
    rcases il2 with _ | ⟨x2, rest2⟩
    · rw [itemsLoop, map_nil, combinerLoop]
      · exact itemsTail_points (x1 :: rest1) result v start
      · exact cons_ne_nil _ _
      · exact cons_ne_nil _ _
    obtain ⟨stop, least, same⟩ := fixMin_unchecked (a := x1) (b := x2)
    obtain ⟨next, returns, same'⟩ :=
      processItems_points combine v start stop result
    rw [length_cons, length_cons] at size
    rw [itemsLoop, map_cons, map_cons, combinerLoop, ← same, ← same']
    simp only [least, returns, fixLess_unchecked, bind_eq_bind, bind_some, decide_eq_true_eq, gt_iff_lt]
    split
    · exact ih _ (by rw [length_cons]; omega) _ _ _ _ _ rfl
    · split
      · exact ih _ (by rw [length_cons]; omega) _ _ _ _ _ rfl
      · exact ih _ (by omega) _ _ _ _ _ rfl

theorem ilistEqual_unchecked : ilistEqual false il1 il2 = some (decide (il1.map Item.datum = il2.map Item.datum)) := by
  induction il1 generalizing il2 with
  | nil => cases il2 <;> simp [ilistEqual]
  | cons x1 il1 ih =>
    cases il2 with
    | nil => simp [ilistEqual]
    | cons x2 il2 =>
      rw [ilistEqual, fixEqual_unchecked, bind_eq_bind, ih]
      by_cases same : x1.datum = x2.datum <;> simp [same]

theorem ilistIncluded_unchecked : ilistIncluded false il1 il2 = some (decide
    (ilistUnion (ilistDifference (il2.map Item.datum) (il1.map Item.datum)) (il1.map Item.datum) = il2.map Item.datum)) := by
  obtain ⟨difference, returns, same⟩ := itemsLoop_points (fun a b => a && !b) 0 (.fixnum 0) il2 il1 []
  obtain ⟨union, returns', same'⟩ := itemsLoop_points (fun a b => a || b) 0 (.fixnum 0) difference il1 []
  rw [ilistIncluded, itemsCombiner, returns, bind_eq_bind, bind_some, itemsCombiner, returns',
    bind_some, ilistEqual_unchecked, same', same]
  rfl

end

def members (charSet : CharSet) : List Nat := (List.range charCodeLimit).filter fun cp => codePointInCharSet cp charSet

section
variable {charSet a b : CharSet} {charSets : List CharSet} {cp : Nat}

theorem members_ascending : (members charSet).Pairwise (· < ·) := pairwise_lt_range.filter _

theorem mem_members (made : Made charSet) : cp ∈ members charSet ↔ codePointInCharSet cp charSet = true := by
  simp only [members, mem_filter, mem_range, and_iff_right_iff_imp]
  intro member
  by_contra outside
  rw [made.outside (not_lt.mp outside)] at member
  contradiction

theorem charsLoop_eq (start left : Nat) (chars : List Item) :
    charsLoop List.cons start left chars = (List.range' start left).map Item.char ++ chars := by
  induction left generalizing chars with
  | zero => rfl
  | succ left ih => rw [charsLoop, ih, range'_concat, map_append, append_assoc, one_mul]; rfl

theorem foldRunsRight_chars (rs : List (Nat × Nat)) :
    foldRunsRight (fun start stop chars => charsLoop List.cons start (stop - start) chars) rs [] =
      (rs.flatMap fun r => List.range' r.1 (r.2 - r.1)).map Item.char := by
  induction rs with
  | nil => rfl
  | cons r rs ih =>
    rw [foldRunsRight] at ih ⊢
    rw [foldr_cons, ih, charsLoop_eq, flatMap_cons, map_append]

theorem Made.ranges (made : Made charSet) : ∃ ilist, Loose ilist ∧ (∀ cp, toggled cp ilist = codePointInCharSet cp charSet) ∧
    (∀ {β : Type} (proc : Nat → Nat → β → β) value,
      charSetRangeFoldRight proc value charSet = foldRunsRight proc (runs ilist) value) ∧
    ∀ {β : Type} (proc : Nat → Nat → β → β) value,
      charSetRangeFold proc value charSet = foldRuns proc (runs ilist) value := by
  obtain ⟨ilist, stored, rfl⟩ := made
  have members := stored.member
  cases stored with
  | proper proper =>
    have holds := ilistToCharSet_holds proper.loose
    exact ⟨ilist, proper.loose, fun cp => (members cp).symm, fun _ _ => charSetRangeFoldRight_eq holds proper,
      fun _ _ => charSetRangeFold_eq holds proper⟩
  | @emptyRange s inside =>
    rcases lt_or_ge s 32 with small | large
    · exact ⟨[], proper_nil.loose, fun cp => by rw [members, toggled_empty_range, toggled_nil],
        fun _ _ => charSetRangeFoldRight_eq (holds_small small) proper_nil,
        fun _ _ => charSetRangeFold_eq (holds_small small) proper_nil⟩
    · obtain ⟨low, high⟩ := stored_high (chooseLowLimit_large large) (skipLow_empty_range (by omega))
      refine ⟨[s, s], loose_empty_range inside, fun cp => (members cp).symm, fun proc value => ?_, fun proc value => ?_⟩
      · rw [charSetRangeFoldRight_high low (by simp [high]), high]
      · rw [charSetRangeFold_high low (by simp [high]), high]
  | @inverted s large inside =>
    obtain ⟨low, high⟩ := stored_high (chooseLowLimit_inverted large) (skipLow_inverted_range (by omega))
    refine ⟨[0, s, s, charCodeLimit], loose_inverted_range inside, fun cp => (members cp).symm, fun proc value => ?_,
      fun proc value => ?_⟩
    · rw [charSetRangeFoldRight_high low (by simp [high]), high]
    · rw [charSetRangeFold_high low (by simp [high]), high]

theorem runs_disjoint {ilist : List Nat} (ascending : ilist.Pairwise (· ≤ ·)) (even : ilist.length % 2 = 0) :
    (runs ilist).Pairwise fun r r' => r.2 ≤ r'.1 := by
  induction ilist, even using pairs_induction with
  | nil => exact .nil
  | pair s e rest even ih =>
    have tail := (pairwise_cons.mp ascending).2
    refine pairwise_cons.mpr ⟨fun r member => ?_, ih (pairwise_cons.mp tail).2⟩
    obtain ⟨before, after, rfl, -⟩ := runs_split member
    exact (pairwise_cons.mp tail).1 r.1 (by simp)

theorem charSetToList_eq (made : Made charSet) : charSetToList charSet = (members charSet).map Item.char := by
  obtain ⟨ilist, loose, same, folds, -⟩ := made.ranges
  rw [charSetToList, charSetFoldRight, folds, foldRunsRight_chars]
  refine congrArg (map Item.char) ?_
  have ascending : ((runs ilist).flatMap fun r => range' r.1 (r.2 - r.1)).Pairwise (· < ·) := by
    refine pairwise_flatMap.mpr ⟨fun r _ => pairwise_lt_range', ?_⟩
    refine (runs_disjoint loose.ascending loose.even).imp fun {r r'} apart x inside y inside' => ?_
    rw [mem_range'_1] at inside inside'
    omega
  refine ascending.eq_of_mem_iff members_ascending fun cp => ?_
  rw [mem_members made, ← same, toggled_iff_runs loose.ascending loose.even, mem_flatMap]
  refine exists_congr fun r => and_congr_right fun _ => ?_
  rw [mem_range'_1]
  omega

theorem charSetToList_datum (made : Made charSet) : (charSetToList charSet).map Item.datum = members charSet := by
  rw [charSetToList_eq made, map_map]
  exact map_id _

theorem members_eq_nil_iff (made : Made charSet) : members charSet = [] ↔ ∀ cp, codePointInCharSet cp charSet = false := by
  rw [eq_nil_iff_forall_not_mem]
  exact forall_congr' fun cp => by rw [mem_members made, Bool.not_eq_true]

theorem toggled_members (code : cp < charCodeLimit) :
    toggled cp (members charSet) = decide (membersBelow charSet (cp + 1) % 2 = 1) := by
  have split : charCodeLimit = cp + 1 + (charCodeLimit - (cp + 1)) := by omega
  have above : ((range (charCodeLimit - (cp + 1))).map (cp + 1 + ·)).countP
      (fun x => decide (x ≤ cp) && codePointInCharSet x charSet) = 0 := by
    simp only [countP_eq_zero, mem_map, Bool.and_eq_true, decide_eq_true_eq]
    omega
  rw [toggled_eq_countP, members, countP_filter, split, range_add, countP_append, above, add_zero, membersBelow]
  have count : (range (cp + 1)).countP (fun x => decide (x ≤ cp) && codePointInCharSet x charSet) =
      (range (cp + 1)).countP fun x => codePointInCharSet x charSet := by
    refine countP_congr fun x small => ?_
    rw [mem_range] at small
    simp [Nat.lt_succ_iff.mp small]
  rw [count]

theorem length_members : (members charSet).length = membersBelow charSet charCodeLimit := countP_eq_length_filter.symm

theorem included_points_iff : ilistUnion (ilistDifference (members b) (members a)) (members a) = members b ↔
    OddlyIncluded a b := by
  have bounded (charSet : CharSet) : ∀ p ∈ members charSet, p ≤ charCodeLimit := fun p member =>
    (mem_range.mp (mem_filter.mp member).1).le
  have ascending (charSet : CharSet) : (members charSet).Pairwise (· ≤ ·) := members_ascending.imp le_of_lt
  obtain ⟨proper, reads⟩ := ilistCombiner_ascending (fun a b => a && !b) (ascending b) (bounded b) (ascending a) (bounded a)
  obtain ⟨proper', reads'⟩ := ilistCombiner_ascending (fun a b => a || b) proper.loose.ascending proper.bounded (ascending a)
    (bounded a)
  have odd (cp : Nat) (code : cp < charCodeLimit) :
      toggled cp (ilistUnion (ilistDifference (members b) (members a)) (members a)) = toggled cp (members b) ↔
        (membersBelow a (cp + 1) % 2 = 1 → membersBelow b (cp + 1) % 2 = 1) := by
    rw [ilistUnion, ilistDifference, reads' cp code, reads cp code, toggled_members code, toggled_members code]
    by_cases odd : membersBelow a (cp + 1) % 2 = 1 <;> by_cases odd' : membersBelow b (cp + 1) % 2 = 1 <;> simp [odd']
  constructor
  · intro equal
    refine ⟨?_, fun cp code => (odd cp code).mp (by rw [equal])⟩
    rw [← length_members, ← equal]
    exact proper'.even
  · rintro ⟨even, points⟩
    exact Ilist.ext proper' ⟨members_ascending, by rwa [length_members], bounded b⟩ fun cp code =>
      (odd cp code).mpr (points cp code)

variable {test : List Item → List Item → Option Bool}

/-- No chain of tests ends with the answer that all of them hold. -/
theorem chainLoop_spec {r : CharSet → CharSet → Prop}
    (decides : ∀ a ∈ charSets, ∀ b ∈ charSets, Decides (test (charSetToList a) (charSetToList b)) (r a b)) :
    (charSets.IsChain r → chainLoop test (charSets.map charSetToList) = none) ∧
      (¬charSets.IsChain r → chainLoop test (charSets.map charSetToList) = some false) := by
  induction charSets using twoStepInduction with
  | nil => exact ⟨fun _ => rfl, fun broken => absurd .nil broken⟩
  | singleton a => exact ⟨fun _ => rfl, fun broken => absurd (.singleton a) broken⟩
  | cons_cons a b rest _ ih =>
    obtain ⟨verdict, returns, tells⟩ := decides a (by simp) b (by simp)
    obtain ⟨all, broken⟩ := ih b fun a' member b' member' =>
      decides a' (mem_cons_of_mem _ member) b' (mem_cons_of_mem _ member')
    rw [map_cons, map_cons, chainLoop, returns, isChain_cons_cons, ← tells]
    cases verdict with
    | false => exact ⟨fun chained => absurd chained.1 Bool.false_ne_true, fun _ => rfl⟩
    | true => exact ⟨fun chained => all chained.2, fun not => broken fun rest => not ⟨rfl, rest⟩⟩

theorem chainLoop_none
    (never : ∀ a ∈ charSets, ∀ b ∈ charSets, test (charSetToList a) (charSetToList b) ≠ some false) :
    chainLoop test (charSets.map charSetToList) = none := by
  induction charSets using twoStepInduction with
  | nil => rfl
  | singleton a => rfl
  | cons_cons a b rest _ ih =>
    have not_false := never a (by simp) b (by simp)
    rw [map_cons, map_cons, chainLoop]
    match returns : test (charSetToList a) (charSetToList b) with
    | none => rfl
    | some false => exact absurd returns not_false
    | some true =>
      exact ih b fun a' member b' member' => never a' (mem_cons_of_mem _ member) b' (mem_cons_of_mem _ member')

theorem included_unchecked (made_a : Made a) (made_b : Made b) :
    Decides (ilistIncluded false (charSetToList a) (charSetToList b)) (OddlyIncluded a b) := by
  refine ⟨_, ilistIncluded_unchecked, ?_⟩
  rw [charSetToList_datum made_a, charSetToList_datum made_b, decide_eq_true_iff, included_points_iff]

theorem members_eq_iff (made_a : Made a) (made_b : Made b) : members a = members b ↔ Included a b ∧ Included b a := by
  constructor
  · intro same
    exact ⟨fun cp => by rw [← mem_members made_a, ← mem_members made_b, same]; exact id,
      fun cp => by rw [← mem_members made_a, ← mem_members made_b, same]; exact id⟩
  · intro both
    refine members_ascending.eq_of_mem_iff members_ascending fun cp => ?_
    rw [mem_members made_a, mem_members made_b]
    exact ⟨both.1 cp, both.2 cp⟩

theorem strictlyIncluded_unchecked (made_a : Made a) (made_b : Made b) :
    Decides (ilistStrictlyIncluded false (charSetToList a) (charSetToList b))
      (OddlyIncluded a b ∧ ¬(Included a b ∧ Included b a)) := by
  obtain ⟨verdict, returns, tells⟩ := included_unchecked made_a made_b
  rw [ilistStrictlyIncluded, ilistEqual_unchecked, charSetToList_datum made_a, charSetToList_datum made_b,
    bind_eq_bind, ← members_eq_iff made_a made_b, returns, ← tells]
  by_cases same : members a = members b
  · exact ⟨false, by simp [same], by simp [same]⟩
  · exact ⟨verdict, by simp [same], by simp [same]⟩

theorem itemsCombiner_checked (combine : Bool → Bool → Bool) (nothing : combine false false = false) (il1 il2 : List Nat) :
    itemsCombiner true combine (il1.map Item.char) (il2.map Item.char) =
      if il1 = [] ∧ il2 = [] then some [] else none := by
  rcases il1 with _ | ⟨x1, rest1⟩
  · rcases il2 with _ | ⟨x2, rest2⟩
    · simp [itemsCombiner, itemsLoop, itemsTail, processItems, fixLess, fixOperand, nothing]
    · simp [itemsCombiner, itemsLoop, itemsTail, processItems, fixLess, fixOperand]
  · rcases il2 with _ | ⟨x2, rest2⟩
    · simp [itemsCombiner, itemsLoop, itemsTail, processItems, fixLess, fixOperand]
    · simp [itemsCombiner, itemsLoop, fixLess, fixOperand]

theorem ilistEqual_checked (il1 il2 : List Nat) : ilistEqual true (il1.map Item.char) (il2.map Item.char) =
    if il1 = [] ∧ il2 = [] then some true else if il1 = [] ∨ il2 = [] then some false else none := by
  rcases il1 with _ | ⟨x1, rest1⟩ <;> rcases il2 with _ | ⟨x2, rest2⟩ <;> simp [ilistEqual, fixEqual, fixOperand]

theorem ilistIncluded_checked (il1 il2 : List Nat) : ilistIncluded true (il1.map Item.char) (il2.map Item.char) =
    if il1 = [] ∧ il2 = [] then some true else none := by
  rw [ilistIncluded, itemsCombiner_checked _ rfl]
  by_cases none : il1 = [] ∧ il2 = []
  · obtain ⟨rfl, rfl⟩ := none
    have union := itemsCombiner_checked (fun a b => a || b) rfl [] []
    simp only [map_nil] at union
    simp [union, ilistEqual]
  · rw [if_neg (by simpa [and_comm] using none), if_neg none]
    rfl

theorem ilistStrictlyIncluded_checked (il1 il2 : List Nat) :
    ilistStrictlyIncluded true (il1.map Item.char) (il2.map Item.char) =
      if il1 = [] ∧ il2 = [] then some false else none := by
  rw [ilistStrictlyIncluded, ilistEqual_checked, ilistIncluded_checked]
  by_cases first : il1 = [] <;> by_cases second : il2 = [] <;> simp [first, second]

theorem chain_two :
    chain test (a :: b :: charSets) = chainLoop test ((a :: b :: charSets).map charSetToList) := if_neg (by simp)

theorem charSetIncluded_checked (made : ∀ charSet ∈ a :: b :: charSets, Made charSet) :
    charSetIncluded true (a :: b :: charSets) = none := by
  refine chain_two.trans (chainLoop_none fun c member d member' => ?_)
  rw [charSetToList_eq (made c member), charSetToList_eq (made d member'), ilistIncluded_checked]
  split <;> simp

theorem charSetStrictlyIncluded_checked (made_a : Made a) (made_b : Made b) :
    charSetStrictlyIncluded true (a :: b :: charSets) =
      if members a = [] ∧ members b = [] then some false else none := by
  rw [charSetStrictlyIncluded, chain_two, map_cons, map_cons, chainLoop, charSetToList_eq made_a,
    charSetToList_eq made_b, ilistStrictlyIncluded_checked]
  split <;> rfl

/-- The answer is right only where it is that an inclusion fails. -/
theorem decides_iff {returned : Option Bool} {p q : Prop} (spec : (p → returned = none) ∧ (¬p → returned = some false)) :
    Decides returned q ↔ ¬p ∧ ¬q := by
  constructor
  · rintro ⟨verdict, returns, tells⟩
    have broken : ¬p := fun holds => by
      rw [spec.1 holds] at returns
      cases returns
    rw [spec.2 broken, Option.some_inj] at returns
    exact ⟨broken, fun holds => absurd (returns.trans (tells.mpr holds)) Bool.false_ne_true⟩
  · rintro ⟨broken, fails⟩
    exact ⟨false, spec.2 broken, iff_of_false Bool.false_ne_true fails⟩

/-- That all the inclusions hold is never answered. With unchecked operations a false answer is given when the points of
the lists tell it; with checked operations `char-set<` gives one when the first two char-sets are empty. -/
theorem inclusion_decided_iff {table : UnicodeTable} (built : ∀ charSet ∈ a :: b :: charSets, Built table charSet) :
    (Decides (charSetIncluded false (a :: b :: charSets)) ((a :: b :: charSets).IsChain Included) ↔
      ¬(a :: b :: charSets).IsChain OddlyIncluded ∧ ¬(a :: b :: charSets).IsChain Included) ∧
    (Decides (charSetStrictlyIncluded false (a :: b :: charSets)) ((a :: b :: charSets).IsChain StrictlyIncluded) ↔
      ¬(a :: b :: charSets).IsChain (fun a b => OddlyIncluded a b ∧ ¬(Included a b ∧ Included b a)) ∧
        ¬(a :: b :: charSets).IsChain StrictlyIncluded) ∧
    ¬Decides (charSetIncluded true (a :: b :: charSets)) ((a :: b :: charSets).IsChain Included) ∧
    (Decides (charSetStrictlyIncluded true (a :: b :: charSets)) ((a :: b :: charSets).IsChain StrictlyIncluded) ↔
      ∀ cp, codePointInCharSet cp a = false ∧ codePointInCharSet cp b = false) := by
  have made : ∀ charSet ∈ a :: b :: charSets, Made charSet := fun charSet member => made_of_built (built charSet member)
  have made_a := made a (by simp)
  have made_b := made b (by simp)
  refine ⟨?_, ?_, ?_, ?_⟩
  · rw [charSetIncluded, chain_two]
    exact decides_iff (chainLoop_spec fun a member b member' => included_unchecked (made a member) (made b member'))
  · rw [charSetStrictlyIncluded, chain_two]
    exact decides_iff (chainLoop_spec fun a member b member' => strictlyIncluded_unchecked (made a member) (made b member'))
  · rintro ⟨verdict, returns, -⟩
    rw [charSetIncluded_checked made] at returns
    cases returns
  · rw [charSetStrictlyIncluded_checked made_a made_b, forall_and]
    constructor
    · rintro ⟨verdict, returns, -⟩
      split at returns
      · next empty => exact ⟨(members_eq_nil_iff made_a).mp empty.1, (members_eq_nil_iff made_b).mp empty.2⟩
      · cases returns
    · intro empty
      rw [if_pos ⟨(members_eq_nil_iff made_a).mpr empty.1, (members_eq_nil_iff made_b).mpr empty.2⟩]
      refine ⟨false, rfl, iff_of_false Bool.false_ne_true fun chain => ?_⟩
      refine (isChain_cons_cons.mp chain).1.2 fun cp inside => ?_
      rw [empty.2 cp] at inside
      contradiction

end

theorem inclusion_decided_iff_letters :
    let a := ilistToCharSet [65, 91]
    let b := charSetInvert a
    (Decides (charSetIncluded false [a, b]) ([a, b].IsChain Included) ↔
      ¬[a, b].IsChain OddlyIncluded ∧ ¬[a, b].IsChain Included) ∧
    (Decides (charSetStrictlyIncluded false [a, b]) ([a, b].IsChain StrictlyIncluded) ↔
      ¬[a, b].IsChain (fun a b => OddlyIncluded a b ∧ ¬(Included a b ∧ Included b a)) ∧
        ¬[a, b].IsChain StrictlyIncluded) ∧
    ¬Decides (charSetIncluded true [a, b]) ([a, b].IsChain Included) ∧
    (Decides (charSetStrictlyIncluded true [a, b]) ([a, b].IsChain StrictlyIncluded) ↔
      ∀ cp, codePointInCharSet cp a = false ∧ codePointInCharSet cp b = false) := by
  intro a b
  have built : Built ⟨[], forall_mem_nil _⟩ a := .ucsRangeToCharSet (fun _ none => absurd none (Option.not_mem_none _))
    (rfl : ucsRangeToCharSet 65 91 none = some a)
  refine @inclusion_decided_iff _ _ _ ⟨[], forall_mem_nil _⟩ fun charSet member => ?_
  simp only [mem_cons, not_mem_nil, or_false] at member
  rcases member with rfl | rfl
  · exact built
  · exact .invert built

theorem letter_inclusion_not_decided : ∃ letter, ucsRangeToCharSet 0x61 0x62 none = some letter ∧
    [charSetEmpty, letter].IsChain StrictlyIncluded ∧ [charSetEmpty, letter].IsChain Included ∧
    charSetIncluded false [charSetEmpty, letter] = some false ∧ charSetIncluded true [charSetEmpty, letter] = none ∧
    charSetStrictlyIncluded false [charSetEmpty, letter] = some false ∧
    charSetStrictlyIncluded true [charSetEmpty, letter] = none := by
  have proper : Proper [0x61, 0x62] := ⟨by simp, by simp, by simp [charCodeLimit]⟩
  have made := made_of_proper proper
  have made' : Made charSetEmpty := charSetEmpty_spec.1
  have covers (cp : Nat) : codePointInCharSet cp (ilistToCharSet [0x61, 0x62]) = true ↔ cp = 0x61 := by
    rw [member_of_proper proper, toggled_interval (proper.ascending.imp le_of_lt)]
    simp
    omega
  have one : members (ilistToCharSet [0x61, 0x62]) = [0x61] := by
    refine members_ascending.eq_of_mem_iff (pairwise_singleton _ _) fun cp => ?_
    rw [mem_members made, covers, mem_singleton]
  have odd : ¬OddlyIncluded charSetEmpty (ilistToCharSet [0x61, 0x62]) := by
    rintro ⟨even, -⟩
    rw [← length_members, one] at even
    exact absurd even (by decide : ¬1 % 2 = 0)
  have outside (cp : Nat) : ¬codePointInCharSet cp charSetEmpty = true := by
    rcases lt_or_ge cp charCodeLimit with code | code
    · exact Bool.eq_false_iff.mp (charSetEmpty_spec.2 cp code)
    · exact Bool.eq_false_iff.mp (made'.outside code)
  have included : Included charSetEmpty (ilistToCharSet [0x61, 0x62]) := fun cp inside => absurd inside (outside cp)
  have strictly : StrictlyIncluded charSetEmpty (ilistToCharSet [0x61, 0x62]) :=
    ⟨included, fun back => outside 0x61 (back 0x61 ((covers 0x61).mpr rfl))⟩
  have both : ∀ charSet ∈ [charSetEmpty, ilistToCharSet [0x61, 0x62]], Made charSet := by simp [made, made']
  refine ⟨_, rfl, by simpa using strictly, by simpa using included, ?_, ?_, ?_, ?_⟩
  · refine chain_two.trans ((chainLoop_spec fun a member b member' => included_unchecked (both a member)
      (both b member')).2 ?_)
    simpa using odd
  · exact charSetIncluded_checked both
  · refine chain_two.trans ((chainLoop_spec fun a member b member' => strictlyIncluded_unchecked (both a member)
      (both b member')).2 ?_)
    simp [odd]
  · rw [charSetStrictlyIncluded_checked made' made]
    simp [one]

end MitScheme.Runtime.CharSets
