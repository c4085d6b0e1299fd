import MitScheme.Runtime.CharSet.Algebra

/-!
Every constructor and every operation gives a stored list, with the members that the operation on sets has.
-/

namespace MitScheme.Runtime.CharSets

open Library List

def Made (charSet : CharSet) : Prop := ∃ ilist, Stored ilist ∧ charSet = ilistToCharSet ilist

def Element.Covers (cp : Nat) : Element → Prop
  | .range r => r.Covers cp
  | .char c => c.code = cp
  | .string chars => ∃ c ∈ chars, c.code = cp
  | .charSet cs => codePointInCharSet cp cs = true

section
variable {charSet a b : CharSet} {charSets : List CharSet} {ilist : List Nat} {ilists : List (List Nat)}

theorem made_of_proper (proper : Proper ilist) : Made (ilistToCharSet ilist) := ⟨ilist, .proper proper, rfl⟩

theorem member_of_proper (proper : Proper ilist) (cp : Nat) :
    codePointInCharSet cp (ilistToCharSet ilist) = toggled cp ilist := (Stored.proper proper).member cp

theorem Made.read (made : Made charSet) :
    Loose (charSetToIlist charSet) ∧ ∀ cp, toggled cp (charSetToIlist charSet) = codePointInCharSet cp charSet := by
  obtain ⟨ilist, stored, rfl⟩ := made
  exact ⟨stored.read.1.loose, stored.read.2⟩

theorem Made.outside (made : Made charSet) {cp : Nat} (above : charCodeLimit ≤ cp) :
    codePointInCharSet cp charSet = false := by
  obtain ⟨ilist, stored, rfl⟩ := made
  rw [stored.member, stored.loose.toggled_limit above]

/-- The procedure combines the memberships of two lists. -/
structure Combines (kons : List Nat → List Nat → List Nat) (c : Bool → Bool → Bool) : Prop where
  spec : ∀ {il1 il2}, Loose il1 → Loose il2 →
    Proper (kons il1 il2) ∧ ∀ cp < charCodeLimit, toggled cp (kons il1 il2) = c (toggled cp il1) (toggled cp il2)

theorem ilistUnion_combines : Combines ilistUnion fun a b => a || b := ⟨ilistCombiner_spec⟩

theorem ilistIntersection_combines : Combines ilistIntersection fun a b => a && b := ⟨ilistCombiner_spec⟩

theorem ilistDifference_combines : Combines ilistDifference fun a b => a && !b := ⟨ilistCombiner_spec⟩

theorem ilistXor_combines : Combines ilistXor fun a b => if a then !b else b := ⟨ilistCombiner_spec⟩

theorem Combines.lists {kons : List Nat → List Nat → List Nat} {c : Bool → Bool → Bool} (combines : Combines kons c)
    (loose : Loose ilist) (others : ∀ il ∈ ilists, Loose il) :
    (ilists ≠ [] → Proper (fold kons ilist ilists)) ∧
      ∀ cp < charCodeLimit, toggled cp (fold kons ilist ilists) = fold c (toggled cp ilist) (ilists.map (toggled cp)) := by
  induction ilists generalizing ilist with
  | nil => exact ⟨absurd rfl, fun _ _ => rfl⟩
  | cons il ilists ih =>
    obtain ⟨head, rest⟩ := forall_mem_cons.mp others
    obtain ⟨proper, members⟩ := combines.spec head loose
    obtain ⟨proper', members'⟩ := ih proper.loose rest
    refine ⟨fun _ => ?_, fun cp code => (members' cp code).trans ?_⟩
    · by_cases last : ilists = []
      · subst last
        exact proper
      · exact proper' last
    · rw [members cp code]
      rfl

theorem Combines.all {kons : List Nat → List Nat → List Nat} {c : Bool → Bool → Bool} (combines : Combines kons c)
    (made : Made charSet) (others : ∀ part ∈ charSets, Made part) (nonempty : charSets ≠ []) :
    Made (ilistToCharSet (fold kons (charSetToIlist charSet) (charSets.map charSetToIlist))) ∧ ∀ cp < charCodeLimit,
    codePointInCharSet cp (ilistToCharSet (fold kons (charSetToIlist charSet) (charSets.map charSetToIlist))) =
    fold c (codePointInCharSet cp charSet) (charSets.map (codePointInCharSet cp)) := by
  have loose : ∀ il ∈ charSets.map charSetToIlist, Loose il := by
    intro il mapped
    obtain ⟨part, member, rfl⟩ := mem_map.mp mapped
    exact (others part member).read.1
  obtain ⟨proper, members⟩ := combines.lists made.read.1 loose
  have proper := proper (by simpa using nonempty)
  refine ⟨made_of_proper proper, fun cp code => ?_⟩
  rw [member_of_proper proper, members cp code, made.read.2, map_map]
  congr 1
  exact map_congr_left fun part member => (others part member).read.2 cp

variable {v : Bool} {vs : List Bool} {table : UnicodeTable}

theorem fold_or : fold (fun a b => a || b) v vs = (v || vs.any id) := by
  induction vs generalizing v with
  | nil => exact (Bool.or_false v).symm
  | cons w vs ih =>
    rw [fold, foldl_cons, ← fold, ih, any_cons, id, Bool.or_comm w, Bool.or_assoc]

theorem fold_and : fold (fun a b => a && b) v vs = (v && vs.all id) := by
  induction vs generalizing v with
  | nil => exact (Bool.and_true v).symm
  | cons w vs ih =>
    rw [fold, foldl_cons, ← fold, ih, all_cons, id, Bool.and_comm w, Bool.and_assoc]

theorem fold_without : fold (fun a b => b && !a) v vs = (v && vs.all (!·)) := by
  induction vs generalizing v with
  | nil => exact (Bool.and_true v).symm
  | cons w vs ih => rw [fold, foldl_cons, ← fold, ih, all_cons, Bool.and_assoc]

theorem fold_xor : fold (fun a b => if a then !b else b) v vs = (xor v (vs.foldr xor false)) := by
  induction vs generalizing v with
  | nil => exact (Bool.xor_false v).symm
  | cons w vs ih =>
    rw [fold, foldl_cons, ← fold, ih]
    cases w <;> simp

theorem charSetEmpty_spec : Made charSetEmpty ∧ ∀ cp < charCodeLimit, codePointInCharSet cp charSetEmpty = false := by
  obtain ⟨proper, members⟩ := ilistUnion_combines.spec (rangesToIlist_spec (forall_mem_nil _)).1.loose proper_nil.loose
  have proper : Proper (cplToIlist []) := proper
  refine ⟨made_of_proper proper, fun cp code => ?_⟩
  rw [charSetEmpty, member_of_proper proper]
  refine (members cp code).trans ?_
  have nothing : toggled cp (rangesToIlist []) = false := Bool.eq_false_iff.mpr fun member => by
    simpa using ((rangesToIlist_spec (forall_mem_nil _)).2 cp).mp member
  rw [nothing]
  rfl

theorem charSetUnion_spec (made : ∀ part ∈ charSets, Made part) : Made (charSetUnion charSets) ∧
    ∀ cp < charCodeLimit, codePointInCharSet cp (charSetUnion charSets) = charSets.any (codePointInCharSet cp) := by
  rcases charSets with _ | ⟨first, _ | ⟨next, rest⟩⟩
  · exact charSetEmpty_spec
  · exact ⟨made first mem_cons_self, fun cp _ => (Bool.or_false _).symm⟩
  · obtain ⟨head, others⟩ := forall_mem_cons.mp made
    obtain ⟨made', members⟩ := ilistUnion_combines.all head others (cons_ne_nil _ _)
    refine ⟨made', fun cp code => (members cp code).trans ?_⟩
    rw [fold_or, any_map]
    rfl

theorem charSetDifference_spec (made : Made charSet) (others : ∀ part ∈ charSets, Made part) :
    Made (charSetDifference charSet charSets) ∧
      ∀ cp < charCodeLimit, codePointInCharSet cp (charSetDifference charSet charSets) =
        (codePointInCharSet cp charSet && charSets.all fun part => !codePointInCharSet cp part) := by
  rw [charSetDifference]
  split
  · next none =>
    subst none
    exact ⟨made, fun cp _ => (Bool.and_true _).symm⟩
  · next some =>
    have flipped : Combines (fun il1 il2 => ilistDifference il2 il1) fun a b => b && !a :=
      ⟨fun loose1 loose2 => ilistDifference_combines.spec loose2 loose1⟩
    obtain ⟨made', members⟩ := flipped.all made others some
    refine ⟨made', fun cp code => (members cp code).trans ?_⟩
    rw [fold_without, all_map]
    rfl

theorem charSetInvert_spec (made : Made charSet) : Made (charSetInvert charSet) ∧
    ∀ cp < charCodeLimit, codePointInCharSet cp (charSetInvert charSet) = !codePointInCharSet cp charSet := by
  obtain ⟨ilist, stored, rfl⟩ := made
  obtain ⟨stored', members⟩ := stored.invert
  exact ⟨⟨_, stored', rfl⟩, fun cp code => (stored'.member cp).trans (members cp code)⟩

theorem covers_charToRange {char : Character} {cp : Nat} : (charToRange char).Covers cp ↔ char.code = cp := by
  change char.code ≤ cp ∧ cp < char.code + 1 ↔ char.code = cp
  omega

theorem stringRanges_spec (string : List Character) {ranges : List Range} (legal : ∀ range ∈ ranges, range.Legal) :
    (∀ range ∈ string.foldl (fun ranges char => charToRange char :: ranges) ranges, range.Legal) ∧
      ∀ cp, (∃ range ∈ string.foldl (fun ranges char => charToRange char :: ranges) ranges, range.Covers cp) ↔
        (∃ char ∈ string, char.code = cp) ∨ ∃ range ∈ ranges, range.Covers cp := by
  induction string generalizing ranges with
  | nil => exact ⟨legal, fun cp => by simp⟩
  | cons char string ih =>
    have legal' : ∀ range ∈ charToRange char :: ranges, range.Legal := forall_mem_cons.mpr ⟨char.small, legal⟩
    obtain ⟨legal'', members⟩ := ih legal'
    refine ⟨legal'', fun cp => ?_⟩
    rw [foldl_cons, members, exists_mem_cons_iff, exists_mem_cons_iff, covers_charToRange, or_left_comm, or_assoc]

theorem cplLoop_spec {cpl : List Element} {ranges : List Range} (parts : ∀ part, .charSet part ∈ cpl → Made part)
    (legal : ∀ element ∈ cpl, element.Legal) (legal' : ∀ range ∈ ranges, range.Legal) (loose : Loose ilist) :
    Proper (cplLoop cpl ranges ilist) ∧ ∀ cp < charCodeLimit, toggled cp (cplLoop cpl ranges ilist) = true ↔
      (∃ element ∈ cpl, element.Covers cp) ∨ (∃ range ∈ ranges, range.Covers cp) ∨ toggled cp ilist = true := by
  induction cpl generalizing ranges ilist with
  | nil =>
    obtain ⟨proper, members⟩ := rangesToIlist_spec legal'
    obtain ⟨proper', members'⟩ := ilistUnion_combines.spec proper.loose loose
    refine ⟨proper', fun cp code => ?_⟩
    rw [cplLoop, members' cp code, Bool.or_eq_true, members]
    simp
  | cons element cpl ih =>
    obtain ⟨head, rest⟩ := forall_mem_cons.mp legal
    have parts' : ∀ part, .charSet part ∈ cpl → Made part := fun part member => parts part (mem_cons_of_mem _ member)
    cases element with
    | range r =>
      obtain ⟨proper, members⟩ := ih parts' rest (forall_mem_cons.mpr ⟨head, legal'⟩) loose
      refine ⟨proper, fun cp code => ?_⟩
      rw [cplLoop, members cp code, exists_mem_cons_iff, exists_mem_cons_iff, or_assoc, or_assoc, or_left_comm]
      rfl
    | char c =>
      have point : (charToRange c).Legal := c.small
      obtain ⟨proper, members⟩ := ih parts' rest (forall_mem_cons.mpr ⟨point, legal'⟩) loose
      refine ⟨proper, fun cp code => ?_⟩
      rw [cplLoop, members cp code, exists_mem_cons_iff, exists_mem_cons_iff, or_assoc, or_assoc, or_left_comm,
        covers_charToRange]
      rfl
    | string chars =>
      obtain ⟨legal'', ranges'⟩ := stringRanges_spec chars legal'
      obtain ⟨proper, members⟩ := ih parts' rest legal'' loose
      refine ⟨proper, fun cp code => ?_⟩
      rw [cplLoop, members cp code, ranges', exists_mem_cons_iff, or_assoc, or_assoc, or_left_comm]
      rfl
    | charSet cs =>
      obtain ⟨read, same⟩ := (parts cs mem_cons_self).read
      obtain ⟨joined, union⟩ := ilistUnion_combines.spec read loose
      obtain ⟨proper, members⟩ := ih parts' rest legal' joined.loose
      refine ⟨proper, fun cp code => ?_⟩
      rw [cplLoop, members cp code, union cp code, same, Bool.or_eq_true, exists_mem_cons_iff]
      change _ ↔ (codePointInCharSet cp cs = true ∨ _) ∨ _
      rw [or_assoc, or_left_comm (b := codePointInCharSet cp cs = true),
        or_left_comm (b := codePointInCharSet cp cs = true)]

theorem charSetStar_spec {cpl : List Element} (parts : ∀ part, .charSet part ∈ cpl → Made part)
    (returns : charSetStar cpl = some charSet) : Made charSet ∧
      ∀ cp < charCodeLimit, codePointInCharSet cp charSet = true ↔ ∃ element ∈ cpl, element.Covers cp := by
  rw [charSetStar] at returns
  split at returns
  · next legal =>
    obtain ⟨proper, members⟩ := cplLoop_spec parts legal (forall_mem_nil _) proper_nil.loose
    have proper : Proper (cplToIlist cpl) := proper
    rw [← Option.some.inj returns]
    refine ⟨made_of_proper proper, fun cp code => ?_⟩
    rw [member_of_proper proper, cplToIlist, members cp code]
    simp
  · cases returns

theorem charSetUnicode_made : Made (charSetUnicode table) := by
  have ranges {rs : List Range} (legal : ∀ r ∈ rs, r.Legal) : Made (ilistToCharSet (cplToIlist (rs.map .range))) := by
    refine made_of_proper (cplLoop_spec (fun part member => ?_) (fun element member => ?_) (forall_mem_nil _)
      proper_nil.loose).1
    · obtain ⟨r, -, same⟩ := mem_map.mp member
      cases same
    · obtain ⟨r, source, rfl⟩ := mem_map.mp member
      exact legal r source
  refine (charSetDifference_spec (charSetInvert_spec charSetEmpty_spec.1).1 ?_).1
  refine forall_mem_cons.mpr ⟨ranges ?_, forall_mem_cons.mpr ⟨ranges table.legal, forall_mem_nil _⟩⟩
  exact forall_mem_cons.mpr ⟨⟨by decide, by decide⟩, forall_mem_nil _⟩

theorem charSetIntersection_spec (made : ∀ part ∈ charSets, Made part) :
    Made (charSetIntersection table charSets) ∧ (charSets ≠ [] → ∀ cp < charCodeLimit,
      codePointInCharSet cp (charSetIntersection table charSets) = charSets.all (codePointInCharSet cp)) := by
  rcases charSets with _ | ⟨first, _ | ⟨next, rest⟩⟩
  · exact ⟨charSetUnicode_made, absurd rfl⟩
  · exact ⟨made first mem_cons_self, fun _ cp _ => (Bool.and_true _).symm⟩
  · obtain ⟨head, others⟩ := forall_mem_cons.mp made
    obtain ⟨made', members⟩ := ilistIntersection_combines.all head others (cons_ne_nil _ _)
    refine ⟨made', fun _ cp code => (members cp code).trans ?_⟩
    rw [fold_and, all_map]
    rfl

theorem charSetXor_spec (made : ∀ part ∈ charSets, Made part) (returns : charSetXor charSets = some charSet) :
    Made charSet ∧ ∀ cp < charCodeLimit,
      codePointInCharSet cp charSet = (charSets.map (codePointInCharSet cp)).foldr xor false := by
  rcases charSets with _ | ⟨first, rest⟩
  · cases returns
  · obtain ⟨head, others⟩ := forall_mem_cons.mp made
    rw [charSetXor, Option.some_inj] at returns
    subst returns
    by_cases single : rest = []
    · subst single
      obtain ⟨ilist, stored, rfl⟩ := head
      obtain ⟨stored', same⟩ := stored.read
      refine ⟨⟨_, stored', rfl⟩, fun cp _ => ?_⟩
      change codePointInCharSet cp (ilistToCharSet (charSetToIlist (ilistToCharSet ilist))) = _
      rw [stored'.member, same]
      exact (Bool.xor_false _).symm
    · obtain ⟨made', members⟩ := ilistXor_combines.all head others single
      refine ⟨made', fun cp code => (members cp code).trans ?_⟩
      rw [fold_xor]
      rfl

theorem charSetAdjoin_spec (made : Made charSet) (chars : List Character) : Made (charSetAdjoin charSet chars) ∧
    ∀ cp < charCodeLimit, codePointInCharSet cp (charSetAdjoin charSet chars) = true ↔
      codePointInCharSet cp charSet = true ∨ ∃ char ∈ chars, char.code = cp := by
  rw [charSetAdjoin]
  split
  · next none =>
    subst none
    exact ⟨made, fun cp _ => by simp⟩
  · obtain ⟨proper, members⟩ := charsToIlist_spec chars
    obtain ⟨joined, union⟩ := ilistUnion_combines.spec made.read.1 proper.loose
    refine ⟨made_of_proper joined, fun cp code => ?_⟩
    rw [member_of_proper joined, union cp code, Bool.or_eq_true, members, made.read.2]

theorem charSetDelete_spec (made : Made charSet) (chars : List Character) : Made (charSetDelete charSet chars) ∧
    ∀ cp < charCodeLimit, codePointInCharSet cp (charSetDelete charSet chars) = true ↔
      codePointInCharSet cp charSet = true ∧ ¬∃ char ∈ chars, char.code = cp := by
  rw [charSetDelete]
  split
  · next none =>
    subst none
    exact ⟨made, fun cp _ => by simp⟩
  · obtain ⟨proper, members⟩ := charsToIlist_spec chars
    obtain ⟨left, difference⟩ := ilistDifference_combines.spec made.read.1 proper.loose
    refine ⟨made_of_proper left, fun cp code => ?_⟩
    rw [member_of_proper left, difference cp code, Bool.and_eq_true, Bool.not_eq_true', made.read.2, ← members cp,
      Bool.not_eq_true]

theorem listToCharSet_made {chars : List Character} {baseSet : Option CharSet} (base : ∀ charSet ∈ baseSet, Made charSet) :
    Made (listToCharSet chars baseSet) := by
  obtain ⟨proper, -⟩ := charsToIlist_spec chars
  cases baseSet with
  | none => exact made_of_proper proper
  | some charSet => exact made_of_proper (ilistUnion_combines.spec proper.loose (base charSet rfl).read.1).1

theorem ucsRangeToCharSet_made {lower upper : Nat} {baseSet : Option CharSet} (base : ∀ charSet ∈ baseSet, Made charSet)
    (returns : ucsRangeToCharSet lower upper baseSet = some charSet) : Made charSet := by
  unfold ucsRangeToCharSet at returns
  split at returns
  · cases returns
  · next order =>
    split at returns
    · cases returns
    · next limit =>
      have order := not_not.mp order
      have limit := not_not.mp limit
      have loose : Loose [lower, upper] := ⟨pairwise_pair.mpr order, by simp, by simpa using ⟨order.trans limit, limit⟩⟩
      rw [← Option.some.inj returns]
      cases baseSet with
      | some charSet => exact made_of_proper (ilistUnion_combines.spec loose (base charSet rfl).read.1).1
      | none =>
        rcases order.eq_or_lt with rfl | less
        · exact ⟨_, .emptyRange limit, rfl⟩
        · exact made_of_proper ⟨pairwise_pair.mpr less, loose.even, loose.bounded⟩

theorem made_of_built (built : Built table charSet) : Made charSet := by
  induction built with
  | charSetStar parts returns ih => exact (charSetStar_spec ih returns).1
  | listToCharSet base ih => exact listToCharSet_made ih
  | stringToCharSet base ih => exact listToCharSet_made ih
  | ucsRangeToCharSet base returns ih => exact ucsRangeToCharSet_made ih returns
  | union parts ih => exact (charSetUnion_spec ih).1
  | intersection parts ih => exact (charSetIntersection_spec ih).1
  | difference whole parts ih_whole ih => exact (charSetDifference_spec ih_whole ih).1
  | xor parts returns ih => exact (charSetXor_spec ih returns).1
  | invert whole ih => exact (charSetInvert_spec ih).1
  | adjoin whole ih => exact (charSetAdjoin_spec ih _).1
  | delete whole ih => exact (charSetDelete_spec ih _).1

end

end MitScheme.Runtime.CharSets
