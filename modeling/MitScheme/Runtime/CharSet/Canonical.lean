import MitScheme.Runtime.CharSet.Sets

/-!
A char-set that is made of a proper inversion list is canonical: equality and emptiness of the stored bytes are those of
the sets, and the folds enumerate the maximal runs.
-/

namespace MitScheme.Runtime.CharSets

open Library List

section
variable {s : Nat} {ilist : List Nat} {charSet a b : CharSet} {table : UnicodeTable}

theorem invertedRange_iff : InvertedRange s charSet ↔
    32 ≤ s ∧ s < charCodeLimit ∧ charSet = ilistToCharSet [0, s, s, charCodeLimit] := by
  have inversion (large : 32 ≤ s) (inside : s < charCodeLimit) :
      charSetInvert (ilistToCharSet [s, s]) = ilistToCharSet [0, s, s, charCodeLimit] := by
    rw [charSetInvert, charSetToIlist_large large, ilistInvert_empty_range (by omega) inside]
  constructor
  · rintro ⟨large, inside, range, empty, rfl⟩
    obtain ⟨-, rfl⟩ := emptyRange_iff.mp empty
    exact ⟨large, inside, inversion large inside⟩
  · rintro ⟨large, inside, rfl⟩
    exact ⟨large, inside, _, emptyRange_iff.mpr ⟨inside.le, rfl⟩, (inversion large inside).symm⟩

theorem kinds_of_built (built : Built table charSet) :
    (∃ ilist, Proper ilist ∧ charSet = ilistToCharSet ilist) ∨ (∃ s, EmptyRange s charSet) ∨ ∃ s, InvertedRange s charSet := by
  obtain ⟨ilist, stored, rfl⟩ := made_of_built built
  cases stored with
  | proper proper => exact .inl ⟨ilist, proper, rfl⟩
  | emptyRange inside => exact .inr (.inl ⟨_, emptyRange_iff.mpr ⟨inside, rfl⟩⟩)
  | inverted large inside => exact .inr (.inr ⟨_, invertedRange_iff.mpr ⟨large, inside, rfl⟩⟩)

theorem EmptyRange.member (empty : EmptyRange s charSet) (cp : Nat) : codePointInCharSet cp charSet = false := by
  obtain ⟨inside, rfl⟩ := emptyRange_iff.mp empty
  rw [(Stored.emptyRange inside).member, toggled_empty_range]

theorem InvertedRange.member (inverted : InvertedRange s charSet) {cp : Nat} (code : cp < charCodeLimit) :
    codePointInCharSet cp charSet = true := by
  obtain ⟨large, inside, rfl⟩ := invertedRange_iff.mp inverted
  rw [(Stored.inverted large inside).member, toggled_inverted_range code]

theorem charSetEmptyP_iff : charSetEmptyP charSet = true ↔ charSet.low = [] ∧ charSet.high = [] := by
  rw [charSetEmptyP, Bool.and_eq_true, beq_iff_eq, beq_iff_eq, eq_comm (b := charSet.low.length),
    eq_comm (b := charSet.high.length), length_eq_zero_iff, length_eq_zero_iff]

theorem EmptyRange.not_empty (empty : EmptyRange s charSet) : charSetEmptyP charSet = false := by
  obtain ⟨-, rfl⟩ := emptyRange_iff.mp empty
  refine Bool.eq_false_iff.mpr fun none => ?_
  obtain ⟨low, high⟩ := charSetEmptyP_iff.mp none
  rcases lt_or_ge s 32 with small | large
  · have limit := lowLimit_chosen [s, s]
    rw [low] at limit
    exact Nat.not_lt_zero s ((chooseLowLimit_small small).trans_eq limit.symm)
  · have points := (stored_high (chooseLowLimit_large large) (skipLow_empty_range (by omega))).2
    rw [high] at points
    cases points

theorem emptyP_of_proper (proper : Proper ilist) : charSetEmptyP (ilistToCharSet ilist) = true ↔
    ∀ cp < charCodeLimit, codePointInCharSet cp (ilistToCharSet ilist) = false := by
  constructor
  · intro none cp _
    obtain ⟨low, high⟩ := charSetEmptyP_iff.mp none
    have points := (ilistToCharSet_holds proper.loose).points
    rw [low, high] at points
    have same : toggled cp (skipLow (lowLimit []) ilist) = toggled cp ilist :=
      (skipLow_spec (lowLimit []) (fun _ _ => id) (fun _ _ => le_of_lt) proper.loose).2.2 cp (Nat.zero_le cp)
    rw [member_of_proper proper, ← same, ← points]
    rfl
  · intro none
    have nil : ilist = [] := proper.ext proper_nil fun cp code => by
      rw [← member_of_proper proper, none cp code, toggled_nil]
    subst nil
    decide

theorem emptyP_correct_iff (built : Built table charSet) :
    (charSetEmptyP charSet = true ↔ ∀ cp < charCodeLimit, codePointInCharSet cp charSet = false) ↔
      ∀ s, ¬EmptyRange s charSet := by
  have wrong {s : Nat} (empty : EmptyRange s charSet) :
      ¬(charSetEmptyP charSet = true ↔ ∀ cp < charCodeLimit, codePointInCharSet cp charSet = false) := fun correct => by
    have yes := correct.mpr fun cp _ => empty.member cp
    rw [empty.not_empty] at yes
    cases yes
  refine ⟨fun correct s empty => wrong empty correct, fun none => ?_⟩
  rcases kinds_of_built built with ⟨ilist, proper, rfl⟩ | ⟨s, empty⟩ | ⟨s, inverted⟩
  · exact emptyP_of_proper proper
  · exact absurd empty (none s)
  · have member : codePointInCharSet 0 charSet = true := inverted.member (by decide)
    constructor
    · intro yes
      obtain ⟨low, high⟩ := charSetEmptyP_iff.mp yes
      obtain ⟨large, inside, rfl⟩ := invertedRange_iff.mp inverted
      have points := (stored_high (chooseLowLimit_inverted large) (skipLow_inverted_range (by omega))).2
      rw [high] at points
      cases points
    · intro nothing
      rw [nothing 0 (by decide)] at member
      cases member

theorem charSetEqual_iff : charSetEqual [a, b] = true ↔ a = b := by
  rw [charSetEqual, all_cons, all_nil, Bool.and_true, Bool.and_eq_true, beq_iff_eq, beq_iff_eq]
  constructor
  · rintro ⟨low, high⟩
    cases a
    cases b
    congr
    · exact low.symm
    · exact high.symm
  · rintro rfl
    exact ⟨rfl, rfl⟩

theorem equal_of_proper {ilist' : List Nat} (proper : Proper ilist) (proper' : Proper ilist')
    (same : ∀ cp < charCodeLimit, codePointInCharSet cp (ilistToCharSet ilist) =
      codePointInCharSet cp (ilistToCharSet ilist')) : ilist = ilist' :=
  proper.ext proper' fun cp code => by rw [← member_of_proper proper, same cp code, member_of_proper proper']

theorem InvertedRange.not_proper (inverted : InvertedRange s charSet) (proper : Proper ilist) :
    charSet ≠ ilistToCharSet ilist := by
  obtain ⟨large, inside, rfl⟩ := invertedRange_iff.mp inverted
  intro same
  have points : ilist = [0, s, s, charCodeLimit] := by
    rw [← charSetToIlist_proper proper, ← same, charSetToIlist_inverted large]
  have ascending := proper.ascending
  rw [points] at ascending
  exact lt_irrefl s ((pairwise_cons.mp (pairwise_cons.mp ascending).2).1 s mem_cons_self)

theorem InvertedRange.determined (inverted : InvertedRange s a) (inverted' : InvertedRange s b) : a = b := by
  obtain ⟨-, -, rfl⟩ := invertedRange_iff.mp inverted
  obtain ⟨-, -, rfl⟩ := invertedRange_iff.mp inverted'
  rfl

theorem equal_inverted_iff (inverted : InvertedRange s b) (different : a ≠ b) :
    (a = b ↔ ∀ cp < charCodeLimit, codePointInCharSet cp a = codePointInCharSet cp b) ↔
      ∃ cp < charCodeLimit, codePointInCharSet cp a = false := by
  have full : (∀ cp < charCodeLimit, codePointInCharSet cp a = codePointInCharSet cp b) ↔
      ∀ cp < charCodeLimit, codePointInCharSet cp a = true :=
    forall₂_congr fun cp code => by rw [inverted.member code]
  rw [full, iff_false_left different]
  simp

/-- `char-set=` and `char-set-empty?` answer for the sets, unless an empty range is stored: a char-set is one, or
one is the inversion of one and the other is full. -/
theorem equality_extensional_iff (built_a : Built table a) (built_b : Built table b) :
    ((charSetEqual [a, b] = true ↔ ∀ cp < charCodeLimit, codePointInCharSet cp a = codePointInCharSet cp b) ∧
      (charSetEmptyP a = true ↔ ∀ cp < charCodeLimit, codePointInCharSet cp a = false) ∧
      (charSetEmptyP b = true ↔ ∀ cp < charCodeLimit, codePointInCharSet cp b = false)) ↔
    (∀ s, ¬EmptyRange s a ∧ ¬EmptyRange s b) ∧
      (∀ s, InvertedRange s a → InvertedRange s b ∨ ∃ cp < charCodeLimit, codePointInCharSet cp b = false) ∧
      ∀ s, InvertedRange s b → InvertedRange s a ∨ ∃ cp < charCodeLimit, codePointInCharSet cp a = false := by
  rw [emptyP_correct_iff built_a, emptyP_correct_iff built_b, charSetEqual_iff, forall_and, and_comm]
  refine and_congr_right fun none => ?_
  obtain ⟨none_a, none_b⟩ := none
  have kinds_a := (kinds_of_built built_a).imp_right (Or.resolve_left · fun empty => none_a _ empty.choose_spec)
  have kinds_b := (kinds_of_built built_b).imp_right (Or.resolve_left · fun empty => none_b _ empty.choose_spec)
  rcases kinds_a with ⟨ilist, proper, rfl⟩ | ⟨s, inverted⟩
  · rcases kinds_b with ⟨ilist', proper', rfl⟩ | ⟨s', inverted'⟩
    · refine iff_of_true ⟨fun same cp _ => by rw [same], fun same => by rw [equal_of_proper proper proper' same]⟩ ⟨?_, ?_⟩
      · exact fun s inverted => absurd rfl (inverted.not_proper proper)
      · exact fun s inverted => absurd rfl (inverted.not_proper proper')
    · rw [equal_inverted_iff inverted' (inverted'.not_proper proper).symm]
      constructor
      · exact fun lacks => ⟨fun s inverted => absurd rfl (inverted.not_proper proper), fun _ _ => .inr lacks⟩
      · rintro ⟨-, cases⟩
        exact (cases s' inverted').resolve_left fun inverted => absurd rfl (inverted.not_proper proper)
  · rcases kinds_b with ⟨ilist', proper', rfl⟩ | ⟨s', inverted'⟩
    · have symmetric : (a = ilistToCharSet ilist' ↔
          ∀ cp < charCodeLimit, codePointInCharSet cp a = codePointInCharSet cp (ilistToCharSet ilist')) ↔
          (ilistToCharSet ilist' = a ↔
            ∀ cp < charCodeLimit, codePointInCharSet cp (ilistToCharSet ilist') = codePointInCharSet cp a) := by
        rw [eq_comm, forall₂_congr fun cp _ => eq_comm (a := codePointInCharSet cp a)]
      rw [symmetric, equal_inverted_iff inverted (inverted.not_proper proper').symm]
      constructor
      · exact fun lacks => ⟨fun _ _ => .inr lacks, fun s inverted => absurd rfl (inverted.not_proper proper')⟩
      · rintro ⟨cases, -⟩
        exact (cases s inverted).resolve_left fun inverted => absurd rfl (inverted.not_proper proper')
    · have same : ∀ cp < charCodeLimit, codePointInCharSet cp a = codePointInCharSet cp b := fun cp code => by
        rw [inverted.member code, inverted'.member code]
      have full : ¬∃ cp < charCodeLimit, codePointInCharSet cp b = false := by
        rintro ⟨cp, code, absent⟩
        rw [inverted'.member code] at absent
        cases absent
      constructor
      · intro correct
        obtain rfl := correct.mpr same
        exact ⟨fun _ inverted => .inl inverted, fun _ inverted => .inl inverted⟩
      · rintro ⟨cases, -⟩
        exact iff_of_true (inverted.determined ((cases s inverted).resolve_right full)) same

end

theorem equality_extensional_iff_letters :
    let letters := ilistToCharSet [65, 91]
    ucsRangeToCharSet 65 91 none = some letters ∧
    (((charSetEqual [letters, charSetInvert (charSetInvert letters)] = true ↔ ∀ cp < charCodeLimit,
        codePointInCharSet cp letters = codePointInCharSet cp (charSetInvert (charSetInvert letters))) ∧
      (charSetEmptyP letters = true ↔ ∀ cp < charCodeLimit, codePointInCharSet cp letters = false) ∧
      (charSetEmptyP (charSetInvert (charSetInvert letters)) = true ↔
        ∀ cp < charCodeLimit, codePointInCharSet cp (charSetInvert (charSetInvert letters)) = false)) ↔
    (∀ s, ¬EmptyRange s letters ∧ ¬EmptyRange s (charSetInvert (charSetInvert letters))) ∧
      (∀ s, InvertedRange s letters → InvertedRange s (charSetInvert (charSetInvert letters)) ∨
        ∃ cp < charCodeLimit, codePointInCharSet cp (charSetInvert (charSetInvert letters)) = false) ∧
      ∀ s, InvertedRange s (charSetInvert (charSetInvert letters)) → InvertedRange s letters ∨
        ∃ cp < charCodeLimit, codePointInCharSet cp letters = false) := by
  intro letters
  have returns : ucsRangeToCharSet 65 91 none = some letters := rfl
  have built : Built ⟨[], forall_mem_nil _⟩ letters := .ucsRangeToCharSet (fun _ none => absurd none (Option.not_mem_none _)) returns
  exact ⟨returns, equality_extensional_iff built (.invert (.invert built))⟩

theorem empty_range_not_empty : ∃ charSet, ucsRangeToCharSet 0x100 0x100 none = some charSet ∧
    (∀ cp < charCodeLimit, codePointInCharSet cp charSet = false) ∧ charSetEmptyP charSet = false ∧
    charSetStar [] = some charSetEmpty ∧ charSetEqual [charSet, charSetEmpty] = false := by
  have empty : EmptyRange 0x100 (ilistToCharSet [0x100, 0x100]) := rfl
  refine ⟨_, empty, fun cp _ => empty.member cp, empty.not_empty, rfl, Bool.eq_false_iff.mpr fun same => ?_⟩
  have bytes := empty.not_empty
  rw [charSetEqual_iff.mp same] at bytes
  have proper : Proper (cplToIlist []) := (cplLoop_spec (fun part member => absurd member not_mem_nil)
    (forall_mem_nil _) (forall_mem_nil _) proper_nil.loose).1
  rw [charSetEmpty, (emptyP_of_proper proper).mpr charSetEmpty_spec.2] at bytes
  cases bytes

/-- The folds give a procedure the maximal runs of the members, in increasing and in decreasing order. -/
def Enumerates (charSet : CharSet) : Prop :=
  ∃ rs : List (Nat × Nat), rs.Pairwise (fun r r' => r.1 < r'.1) ∧
    (∀ start stop, (start, stop) ∈ rs ↔ MaximalRun (fun cp => codePointInCharSet cp charSet = true) start stop) ∧
    ∀ {β : Type} (proc : Nat → Nat → β → β) (init : β),
      charSetRangeFold proc init charSet = foldRuns proc rs init ∧
      charSetRangeFoldRight proc init charSet = foldRunsRight proc rs init

section
variable {s : Nat} {ilist : List Nat} {charSet a b : CharSet} {table : UnicodeTable}

theorem enumerates_of_holds (holds : Holds charSet ilist) (proper : Proper ilist) : Enumerates charSet := by
  have members : (fun cp => codePointInCharSet cp charSet = true) = fun cp => toggled cp ilist = true :=
    funext fun cp => by rw [holds.member proper.loose cp]
  refine ⟨runs ilist, runs_ascending proper.ascending, fun start stop => ?_, fun proc init => ?_⟩
  · rw [mem_runs_iff proper.ascending proper.even, members]
  · exact ⟨charSetRangeFold_eq holds proper, charSetRangeFoldRight_eq holds proper⟩

theorem foldRunsRight_cons (rs : List (Nat × Nat)) : foldRunsRight (fun start stop rs => (start, stop) :: rs) rs [] = rs := by
  induction rs with
  | nil => rfl
  | cons r rs ih => exact congrArg (r :: ·) ih

theorem maximalRun_of_enumerates {r : Nat × Nat} (enumerates : Enumerates (ilistToCharSet ilist))
    (none : chooseLowLimit ilist = 0) (kept : skipLow 0 ilist = ilist) (even : ilist.length % 2 = 0)
    (member : r ∈ runs ilist) : MaximalRun (fun cp => codePointInCharSet cp (ilistToCharSet ilist) = true) r.1 r.2 := by
  obtain ⟨low, high⟩ := stored_high none kept
  obtain ⟨rs, -, maximal, folds⟩ := enumerates
  have fold := (folds (fun start stop rs => (start, stop) :: rs) []).2
  rw [foldRunsRight_cons, charSetRangeFoldRight_high low (by rwa [high]), high, foldRunsRight_cons] at fold
  exact (maximal r.1 r.2).mp (fold ▸ member)

theorem EmptyRange.enumerates_iff (empty : EmptyRange s charSet) : Enumerates charSet ↔ s < 32 := by
  obtain ⟨-, rfl⟩ := emptyRange_iff.mp empty
  rcases lt_or_ge s 32 with small | large
  · exact iff_of_true (enumerates_of_holds (holds_small small) proper_nil) small
  · refine iff_of_false (fun enumerates => ?_) (large.not_gt)
    have run := maximalRun_of_enumerates enumerates (chooseLowLimit_large large) (skipLow_empty_range (by omega))
      (by simp) mem_cons_self
    exact lt_irrefl s run.nonempty

theorem InvertedRange.not_enumerates (inverted : InvertedRange s charSet) : ¬Enumerates charSet := by
  obtain ⟨large, inside, rfl⟩ := invertedRange_iff.mp inverted
  intro enumerates
  have run := maximalRun_of_enumerates enumerates (chooseLowLimit_inverted large) (skipLow_inverted_range (by omega))
    (by simp) mem_cons_self
  have whole := (run.maximal 0 le_rfl charCodeLimit inside.le fun cp _ code => inverted.member code).2
  exact inside.ne whole.symm

theorem enumerates_iff (built : Built table charSet) :
    Enumerates charSet ↔ ∀ s, (32 ≤ s → ¬EmptyRange s charSet) ∧ ¬InvertedRange s charSet := by
  rcases kinds_of_built built with ⟨ilist, proper, rfl⟩ | ⟨s, empty⟩ | ⟨s, inverted⟩
  · refine iff_of_true (enumerates_of_holds (ilistToCharSet_holds proper.loose) proper) fun s => ⟨fun large empty => ?_, fun inverted => ?_⟩
    · obtain ⟨-, same⟩ := emptyRange_iff.mp empty
      have ascending := proper.ascending
      rw [← charSetToIlist_proper proper, same, charSetToIlist_large large] at ascending
      exact lt_irrefl s (pairwise_pair.mp ascending)
    · exact inverted.not_proper proper rfl
  · rw [empty.enumerates_iff]
    refine ⟨fun small s' => ⟨fun large' empty' => ?_, fun inverted => ?_⟩, fun none => ?_⟩
    · obtain ⟨-, rfl⟩ := emptyRange_iff.mp empty
      obtain ⟨-, same⟩ := emptyRange_iff.mp empty'
      have lists := charSetToIlist_small small
      rw [same, charSetToIlist_large large'] at lists
      cases lists
    · have member : codePointInCharSet 0 charSet = true := inverted.member (by decide)
      rw [empty.member] at member
      cases member
    · exact lt_of_not_ge fun large => (none s).1 large empty
  · exact iff_of_false inverted.not_enumerates fun none => (none s).2 inverted

/-- Membership is that of sets in every case, and the folds enumerate the maximal runs unless an empty range is
stored above the bit vector, as such or inverted. -/
theorem set_operations_iff (built_a : Built table a) (built_b : Built table b) :
    ((∀ cpl charSet, (∀ part, .charSet part ∈ cpl → Built table part) → charSetStar cpl = some charSet →
        ∀ cp < charCodeLimit, codePointInCharSet cp charSet = true ↔ ∃ element ∈ cpl, element.Covers cp) ∧
      (∀ cp < charCodeLimit,
        codePointInCharSet cp (charSetUnion [a, b]) = (codePointInCharSet cp a || codePointInCharSet cp b) ∧
        codePointInCharSet cp (charSetIntersection table [a, b]) =
          (codePointInCharSet cp a && codePointInCharSet cp b) ∧
        codePointInCharSet cp (charSetDifference a [b]) = (codePointInCharSet cp a && !codePointInCharSet cp b) ∧
        (∀ charSet, charSetXor [a, b] = some charSet →
          codePointInCharSet cp charSet = xor (codePointInCharSet cp a) (codePointInCharSet cp b)) ∧
        codePointInCharSet cp (charSetInvert a) = !codePointInCharSet cp a ∧
        (∀ chars, codePointInCharSet cp (charSetAdjoin a chars) = true ↔
          codePointInCharSet cp a = true ∨ ∃ char ∈ chars, char.code = cp) ∧
        ∀ chars, codePointInCharSet cp (charSetDelete a chars) = true ↔
          codePointInCharSet cp a = true ∧ ¬∃ char ∈ chars, char.code = cp) ∧
      Enumerates a ∧ Enumerates b) ↔
    (∀ s, (32 ≤ s → ¬EmptyRange s a) ∧ ¬InvertedRange s a) ∧ ∀ s, (32 ≤ s → ¬EmptyRange s b) ∧ ¬InvertedRange s b := by
  rw [← enumerates_iff built_a, ← enumerates_iff built_b]
  refine ⟨fun property => property.2.2, fun enumerates => ⟨fun cpl charSet parts returns => ?_, fun cp code => ?_, enumerates⟩⟩
  · exact (charSetStar_spec (fun part member => made_of_built (parts part member)) returns).2
  · have made_a := made_of_built built_a
    have both : ∀ part ∈ [a, b], Made part :=
      forall_mem_cons.mpr ⟨made_a, forall_mem_cons.mpr ⟨made_of_built built_b, forall_mem_nil _⟩⟩
    have single : ∀ part ∈ [b], Made part := (forall_mem_cons.mp both).2
    refine ⟨?_, ?_, ?_, fun charSet returns => ?_, ?_, fun chars => ?_, fun chars => ?_⟩
    · rw [(charSetUnion_spec both).2 cp code, any_cons, any_cons, any_nil, Bool.or_false]
    · rw [(charSetIntersection_spec both).2 (cons_ne_nil _ _) cp code, all_cons, all_cons, all_nil, Bool.and_true]
    · rw [(charSetDifference_spec made_a single).2 cp code, all_cons, all_nil, Bool.and_true]
    · rw [(charSetXor_spec both returns).2 cp code, map_cons, map_cons, map_nil, foldr_cons,
        foldr_cons, foldr_nil, Bool.xor_false]
    · exact (charSetInvert_spec made_a).2 cp code
    · exact (charSetAdjoin_spec made_a chars).2 cp code
    · exact (charSetDelete_spec made_a chars).2 cp code

end

theorem set_operations_iff_letters :
    let table : UnicodeTable := ⟨[], List.forall_mem_nil _⟩
    let a := ilistToCharSet [65, 91]
    let b := ilistToCharSet [0x100, charCodeLimit]
    ((∀ cpl charSet, (∀ part, .charSet part ∈ cpl → Built table part) → charSetStar cpl = some charSet →
        ∀ cp < charCodeLimit, codePointInCharSet cp charSet = true ↔ ∃ element ∈ cpl, element.Covers cp) ∧
      (∀ cp < charCodeLimit,
        codePointInCharSet cp (charSetUnion [a, b]) = (codePointInCharSet cp a || codePointInCharSet cp b) ∧
        codePointInCharSet cp (charSetIntersection table [a, b]) =
          (codePointInCharSet cp a && codePointInCharSet cp b) ∧
        codePointInCharSet cp (charSetDifference a [b]) = (codePointInCharSet cp a && !codePointInCharSet cp b) ∧
        (∀ charSet, charSetXor [a, b] = some charSet →
          codePointInCharSet cp charSet = xor (codePointInCharSet cp a) (codePointInCharSet cp b)) ∧
        codePointInCharSet cp (charSetInvert a) = !codePointInCharSet cp a ∧
        (∀ chars, codePointInCharSet cp (charSetAdjoin a chars) = true ↔
          codePointInCharSet cp a = true ∨ ∃ char ∈ chars, char.code = cp) ∧
        ∀ chars, codePointInCharSet cp (charSetDelete a chars) = true ↔
          codePointInCharSet cp a = true ∧ ¬∃ char ∈ chars, char.code = cp) ∧
      Enumerates a ∧ Enumerates b) ↔
    (∀ s, (32 ≤ s → ¬EmptyRange s a) ∧ ¬InvertedRange s a) ∧ ∀ s, (32 ≤ s → ¬EmptyRange s b) ∧ ¬InvertedRange s b := by
  intro table a b
  have built_a : Built table a := .ucsRangeToCharSet (fun _ none => absurd none (Option.not_mem_none _))
    (rfl : ucsRangeToCharSet 65 91 none = some a)
  have built_b : Built table b := .ucsRangeToCharSet (fun _ none => absurd none (Option.not_mem_none _))
    (rfl : ucsRangeToCharSet 0x100 charCodeLimit none = some b)
  exact set_operations_iff built_a built_b

theorem empty_range_enumerated : ∃ charSet, ucsRangeToCharSet 0x100 0x100 none = some charSet ∧
    (∀ cp < charCodeLimit, codePointInCharSet cp charSet = false) ∧
    charSetRangeFold (fun start stop rs => (start, stop) :: rs) [] charSet = [(0x100, 0x100)] ∧
    charSetRangeFoldRight (fun start stop rs => (start, stop) :: rs) [] charSet = [(0x100, 0x100)] ∧
    ¬Enumerates charSet := by
  have empty : EmptyRange 0x100 (ilistToCharSet [0x100, 0x100]) := rfl
  obtain ⟨low, high⟩ := stored_high (chooseLowLimit_large (s := 0x100) (by decide)) (skipLow_empty_range (by decide))
  refine ⟨_, empty, fun cp _ => empty.member cp, ?_, ?_, fun enumerates => absurd (empty.enumerates_iff.mp enumerates) (by decide)⟩
  · rw [charSetRangeFold_high low (by rw [high]; rfl)]
    rfl
  · rw [charSetRangeFoldRight_high low (by rw [high]; rfl)]
    rfl

end MitScheme.Runtime.CharSets
