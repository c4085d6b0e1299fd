import MitScheme.Runtime.Regexp.Meaning

/-!
An expression under `w/nocase` against the same expression with each of its literals replaced by the set of the
characters that fold alike. A set of two or more characters is compared by its foldings; any other literal is matched by
`char-ci=-predicate` itself, which accepts every character.
-/

namespace MitScheme.Runtime.Regexp

open CharSets List

def allCharacters : List Character := (List.range charCodeLimit).filterMap integerToChar

theorem mem_allCharacters (char : Character) : char ∈ allCharacters :=
  mem_filterMap.mpr ⟨char.code, mem_range.mpr char.small, integerToChar_code char⟩

section
variable (tables : Tables)

/-- The char-set of the characters that fold as one of the char-set does. -/
def foldClass (charSet : CharSet) : CharSet :=
  charsToCharSet (allCharacters.filter fun char =>
    (charSetMap tables.foldcase charSet).any fun folded => folded.code == (tables.foldcase char).code)

def foldTerminal (terminal : Terminal) : Terminal :=
  match terminalToCharSet tables terminal with
  | .ok charSet => .charSet (foldClass tables charSet) (charsToCharSet_spec _).1
  | .error _ => terminal

mutual

/-- The expression with the literals replaced that are to be folded, and without the scopes that ask for it. -/
def foldLiterals (fold : Bool) : Sre → Sre
  | .terminal (.string string) =>
    if !fold then .terminal (.string string)
    else if string.length = 1 then .terminal (foldTerminal tables (.string string))
    else .operation .seq (string.map fun char => .terminal (foldTerminal tables (.char char)))
  | .terminal terminal => .terminal (if fold then foldTerminal tables terminal else terminal)
  | .or sres => .or (foldLiteralsEach fold sres)
  | .setOperation operation sres => .setOperation operation (foldLiteralsEach fold sres)
  | .operation operation sres => .operation operation (foldLiteralsEach fold sres)
  | .assertion assertion => .assertion assertion
  | .within .wNocase sres => .operation .seq (foldLiteralsEach true sres)
  | .within .wCase sres => .within .wCase (foldLiteralsEach false sres)
  | .within scope sres => .within scope (foldLiteralsEach fold sres)

def foldLiteralsEach (fold : Bool) : List Sre → List Sre
  | [] => []
  | sre :: sres => foldLiterals fold sre :: foldLiteralsEach fold sres

end

/-- The set is not a single character, it is only empty when it should be, and the characters that fold as its own do are
those of the expression with its literals replaced. -/
structure CharSetFolds (ctx : Scopes) (sre : Sre) : Prop where
  plural : ∀ char, meaning tables ctx id sre ≠ {char}
  empty : meaning tables ctx id sre = ∅ ↔ meaning tables { ctx with foldP := false } (folds tables) sre = ∅
  same : ciAccepted tables (meaning tables ctx id sre) = meaning tables { ctx with foldP := false } (folds tables) sre

mutual

/-- Where case is folded, the strings that are not char-sets are empty, and the expressions that are char-sets
are folded as they should be. -/
def Folds (sre : Sre) (ctx : Scopes) : Prop :=
  if validCsetSre tables sre then plain ctx.foldP sre = true ∧ (ctx.foldP = true → CharSetFolds tables ctx sre)
  else match sre with
    | .terminal (.string string) => ctx.foldP = true → string = []
    | .or sres => FoldsEach sres ctx
    | .operation _ sres => FoldsEach sres ctx
    | .within scope sres => FoldsEach sres (ctx.enter scope)
    | _ => True

def FoldsEach (sres : List Sre) (ctx : Scopes) : Prop :=
  match sres with
  | [] => True
  | sre :: sres => Folds sre ctx ∧ FoldsEach sres ctx

end

end

section
variable {tables : Tables} {ctx : Scopes} {sre : Sre} {sres : List Sre} {terminal : Terminal} {charSet : CharSet}
  {char : Character} {fold : Bool}

@[simp] theorem foldLiteralsEach_eq : foldLiteralsEach tables fold sres = sres.map (foldLiterals tables fold) := by
  induction sres with
  | nil => rfl
  | cons sre sres ih => rw [foldLiteralsEach, ih, map_cons]

@[simp] theorem foldsEach_iff : FoldsEach tables sres ctx ↔ ∀ sre ∈ sres, Folds tables sre ctx := by
  induction sres with
  | nil => exact iff_of_true trivial (forall_mem_nil _)
  | cons sre sres ih => rw [FoldsEach, ih, forall_mem_cons]

theorem chars_foldClass (made : Made charSet) : (foldClass tables charSet).chars = folds tables charSet.chars := by
  refine Set.ext fun char => ((charsToCharSet_spec _).2 char).trans ?_
  rw [mem_filter, any_eq_true]
  simp only [mem_allCharacters, true_and, mem_charSetMap made, beq_iff_eq]
  constructor
  · rintro ⟨folded, ⟨c, member, rfl⟩, same⟩
    exact ⟨c, member, character_ext same⟩
  · rintro ⟨c, member, same⟩
    exact ⟨_, ⟨c, member, rfl⟩, congrArg Character.code same⟩

theorem foldTerminal_spec (valid : validTerminal tables terminal = true ∨ ∀ specs, terminal ≠ .ranges specs) :
    ∃ charSet made, foldTerminal tables terminal = .charSet charSet made ∧
      charSet.chars = folds tables (terminalChars tables terminal) := by
  obtain ⟨charSet, returns, made, chars⟩ := terminalToCharSet_spec valid
  refine ⟨foldClass tables charSet, (charsToCharSet_spec _).1, ?_, ?_⟩
  · rw [foldTerminal, returns]
  · rw [← chars]
    exact chars_foldClass made

theorem foldLiteralsEach_id (each : ∀ sre ∈ sres, foldLiterals tables fold sre = sre) :
    foldLiteralsEach tables fold sres = sres := by
  rw [foldLiteralsEach_eq, map_congr_left each, map_id']

theorem foldLiterals_plain (valid : validCsetSre tables sre = true) (simple : plain false sre = true) :
    foldLiterals tables false sre = sre := by
  induction sre using Sre.induct with
  | terminal terminal => cases terminal <;> rfl
  | or sres ih =>
    rw [validCsetSre, validCsetSres_eq, all_eq_true] at valid
    rw [plain, plainEach_eq, all_eq_true] at simple
    rw [foldLiterals, foldLiteralsEach_id fun sre member => ih sre member (valid sre member) (simple sre member)]
  | setOperation operation sres ih =>
    rw [validCsetSre, validCsetSres_eq, all_eq_true] at valid
    rw [plain, plainEach_eq, Bool.and_eq_true, all_eq_true] at simple
    rw [foldLiterals, foldLiteralsEach_id fun sre member => ih sre member (valid sre member) (simple.2 sre member)]
  | operation _ _ _ => cases valid
  | assertion _ => cases valid
  | within scope sres ih =>
    rw [plain, plainEach_eq, Bool.and_eq_true, all_eq_true] at simple
    obtain ⟨other, simple⟩ := simple
    cases scope with
    | wNocase => cases other
    | wNocapture => cases valid
    | wCase | wUnicode | wAscii =>
      rw [validCsetSre, validCsetSres_eq, all_eq_true] at valid
      · rw [foldLiterals, foldLiteralsEach_id fun sre member => ih sre member (valid sre member) (simple sre member)]
        all_goals simp
      all_goals simp

theorem denoteEach_foldLiterals {expand expand' : Set Character → Set Character} {ascii : Bool}
    (each : ∀ sre ∈ sres, denote tables expand ascii (foldLiterals tables fold sre) = denote tables expand' ascii sre) :
    denoteEach tables expand ascii (foldLiteralsEach tables fold sres) = denoteEach tables expand' ascii sres := by
  rw [denoteEach_eq, denoteEach_eq, foldLiteralsEach_eq, map_map]
  exact map_congr_left each

theorem foldLiterals_cset (valid : validCsetSre tables sre = true) (simple : plain true sre = true) :
    validCsetSre tables (foldLiterals tables true sre) = true ∧ plain true (foldLiterals tables true sre) = true ∧
      ∀ expand ascii, denote tables expand ascii (foldLiterals tables true sre) =
        denote tables (fun set => expand (folds tables set)) ascii sre := by
  induction sre using Sre.induct with
  | terminal terminal =>
    obtain ⟨charSet, made, replaced, chars⟩ := foldTerminal_spec (.inl valid)
    have same : foldLiterals tables true (.terminal terminal) = .terminal (foldTerminal tables terminal) := by
      cases terminal with
      | string string => exact if_pos (of_decide_eq_true valid)
      | _ => rfl
    rw [same, replaced]
    exact ⟨rfl, rfl, fun expand ascii => congrArg expand chars⟩
  | or sres ih =>
    rw [validCsetSre, validCsetSres_eq, all_eq_true] at valid
    rw [plain, plainEach_eq, all_eq_true] at simple
    have each := fun sre member => ih sre member (valid sre member) (simple sre member)
    refine ⟨?_, ?_, fun expand ascii => ?_⟩
    · simpa [foldLiterals, validCsetSre] using fun sre member => (each sre member).1
    · simpa [foldLiterals, plain] using fun sre member => (each sre member).2.1
    · rw [foldLiterals, denote, denote, denoteEach_foldLiterals fun sre member => (each sre member).2.2 expand ascii]
  | setOperation operation sres ih =>
    rw [validCsetSre, validCsetSres_eq, all_eq_true] at valid
    rw [plain, plainEach_eq, Bool.and_eq_true, all_eq_true] at simple
    have each := fun sre member => ih sre member (valid sre member) (simple.2 sre member)
    refine ⟨?_, ?_, fun expand ascii => ?_⟩
    · simpa [foldLiterals, validCsetSre] using fun sre member => (each sre member).1
    · rw [foldLiterals, plain, plainEach_eq, foldLiteralsEach_eq, isEmpty_map, Bool.and_eq_true, all_map, all_eq_true]
      exact ⟨simple.1, fun sre member => (each sre member).2.1⟩
    · rw [foldLiterals, denote, denote, denoteEach_foldLiterals fun sre member => (each sre member).2.2 expand ascii]
  | operation _ _ _ => cases valid
  | assertion _ => cases valid
  | within _ _ _ => cases simple

theorem meaning_foldLiterals (valid : validCsetSre tables sre = true) (simple : plain true sre = true) :
    meaning tables ctx id (foldLiterals tables true sre) = meaning tables ctx (folds tables) sre :=
  congrArg _ ((foldLiterals_cset valid simple).2.2 _ _)

section
variable (made : Made charSet)
include made

theorem charSetCiPredicate_iff :
    charSetCiPredicate tables charSet char = true ↔ char ∈ ciAccepted tables charSet.chars :=
  (domainMapper_spec tables.foldcase made tables.caseFolded_made).2 (tables.foldcase char)

theorem insnCharSet_empty {ci : Bool} (empty : charSet.chars = ∅) :
    insnCharSet tables charSet ci = .ok failInsn := if_pos ((charSetSize_zero made).mpr empty)

theorem insnCharSet_single {ci : Bool} (single : charSet.chars = {char}) :
    insnCharSet tables charSet ci = .ok (insnChar tables char ci) := by
  have one : charSetSize charSet = 1 := (charSetSize_one made).mpr ⟨char, single⟩
  rw [insnCharSet, if_neg (by omega), if_pos one, charSetFirst_single made single]
  rfl

theorem insnCharSet_plural {ci : Bool} (some : charSet.chars ≠ ∅)
    (plural : ∀ char, charSet.chars ≠ {char}) : insnCharSet tables charSet ci = .ok (normalInsn (.match fun nextChar =>
      .boolean (if ci then charSetCiPredicate tables charSet nextChar else charSetContains charSet nextChar))) := by
  have zero : charSetSize charSet ≠ 0 := fun zero => some ((charSetSize_zero made).mp zero)
  have one : charSetSize charSet ≠ 1 := fun one => by
    obtain ⟨char, single⟩ := (charSetSize_one made).mp one
    exact plural char single
  rw [insnCharSet, if_neg zero, if_neg one]

theorem insnCharSet_some (some : charSet.chars ≠ ∅) : insnCharSet tables charSet false =
    .ok (normalInsn (.match fun nextChar => .boolean (charSetContains charSet nextChar))) := by
  by_cases single : ∃ char, charSet.chars = {char}
  · obtain ⟨char, single⟩ := single
    have same : charEqualPredicate char = charSetContains charSet := by
      funext nextChar
      rw [Bool.eq_iff_iff, charEqualPredicate, beq_iff_eq, ← mem_chars, single]
      exact ⟨character_ext, congrArg Character.code⟩
    rw [insnCharSet_single made single, ← same]
    rfl
  · exact insnCharSet_plural made some (not_exists.mp single)

end

theorem insnCharSet_eq {left right : CharSet} (made : Made left) (made' : Made right) (plural : ∀ char, left.chars ≠ {char})
    (empty : left.chars = ∅ ↔ right.chars = ∅) (same : ciAccepted tables left.chars = right.chars) :
    insnCharSet tables left true = insnCharSet tables right false := by
  by_cases none : right.chars = ∅
  · rw [insnCharSet_empty made' none, insnCharSet_empty made (empty.mpr none)]
  · have accepted : charSetCiPredicate tables left = charSetContains right := by
      funext char
      rw [Bool.eq_iff_iff, charSetCiPredicate_iff made, same]
      rfl
    rw [insnCharSet_some made' none, insnCharSet_plural made (mt empty.mp none) plural, ← accepted]
    rfl

theorem compileCharSet_foldLiterals (valid : validCsetSre tables sre = true) (simple : plain true sre = true)
    (folding : ctx.foldP = true) (good : CharSetFolds tables ctx sre) :
    compileCharSet tables (foldLiterals tables true sre) { ctx with foldP := false } = compileCharSet tables sre ctx := by
  obtain ⟨left, compiled, made, chars⟩ := compileCharSet_spec ctx valid simple
  obtain ⟨valid', simple', -⟩ := foldLiterals_cset valid simple
  obtain ⟨right, compiled', made', chars'⟩ := compileCharSet_spec { ctx with foldP := false } valid' simple'
  rw [meaning_foldLiterals valid simple] at chars'
  rw [compiled, compiled', folding]
  refine (insnCharSet_eq made made' ?_ ?_ ?_).symm
  · exact chars ▸ good.plural
  · rw [chars, chars']
    exact good.empty
  · rw [chars, chars']
    exact good.same

def Scopes.unfolded (ctx : Scopes) : Scopes := { ctx with foldP := false }

/-- The expression with its literals replaced is as valid, and is compiled to the same. -/
structure SameCompiled (tables : Tables) (ctx : Scopes) (sre replaced : Sre) : Prop where
  cset : validCsetSre tables replaced = validCsetSre tables sre
  valid : validSre tables replaced = true
  compiled : compileSre tables replaced ctx.unfolded = compileSre tables sre ctx

theorem validSre_of_cset (valid : validCsetSre tables sre = true) : validSre tables sre = true := by
  rw [validSre.eq_def, valid]
  rfl

theorem compileSre_cset (valid : validCsetSre tables sre = true) :
    compileSre tables sre ctx = StateT.lift (compileCharSet tables sre ctx) := by
  rw [compileSre.eq_def, if_pos valid]

theorem compileSre_or (cset : ¬validCsetSre tables (.or sres) = true) (valid : validSre tables (.or sres) = true) :
    compileSre tables (.or sres) ctx = (do return insnAlt (← compileEach tables sres ctx)) := by
  rw [compileSre.eq_def, if_neg cset, valid]
  rfl

theorem compileSre_operation {operation : Operation} (valid : validSre tables (.operation operation sres) = true) :
    compileSre tables (.operation operation sres) ctx =
      (do compileOperation ctx (insnSeq (← compileEach tables sres ctx)) operation) := by
  rw [compileSre.eq_def, valid]
  rfl

theorem compileSre_within {scope : Scope} (cset : ¬validCsetSre tables (.within scope sres) = true)
    (valid : validSre tables (.within scope sres) = true) :
    compileSre tables (.within scope sres) ctx = (do return insnSeq (← compileEach tables sres (ctx.enter scope))) := by
  rw [compileSre.eq_def, if_neg cset, valid]
  rfl

theorem compileSre_string {string : List Character} (plural : ¬string.length = 1) :
    compileSre tables (.terminal (.string string)) ctx = (do return insnString tables string ctx.foldP) := by
  have cset : ¬validCsetSre tables (.terminal (.string string)) = true := mt of_decide_eq_true plural
  have valid : validSre tables (.terminal (.string string)) = true := by
    rw [validSre.eq_def, Bool.or_eq_true]
    exact .inr rfl
  rw [compileSre.eq_def, if_neg cset, valid]
  rfl

theorem compileOperation_unfolded (insn : Insn) (operation : Operation) :
    compileOperation ctx.unfolded insn operation = compileOperation ctx insn operation := by rfl

theorem sameCompiled_cset (valid : validCsetSre tables sre = true) (good : Folds tables sre ctx) :
    SameCompiled tables ctx sre (foldLiterals tables ctx.foldP sre) := by
  rw [Folds.eq_def, if_pos valid] at good
  obtain ⟨simple, folds⟩ := good
  by_cases folding : ctx.foldP = true
  · rw [folding] at simple ⊢
    obtain ⟨valid', -⟩ := foldLiterals_cset valid simple
    refine ⟨valid'.trans valid.symm, validSre_of_cset valid', ?_⟩
    rw [compileSre_cset valid, compileSre_cset valid']
    exact congrArg _ (compileCharSet_foldLiterals valid simple folding (folds folding))
  · have kept : ctx.foldP = false := Bool.eq_false_iff.mpr folding
    have same : ctx.unfolded = ctx := by rw [Scopes.unfolded, ← kept]
    rw [kept] at simple ⊢
    rw [foldLiterals_plain valid simple]
    exact ⟨rfl, validSre_of_cset valid, by rw [same]⟩

theorem compileEach_eq {ctx' : Scopes} {replace : Sre → Sre}
    (each : ∀ sre ∈ sres, compileSre tables (replace sre) ctx' = compileSre tables sre ctx) :
    compileEach tables (sres.map replace) ctx' = compileEach tables sres ctx := by
  induction sres with
  | nil => rfl
  | cons sre sres ih =>
    obtain ⟨first, others⟩ := forall_mem_cons.mp each
    rw [map_cons, compileEach, compileEach, first, ih others]

theorem sameCompiled_each {replace : Sre → Sre} (each : ∀ sre ∈ sres, SameCompiled tables ctx sre (replace sre)) :
    validCsetSres tables (sres.map replace) = validCsetSres tables sres ∧ validSres tables (sres.map replace) = true ∧
      compileEach tables (sres.map replace) ctx.unfolded = compileEach tables sres ctx := by
  refine ⟨?_, ?_, compileEach_eq fun sre member => (each sre member).compiled⟩
  · rw [validCsetSres_eq, validCsetSres_eq, Bool.eq_iff_iff, all_map, all_eq_true, all_eq_true]
    exact forall₂_congr fun sre member => Bool.eq_iff_iff.mp (each sre member).cset
  · rw [validSres_eq, all_map, all_eq_true]
    exact fun sre member => (each sre member).valid

theorem foldLiterals_within {scope : Scope} (other : scope ≠ .wNocase) :
    foldLiterals tables ctx.foldP (.within scope sres) =
      .within scope (foldLiteralsEach tables (ctx.enter scope).foldP sres) := by
  cases scope with
  | wNocase => exact absurd rfl other
  | _ => rfl

theorem validSre_rule (cset : ¬validCsetSre tables sre = true) (valid : validSre tables sre = true) :
    ∀ sres, (sre = .or sres ∨ (∃ operation, sre = .operation operation sres) ∨ ∃ scope, sre = .within scope sres) →
      ∀ sre ∈ sres, validSre tables sre = true := by
  rw [validSre.eq_def, Bool.eq_false_iff.mpr cset] at valid
  rintro sres (rfl | ⟨operation, rfl⟩ | ⟨scope, rfl⟩)
  · simpa using valid
  · simpa using (Bool.and_eq_true_iff.mp valid).2
  · simpa using valid

theorem sameCompiled_foldLiterals (valid : validSre tables sre = true) (good : Folds tables sre ctx) :
    SameCompiled tables ctx sre (foldLiterals tables ctx.foldP sre) := by
  induction sre using Sre.induct generalizing ctx with
  | terminal terminal =>
    by_cases cset : validCsetSre tables (.terminal terminal) = true
    · exact sameCompiled_cset cset good
    · rw [Folds.eq_def, if_neg cset] at good
      rw [validSre.eq_def, Bool.eq_false_iff.mpr cset] at valid
      cases terminal with
      | string string =>
        have plural : ¬string.length = 1 := mt decide_eq_true cset
        by_cases folding : ctx.foldP = true
        · obtain rfl : string = [] := good folding
          rw [folding]
          refine ⟨rfl, rfl, ?_⟩
          rfl
        · have kept : ctx.foldP = false := Bool.eq_false_iff.mpr folding
          rw [kept]
          refine ⟨rfl, Bool.or_eq_true_iff.mpr (.inr rfl), ?_⟩
          rw [compileSre_string plural, kept]
          exact compileSre_string plural
      | _ => cases valid
  | or sres ih =>
    by_cases cset : validCsetSre tables (.or sres) = true
    · exact sameCompiled_cset cset good
    · rw [Folds.eq_def, if_neg cset] at good
      have valids := validSre_rule cset valid sres (.inl rfl)
      obtain ⟨csets, valids', compiled⟩ := sameCompiled_each fun sre member =>
        ih sre member (valids sre member) (foldsEach_iff.mp good sre member)
      have cset' : ¬validCsetSre tables (.or (sres.map (foldLiterals tables ctx.foldP))) = true := by
        rwa [validCsetSre, csets]
      have valid' : validSre tables (.or (sres.map (foldLiterals tables ctx.foldP))) = true := by
        rw [validSre.eq_def, Bool.or_eq_true]
        exact .inr valids'
      rw [foldLiterals, foldLiteralsEach_eq]
      refine ⟨csets, valid', ?_⟩
      rw [compileSre_or cset valid, compileSre_or cset' valid', compiled]
  | setOperation operation sres ih =>
    rcases Bool.or_eq_true_iff.mp (validSre.eq_def tables _ ▸ valid) with cset | other
    · exact sameCompiled_cset cset good
    · cases other
  | operation operation sres ih =>
    have cset : ¬validCsetSre tables (.operation operation sres) = true := Bool.false_ne_true
    have legal : operation.legal = true := (Bool.and_eq_true_iff.mp (validSre.eq_def tables _ ▸ valid)).1
    have valids := validSre_rule cset valid sres (.inr (.inl ⟨operation, rfl⟩))
    obtain ⟨-, valids', compiled⟩ := sameCompiled_each fun sre member =>
      ih sre member (valids sre member) (foldsEach_iff.mp good sre member)
    have valid' : validSre tables (.operation operation (sres.map (foldLiterals tables ctx.foldP))) = true := by
      exact Bool.and_eq_true_iff.mpr ⟨legal, valids'⟩
    rw [foldLiterals, foldLiteralsEach_eq]
    refine ⟨rfl, valid', ?_⟩
    rw [compileSre_operation valid, compileSre_operation valid', compiled]
    exact bind_congr fun insns => compileOperation_unfolded (insnSeq insns) operation
  | assertion assertion => exact ⟨rfl, rfl, rfl⟩
  | within scope sres ih =>
    by_cases cset : validCsetSre tables (.within scope sres) = true
    · exact sameCompiled_cset cset good
    · rw [Folds.eq_def, if_neg cset] at good
      have valids := validSre_rule cset valid sres (.inr (.inr ⟨scope, rfl⟩))
      obtain ⟨csets, valids', compiled⟩ := sameCompiled_each fun sre member =>
        ih sre member (valids sre member) (foldsEach_iff.mp good sre member)
      by_cases folding : scope = .wNocase
      · subst folding
        have valid' : validSre tables (.operation .seq (sres.map (foldLiterals tables true))) = true := valids'
        rw [foldLiterals, foldLiteralsEach_eq]
        refine ⟨(Bool.eq_false_iff.mpr cset).symm, valid', ?_⟩
        rw [compileSre_within cset valid, compileSre_operation valid', ← compiled]
        rfl
      · have entered : ctx.unfolded.enter scope = (ctx.enter scope).unfolded := by
          cases scope <;> first | rfl | contradiction
        have csets' : validCsetSre tables (.within scope (sres.map (foldLiterals tables (ctx.enter scope).foldP))) =
            validCsetSre tables (.within scope sres) := by
          cases scope <;> first | exact csets | rfl
        have valid' : validSre tables (.within scope (sres.map (foldLiterals tables (ctx.enter scope).foldP))) = true := by
          rw [validSre.eq_def, Bool.or_eq_true]
          exact .inr valids'
        rw [foldLiterals_within folding, foldLiteralsEach_eq]
        refine ⟨csets', valid', ?_⟩
        rw [compileSre_within cset valid, compileSre_within (csets' ▸ cset) valid', entered, compiled]

end

end MitScheme.Runtime.Regexp
