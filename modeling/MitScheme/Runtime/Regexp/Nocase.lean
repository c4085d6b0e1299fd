import MitScheme.Runtime.Regexp.Folding
import MitScheme.Runtime.Regexp.Runs

/-!
What an expression matches under `w/nocase`, against what it matches with its literals replaced: the same, where it is
folded as it should be.
-/

namespace MitScheme.Runtime.Regexp

open Library CharSets List

section
variable {tables : Tables} {ctx : Scopes} {sre : Sre} {sres : List Sre} {charSet : CharSet} {char : Character}

/-- The scopes of the operands of `w/nocase`. -/
def nocaseScopes : Scopes := initialScopes.enter .wNocase

theorem compileEach_singleton : compileEach tables [sre] ctx = (do return [← compileSre tables sre ctx]) := by
  rw [compileEach, compileEach]
  simp

theorem compileSre_nocase (cset : ¬validCsetSre tables sre = true) (valid : validSre tables sre = true) :
    compileSre tables (.within .wNocase [sre]) initialScopes = compileSre tables sre nocaseScopes := by
  have cset' : ¬validCsetSre tables (.within .wNocase [sre]) = true := by
    simpa [validCsetSre] using cset
  have valid' : validSre tables (.within .wNocase [sre]) = true := by
    rw [validSre.eq_def, Bool.or_eq_true]
    exact .inr (by simpa using valid)
  rw [compileSre_within cset' valid', compileEach_singleton, bind_assoc]
  exact bind_pure _

theorem validSre_seq (valid : ∀ sre ∈ sres, validSre tables sre = true) :
    validSre tables (.operation .seq sres) = true := by
  rw [validSre.eq_def]
  simpa [validCsetSre, Operation.legal] using valid

theorem compileSre_seq (valid : validSre tables sre = true) :
    compileSre tables (.operation .seq [sre]) ctx = compileSre tables sre ctx := by
  rw [compileSre_operation (validSre_seq (forall_mem_singleton.mpr valid)), compileEach_singleton, bind_assoc]
  exact bind_pure _

theorem compileSre_nocase_cset (valid : validCsetSre tables sre = true) {state : Compilation}
    {compiled : Insn × Compilation} :
    compileSre tables (.within .wNocase [sre]) initialScopes state ≠ .ok compiled := by
  have cset : validCsetSre tables (.within .wNocase [sre]) = true := by
    simpa [validCsetSre] using valid
  rw [compileSre_cset cset]
  intro returns
  obtain ⟨insn, insns, -⟩ := bind_returns.mp returns
  obtain ⟨value, values, rest⟩ := bind_returns.mp insns
  obtain ⟨charSet, charSets, -⟩ := bind_returns.mp rest
  obtain ⟨list, -, same⟩ := bind_returns.mp values
  cases same
  cases charSets

def Yields {α : Type} (compiles : CompileM α) (property : α → Prop) : Prop :=
  ∀ state value state', compiles state = .ok (value, state') → property value

section
variable {α β : Type} {compiles : CompileM α} {next : α → CompileM β} {property : α → Prop} {property' : β → Prop}

theorem Yields.bind (first : Yields compiles property) (then' : ∀ value, property value → Yields (next value) property') :
    Yields (compiles >>= next) property' := by
  intro state value state' returns
  obtain ⟨middle, runs, rest⟩ := bind_returns.mp returns
  exact then' middle.1 (first _ _ _ runs) _ _ _ rest

theorem yields_pure {value : α} (holds : property value) : Yields (pure value) property := by
  intro state value' state' returns
  cases returns
  exact holds

theorem yields_throw {error : Error} : Yields (throw error) property := by
  intro state value state' returns
  cases returns

theorem yields_modify {change : Compilation → Compilation} : Yields (modify change) fun _ => True := fun _ _ _ _ => trivial

theorem yields_lift {result : Except Error α} (holds : ∀ value, result = .ok value → property value) :
    Yields (StateT.lift result) property := by
  intro state value state' returns
  obtain ⟨value', runs, same⟩ := bind_returns.mp returns
  cases same
  exact holds value runs

end

theorem quiet_insnCharSet {ci : Bool} {insn : Insn} (returns : insnCharSet tables charSet ci = .ok insn) :
    QuietInsn insn := by
  have char_quiet : ∀ char, QuietInsn (insnChar tables char ci) := fun char =>
    quiet_normalInsn fun _ same => by cases same
  rw [insnCharSet] at returns
  split at returns
  · cases returns
    exact quiet_failInsn
  · split at returns
    · cases first : charSetFirst charSet with
      | none =>
        rw [first] at returns
        cases returns
      | some char =>
        rw [first] at returns
        cases returns
        exact char_quiet char
    · cases returns
      exact quiet_normalInsn fun _ same => by cases same

theorem quiet_compileCharSet {insn : Insn} (returns : compileCharSet tables sre ctx = .ok insn) : QuietInsn insn := by
  obtain ⟨value, -, rest⟩ := bind_returns.mp returns
  obtain ⟨charSet, -, rest⟩ := bind_returns.mp rest
  exact quiet_insnCharSet rest

theorem quiet_insnString (string : List Character) (ci : Bool) : QuietInsn (insnString tables string ci) := by
  refine quiet_insnSeq fun insn member => ?_
  obtain ⟨char, -, rfl⟩ := mem_map.mp member
  exact quiet_normalInsn fun _ same => by cases same

theorem quiet_compileAssertion (assertion : Assertion) : Yields (compileAssertion tables assertion) QuietInsn := by
  have quiet : ∀ {type : NodeType}, (∀ procedure, type ≠ .ctxOnly procedure) → QuietInsn (normalInsn type) :=
    quiet_normalInsn
  cases assertion with
  | bog | eog => exact yields_modify.bind fun _ _ => yields_pure (quiet fun _ same => by cases same)
  | _ => exact yields_pure (quiet fun _ same => by cases same)

theorem quiet_compileOperation {insn : Insn} (quiet : QuietInsn insn) (operation : Operation) :
    Yields (compileOperation ctx insn operation) QuietInsn := by
  have group : ∀ key, Yields (submatch key insn) QuietInsn := fun key =>
    yields_modify.bind fun _ _ => yields_pure (quiet_insnGroup key quiet)
  cases operation with
  | star => exact yields_pure (quiet_star quiet).1
  | optional => exact yields_pure (quiet_optional quiet).1
  | exactly n => exact yields_pure (quiet_insnExactly n quiet)
  | atLeast n => exact yields_pure (quiet_insnAtLeast n quiet)
  | repeated n m => exact yields_pure (quiet_repeated n m quiet).1
  | seq => exact yields_pure quiet
  | submatch =>
    rw [compileOperation]
    split
    · exact yields_pure quiet
    · have numbered : Yields nextSubmatchNumber fun _ => True := fun _ _ _ _ => trivial
      exact numbered.bind fun n _ => group (.number n)
  | submatchNamed key =>
    rw [compileOperation]
    split
    · exact yields_pure quiet
    · exact group (.name key)
  | nonGreedyOptional => exact yields_pure (quiet_optional quiet).2
  | nonGreedyStar => exact yields_pure (quiet_star quiet).2
  | nonGreedyRepeated n m => exact yields_pure (quiet_repeated n m quiet).2

theorem quiet_compileEach (each : ∀ sre ∈ sres, Yields (compileSre tables sre ctx) QuietInsn) :
    Yields (compileEach tables sres ctx) fun insns => ∀ insn ∈ insns, QuietInsn insn := by
  induction sres with
  | nil => exact yields_pure (forall_mem_nil _)
  | cons sre sres ih =>
    obtain ⟨first, others⟩ := forall_mem_cons.mp each
    exact first.bind fun insn quiet => (ih others).bind fun insns quiets =>
      yields_pure (forall_mem_cons.mpr ⟨quiet, quiets⟩)

theorem quiet_clauses {rule : CompileM Insn} (quiet : Yields rule QuietInsn) :
    Yields (if validCsetSre tables sre = true then StateT.lift (compileCharSet tables sre ctx)
      else if (!validSre tables sre) = true then throw .illFormed else rule) QuietInsn := by
  split
  · exact yields_lift fun insn => quiet_compileCharSet
  · split
    · exact yields_throw
    · exact quiet

theorem quiet_compileSre : Yields (compileSre tables sre ctx) QuietInsn := by
  induction sre using Sre.induct generalizing ctx with
  | terminal terminal =>
    cases terminal with
    | string string => exact quiet_clauses (yields_pure (quiet_insnString string ctx.foldP))
    | _ => exact quiet_clauses yields_throw
  | or sres ih =>
    have each : Yields (compileEach tables sres ctx) _ := quiet_compileEach fun sre member => ih sre member
    exact quiet_clauses (each.bind fun insns quiet => yields_pure (quiet_insnAlt quiet))
  | setOperation operation sres ih =>
    exact quiet_clauses yields_throw
  | operation operation sres ih =>
    have each : Yields (compileEach tables sres ctx) _ := quiet_compileEach fun sre member => ih sre member
    exact quiet_clauses (each.bind fun insns quiet => quiet_compileOperation (quiet_insnSeq quiet) operation)
  | assertion assertion => exact quiet_clauses (quiet_compileAssertion assertion)
  | within scope sres ih =>
    have each : Yields (compileEach tables sres (ctx.enter scope)) _ := quiet_compileEach fun sre member => ih sre member
    exact quiet_clauses (each.bind fun insns quiet => yields_pure (quiet_insnSeq quiet))

theorem quiet_compileTopLevel {compiled : Compiled} (compiles : compileTopLevel tables sre = .ok compiled) :
    Quiet compiled.impl.nodes := by
  obtain ⟨pair, runs, same⟩ := bind_returns.mp compiles
  cases same
  exact quiet_linkMatcher (quiet_compileSre _ _ _ runs)

section
variable {matchAll : Bool} {string : List Character} {start stop : Option ℕ} {start' stop' fuel : ℕ} {compiled : Compiled}

theorem regexpMatches_eq (inside : endIndex stop string.length = .ok stop') (inside' : startIndex start stop' = .ok start')
    (compiles : compileTopLevel tables sre = .ok compiled) :
    regexpMatches tables sre matchAll string start stop fuel = (do
      let groups ← runMatcher tables.graphemeClusterBreaks compiled.impl matchAll false start' string start' stop' fuel
      return groups.isSome) := by
  rw [regexpMatches, inside]
  change startIndex start stop' >>= _ = _
  rw [inside']
  rw [compiles]
  rfl

theorem regexpMatches_returns (inside : endIndex stop string.length = .ok stop')
    (inside' : startIndex start stop' = .ok start') (compiles : compileTopLevel tables sre = .ok compiled) :
    ∃ enough matched, ∀ fuel, enough ≤ fuel → regexpMatches tables sre matchAll string start stop fuel = .ok matched := by
  obtain ⟨enough, groups, returns⟩ := runMatcher_returns tables.graphemeClusterBreaks (.inl ⟨rfl, quiet_compileTopLevel compiles⟩)
  refine ⟨enough, groups.isSome, fun fuel more => ?_⟩
  rw [regexpMatches_eq inside inside' compiles, returns fuel more]
  rfl

def Matches (tables : Tables) (sre : Sre) (string : List Character) : Prop :=
  ∃ fuel, regexpMatches tables sre true string none none fuel = .ok true

theorem matches_iff {groups : Option (List Group)} (compiles : compileTopLevel tables sre = .ok compiled)
    (returns : runMatcher tables.graphemeClusterBreaks compiled.impl true false 0 string 0 string.length fuel = .ok groups) :
    Matches tables sre string ↔ groups.isSome = true := by
  constructor
  · rintro ⟨fuel', matched⟩
    rw [regexpMatches_eq rfl rfl compiles] at matched
    obtain ⟨groups', returns', same⟩ := bind_returns.mp matched
    rw [runMatcher_unique returns returns']
    exact Except.ok.inj same
  · intro some
    refine ⟨fuel, ?_⟩
    rw [regexpMatches_eq rfl rfl compiles, returns]
    exact congrArg Except.ok some

theorem compileTopLevel_pure {insn : Insn} (compiles : compileSre tables sre initialScopes = pure insn) :
    compileTopLevel tables sre = .ok ⟨linkMatcher insn false, []⟩ := by
  rw [compileTopLevel, compiles]
  rfl

theorem matches_chain {tests : List (Character → Answer)}
    (compiles : compileSre tables sre initialScopes = pure (insnChain tests)) :
    Matches tables sre string ↔ Accepts tests string := by
  obtain ⟨fuel, groups, returns, iff⟩ := runMatcher_chain tests false
  exact (matches_iff (compileTopLevel_pure compiles) returns).trans iff

theorem matches_failInsn (compiles : compileSre tables sre initialScopes = pure failInsn) : ¬Matches tables sre string := by
  rw [matches_iff (compileTopLevel_pure compiles) (runMatcher_failInsn false)]
  exact Bool.false_ne_true

theorem accepts_singleton {test : Character → Answer} :
    Accepts [test] string ↔ ∃ char, string = [char] ∧ (test char).isTrue = true := by
  constructor
  · intro accepts
    obtain ⟨char, rest, accepted, others, rfl⟩ := forall₂_cons_left_iff.mp accepts
    rw [forall₂_nil_left_iff.mp others]
    exact ⟨char, rfl, accepted⟩
  · rintro ⟨char, rfl, accepted⟩
    exact .cons accepted .nil

theorem matches_test {test : Character → Answer}
    (compiles : compileSre tables sre initialScopes = pure (normalInsn (.match test))) :
    Matches tables sre string ↔ ∃ char, string = [char] ∧ (test char).isTrue = true :=
  (@matches_chain tables sre string [test] compiles).trans accepts_singleton

/-- The characters that the instruction of a set accepts: all of them when the set is a single character and
case is folded. -/
def accepted (tables : Tables) (ci : Bool) (set : Set Character) : Set Character :=
  if ci then {char | (∃ only, set = {only}) ∨ char ∈ ciAccepted tables set} else set

theorem matches_charSet {ci : Bool} (made : Made charSet)
    (compiles : compileSre tables sre initialScopes = StateT.lift (insnCharSet tables charSet ci)) :
    Matches tables sre string ↔ ∃ char, string = [char] ∧ char ∈ accepted tables ci charSet.chars := by
  by_cases none : charSet.chars = ∅
  · rw [insnCharSet_empty made none] at compiles
    refine iff_of_false (matches_failInsn compiles) ?_
    rintro ⟨char, -, member⟩
    rw [none, accepted] at member
    split at member
    · obtain ⟨only, single⟩ | ⟨c, inside, -⟩ := member
      · exact Set.singleton_ne_empty only single.symm
      · exact inside
    · exact member
  · cases ci with
    | false =>
      rw [insnCharSet_some made none] at compiles
      exact matches_test compiles
    | true =>
      by_cases single : ∃ only, charSet.chars = {only}
      · obtain ⟨only, single⟩ := single
        rw [insnCharSet_single made single] at compiles
        refine (matches_test compiles).trans (exists_congr fun char => and_congr_right fun _ => ?_)
        exact iff_of_true rfl (.inl ⟨only, single⟩)
      · rw [insnCharSet_plural made none (not_exists.mp single)] at compiles
        refine (matches_test compiles).trans (exists_congr fun char => and_congr_right fun _ => ?_)
        refine (charSetCiPredicate_iff made).trans ?_
        exact (or_iff_right single).symm

theorem same_matches_iff {left right : Set Character} :
    (∀ string : List Character, (∃ char, string = [char] ∧ char ∈ left) ↔ ∃ char, string = [char] ∧ char ∈ right) ↔
      left = right := by
  constructor
  · intro same
    ext char
    have one := same [char]
    simpa using one
  · rintro rfl string
    rfl

section
variable (valid : validCsetSre tables sre = true)
include valid

theorem matches_foldLiterals (simple : plain true sre = true) : Matches tables (foldLiterals tables true sre) string ↔
    ∃ char, string = [char] ∧ char ∈ meaning tables initialScopes (folds tables) sre := by
  obtain ⟨valid', simple', -⟩ := foldLiterals_cset valid simple
  obtain ⟨charSet, compiled, made, chars⟩ := compileCharSet_spec initialScopes valid' simple'
  have compiles : compileSre tables (foldLiterals tables true sre) initialScopes =
      .lift (insnCharSet tables charSet false) := (compileSre_cset valid').trans (congrArg _ compiled)
  rw [matches_charSet made compiles, chars, meaning_foldLiterals valid simple]
  rfl

theorem matches_nocase_seq (simple : plain true sre = true) :
    Matches tables (.within .wNocase [.operation .seq [sre]]) string ↔
      ∃ char, string = [char] ∧ char ∈ accepted tables true (meaning tables nocaseScopes id sre) := by
  have valid' := validSre_of_cset valid
  obtain ⟨charSet, compiled, made, chars⟩ := compileCharSet_spec nocaseScopes valid simple
  have compiles : compileSre tables (.within .wNocase [.operation .seq [sre]]) initialScopes =
      .lift (insnCharSet tables charSet true) := by
    have cset : ¬validCsetSre tables (.operation .seq [sre]) = true := Bool.false_ne_true
    rw [compileSre_nocase cset (validSre_seq (forall_mem_singleton.mpr valid')), compileSre_seq valid',
      compileSre_cset valid, compiled]
    rfl
  rw [matches_charSet made compiles, chars]

theorem matches_seq_foldLiterals (simple : plain true sre = true) :
    Matches tables (foldLiterals tables true (.operation .seq [sre])) string ↔
      ∃ char, string = [char] ∧ char ∈ meaning tables initialScopes (folds tables) sre := by
  rw [← matches_foldLiterals valid simple]
  have same : compileSre tables (foldLiterals tables true (.operation .seq [sre])) initialScopes =
      compileSre tables (foldLiterals tables true sre) initialScopes := by
    exact compileSre_seq (validSre_of_cset (foldLiterals_cset valid simple).1)
  simp [Matches, regexpMatches, compileTopLevel, same]

theorem not_matches_nocase_cset : ¬Matches tables (.within .wNocase [sre]) string := by
  rintro ⟨fuel, matched⟩
  obtain ⟨stop, -, matched⟩ := bind_returns.mp matched
  obtain ⟨start, -, matched⟩ := bind_returns.mp matched
  obtain ⟨compiled, compiles, -⟩ := bind_returns.mp matched
  obtain ⟨pair, runs, -⟩ := bind_returns.mp compiles
  exact compileSre_nocase_cset valid runs

end

theorem matches_nocase_string {literal : List Character} (plural : ¬literal.length = 1) :
    Matches tables (.within .wNocase [.terminal (.string literal)]) string ↔ literal.length = string.length := by
  have cset : ¬validCsetSre tables (.terminal (.string literal)) = true := mt of_decide_eq_true plural
  have valid : validSre tables (.terminal (.string literal)) = true := Bool.or_eq_true_iff.mpr (.inr rfl)
  have compiles : compileSre tables (.within .wNocase [.terminal (.string literal)]) initialScopes =
      pure (insnChain (literal.map fun _ nextChar => .procedure (charCiEqualPredicate tables nextChar))) := by
    rw [compileSre_nocase cset valid, compileSre_string plural, insnChain, map_map]
    rfl
  rw [matches_chain compiles, Accepts, forall₂_map_left_iff]
  constructor
  · exact Forall₂.length_eq
  · intro same
    exact forall₂_iff_get.mpr ⟨same, fun _ _ _ => rfl⟩

theorem compileEach_foldLiterals (literal : List Character) : ∃ tests,
    compileEach tables (literal.map fun char => .terminal (foldTerminal tables (.char char))) initialScopes =
    pure (tests.map fun test => normalInsn (.match test)) ∧ ∀ string, Accepts tests string ↔
    List.Forall₂ (fun char other => tables.foldcase char = tables.foldcase other) literal string := by
  induction literal with
  | nil =>
    refine ⟨[], rfl, fun string => ?_⟩
    rw [Accepts, forall₂_nil_left_iff, forall₂_nil_left_iff]
  | cons char literal ih =>
    obtain ⟨tests, compiles, accepts⟩ := ih
    obtain ⟨charSet, made, replaced, chars⟩ := @foldTerminal_spec tables (.char char) (.inr fun specs same => by cases same)
    have some : charSet.chars ≠ ∅ := by
      rw [chars]
      exact Set.nonempty_iff_ne_empty.mp ⟨char, char, rfl, rfl⟩
    have first : compileSre tables (.terminal (foldTerminal tables (.char char))) initialScopes =
        pure (normalInsn (.match fun nextChar => .boolean (charSetContains charSet nextChar))) := by
      rw [replaced]
      exact congrArg StateT.lift (insnCharSet_some made some)
    refine ⟨(fun nextChar => .boolean (charSetContains charSet nextChar)) :: tests, ?_, fun string => ?_⟩
    · rw [map_cons, compileEach, first, compiles]
      rfl
    · rcases string with _ | ⟨other, string⟩
      · exact iff_of_false (fun none => by cases none) (fun none => by cases none)
      · rw [Accepts, forall₂_cons, forall₂_cons, ← accepts]
        refine and_congr_left fun _ => (Set.ext_iff.mp chars other).trans ?_
        refine ⟨?_, fun folded => ⟨char, rfl, folded⟩⟩
        rintro ⟨_, same, folded⟩
        exact same ▸ folded

theorem matches_string_foldLiterals {literal : List Character} (plural : ¬literal.length = 1) :
    Matches tables (foldLiterals tables true (.terminal (.string literal))) string ↔
      List.Forall₂ (fun char other => tables.foldcase char = tables.foldcase other) literal string := by
  obtain ⟨tests, each, accepts⟩ := @compileEach_foldLiterals tables literal
  have valid : validSre tables
      (.operation .seq (literal.map fun char => .terminal (foldTerminal tables (.char char)))) = true := by
    refine validSre_seq fun sre member => ?_
    obtain ⟨char, -, rfl⟩ := mem_map.mp member
    obtain ⟨charSet, made, replaced, -⟩ := @foldTerminal_spec tables (.char char) (.inr fun specs same => by cases same)
    rfl
  have replaced : foldLiterals tables true (.terminal (.string literal)) =
      .operation .seq (literal.map fun char => .terminal (foldTerminal tables (.char char))) := if_neg plural
  have compiles : compileSre tables (foldLiterals tables true (.terminal (.string literal))) initialScopes =
      pure (insnChain tests) := by
    rw [replaced, compileSre_operation valid, each]
    rfl
  rw [matches_chain compiles, accepts]

theorem string_same_matches_iff {literal : List Character} (plural : ¬literal.length = 1) :
    (∀ string, Matches tables (.within .wNocase [.terminal (.string literal)]) string ↔
        Matches tables (foldLiterals tables true (.terminal (.string literal))) string) ↔
      ∀ char ∈ literal, ∀ other, tables.foldcase char = tables.foldcase other := by
  simp only [matches_nocase_string plural, matches_string_foldLiterals plural]
  constructor
  · intro same char member other
    have long : literal.length = (replicate literal.length other).length := length_replicate.symm
    obtain ⟨n, small, rfl⟩ := getElem_of_mem member
    have folds := (forall₂_iff_get.mp ((same _).mp long)).2 n small (by simpa using small)
    simpa using folds
  · intro alike string
    constructor
    · intro long
      exact forall₂_iff_get.mpr ⟨long, fun n small _ => alike _ (get_mem _ _) _⟩
    · exact Forall₂.length_eq

end

/-- The images of a character fold as it does, and the folding is made where the table asks for it. -/
structure Agrees (tables : Tables) : Prop where
  upcase : ∀ char, tables.foldcase (mapped tables.upcase tables.changesWhenUpperCased char) = tables.foldcase char
  downcase : ∀ char, tables.foldcase (mapped tables.downcase tables.changesWhenLowerCased char) = tables.foldcase char
  foldcase : ∀ char, mapped tables.foldcase tables.changesWhenCaseFolded char = tables.foldcase char

def union : Sre → Bool
  | .terminal _ => true
  | .or sres => unionEach sres
  | _ => false
where
  unionEach : List Sre → Bool
    | [] => true
    | sre :: sres => union sre && unionEach sres

def Additive (expand : Set Character → Set Character) : Prop := ∀ set char, char ∈ expand set ↔ ∃ c ∈ set, char ∈ expand {c}

@[simp] theorem unionEach_eq : union.unionEach sres = sres.all union := by
  induction sres with
  | nil => rfl
  | cons sre sres ih => rw [union.unionEach, ih, all_cons]

theorem denote_additive {expand : Set Character → Set Character} {ascii : Bool} (additive : Additive expand)
    (joined : union sre = true) : char ∈ denote tables expand ascii sre ↔
      ∃ c ∈ denote tables id ascii sre, char ∈ expand {c} := by
  induction sre using Sre.induct with
  | terminal terminal => exact additive _ _
  | or sres ih =>
    rw [union, unionEach_eq, all_eq_true] at joined
    simp only [denote, denoteEach_eq, mem_map, Set.mem_ofPred_eq, exists_exists_and_eq_and]
    constructor
    · rintro ⟨sre, member, inside⟩
      obtain ⟨c, source, image⟩ := (ih sre member (joined sre member)).mp inside
      exact ⟨c, ⟨sre, member, source⟩, image⟩
    · rintro ⟨c, ⟨sre, member, source⟩, image⟩
      exact ⟨sre, member, (ih sre member (joined sre member)).mpr ⟨c, source, image⟩⟩
  | _ => cases joined

theorem variants_additive : Additive (variants tables) := by
  intro set char
  constructor
  · rintro (inside | ⟨c, inside, image⟩ | ⟨c, inside, image⟩)
    · exact ⟨char, inside, .inl rfl⟩
    · exact ⟨c, inside, .inr (.inl ⟨c, rfl, image⟩)⟩
    · exact ⟨c, inside, .inr (.inr ⟨c, rfl, image⟩)⟩
  · rintro ⟨c, inside, same | ⟨c', same, image⟩ | ⟨c', same, image⟩⟩
    · exact .inl (Set.mem_singleton_iff.mp same ▸ inside)
    · exact .inr (.inl ⟨c', Set.mem_singleton_iff.mp same ▸ inside, image⟩)
    · exact .inr (.inr ⟨c', Set.mem_singleton_iff.mp same ▸ inside, image⟩)

theorem folds_additive : Additive (folds tables) := by
  intro set char
  constructor
  · rintro ⟨c, inside, same⟩
    exact ⟨c, inside, c, rfl, same⟩
  · rintro ⟨c, inside, c', same, alike⟩
    exact ⟨c', Set.mem_singleton_iff.mp same ▸ inside, alike⟩

theorem folds_of_variants {set : Set Character} (agrees : Agrees tables) (inside : char ∈ variants tables set) :
    char ∈ folds tables set := by
  obtain inside | ⟨c, inside, rfl⟩ | ⟨c, inside, rfl⟩ := inside
  · exact ⟨char, inside, rfl⟩
  · exact ⟨c, inside, (agrees.upcase c).symm⟩
  · exact ⟨c, inside, (agrees.downcase c).symm⟩

theorem folds_folds (set : Set Character) : folds tables (folds tables set) = folds tables set := by
  ext char
  constructor
  · rintro ⟨c, ⟨c', inside, same⟩, same'⟩
    exact ⟨c', inside, same.trans same'⟩
  · intro inside
    exact ⟨char, inside, rfl⟩

theorem folds_eq_empty {set : Set Character} : folds tables set = ∅ ↔ set = ∅ := by
  constructor
  · intro none
    exact Set.subset_empty_iff.mp fun char inside => none ▸ (⟨char, inside, rfl⟩ : char ∈ folds tables set)
  · rintro rfl
    exact Set.eq_empty_of_forall_notMem fun _ ⟨_, inside, _⟩ => inside

theorem folds_mono {left right : Set Character} (within : left ⊆ right) : folds tables left ⊆ folds tables right :=
  fun _ ⟨c, inside, same⟩ => ⟨c, within inside, same⟩

theorem meaning_between (agrees : Agrees tables) (joined : union sre = true) :
    denote tables id false sre ⊆ meaning tables nocaseScopes id sre ∧
      meaning tables nocaseScopes id sre ⊆ folds tables (denote tables id false sre) := by
  have inner : ∀ char, char ∈ denote tables (variants tables) false sre ↔
      ∃ c ∈ denote tables id false sre, char ∈ variants tables {c} := fun char => denote_additive variants_additive joined
  constructor
  · intro char member
    exact .inl ((inner char).mpr ⟨char, member, .inl rfl⟩)
  · intro char member
    rw [← folds_folds]
    refine folds_mono (fun char member => ?_) (folds_of_variants agrees member)
    obtain ⟨c, source, image⟩ := (inner char).mp member
    exact folds_mono (Set.singleton_subset_iff.mpr source) (folds_of_variants agrees image)

theorem charSetFolds_iff (agrees : Agrees tables) (joined : union sre = true) :
    CharSetFolds tables nocaseScopes sre ↔ ∀ char, meaning tables nocaseScopes id sre ≠ {char} := by
  obtain ⟨kept, reached⟩ := meaning_between agrees joined
  have replaced : meaning tables initialScopes (folds tables) sre = folds tables (denote tables id false sre) :=
    Set.ext fun char => (denote_additive folds_additive joined).trans (folds_additive _ _).symm
  have accepts : ciAccepted tables (meaning tables nocaseScopes id sre) =
      folds tables (meaning tables nocaseScopes id sre) := by
    simp only [ciAccepted, agrees.foldcase]
    rfl
  have same : folds tables (meaning tables nocaseScopes id sre) = folds tables (denote tables id false sre) :=
    Set.Subset.antisymm ((folds_mono reached).trans (folds_folds _).subset) (folds_mono kept)
  refine ⟨CharSetFolds.plural, fun plural => ⟨plural, ?_, ?_⟩⟩
  · change _ ↔ meaning tables initialScopes (folds tables) sre = ∅
    rw [replaced, ← same, folds_eq_empty]
  · rw [accepts, same]
    exact replaced.symm

end

/-- An expression that is folded as it should be matches the same under `w/nocase` as with its literals replaced; but a
char-set by itself is not compiled, and a string of no or several characters matches any string as long as it is. -/
theorem nocase_matches_folded (tables : Tables) :
    (∀ sre, validSre tables sre = true → ¬validCsetSre tables sre = true → Folds tables sre nocaseScopes →
      ∀ matchAll string start stop,
        (∀ fuel, regexpMatches tables (.within .wNocase [sre]) matchAll string start stop fuel =
          regexpMatches tables (foldLiterals tables true sre) matchAll string start stop fuel) ∧
        ∀ compiled stop' start', compileTopLevel tables (.within .wNocase [sre]) = .ok compiled →
          endIndex stop string.length = .ok stop' → startIndex start stop' = .ok start' →
          ∃ enough matched, ∀ fuel, enough ≤ fuel →
            regexpMatches tables (.within .wNocase [sre]) matchAll string start stop fuel = .ok matched) ∧
    (∀ sre, validCsetSre tables sre = true → plain true sre = true →
      ((∀ string, Matches tables (.within .wNocase [sre]) string ↔ Matches tables (foldLiterals tables true sre) string) ↔
        meaning tables initialScopes (folds tables) sre = ∅)) ∧
    (∀ sre, validCsetSre tables sre = true → plain true sre = true →
      ((∀ string, Matches tables (.within .wNocase [.operation .seq [sre]]) string ↔
          Matches tables (foldLiterals tables true (.operation .seq [sre])) string) ↔
        accepted tables true (meaning tables nocaseScopes id sre) = meaning tables initialScopes (folds tables) sre)) ∧
    ∀ literal : List Character, ¬literal.length = 1 →
      ((∀ string, Matches tables (.within .wNocase [.terminal (.string literal)]) string ↔
          Matches tables (foldLiterals tables true (.terminal (.string literal))) string) ↔
        ∀ char ∈ literal, ∀ other, tables.foldcase char = tables.foldcase other) := by
  refine ⟨?_, ?_, ?_, fun literal => string_same_matches_iff⟩
  · intro sre valid cset good matchAll string start stop
    have compiles : compileTopLevel tables (foldLiterals tables true sre) =
        compileTopLevel tables (.within .wNocase [sre]) := by
      have same : compileSre tables (foldLiterals tables true sre) initialScopes = compileSre tables sre nocaseScopes :=
        (sameCompiled_foldLiterals valid good).compiled
      rw [compileTopLevel, compileTopLevel, same, compileSre_nocase cset valid]
    refine ⟨fun fuel => ?_, fun compiled stop' start' returns inside inside' =>
      regexpMatches_returns inside inside' returns⟩
    rw [regexpMatches, regexpMatches, compiles]
  · intro sre valid simple
    simp only [iff_false_left (not_matches_nocase_cset valid), matches_foldLiterals valid simple]
    constructor
    · intro none
      exact Set.eq_empty_of_forall_notMem fun char member => none [char] ⟨char, rfl, member⟩
    · rintro empty string ⟨char, -, member⟩
      rw [empty] at member
      exact member
  · intro sre valid simple
    simp only [matches_nocase_seq valid simple, matches_seq_foldLiterals valid simple]
    exact same_matches_iff

theorem lower_lt {char : Character} (upper : 0x41 ≤ char.code ∧ char.code < 0x5B) : char.code + 0x20 < charCodeLimit := by
  rw [charCodeLimit]
  omega

/-- `char-downcase`, of the ASCII characters. -/
def toLower (char : Character) : Character :=
  if upper : 0x41 ≤ char.code ∧ char.code < 0x5B then ⟨char.code + 0x20, lower_lt upper⟩ else char

theorem upper_lt {char : Character} (lower : 0x61 ≤ char.code ∧ char.code < 0x7B) : char.code - 0x20 < charCodeLimit := by
  rw [charCodeLimit]
  omega

/-- `char-upcase`, of the ASCII characters. -/
def toUpper (char : Character) : Character :=
  if lower : 0x61 ≤ char.code ∧ char.code < 0x7B then ⟨char.code - 0x20, upper_lt lower⟩ else char

theorem proper_interval {start stop : ℕ} (less : start < stop) (bound : stop ≤ charCodeLimit) : Proper [start, stop] :=
  ⟨pairwise_pair.mpr less, by simp, by simpa using ⟨less.le.trans bound, bound⟩⟩

theorem interval_made {start stop : ℕ} (less : start < stop) (bound : stop ≤ charCodeLimit) :
    Made (ilistToCharSet [start, stop]) := made_of_proper (proper_interval less bound)

def asciiTables : Tables where
  unicode := ⟨[], List.forall_mem_nil _⟩
  property _ := charSetEmpty
  foldcase := toLower
  upcase := toUpper
  downcase := toLower
  changesWhenCaseFolded := ilistToCharSet [0x41, 0x5B]
  changesWhenUpperCased := ilistToCharSet [0x61, 0x7B]
  changesWhenLowerCased := ilistToCharSet [0x41, 0x5B]
  graphemeClusterBreaks _ _ _ := []
  property_made _ := charSetEmpty_spec.1
  caseFolded_made := interval_made (by decide) (by decide)
  upperCased_made := interval_made (by decide) (by decide)
  lowerCased_made := interval_made (by decide) (by decide)

theorem charSetContains_interval {start stop : ℕ} {char : Character} (less : start < stop) (bound : stop ≤ charCodeLimit) :
    charSetContains (ilistToCharSet [start, stop]) char = true ↔ start ≤ char.code ∧ char.code < stop := by
  rw [charSetContains, (Stored.proper (proper_interval less bound)).member,
    toggled_interval (pairwise_pair.mpr less.le), toggled_nil, Bool.or_false, decide_eq_true_eq]

theorem mapped_interval {proc : Character → Character} {start stop : ℕ} {char : Character} (less : start < stop)
    (bound : stop ≤ charCodeLimit) (same : ¬(start ≤ char.code ∧ char.code < stop) → proc char = char) :
    mapped proc (ilistToCharSet [start, stop]) char = proc char := by
  rw [mapped]
  split
  · rfl
  · next outside => exact (same (mt (charSetContains_interval less bound).mpr outside)).symm

theorem code_toLower (char : Character) :
    (toLower char).code = if 0x41 ≤ char.code ∧ char.code < 0x5B then char.code + 0x20 else char.code := by
  rw [toLower]
  split <;> rfl

theorem code_toUpper (char : Character) :
    (toUpper char).code = if 0x61 ≤ char.code ∧ char.code < 0x7B then char.code - 0x20 else char.code := by
  rw [toUpper]
  split <;> rfl

theorem toLower_toUpper (char : Character) : toLower (toUpper char) = toLower char := by
  refine character_ext ?_
  rw [code_toLower, code_toLower, code_toUpper]
  split_ifs <;> omega

theorem toLower_toLower (char : Character) : toLower (toLower char) = toLower char := by
  refine character_ext ?_
  rw [code_toLower, code_toLower]
  split_ifs <;> omega

theorem asciiTables_agree : Agrees asciiTables where
  upcase char := by
    have image : mapped toUpper (ilistToCharSet [0x61, 0x7B]) char = toUpper char :=
      mapped_interval (by decide) (by decide) fun outside => dif_neg outside
    exact (congrArg toLower image).trans (toLower_toUpper char)
  downcase char := by
    have image : mapped toLower (ilistToCharSet [0x41, 0x5B]) char = toLower char :=
      mapped_interval (by decide) (by decide) fun outside => dif_neg outside
    exact (congrArg toLower image).trans (toLower_toLower char)
  foldcase char := mapped_interval (by decide) (by decide) fun outside => dif_neg outside

def smallA : Character := ⟨0x61, by decide⟩

def capitalA : Character := ⟨0x41, by decide⟩

def literalAb : List Character := [smallA, ⟨0x62, by decide⟩]

def stringXy : List Character := [⟨0x78, by decide⟩, ⟨0x79, by decide⟩]

theorem nocase_string_matches_other : Matches asciiTables (.within .wNocase [.terminal (.string literalAb)]) stringXy ∧
    ¬Matches asciiTables (foldLiterals asciiTables true (.terminal (.string literalAb))) stringXy := by
  have plural : ¬literalAb.length = 1 := by decide
  constructor
  · exact ⟨5, by decide⟩
  · rw [matches_string_foldLiterals plural]
    intro folds
    exact absurd (congrArg Character.code (forall₂_cons.mp folds).1) (by decide)

def literalA : Sre := .terminal (.string [smallA])

theorem literalA_folds : Folds asciiTables literalA nocaseScopes := by
  have small : smallA ∈ denote asciiTables (variants asciiTables) false literalA := .inl (mem_singleton.mpr rfl)
  have image : mapped toUpper (ilistToCharSet [0x61, 0x7B]) smallA = capitalA :=
    (mapped_interval (by decide) (by decide) fun outside => dif_neg outside).trans rfl
  have plural : ∀ char, meaning asciiTables nocaseScopes id literalA ≠ {char} := by
    intro char single
    have first : smallA ∈ ({char} : Set Character) := single ▸ .inl small
    have second : capitalA ∈ ({char} : Set Character) := single ▸ .inr (.inl ⟨smallA, small, image⟩)
    have codes := congrArg Character.code ((Set.mem_singleton_iff.mp first).trans (Set.mem_singleton_iff.mp second).symm)
    exact absurd codes (by decide)
  exact ⟨rfl, fun _ => (charSetFolds_iff asciiTables_agree rfl).mpr plural⟩

theorem nocase_matches_folded_letter :
    regexpMatches asciiTables (.within .wNocase [.operation .seq [literalA]]) true [capitalA] none none 5 = .ok true ∧
      regexpMatches asciiTables (foldLiterals asciiTables true (.operation .seq [literalA])) true [capitalA] none none 5 =
        .ok true := by
  have good : Folds asciiTables (.operation .seq [literalA]) nocaseScopes := by
    exact foldsEach_iff.mpr (forall_mem_singleton.mpr literalA_folds)
  have same := ((nocase_matches_folded asciiTables).1 (.operation .seq [literalA]) (by decide) (by decide) good true
    [capitalA] none none).1 5
  have matched : regexpMatches asciiTables (.within .wNocase [.operation .seq [literalA]]) true [capitalA] none none 5 =
      .ok true := by
    decide +kernel
  exact ⟨matched, same.symm.trans matched⟩

end MitScheme.Runtime.Regexp
