import MitScheme.Compiler.RtlOpt.Lifetime

namespace MitScheme.Compiler.RtlOpt

open Library List

variable {op : Type} {g : Rgraph op} {r : Lifetimes op}

def Lifetimes.kept (r : Lifetimes op) (b : ℕ) : List (Rtl op) := (r.rinsts b).map Rinst.rtl

/-- The live sets and the dead registers are right for the instructions that are kept, which do to the machine what all
do. -/
structure Preserves (g : Rgraph op) (r : Lifetimes op) : Prop where
  entry : ∀ b n, ReadLater r.kept (fun b => (g.bblock b).next) b (r.kept b) n → n ∈ r.liveAtEntry b
  exit : ∀ b n, ReadLater r.kept (fun b => (g.bblock b).next) b [] n → n ∈ r.liveAtExit b
  live : ∀ b rest n, rest <:+ r.kept b → ReadLater r.kept (fun b => (g.bblock b).next) b rest n →
    n ∈ propagateBlock rest (r.liveAtExit b)
  dead : ∀ b rinst rest, rinst :: rest <:+ r.rinsts b → ∀ n ∈ rinst.deadRegisters,
    ¬ReadLater r.kept (fun b => (g.bblock b).next) b (rest.map Rinst.rtl) n
  machine : ∀ (V M : Type) (target : Machine op V M) (s : State V M) (path : List ℕ) (b : ℕ) (before rest : List (Rtl op)),
    g.Path (path ++ [b]) → (g.bblock b).instructions = before ++ rest →
    (executeAll target (follow target (fun b => (g.bblock b).instructions) s path) before).machine =
      (executeAll target (follow target r.kept s path) (keep before (propagateBlock rest (r.liveAtExit b)))).machine

/-- Where an assignment to a register that is not needed has an effect, the registers that it reads are needed anyway. -/
def OperandsNeeded (g : Rgraph op) : Prop :=
  ∀ b before rtl rest n, (g.bblock b).instructions = before ++ rtl :: rest → rtl.target = some n → rtl.volatile = true →
    ¬Needed g b rest n → ∀ n' ∈ rtl.reads, Needed g b (rtl :: rest) n'

theorem walkBblocks_unique {fuel fuel' : ℕ} {r' : Lifetimes op} (ran : walkBblocks g fuel = some r)
    (ran' : walkBblocks g fuel' = some r') : r = r' := by
  obtain ⟨s, walked, rfl⟩ := Option.map_eq_some_iff.mp ran
  obtain ⟨s', walked', rfl⟩ := Option.map_eq_some_iff.mp ran'
  rw [Dataflow.passes_unique walked walked']

theorem propagateBlockDelete_suffix {instructions : List (Rtl op)} {live : Finset ℕ} {rinst : Rinst op} {rest : List (Rinst op)}
    (suffix : rinst :: rest <:+ (propagateBlockDelete instructions live).1) :
    ∃ before after, instructions = before ++ rinst.rtl :: after ∧ rest = (propagateBlockDelete after live).1 ∧
      ¬instructionDead rinst.rtl (propagateBlock after live) = true ∧
      rinst.deadRegisters = markUsedRegisters (propagateBlock after live) rinst.rtl \ propagateBlock after live := by
  induction instructions with
  | nil =>
    rw [propagateBlockDelete, suffix_nil] at suffix
    cases suffix
  | cons rtl after ih =>
    rw [propagateBlockDelete] at suffix
    dsimp only at suffix
    rw [propagateBlockDelete_live] at suffix
    split at suffix
    · obtain ⟨before, after', split, found⟩ := ih suffix
      exact ⟨rtl :: before, after', congrArg (rtl :: ·) split, found⟩
    · rename_i notDead
      rcases suffix_cons_iff.mp suffix with same | suffix
      · obtain ⟨rfl, rfl⟩ := cons.inj same
        exact ⟨[], after, rfl, rfl, notDead, rfl⟩
      · obtain ⟨before, after', split, found⟩ := ih suffix
        exact ⟨rtl :: before, after', congrArg (rtl :: ·) split, found⟩

theorem keep_suffix {instructions rest : List (Rtl op)} {live : Finset ℕ} {rtl : Rtl op}
    (suffix : rtl :: rest <:+ keep instructions live) : ∃ before after, instructions = before ++ rtl :: after ∧
      rest = keep after live ∧ ¬instructionDead rtl (propagateBlock after live) = true := by
  obtain ⟨front, joined⟩ := suffix
  obtain ⟨_, rinsts, cut, -, mapped⟩ := map_eq_append_iff.mp joined.symm
  obtain ⟨rinst, rest', rfl, rfl, rfl⟩ := map_eq_cons_iff.mp mapped
  obtain ⟨before, after, split, rfl, notDead, -⟩ := propagateBlockDelete_suffix ⟨_, cut.symm⟩
  exact ⟨before, after, split, rfl, notDead⟩

structure Analysed (g : Rgraph op) (r : Lifetimes op) : Prop where
  exit : ∀ b n, n ∈ r.liveAtExit b ↔ Needed g b [] n
  entry : ∀ b, r.liveAtEntry b = propagateBlock (g.bblock b).instructions (r.liveAtExit b)
  rinsts : ∀ b, r.rinsts b = (propagateBlockDelete (g.bblock b).instructions (r.liveAtExit b)).1

section
variable (analysed : Analysed g r)
include analysed

theorem Analysed.kept (b : ℕ) : r.kept b = keep (g.bblock b).instructions (r.liveAtExit b) :=
  congrArg (map Rinst.rtl) (analysed.rinsts b)

theorem Analysed.live (b : ℕ) (rest : List (Rtl op)) (n : ℕ) : n ∈ propagateBlock rest (r.liveAtExit b) ↔ Needed g b rest n :=
  mem_propagateBlock (analysed.exit b) rest n

theorem Analysed.reads (needed : OperandsNeeded g) {b : ℕ} {before rest : List (Rtl op)} {rtl : Rtl op}
    (split : (g.bblock b).instructions = before ++ rtl :: rest)
    (notDead : ¬instructionDead rtl (propagateBlock rest (r.liveAtExit b)) = true) {n : ℕ} (read : n ∈ rtl.reads) :
    Needed g b (rtl :: rest) n := by
  by_cases all : ∀ n', rtl.target = some n' → Needed g b rest n'
  · exact .read read all
  · push Not at all
    obtain ⟨n', isTarget, notNeeded⟩ := all
    refine needed b before rtl rest n' split isTarget ?_ notNeeded n read
    by_contra pure
    refine notDead (instructionDead_iff.mpr ⟨n', isTarget, ?_, by simpa using pure⟩)
    rwa [analysed.live]

theorem Analysed.readLater (needed : OperandsNeeded g) {b n : ℕ} {rest : List (Rtl op)}
    (later : ReadLater r.kept (fun b => (g.bblock b).next) b rest n) (suffix : rest <:+ r.kept b) :
    n ∈ propagateBlock rest (r.liveAtExit b) := by
  induction later with
  | @read b n rtl rest read =>
    rw [analysed.kept] at suffix
    obtain ⟨before, after, split, rfl, notDead⟩ := keep_suffix suffix
    have live := (analysed.live b _ n).mpr (analysed.reads needed split notDead read)
    rw [← propagateBlock_keep, keep_live notDead] at live
    exact live
  | passed other _ ih => exact mem_updateLiveRegisters.mpr (.inl ⟨ih ((suffix_cons _ _).trans suffix), other⟩)
  | @next b n b' next _ ih =>
    have live := ih (suffix_refl _)
    rw [analysed.kept, propagateBlock_keep, analysed.live] at live
    exact (analysed.exit b n).mpr (.next next live)

theorem Analysed.readLater_of_needed {b n : ℕ} {rest : List (Rtl op)} (isNeeded : Needed g b rest n) :
    ReadLater r.kept (fun b => (g.bblock b).next) b (keep rest (r.liveAtExit b)) n := by
  induction isNeeded with
  | @read b n rtl rest read target _ =>
    by_cases dead : instructionDead rtl (propagateBlock rest (r.liveAtExit b)) = true
    · obtain ⟨n', isTarget, notNeeded, -⟩ := instructionDead_iff.mp dead
      exact absurd ((analysed.live b rest n').mpr (target n' isTarget)) notNeeded
    · rw [keep_live dead]
      exact .read read
  | @passed b n rtl rest other _ ih =>
    by_cases dead : instructionDead rtl (propagateBlock rest (r.liveAtExit b)) = true
    · rw [keep_dead dead]
      exact ih
    · rw [keep_live dead]
      exact .passed other ih
  | @next b n b' next _ ih =>
    rw [← analysed.kept] at ih
    exact .next next ih

/-- The states before a point in both graphs: the machine is the same, and so are the registers that are needed. -/
theorem Analysed.executeAll (needed : OperandsNeeded g) {V M : Type} (target : Machine op V M) {b : ℕ}
    {first before rest : List (Rtl op)} (split : (g.bblock b).instructions = first ++ (before ++ rest)) {s s' : State V M}
    (machine : s.machine = s'.machine) (agree : Agree (Needed g b (before ++ rest)) s.pseudo s'.pseudo) :
    (executeAll target s before).machine =
        (executeAll target s' (keep before (propagateBlock rest (r.liveAtExit b)))).machine ∧
      Agree (Needed g b rest) (executeAll target s before).pseudo
        (executeAll target s' (keep before (propagateBlock rest (r.liveAtExit b)))).pseudo := by
  induction before generalizing first s s' with
  | nil => exact ⟨machine, agree⟩
  | cons rtl before ih =>
    have split' : (g.bblock b).instructions = first ++ [rtl] ++ (before ++ rest) := by simpa using split
    have joined : propagateBlock before (propagateBlock rest (r.liveAtExit b)) =
      propagateBlock (before ++ rest) (r.liveAtExit b) := foldr_append.symm
    by_cases dead : instructionDead rtl (propagateBlock (before ++ rest) (r.liveAtExit b)) = true
    · rw [keep_dead (joined ▸ dead)]
      obtain ⟨n, isTarget, notNeeded, pure⟩ := instructionDead_iff.mp dead
      refine ih split' ((execute_pure target isTarget pure).trans machine) ?_
      intro n' isNeeded
      have other : rtl.target ≠ some n' := by
        rintro isTarget'
        rw [isTarget] at isTarget'
        obtain rfl := Option.some.inj isTarget'
        exact notNeeded ((analysed.live b _ n).mpr isNeeded)
      rw [execute_frame target other]
      exact agree n' (.passed other isNeeded)
    · rw [keep_live (joined ▸ dead)]
      have reads : Agree (· ∈ rtl.reads) s.pseudo s'.pseudo :=
        agree.mono fun n => analysed.reads needed split dead
      obtain ⟨machine', assigned⟩ := execute_agree target reads machine
      refine ih split' machine' ?_
      intro n isNeeded
      by_cases isTarget : rtl.target = some n
      · exact assigned n isTarget
      · rw [execute_frame target isTarget, execute_frame target isTarget]
        exact agree n (.passed isTarget isNeeded)

theorem Analysed.follow (needed : OperandsNeeded g) {V M : Type} (target : Machine op V M) {path : List ℕ} {b : ℕ}
    (chain : g.Path (path ++ [b])) {s s' : State V M} (machine : s.machine = s'.machine)
    (agree : ∀ b' ∈ (path ++ [b]).head?, Agree (Needed g b' (g.bblock b').instructions) s.pseudo s'.pseudo) :
    (follow target (fun b => (g.bblock b).instructions) s path).machine = (follow target r.kept s' path).machine ∧
      Agree (Needed g b (g.bblock b).instructions) (follow target (fun b => (g.bblock b).instructions) s path).pseudo
        (follow target r.kept s' path).pseudo := by
  induction path generalizing s s' with
  | nil => exact ⟨machine, agree b rfl⟩
  | cons b' path ih =>
    obtain ⟨next, chain⟩ := isChain_cons.mp chain
    have whole : (g.bblock b').instructions = [] ++ ((g.bblock b').instructions ++ []) := by simp
    obtain ⟨machine', agree'⟩ := analysed.executeAll needed target whole machine
      (by simpa using agree b' rfl)
    have kept : keep (g.bblock b').instructions (propagateBlock ([] : List (Rtl op)) (r.liveAtExit b')) = r.kept b' := (analysed.kept b').symm
    rw [kept] at machine' agree'
    refine ih chain machine' ?_
    intro b'' member
    exact agree'.mono fun n => .next (next b'' member)

end

theorem analysed_of_walk {fuel : ℕ} (ran : walkBblocks g fuel = some r) : Analysed g r := by
  obtain ⟨fuel', r', ran', exit, entry, rinsts⟩ := walkBblocks_spec g
  obtain rfl := walkBblocks_unique ran ran'
  exact ⟨exit, entry, rinsts⟩

theorem operandsNeeded_of_preserves {fuel : ℕ} (ran : walkBblocks g fuel = some r) (preserves : Preserves g r) :
    OperandsNeeded g := by
  intro b before rtl rest n split isTarget volatile notNeeded n' read
  have analysed := analysed_of_walk ran
  have notDead : ¬instructionDead rtl (propagateBlock rest (r.liveAtExit b)) = true := by
    intro dead
    obtain ⟨_, -, -, pure⟩ := instructionDead_iff.mp dead
    exact absurd (volatile.symm.trans pure) (by decide)
  have kept : r.kept b = keep before (propagateBlock (rtl :: rest) (r.liveAtExit b)) ++ rtl :: keep rest (r.liveAtExit b) := by
    rw [analysed.kept, split, keep_append, keep_live notDead]
  have live := preserves.live b (rtl :: keep rest (r.liveAtExit b)) n' ⟨_, kept.symm⟩ (.read read)
  rw [← keep_live notDead, propagateBlock_keep] at live
  exact (analysed.live b _ n').mp live

/-- The analysis ends, and is right exactly when the operands of assignments with effects to registers that are not
needed are needed for other reasons. -/
theorem lifetimes_preserve_iff (g : Rgraph op) :
    (∃ fuel r, walkBblocks g fuel = some r ∧ Preserves g r) ↔ OperandsNeeded g := by
  constructor
  · rintro ⟨fuel, r, ran, preserves⟩
    exact operandsNeeded_of_preserves ran preserves
  · intro needed
    obtain ⟨fuel, r, ran, -⟩ := walkBblocks_spec g
    have analysed := analysed_of_walk ran
    have live : ∀ b rest n, rest <:+ r.kept b → ReadLater r.kept (fun b => (g.bblock b).next) b rest n →
        n ∈ propagateBlock rest (r.liveAtExit b) := fun b rest n suffix later => analysed.readLater needed later suffix
    refine ⟨fuel, r, ran, ?_, ?_, live, ?_, ?_⟩
    · intro b n later
      have member := live b _ n (suffix_refl _) later
      rwa [analysed.kept, propagateBlock_keep, ← analysed.entry] at member
    · intro b n later
      exact live b [] n nil_suffix later
    · intro b rinst rest suffix n dead later
      have suffix' : rest.map Rinst.rtl <:+ r.kept b := ((suffix_cons rinst rest).trans suffix).map Rinst.rtl
      have member := live b _ n suffix' later
      rw [analysed.rinsts] at suffix
      obtain ⟨before, after, -, rfl, -, deadRegisters⟩ := propagateBlockDelete_suffix suffix
      rw [deadRegisters] at dead
      refine (Finset.mem_sdiff.mp dead).2 ?_
      rw [← propagateBlock_keep]
      exact member
    · intro V M target s path b before rest chain split
      obtain ⟨machine, agree⟩ := analysed.follow needed target chain (.refl s.machine) fun _ _ _ _ => rfl
      rw [split] at agree
      exact (@Analysed.executeAll _ _ _ analysed needed _ _ target b [] before rest split _ _ machine agree).1

/-- An object is built from a register and what is popped from the stack. -/
def popsInto (n : ℕ) : Rtl Unit :=
  .assign (.register (.pseudo n)) (.compound () [.register (.pseudo 0), .increment false (.register (.machine 4)) 1])

def popped : Rgraph Unit where
  bblocks := [⟨[.assign (.register (.pseudo 0)) (.compound () []), popsInto 1], []⟩]
  connected := by simp
  branches := by simp

theorem popped_not_preserved : ¬∃ fuel r, walkBblocks popped fuel = some r ∧ Preserves popped r := by
  rintro ⟨fuel, r, ran, preserves⟩
  have unused (n : ℕ) : ¬Needed popped 0 [] n := by
    intro needed
    obtain ⟨b', next, -⟩ := needed_nil.mp needed
    exact absurd next not_mem_nil
  have all := operandsNeeded_of_preserves ran preserves
  have needed := all 0 [.assign (.register (.pseudo 0)) (.compound () [])] (popsInto 1) [] 1 rfl rfl rfl (unused 1) 0 (by decide)
  rcases needed_cons.mp needed with ⟨after, -⟩ | ⟨-, after⟩
  · exact unused 0 after
  · exact unused 1 (after 1 rfl)

end MitScheme.Compiler.RtlOpt
