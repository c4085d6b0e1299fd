import Mathlib.Data.Finset.Card
import Mathlib.Logic.Relation
import Mathlib.Tactic.Linarith
import MitScheme.Runtime.Regexp.Nfa

namespace MitScheme.Runtime.Regexp

open CharSets List

def Moved (nodes : List Node) (fresh : ℕ) (state : State) (moved : List State) : Prop :=
  moved = [] ∨ (∀ test, (nodeAt nodes state.node).type ≠ .match test) ∧
    ∃ ctx, moved = nextStates (nodeAt nodes state.node) ctx ∧ (ctx = state.ctx ∨ ∃ procedure, (nodeAt nodes state.node).type = .ctxOnly procedure ∧ ctx = procedure fresh state.ctx)

/-- A move without a character. -/
def Passes (nodes : List Node) (node next : ℕ) : Prop :=
  next ∈ (nodeAt nodes node).next ∧ ∀ test, (nodeAt nodes node).type ≠ .match test

/-- Without a character, no way leads from a mark of a submatch back to it. -/
def Loopless (nodes : List Node) : Prop :=
  ∀ mark procedure, (nodeAt nodes mark).type = .ctxOnly procedure → ¬Relation.TransGen (Passes nodes) mark mark

/-- The state is at a node that waits for a character, or at the terminal one. -/
def Halted (nodes : List Node) (state : State) : Prop :=
  (∃ test, (nodeAt nodes state.node).type = .match test) ∨ (nodeAt nodes state.node).type = .terminal

theorem bind_returns {α β : Type} {first : Except Error α} {next : α → Except Error β} {value : β} :
    first >>= next = .ok value ↔ ∃ middle, first = .ok middle ∧ next middle = .ok value := by
  cases first with
  | ok middle =>
    constructor
    · intro returns
      exact ⟨middle, rfl, returns⟩
    · rintro ⟨_, ⟨⟩, returns⟩
      exact returns
  | error error =>
    constructor
    · intro returns
      cases returns
    · rintro ⟨_, ⟨⟩, -⟩

def ForGroups (procedure : ℕ → Context → Context) : Prop := procedure = startGroup ∨ ∃ key, procedure = endGroup key

/-- The contexts are changed by the instructions for groups only. -/
def Quiet (nodes : List Node) : Prop := ∀ node ∈ nodes, ∀ procedure, node.type = .ctxOnly procedure → ForGroups procedure

theorem ForGroups.groupless {procedure : ℕ → Context → Context} {identity : ℕ} {ctx : Context}
    (forGroups : ForGroups procedure) (groupless : ctx.groups = none) : procedure identity ctx = ctx := by
  rcases forGroups with rfl | ⟨key, rfl⟩
  · rw [startGroup, groupless]
    rfl
  · rw [endGroup, groupless]

theorem ForGroups.index_eq {procedure : ℕ → Context → Context} {identity : ℕ} {ctx : Context}
    (forGroups : ForGroups procedure) : (procedure identity ctx).index = ctx.index := by
  rcases forGroups with rfl | ⟨key, rfl⟩
  · unfold startGroup
    split <;> rfl
  · unfold endGroup
    split <;> rfl

section
variable {nodes : List Node} {string : List Character} {start stop : ℕ} {matchAll : Bool}
  {nextChar prevChar : Option Character} {index fuel fresh : ℕ} {inputs outputs states : List State}
  {seen : List (ℕ × ℕ)} {state : State} {ctx : Context}

theorem followEpsilons_step (unseen : (state.node, state.ctx.identity) ∉ seen) :
    ((nodeAt nodes state.node).type = .terminal ∧ ∀ fuel,
      followEpsilons nodes string start stop matchAll nextChar index prevChar (fuel + 1) (state :: inputs) outputs seen
        fresh = .ok ((state :: outputs).reverse, fresh)) ∨
    ∃ moved kept fresh', Moved nodes fresh state moved ∧ (kept = [] ∨ kept = [state] ∧ Halted nodes state) ∧ ∀ fuel,
      followEpsilons nodes string start stop matchAll nextChar index prevChar (fuel + 1) (state :: inputs) outputs seen
        fresh = followEpsilons nodes string start stop matchAll nextChar index prevChar fuel (moved ++ inputs)
          (kept ++ outputs) ((state.node, state.ctx.identity) :: seen) fresh' := by
  have stays (free : ∀ test, (nodeAt nodes state.node).type ≠ .match test) :
      Moved nodes fresh state (nextStates (nodeAt nodes state.node) state.ctx) := .inr ⟨free, _, rfl, .inl rfl⟩
  simp only [followEpsilons, if_neg unseen]
  cases type : (nodeAt nodes state.node).type with
  | fork => exact .inr ⟨_, [], fresh, stays (by rw [type]; nofun), .inl rfl, fun fuel => rfl⟩
  | charZeroWidth test =>
    by_cases passes : test nextChar prevChar = true
    · exact .inr ⟨_, [], fresh, stays (by rw [type]; nofun), .inl rfl, fun fuel => if_pos passes⟩
    · exact .inr ⟨[], [], fresh, .inl rfl, .inl rfl, fun fuel => if_neg passes⟩
  | fullZeroWidth test =>
    by_cases passes : test index string start stop state.ctx = true
    · exact .inr ⟨_, [], fresh, stays (by rw [type]; nofun), .inl rfl, fun fuel => if_pos passes⟩
    · exact .inr ⟨[], [], fresh, .inl rfl, .inl rfl, fun fuel => if_neg passes⟩
  | ctxOnly procedure =>
    exact .inr ⟨_, [], fresh + 1, .inr ⟨by rw [type]; nofun, _, rfl, .inr ⟨procedure, type, rfl⟩⟩, .inl rfl, fun fuel => rfl⟩
  | terminal =>
    by_cases more : (matchAll && nextChar.isSome) = true
    · exact .inr ⟨[], [], fresh, .inl rfl, .inl rfl, fun fuel => if_pos more⟩
    · exact .inl ⟨rfl, fun fuel => if_neg more⟩
  | fail => exact .inr ⟨[], [], fresh, .inl rfl, .inl rfl, fun fuel => rfl⟩
  | «match» test => exact .inr ⟨[], [state], fresh, .inl rfl, .inr ⟨rfl, .inl ⟨test, type⟩⟩, fun fuel => rfl⟩

theorem followEpsilons_seen (again : (state.node, state.ctx.identity) ∈ seen) :
    followEpsilons nodes string start stop matchAll nextChar index prevChar (fuel + 1) (state :: inputs) outputs seen
      fresh = followEpsilons nodes string start stop matchAll nextChar index prevChar fuel inputs outputs seen fresh := by
  rw [followEpsilons, if_pos again]

theorem followEpsilons_succ {followed : List State × ℕ}
    (returns : followEpsilons nodes string start stop matchAll nextChar index prevChar fuel inputs outputs seen fresh =
      .ok followed) :
    followEpsilons nodes string start stop matchAll nextChar index prevChar (fuel + 1) inputs outputs seen fresh =
      .ok followed := by
  induction fuel generalizing inputs outputs seen fresh with
  | zero => cases returns
  | succ fuel ih =>
    cases inputs with
    | nil => exact returns
    | cons state inputs =>
      by_cases again : (state.node, state.ctx.identity) ∈ seen
      · rw [followEpsilons_seen again] at returns ⊢
        exact ih returns
      · obtain ⟨-, ends⟩ | ⟨moved, kept, fresh', -, -, goes⟩ := followEpsilons_step again
        · rwa [ends] at returns ⊢
        · rw [goes] at returns ⊢
          exact ih returns

theorem followEpsilons_mono {followed : List State × ℕ} {fuel' : ℕ} (more : fuel ≤ fuel')
    (returns : followEpsilons nodes string start stop matchAll nextChar index prevChar fuel inputs outputs seen fresh =
      .ok followed) :
    followEpsilons nodes string start stop matchAll nextChar index prevChar fuel' inputs outputs seen fresh =
      .ok followed := by
  induction more with
  | refl => exact returns
  | step _ ih => exact followEpsilons_succ ih

theorem matchNodes_succ {final : Option State}
    (returns : matchNodes nodes string start stop matchAll fuel states index prevChar fresh = .ok final) :
    matchNodes nodes string start stop matchAll (fuel + 1) states index prevChar fresh = .ok final := by
  induction fuel generalizing states index prevChar fresh with
  | zero => cases returns
  | succ fuel ih =>
    rw [matchNodes, bind_returns] at returns ⊢
    obtain ⟨⟨followed, fresh'⟩, walks, returns⟩ := returns
    refine ⟨(followed, fresh'), followEpsilons_succ walks, ?_⟩
    cases followed with
    | nil => exact returns
    | cons first others =>
      by_cases terminal : terminalState nodes first = true
      · simp only [if_pos terminal] at returns ⊢
        exact returns
      · simp only [if_neg terminal] at returns ⊢
        obtain ⟨matched, matches', returns⟩ := bind_returns.mp returns
        refine bind_returns.mpr ⟨matched, matches', ?_⟩
        cases next : (if index < stop then string[index]? else none) with
        | some char =>
          simp only [next] at returns ⊢
          exact ih returns
        | none =>
          simp only [next] at returns ⊢
          obtain ⟨final, walks', returns⟩ := bind_returns.mp returns
          exact bind_returns.mpr ⟨final, followEpsilons_succ walks', returns⟩

theorem matchNodes_mono {final : Option State} {fuel' : ℕ} (more : fuel ≤ fuel')
    (returns : matchNodes nodes string start stop matchAll fuel states index prevChar fresh = .ok final) :
    matchNodes nodes string start stop matchAll fuel' states index prevChar fresh = .ok final := by
  induction more with
  | refl => exact returns
  | step _ ih => exact matchNodes_succ ih

theorem nodeAt_cases (nodes : List Node) (index : ℕ) : nodeAt nodes index ∈ nodes ∨ nodeAt nodes index = ⟨.fail, []⟩ := by
  rw [nodeAt, getD_eq_getElem?_getD]
  cases found : nodes[index]? with
  | none => exact .inr rfl
  | some node => exact .inl (mem_of_getElem? found)

theorem Quiet.forGroups (quiet : Quiet nodes) {node : ℕ} {procedure : ℕ → Context → Context}
    (type : (nodeAt nodes node).type = .ctxOnly procedure) : ForGroups procedure := by
  rcases nodeAt_cases nodes node with inside | none
  · exact quiet _ inside procedure type
  · rw [none] at type
    cases type

theorem Moved.mem {moved : List State} (moves : Moved nodes fresh state moved) {next : State} (member : next ∈ moved) :
    Passes nodes state.node next.node ∧
      (next.ctx = state.ctx ∨ ∃ procedure, (nodeAt nodes state.node).type = .ctxOnly procedure ∧
        next.ctx = procedure fresh state.ctx) := by
  obtain rfl | ⟨free, ctx, rfl, same⟩ := moves
  · cases member
  · obtain ⟨node, inside, rfl⟩ := mem_map.mp member
    exact ⟨⟨inside, free⟩, same⟩

/-- A move keeps the context, or it leads down; what is kept of the states is so when a character is matched, too. -/
structure Descends (nodes : List Node) (kept : State → Prop) (level : ℕ → ℕ) : Prop where
  moves : ∀ {fresh state moved}, kept state → Moved nodes fresh state moved → ∀ next ∈ moved, kept next ∧
    (next.ctx = state.ctx ∧ level next.node ≤ level state.node ∨ level next.node < level state.node)
  advances : ∀ {state} (fresh next : ℕ), kept state → kept ⟨next, state.ctx.advance fresh⟩

theorem Quiet.descends (quiet : Quiet nodes) : Descends nodes (fun state => state.ctx.groups = none) fun _ => 0 where
  moves {fresh state moved} groupless moves next member := by
    have same : next.ctx = state.ctx := by
      obtain ⟨-, same | ⟨procedure, type, same⟩⟩ := moves.mem member
      · exact same
      · exact same.trans ((quiet.forGroups type).groupless groupless)
    exact ⟨by rwa [same], .inl ⟨same, le_rfl⟩⟩
  advances _ _ groupless := groupless

open Classical in
/-- The marks of submatches to which a node leads without a character. -/
noncomputable def marks (nodes : List Node) (node : ℕ) : Finset ℕ :=
  (Finset.range nodes.length).filter fun mark =>
    Relation.ReflTransGen (Passes nodes) node mark ∧ ∃ procedure, (nodeAt nodes mark).type = .ctxOnly procedure

theorem mem_marks {node mark : ℕ} : mark ∈ marks nodes node ↔ mark < nodes.length ∧
    Relation.ReflTransGen (Passes nodes) node mark ∧ ∃ procedure, (nodeAt nodes mark).type = .ctxOnly procedure := by
  classical
  rw [marks, Finset.mem_filter, Finset.mem_range]

theorem marks_subset {node next : ℕ} (passes : Passes nodes node next) : marks nodes next ⊆ marks nodes node := by
  intro mark member
  obtain ⟨inside, leads, type⟩ := mem_marks.mp member
  exact mem_marks.mpr ⟨inside, leads.head passes, type⟩

theorem Loopless.descends (loopless : Loopless nodes) :
    Descends nodes (fun _ => True) fun node => (marks nodes node).card where
  moves {fresh state moved} _ moves next member := by
    obtain ⟨passes, same | ⟨procedure, type, -⟩⟩ := moves.mem member
    · exact ⟨trivial, .inl ⟨same, Finset.card_le_card (marks_subset passes)⟩⟩
    · refine ⟨trivial, .inr (Finset.card_lt_card ⟨marks_subset passes, fun all => ?_⟩)⟩
      -- the mark itself is among those of its node, and no longer behind it
      have inside : state.node < nodes.length := by
        by_contra outside
        rw [nodeAt, getD_eq_default _ _ (not_lt.mp outside)] at type
        cases type
      obtain ⟨-, back, -⟩ := mem_marks.mp (all (mem_marks.mpr ⟨inside, .refl, procedure, type⟩))
      exact loopless _ _ type (.head' passes back)
  advances _ _ _ := trivial

/-- No way leads back where every move without a character leads to an earlier node. -/
theorem loopless_of_descending {nodes : List Node} (descends : ∀ node next, Passes nodes node next → next < node) :
    Loopless nodes := by
  intro mark _ _ loop
  have less : ∀ {next}, Relation.TransGen (Passes nodes) mark next → next < mark := by
    intro next leads
    induction leads with
    | single passes => exact descends _ _ passes
    | tail _ passes ih => exact (descends _ _ passes).trans ih
  exact lt_irrefl _ (less loop)

/-- The nodes that a context has not been at. -/
def untaken (all : Finset ℕ) (identity : ℕ) (seen : List (ℕ × ℕ)) : ℕ :=
  (all.filter fun node => seen.contains (node, identity) = false).card

theorem untaken_lt {all : Finset ℕ} {node identity : ℕ} {seen seen' : List (ℕ × ℕ)} (inside : node ∈ all)
    (unseen : (node, identity) ∉ seen) (more : (node, identity) :: seen ⊆ seen') :
    untaken all identity seen' < untaken all identity seen := by
  simp only [untaken, contains_eq_mem, decide_eq_false_iff_not]
  refine Finset.card_lt_card ⟨?_, fun all => ?_⟩
  · exact Finset.monotone_filter_right _ fun _ _ fresh taken => fresh (more (mem_cons_of_mem _ taken))
  · exact (Finset.mem_filter.mp (all (Finset.mem_filter.mpr ⟨inside, unseen⟩))).2 (more mem_cons_self)

section
variable (nodes string start stop matchAll nextChar index prevChar) (kept : State → Prop)

def Ready (state : State) : Prop := Halted nodes state ∧ kept state

/-- With enough fuel, the walk ends at nodes that wait. -/
def Returns (inputs outputs : List State) (seen : List (ℕ × ℕ)) (fresh : ℕ) : Prop :=
  ∃ fuel followed, followEpsilons nodes string start stop matchAll nextChar index prevChar fuel inputs outputs seen fresh =
    .ok followed ∧ ∀ state ∈ followed.1, Ready nodes kept state

/-- The walk gets through with a state, whatever is behind it. -/
def Settles (state : State) (seen : List (ℕ × ℕ)) : Prop :=
  ∀ ⦃rest outputs seen' fresh⦄, seen ⊆ seen' → (∀ state ∈ outputs, Ready nodes kept state) →
    (∀ ⦃outputs' seen'' fresh'⦄, seen' ⊆ seen'' → (∀ state ∈ outputs', Ready nodes kept state) →
      Returns nodes string start stop matchAll nextChar prevChar index kept rest outputs' seen'' fresh') →
    Returns nodes string start stop matchAll nextChar prevChar index kept (state :: rest) outputs seen' fresh

end

section
variable {kept : State → Prop} {level : ℕ → ℕ} {all : Finset ℕ} {rest moved : List State}

theorem returns_append (each : ∀ next ∈ moved, Settles nodes string start stop matchAll nextChar prevChar index kept next seen)
    {seen' : List (ℕ × ℕ)} (more : seen ⊆ seen') (ready : ∀ state ∈ outputs, Ready nodes kept state)
    (others : ∀ ⦃outputs' seen'' fresh'⦄, seen' ⊆ seen'' → (∀ state ∈ outputs', Ready nodes kept state) →
      Returns nodes string start stop matchAll nextChar prevChar index kept rest outputs' seen'' fresh') :
    Returns nodes string start stop matchAll nextChar prevChar index kept (moved ++ rest) outputs seen' fresh := by
  induction moved generalizing outputs seen' fresh with
  | nil => exact others (Subset.refl _) ready
  | cons next moved ih =>
    obtain ⟨first, later⟩ := forall_mem_cons.mp each
    exact first more ready fun _ _ _ more' ready' =>
      ih later (Subset.trans more more') ready' fun _ _ _ more'' => others (Subset.trans more' more'')

theorem settles (descends : Descends nodes kept level) (closed : ∀ node ∈ all, ∀ next ∈ (nodeAt nodes node).next, next ∈ all)
    (inside : state.node ∈ all) (holds : kept state) :
    Settles nodes string start stop matchAll nextChar prevChar index kept state seen := by
  induction high : level state.node using Nat.strong_induction_on generalizing state seen with
  | _ high lower =>
    induction left : untaken all state.ctx.identity seen using Nat.strong_induction_on generalizing state seen with
    | _ left fewer =>
      intro rest outputs seen' fresh more ready others
      by_cases again : (state.node, state.ctx.identity) ∈ seen'
      · obtain ⟨fuel, followed, returns, ends⟩ := @others _ _ fresh (Subset.refl _) ready
        exact ⟨fuel + 1, followed, (followEpsilons_seen again).trans returns, ends⟩
      · obtain ⟨type, ends⟩ | ⟨moved, waits, fresh', moves, waiting, goes⟩ := followEpsilons_step again
        · exact ⟨1, _, ends 0, fun other member =>
            forall_mem_cons.mpr ⟨⟨.inr type, holds⟩, ready⟩ other (mem_reverse.mp member)⟩
        · have each : ∀ next ∈ moved, Settles nodes string start stop matchAll nextChar prevChar index kept next
              ((state.node, state.ctx.identity) :: seen') := by
            intro next member
            have target := closed _ inside _ (moves.mem member).1.1
            obtain ⟨holds', ⟨same, below⟩ | below⟩ := descends.moves holds moves next member
            · rcases below.eq_or_lt with equal | below
              · refine fewer _ ?_ target holds' (equal.trans high) rfl
                rw [same, ← left]
                exact untaken_lt inside (fun taken => again (more taken)) (cons_subset_cons _ more)
              · exact lower _ (high ▸ below) target holds' rfl
            · exact lower _ (high ▸ below) target holds' rfl
          have ready' : ∀ other ∈ waits ++ outputs, Ready nodes kept other := by
            refine forall_mem_append.mpr ⟨fun other member => ?_, ready⟩
            rcases waiting with rfl | ⟨rfl, type⟩
            · cases member
            · exact mem_singleton.mp member ▸ ⟨type, holds⟩
          have later : Returns nodes string start stop matchAll nextChar prevChar index kept (moved ++ rest) (waits ++ outputs)
              ((state.node, state.ctx.identity) :: seen') fresh' :=
            returns_append each (Subset.refl _) ready' fun _ _ _ more' => others (Subset.trans (subset_cons_self _ _) more')
          obtain ⟨fuel, followed, returns, ends⟩ := later
          exact ⟨fuel + 1, followed, (goes fuel).trans returns, ends⟩

theorem followEpsilons_ends (descends : Descends nodes kept level) (holds : ∀ state ∈ inputs, kept state) :
    Returns nodes string start stop matchAll nextChar prevChar index kept inputs [] [] fresh := by
  have closed : ∀ node ∈ (inputs.map State.node ++ nodes.flatMap Node.next).toFinset, ∀ next ∈ (nodeAt nodes node).next,
      next ∈ (inputs.map State.node ++ nodes.flatMap Node.next).toFinset := by
    intro node _ next target
    rcases nodeAt_cases nodes node with inside | none
    · exact mem_toFinset.mpr (mem_append_right _ (mem_flatMap.mpr ⟨_, inside, target⟩))
    · rw [none] at target
      cases target
  rw [← append_nil inputs]
  refine returns_append (fun next member => settles descends closed ?_ (holds next member)) (Subset.refl _)
    (forall_mem_nil _) fun _ _ _ _ ready => ⟨1, _, rfl, fun other member => ready other (mem_reverse.mp member)⟩
  exact mem_toFinset.mpr (mem_append_left _ (mem_map_of_mem member))

theorem followMatchers_returns {kept : State → Prop} {level : ℕ → ℕ} (descends : Descends nodes kept level)
    (ready : ∀ state ∈ inputs, Ready nodes kept state) (holds : ∀ state ∈ outputs, kept state) :
    ∃ matched, followMatchers nodes nextChar inputs outputs fresh = .ok matched ∧ ∀ state ∈ matched.1, kept state := by
  induction inputs generalizing outputs fresh with
  | nil => exact ⟨_, rfl, fun state member => holds state (mem_reverse.mp member)⟩
  | cons state inputs ih =>
    obtain ⟨⟨type, held⟩, others⟩ := forall_mem_cons.mp ready
    rw [followMatchers]
    rcases type with ⟨test, type⟩ | type
    · rw [type]
      cases nextChar with
      | none => exact ih others holds
      | some char =>
        by_cases accepted : (test char).isTrue = true
        · simp only [if_pos accepted]
          refine ih others fun next member => ?_
          rcases mem_append.mp member with member | member
          · obtain ⟨node, -, rfl⟩ := mem_map.mp member
            exact descends.advances fresh node held
          · exact holds next member
        · simp only [if_neg accepted]
          exact ih others holds
    · rw [type]
      refine ⟨_, rfl, fun other member => ?_⟩
      rcases mem_cons.mp (mem_reverse.mp member) with rfl | member
      · exact held
      · exact holds other member

end

section
variable {first : State} {others : List State} {fresh' : ℕ}

theorem matchNodes_nil (next : (if index < stop then string[index]? else none) = nextChar)
    (walks : followEpsilons nodes string start stop matchAll nextChar index prevChar fuel states [] [] fresh =
      .ok ([], fresh')) :
    matchNodes nodes string start stop matchAll (fuel + 1) states index prevChar fresh = .ok none := by
  rw [matchNodes, next, walks]
  rfl

theorem matchNodes_terminal (next : (if index < stop then string[index]? else none) = nextChar)
    (walks : followEpsilons nodes string start stop matchAll nextChar index prevChar fuel states [] [] fresh =
      .ok (first :: others, fresh')) (terminal : terminalState nodes first = true) :
    matchNodes nodes string start stop matchAll (fuel + 1) states index prevChar fresh = .ok (some first) := by
  rw [matchNodes, next, walks]
  exact if_pos terminal

theorem matchNodes_char {char : Character} {matched : List State × ℕ}
    (next : (if index < stop then string[index]? else none) = some char)
    (walks : followEpsilons nodes string start stop matchAll (some char) index prevChar fuel states [] [] fresh =
      .ok (first :: others, fresh')) (waits : ¬terminalState nodes first = true)
    (matches' : followMatchers nodes (some char) (first :: others) [] fresh' = .ok matched) :
    matchNodes nodes string start stop matchAll (fuel + 1) states index prevChar fresh =
      matchNodes nodes string start stop matchAll fuel matched.1 (index + 1) (some char) matched.2 := by
  rw [matchNodes, next, walks]
  refine (if_neg waits).trans ?_
  rw [matches']
  rfl

theorem matchNodes_last {matched final : List State × ℕ} (next : (if index < stop then string[index]? else none) = none)
    (walks : followEpsilons nodes string start stop matchAll none index prevChar fuel states [] [] fresh =
      .ok (first :: others, fresh')) (waits : ¬terminalState nodes first = true)
    (matches' : followMatchers nodes none (first :: others) [] fresh' = .ok matched)
    (walks' : followEpsilons nodes string start stop matchAll none index prevChar fuel matched.1 [] [] matched.2 =
      .ok final) :
    matchNodes nodes string start stop matchAll (fuel + 1) states index prevChar fresh =
      .ok (final.1.getLast?.filter (terminalState nodes)) := by
  rw [matchNodes, next, walks]
  refine (if_neg waits).trans ?_
  rw [matches']
  change followEpsilons _ _ _ _ _ none _ _ _ _ _ _ _ >>= _ = _
  rw [walks']
  rfl

end

theorem matchNodes_ends {kept : State → Prop} {level : ℕ → ℕ} (descends : Descends nodes kept level)
    (holds : ∀ state ∈ states, kept state) :
    ∃ fuel final, matchNodes nodes string start stop matchAll fuel states index prevChar fresh = .ok final := by
  induction left : stop - index using Nat.strong_induction_on generalizing states index prevChar fresh with
  | _ left ih =>
    generalize next : (if index < stop then string[index]? else none) = nextChar
    obtain ⟨enough, ⟨_ | ⟨first, others⟩, fresh'⟩, walks, ready⟩ :=
      @followEpsilons_ends nodes string start stop matchAll nextChar prevChar index fresh states kept level descends holds
    · exact ⟨enough + 1, _, matchNodes_nil next walks⟩
    by_cases terminal : terminalState nodes first = true
    · exact ⟨enough + 1, _, matchNodes_terminal next walks terminal⟩
    obtain ⟨matched, matches', holds'⟩ :=
      @followMatchers_returns nodes nextChar fresh' _ [] kept level descends ready (forall_mem_nil _)
    cases nextChar with
    | some char =>
      have more : index < stop := by
        by_contra none
        rw [if_neg none] at next
        cases next
      obtain ⟨fuel, final, returns⟩ := ih (stop - (index + 1)) (by omega) holds' rfl
      refine ⟨max enough fuel + 1, final, ?_⟩
      rw [matchNodes_char next (followEpsilons_mono (le_max_left enough fuel) walks) terminal matches']
      exact matchNodes_mono (le_max_right enough fuel) returns
    | none =>
      obtain ⟨enough', final, walks', -⟩ :=
        @followEpsilons_ends nodes string start stop matchAll none prevChar index matched.2 matched.1 kept level descends holds'
      refine ⟨max enough enough' + 1, final.1.getLast?.filter (terminalState nodes), ?_⟩
      exact matchNodes_last next (followEpsilons_mono (le_max_left enough enough') walks) terminal matches'
        (followEpsilons_mono (le_max_right enough enough') walks')

theorem runMatcher_returns (breaks : List Character → ℕ → ℕ → List ℕ) {matcher : Matcher} {capture : Bool}
    (ends : capture = false ∧ Quiet matcher.nodes ∨ Loopless matcher.nodes) :
    ∃ enough groups, ∀ fuel, enough ≤ fuel →
      runMatcher breaks matcher matchAll capture index string start stop fuel = .ok groups := by
  have run : ∃ enough final, matchNodes matcher.nodes string start stop matchAll enough
      [⟨matcher.initialNode, initialContext index (if matcher.needGcb then breaks string start stop else []) capture⟩] index
      (if start < index ∧ index ≤ stop then string[index - 1]? else none) 1 = .ok final := by
    rcases ends with ⟨rfl, quiet⟩ | loopless
    · exact matchNodes_ends quiet.descends (forall_mem_singleton.mpr rfl)
    · exact matchNodes_ends loopless.descends (forall_mem_singleton.mpr trivial)
  obtain ⟨enough, final, returns⟩ := run
  refine ⟨enough, final.map fun state => ⟨.number 0, index, state.ctx.index⟩ :: (state.ctx.groups.getD []).reverse, ?_⟩
  intro fuel more
  rw [runMatcher, matchNodes_mono more returns]
  rfl

end

/-- The instruction adds nodes that leave the contexts without groups as they are. -/
def QuietInsn (insn : Insn) : Prop := ∀ next nodes, Quiet nodes → Quiet (insn next nodes).2

section
variable {nodes : List Node} {insn : Insn} {insns : List Insn}

theorem quiet_append {node : Node} (quiet : Quiet nodes)
    (last : ∀ procedure, node.type = .ctxOnly procedure → ForGroups procedure) : Quiet (nodes ++ [node]) := by
  intro other member
  rcases mem_append.mp member with member | member
  · exact quiet other member
  · rwa [mem_singleton.mp member]

theorem quiet_normalInsn {type : NodeType} (other : ∀ procedure, type ≠ .ctxOnly procedure) : QuietInsn (normalInsn type) :=
  fun _ _ quiet => quiet_append quiet fun procedure same => absurd same (other procedure)

theorem quiet_nullInsn : QuietInsn nullInsn := fun _ _ quiet => quiet

theorem quiet_failInsn : QuietInsn failInsn := fun _ _ quiet => quiet_append quiet fun _ same => by cases same

theorem quiet_insnSeq (each : ∀ insn ∈ insns, QuietInsn insn) : QuietInsn (insnSeq insns) := by
  have linked : ∀ next nodes, Quiet nodes →
      Quiet (insns.foldr (fun insn linked => insn linked.1 linked.2) (next, nodes)).2 := by
    intro next nodes quiet
    induction insns with
    | nil => exact quiet
    | cons insn insns ih =>
      obtain ⟨first, others⟩ := forall_mem_cons.mp each
      exact first _ _ (ih others)
  rcases insns with _ | ⟨insn, _ | ⟨insn', insns⟩⟩
  · exact quiet_nullInsn
  · exact each insn mem_cons_self
  · exact linked

theorem quiet_insnAlt (each : ∀ insn ∈ insns, QuietInsn insn) : QuietInsn (insnAlt insns) := by
  have linked : ∀ next nodes, Quiet nodes → Quiet (linkAll next insns nodes).2 := by
    intro next nodes quiet
    induction insns generalizing nodes with
    | nil => exact quiet
    | cons insn insns ih =>
      obtain ⟨first, others⟩ := forall_mem_cons.mp each
      exact ih others _ (first next nodes quiet)
  rcases insns with _ | ⟨insn, _ | ⟨insn', insns⟩⟩
  · exact quiet_failInsn
  · exact each insn mem_cons_self
  · intro next nodes quiet
    exact quiet_append (linked next nodes quiet) fun _ same => by cases same

theorem quiet_optional (quiet : QuietInsn insn) :
    QuietInsn (insnOptional insn) ∧ QuietInsn (insnNonGreedyOptional insn) := by
  constructor
  · exact quiet_insnAlt (by simpa using ⟨quiet, quiet_nullInsn⟩)
  · exact quiet_insnAlt (by simpa using ⟨quiet_nullInsn, quiet⟩)

theorem quiet_cyclicForkNode {getNodes : ℕ → List Node → List ℕ × List Node} (quiet : Quiet nodes)
    (gets : ∀ node nodes, Quiet nodes → Quiet (getNodes node nodes).2) : Quiet (cyclicForkNode getNodes nodes).2 := by
  intro node member
  rcases mem_or_eq_of_mem_set member with member | same
  · exact gets _ _ (quiet_append quiet fun _ same => by cases same) node member
  · rw [same]
    exact fun _ same => by cases same

theorem quiet_star (quiet : QuietInsn insn) : QuietInsn (insnStar insn) ∧ QuietInsn (insnNonGreedyStar insn) :=
  ⟨fun _ _ quiet' => quiet_cyclicForkNode quiet' quiet, fun _ _ quiet' => quiet_cyclicForkNode quiet' quiet⟩

theorem quiet_insnExactly (n : ℕ) (quiet : QuietInsn insn) : QuietInsn (insnExactly n insn) :=
  quiet_insnSeq fun _ member => eq_of_mem_replicate member ▸ quiet

theorem quiet_insnAtLeast (n : ℕ) (quiet : QuietInsn insn) : QuietInsn (insnAtLeast n insn) :=
  quiet_insnSeq (by simpa using ⟨quiet_insnExactly n quiet, (quiet_star quiet).1⟩)

theorem quiet_repeated (n m : ℕ) (quiet : QuietInsn insn) :
    QuietInsn (insnRepeated n m insn) ∧ QuietInsn (insnNonGreedyRepeated n m insn) := by
  have first := quiet_insnExactly n quiet
  constructor
  · refine quiet_insnSeq (forall_mem_cons.mpr ⟨first, fun _ member => ?_⟩)
    exact eq_of_mem_replicate member ▸ (quiet_optional quiet).1
  · refine quiet_insnSeq (forall_mem_cons.mpr ⟨first, fun _ member => ?_⟩)
    exact eq_of_mem_replicate member ▸ (quiet_optional quiet).2

theorem quiet_insnGroup (key : Key) (quiet : QuietInsn insn) : QuietInsn (insnGroup key insn) := by
  have forGroups : ∀ {procedure}, ForGroups procedure → QuietInsn (normalInsn (.ctxOnly procedure)) := by
    intro procedure forGroups next nodes quiet'
    refine quiet_append quiet' fun _ same => ?_
    cases same
    exact forGroups
  exact quiet_insnSeq (by simpa using ⟨forGroups (.inl rfl), quiet, forGroups (.inr ⟨key, rfl⟩)⟩)

theorem quiet_linkMatcher {needGcb : Bool} (quiet : QuietInsn insn) : Quiet (linkMatcher insn needGcb).nodes :=
  quiet _ _ (quiet_append (forall_mem_nil _) fun _ same => by cases same)

end

/-! ### Chains

A sequence of instructions that each match a character. -/

def insnChain (tests : List (Character → Answer)) : Insn := insnSeq (tests.map fun test => normalInsn (.match test))

def chainNodes : List (Character → Answer) → List Node
  | [] => [⟨.terminal, []⟩]
  | test :: tests => chainNodes tests ++ [⟨.match test, [tests.length]⟩]

def Linked (nodes : List Node) : List (Character → Answer) → Prop
  | [] => nodeAt nodes 0 = ⟨.terminal, []⟩
  | test :: tests => nodeAt nodes (tests.length + 1) = ⟨.match test, [tests.length]⟩ ∧ Linked nodes tests

def Accepts (tests : List (Character → Answer)) (string : List Character) : Prop :=
  List.Forall₂ (fun test char => (test char).isTrue = true) tests string

section
variable {nodes : List Node} {tests : List (Character → Answer)} {string : List Character} {index fresh : ℕ}
  {prevChar : Option Character} {ctx : Context}

theorem length_chainNodes (tests : List (Character → Answer)) : (chainNodes tests).length = tests.length + 1 := by
  induction tests with
  | nil => rfl
  | cons test tests ih =>
    rw [chainNodes, length_append, ih]
    rfl

theorem insnSeq_foldr (insns : List Insn) (next : ℕ) (nodes : List Node) :
    insnSeq insns next nodes = insns.foldr (fun insn linked => insn linked.1 linked.2) (next, nodes) := by
  rcases insns with _ | ⟨insn, _ | ⟨insn', insns⟩⟩ <;> rfl

theorem linkMatcher_chain (tests : List (Character → Answer)) (needGcb : Bool) :
    linkMatcher (insnChain tests) needGcb = ⟨tests.length, chainNodes tests, needGcb⟩ := by
  have linked : insnChain tests 0 [⟨.terminal, []⟩] = (tests.length, chainNodes tests) := by
    rw [insnChain, insnSeq_foldr]
    induction tests with
    | nil => rfl
    | cons test tests ih =>
      rw [map_cons, foldr_cons, ih]
      exact congrArg (·, _) (length_chainNodes tests)
  change Matcher.mk (insnChain tests 0 [⟨.terminal, []⟩]).1 (insnChain tests 0 [⟨.terminal, []⟩]).2 needGcb = _
  rw [linked]

theorem linked_append (more : List Node) (linked : Linked nodes tests) (long : tests.length < nodes.length) :
    Linked (nodes ++ more) tests := by
  have kept : ∀ index < nodes.length, nodeAt (nodes ++ more) index = nodeAt nodes index := fun index => getD_append _ _ _ _
  induction tests with
  | nil => exact (kept 0 long).trans linked
  | cons test tests ih =>
    rw [length_cons] at long
    exact ⟨(kept _ long).trans linked.1, ih linked.2 (by omega)⟩

theorem linked_chainNodes (tests : List (Character → Answer)) : Linked (chainNodes tests) tests := by
  induction tests with
  | nil => rfl
  | cons test tests ih =>
    refine ⟨?_, linked_append _ ih (by rw [length_chainNodes]; omega)⟩
    rw [chainNodes, nodeAt, ← length_chainNodes, getD_append_right _ _ _ _ le_rfl, Nat.sub_self]
    rfl

section
variable {start stop : ℕ} {matchAll : Bool} {nextChar : Option Character} {state : State}

theorem followEpsilons_match {test : Character → Answer} (type : (nodeAt nodes state.node).type = .match test) :
    followEpsilons nodes string start stop matchAll nextChar index prevChar 2 [state] [] [] fresh =
      .ok ([state], fresh) := by
  simp [followEpsilons, type]

theorem followEpsilons_terminal_last (type : (nodeAt nodes state.node).type = .terminal) :
    followEpsilons nodes string start stop matchAll none index prevChar 2 [state] [] [] fresh = .ok ([state], fresh) := by
  simp [followEpsilons, type]

theorem followEpsilons_terminal_more {char : Character} (type : (nodeAt nodes state.node).type = .terminal) :
    followEpsilons nodes string start stop true (some char) index prevChar 2 [state] [] [] fresh = .ok ([], fresh) := by
  simp [followEpsilons, type]

end

theorem nextChar_cases (string : List Character) (index : ℕ) :
    (if index < string.length then string[index]? else none) = none ∧ string.drop index = [] ∨
      ∃ char, (if index < string.length then string[index]? else none) = some char ∧ index < string.length ∧
        string.drop index = char :: string.drop (index + 1) := by
  by_cases more : index < string.length
  · refine .inr ⟨string[index], ?_, more, drop_eq_getElem_cons more⟩
    rw [if_pos more, getElem?_eq_getElem more]
  · exact .inl ⟨if_neg more, drop_eq_nil_of_le (not_lt.mp more)⟩

theorem matchNodes_chain (linked : Linked nodes tests) :
    ∃ fuel final, matchNodes nodes string 0 string.length true fuel [⟨tests.length, ctx⟩] index prevChar fresh = .ok final ∧
      (final.isSome = true ↔ Accepts tests (string.drop index)) := by
  induction tests generalizing ctx index prevChar fresh with
  | nil =>
    have type : (nodeAt nodes 0).type = .terminal := congrArg Node.type linked
    obtain ⟨next, rest⟩ | ⟨char, next, -, rest⟩ := nextChar_cases string index
    · have terminal : terminalState nodes ⟨0, ctx⟩ = true := by rw [terminalState, type]
      refine ⟨3, _, matchNodes_terminal next (followEpsilons_terminal_last type) terminal, ?_⟩
      rw [rest]
      exact iff_of_true rfl .nil
    · refine ⟨3, _, matchNodes_nil next (followEpsilons_terminal_more type), ?_⟩
      rw [rest]
      exact iff_of_false Bool.false_ne_true (fun accepts => by cases accepts)
  | cons test tests ih =>
    obtain ⟨node, linked⟩ := linked
    have type : (nodeAt nodes (tests.length + 1)).type = .match test := congrArg Node.type node
    have waits : ¬terminalState nodes ⟨tests.length + 1, ctx⟩ = true := by
      rw [terminalState, type]
      exact Bool.false_ne_true
    obtain ⟨next, rest⟩ | ⟨char, next, more, rest⟩ := nextChar_cases string index
    · have none : followMatchers nodes none [⟨tests.length + 1, ctx⟩] [] fresh = .ok ([], fresh) := by
        simp [followMatchers, type]
      refine ⟨3, _, matchNodes_last next (followEpsilons_match type) waits none rfl, ?_⟩
      rw [rest]
      exact iff_of_false Bool.false_ne_true (fun accepts => by cases accepts)
    · have walks : followEpsilons nodes string 0 string.length true (some char) index prevChar 2
          [⟨tests.length + 1, ctx⟩] [] [] fresh = .ok ([⟨tests.length + 1, ctx⟩], fresh) := followEpsilons_match type
      rw [rest]
      by_cases accepted : (test char).isTrue = true
      · have matched : followMatchers nodes (some char) [⟨tests.length + 1, ctx⟩] [] fresh =
            .ok ([⟨tests.length, ctx.advance fresh⟩], fresh + 1) := by
          simp [followMatchers, accepted, nextStates, node]
        obtain ⟨fuel, final, returns, iff⟩ := @ih (index + 1) (fresh + 1) (some char) (ctx.advance fresh) linked
        refine ⟨max 2 fuel + 1, final, ?_, ?_⟩
        · have walks := followEpsilons_mono (le_max_left 2 fuel) walks
          exact (matchNodes_char next walks waits matched).trans (matchNodes_mono (le_max_right 2 fuel) returns)
        · rw [iff]
          exact ⟨.cons accepted, fun accepts => (forall₂_cons.mp accepts).2⟩
      · have none : followMatchers nodes (some char) [⟨tests.length + 1, ctx⟩] [] fresh = .ok ([], fresh) := by
          simp [followMatchers, type, accepted]
        refine ⟨3, Option.none, ?_, ?_⟩
        · exact (matchNodes_char next walks waits none).trans (matchNodes_nil rfl rfl)
        · exact iff_of_false Bool.false_ne_true fun accepts => accepted (forall₂_cons.mp accepts).1

theorem matchNodes_fail {start stop : ℕ} {matchAll : Bool} {state : State} (type : (nodeAt nodes state.node).type = .fail) :
    matchNodes nodes string start stop matchAll 3 [state] index prevChar fresh = .ok none := by
  generalize next : (if index < stop then string[index]? else none) = nextChar
  have walks : followEpsilons nodes string start stop matchAll nextChar index prevChar 2 [state] [] [] fresh =
      .ok ([], fresh) := by
    simp [followEpsilons, type]
  exact matchNodes_nil next walks

section
variable {breaks : List Character → ℕ → ℕ → List ℕ} {matcher : Matcher} {matchAll capture : Bool} {start stop fuel : ℕ}
  {groups : Option (List Group)}

theorem runMatcher_mono {fuel' : ℕ} (more : fuel ≤ fuel')
    (returns : runMatcher breaks matcher matchAll capture index string start stop fuel = .ok groups) :
    runMatcher breaks matcher matchAll capture index string start stop fuel' = .ok groups := by
  obtain ⟨final, run, rest⟩ := bind_returns.mp returns
  exact bind_returns.mpr ⟨final, matchNodes_mono more run, rest⟩

theorem runMatcher_unique {fuel' : ℕ} {groups' : Option (List Group)}
    (returns : runMatcher breaks matcher matchAll capture index string start stop fuel = .ok groups)
    (returns' : runMatcher breaks matcher matchAll capture index string start stop fuel' = .ok groups') :
    groups = groups' := by
  have first := runMatcher_mono (le_max_left fuel fuel') returns
  rw [runMatcher_mono (le_max_right fuel fuel') returns'] at first
  exact (Except.ok.inj first).symm

theorem runMatcher_chain (tests : List (Character → Answer)) (needGcb : Bool) :
    ∃ fuel groups, runMatcher breaks (linkMatcher (insnChain tests) needGcb) true capture 0 string 0 string.length fuel =
      .ok groups ∧ (groups.isSome = true ↔ Accepts tests string) := by
  have run := @matchNodes_chain (chainNodes tests) tests string 0 1
    (if 0 < 0 ∧ 0 ≤ string.length then string[0 - 1]? else none)
    (initialContext 0 (if needGcb then breaks string 0 string.length else []) capture) (linked_chainNodes tests)
  obtain ⟨fuel, final, returns, iff⟩ := run
  rw [linkMatcher_chain]
  refine ⟨fuel, _, bind_returns.mpr ⟨final, returns, rfl⟩, ?_⟩
  rw [Option.isSome_map, iff]
  rfl

theorem runMatcher_failInsn (needGcb : Bool) :
    runMatcher breaks (linkMatcher failInsn needGcb) true capture 0 string 0 string.length 3 = .ok none := by
  exact bind_returns.mpr ⟨none, matchNodes_fail rfl, rfl⟩

end

end

end MitScheme.Runtime.Regexp
