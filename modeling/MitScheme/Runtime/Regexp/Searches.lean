import MitScheme.Runtime.Regexp.Nocase

/-!
The procedures of `srfi-115.scm` that search a string for the matches of a regexp one after the other, and what they
make of these.
-/

namespace MitScheme.Runtime.Regexp

open CharSets List

structure RegexpMatch where
  group0 : Group
  groups : List Group
  keys : List Key
deriving DecidableEq, Repr

namespace RegexpMatch

def start (m : RegexpMatch) : ℕ := m.group0.start

def stop (m : RegexpMatch) : ℕ := m.group0.stop

/-- `regexp-match-empty?` -/
def empty (m : RegexpMatch) : Bool := m.start = m.stop

end RegexpMatch

def substring (string : List Character) (start stop : ℕ) : List Character := (string.take stop).drop start

def groupValue (string : List Character) (group : Group) : List Character := substring string group.start group.stop

def regexpMatchValue (string : List Character) (m : RegexpMatch) : List Character := groupValue string m.group0

section
variable (tables : Tables)

/-- `%regexp-match` -/
def regexpMatchAt (regexp : Compiled) (matchAll capture : Bool) (index : ℕ) (string : List Character) (start stop fuel : ℕ) :
    Except Error (Option RegexpMatch) := do
  match ← runMatcher tables.graphemeClusterBreaks regexp.impl matchAll capture index string start stop fuel with
  | some (group0 :: groups) => return some ⟨group0, groups, regexp.submatchKeys⟩
  | _ => return none

end

def searchLoop (matchAt : ℕ → Except Error (Option RegexpMatch)) : (left index : ℕ) → Except Error (Option RegexpMatch)
  | 0, index => matchAt index
  | left + 1, index => do
    match ← matchAt index with
    | some m => return some m
    | none => searchLoop matchAt left (index + 1)

/-- `%regexp-search`, by what matches at an index. -/
def searchFrom (matchAt : ℕ → Except Error (Option RegexpMatch)) (stop index : ℕ) : Except Error (Option RegexpMatch) :=
  if index ≤ stop then searchLoop matchAt (stop - index) index else .ok none

/-- The next index to search from. -/
def nextIndex (m : RegexpMatch) (index : ℕ) : ℕ := max m.stop (index + 1)

section
variable {β : Type} (search : ℕ → Except Error (Option RegexpMatch)) (ignore : RegexpMatch → Bool)
  (kons : ℕ → RegexpMatch → β → β)

def foldLoop (finish : ℕ → β → β) : (rounds index lastMatchEnd : ℕ) → β → Except Error β
  | 0, _, _, _ => .error .unfinished
  | rounds + 1, index, lastMatchEnd, acc => do
    match ← search index with
    | some m =>
      if ignore m then foldLoop finish rounds (nextIndex m index) lastMatchEnd acc
      else foldLoop finish rounds (nextIndex m index) m.stop (kons lastMatchEnd m acc)
    | none => return finish lastMatchEnd acc

def foldRightLoop (finish : ℕ → β) : (rounds index lastMatchEnd : ℕ) → Except Error β
  | 0, _, _ => .error .unfinished
  | rounds + 1, index, lastMatchEnd => do
    match ← search index with
    | some m =>
      if ignore m then foldRightLoop finish rounds (nextIndex m index) lastMatchEnd
      else return kons lastMatchEnd m (← foldRightLoop finish rounds (nextIndex m index) m.stop)
    | none => return finish lastMatchEnd

end

section
variable (tables : Tables) (sre : Sre) (string : List Character) (start stop : Option ℕ) (fuel : ℕ)

/-- The indices, and what the regexp matches at an index when the string is taken to begin at the first number. -/
def searchArguments : Except Error (ℕ × ℕ × (ℕ → ℕ → Except Error (Option RegexpMatch))) := do
  let regexp ← compileTopLevel tables sre
  let stop ← endIndex stop string.length
  let start ← startIndex start stop
  return (start, stop, fun start index => regexpMatchAt tables regexp false true index string start stop fuel)

def regexpFold {β : Type} (kons : ℕ → RegexpMatch → β → β) (knil : β) (finish : ℕ → β → β) (ignore : RegexpMatch → Bool) :
    Except Error β := do
  let (start, stop, matchAt) ← searchArguments tables sre string start stop fuel
  foldLoop (searchFrom (matchAt start) stop) ignore kons finish (stop + 2 - start) start start knil

def regexpFoldRight {β : Type} (kons : ℕ → RegexpMatch → β → β) (finish : ℕ → β) (ignore : RegexpMatch → Bool) :
    Except Error β := do
  let (start, stop, matchAt) ← searchArguments tables sre string start stop fuel
  foldRightLoop (searchFrom (matchAt start) stop) ignore kons finish (stop + 2 - start) start start

def regexpSearchAll : Except Error (List RegexpMatch) :=
  regexpFoldRight tables sre string start stop fuel (fun _ m found => m :: found) (fun _ => []) fun _ => false

def regexpSplit : Except Error (List (List Character)) :=
  regexpFoldRight tables sre string start stop fuel
    (fun lastMatchEnd m strings => substring string lastMatchEnd m.start :: strings)
    (fun lastMatchEnd => [substring string lastMatchEnd (stop.getD string.length)]) RegexpMatch.empty

def regexpPartition : Except Error (List (List Character)) :=
  if start.getD 0 < stop.getD string.length then
    regexpFoldRight tables sre string (some (start.getD 0)) (some (stop.getD string.length)) fuel
      (fun lastMatchEnd m strings => substring string lastMatchEnd m.start :: regexpMatchValue string m :: strings)
      (fun lastMatchEnd =>
        let s := substring string lastMatchEnd (stop.getD string.length)
        if s = [] then [] else [s])
      RegexpMatch.empty
  else .ok [[]]

end

/-- The index of a context is one that the matcher has come to. -/
def Passed (low high : ℕ) (state : State) : Prop := low ≤ state.ctx.index ∧ state.ctx.index ≤ high

section
variable {nodes : List Node} {string : List Character} {start stop : ℕ} {matchAll : Bool}
  {nextChar prevChar : Option Character} {index fuel fresh low high : ℕ} {inputs outputs states : List State}
  {seen : List (ℕ × ℕ)}

theorem Moved.index_eq {state : State} {moved : List State} (quiet : Quiet nodes) (moves : Moved nodes fresh state moved)
    {next : State} (member : next ∈ moved) : next.ctx.index = state.ctx.index := by
  obtain ⟨-, same | ⟨procedure, type, same⟩⟩ := moves.mem member
  · rw [same]
  · rw [same]
    exact (quiet.forGroups type).index_eq

theorem followEpsilons_passed {followed : List State × ℕ} (quiet : Quiet nodes)
    (inputs_passed : ∀ state ∈ inputs, Passed low high state) (outputs_passed : ∀ state ∈ outputs, Passed low high state)
    (returns : followEpsilons nodes string start stop matchAll nextChar index prevChar fuel inputs outputs seen fresh =
      .ok followed) :
    ∀ state ∈ followed.1, Passed low high state := by
  induction fuel generalizing inputs outputs seen fresh with
  | zero => cases returns
  | succ fuel ih =>
    cases inputs with
    | nil =>
      cases returns
      exact fun state member => outputs_passed state (mem_reverse.mp member)
    | cons state inputs =>
      obtain ⟨first, others⟩ := forall_mem_cons.mp inputs_passed
      by_cases again : (state.node, state.ctx.identity) ∈ seen
      · rw [followEpsilons_seen again] at returns
        exact ih others outputs_passed returns
      · obtain ⟨-, ends⟩ | ⟨moved, kept, fresh', moves, keeps, goes⟩ := followEpsilons_step again
        · rw [ends] at returns
          cases returns
          exact fun other member => forall_mem_cons.mpr ⟨first, outputs_passed⟩ other (mem_reverse.mp member)
        · rw [goes] at returns
          refine ih (forall_mem_append.mpr ⟨fun next member => ?_, others⟩)
            (forall_mem_append.mpr ⟨fun other member => ?_, outputs_passed⟩) returns
          · unfold Passed
            rwa [moves.index_eq quiet member]
          · rcases keeps with rfl | ⟨rfl, -⟩
            · cases member
            · rwa [mem_singleton.mp member]

theorem followMatchers_passed {matched : List State × ℕ} {top : ℕ} (higher : high ≤ top)
    (advances : nextChar.isSome = true → high < top) (inputs_passed : ∀ state ∈ inputs, Passed low high state)
    (outputs_passed : ∀ state ∈ outputs, Passed low top state)
    (returns : followMatchers nodes nextChar inputs outputs fresh = .ok matched) :
    ∀ state ∈ matched.1, Passed low top state := by
  induction inputs generalizing outputs fresh with
  | nil =>
    cases returns
    exact fun state member => outputs_passed state (mem_reverse.mp member)
  | cons state inputs ih =>
    obtain ⟨first, others⟩ := forall_mem_cons.mp inputs_passed
    unfold followMatchers at returns
    dsimp only at returns
    split at returns
    · split at returns
      · split at returns
        · refine ih others (forall_mem_append.mpr ⟨fun next member => ?_, outputs_passed⟩) returns
          obtain ⟨node, -, rfl⟩ := mem_map.mp member
          exact ⟨Nat.le_succ_of_le first.1, (Nat.succ_le_succ first.2).trans (advances rfl)⟩
        · exact ih others outputs_passed returns
      · exact ih others outputs_passed returns
    · exact ih others outputs_passed returns
    · cases returns
      have last : Passed low top state := ⟨first.1, first.2.trans higher⟩
      exact fun other member => forall_mem_cons.mpr ⟨last, outputs_passed⟩ other (mem_reverse.mp member)
    · cases returns

theorem matchNodes_passed {final : State} (quiet : Quiet nodes) (inside : index ≤ stop)
    (states_passed : ∀ state ∈ states, Passed low index state)
    (returns : matchNodes nodes string start stop matchAll fuel states index prevChar fresh = .ok (some final)) :
    Passed low stop final := by
  have within : ∀ {state}, Passed low index state → Passed low stop state := fun passed => ⟨passed.1, passed.2.trans inside⟩
  induction fuel generalizing states index prevChar fresh with
  | zero => cases returns
  | succ fuel ih =>
    rw [matchNodes, bind_returns] at returns
    obtain ⟨⟨followed, fresh'⟩, walks, returns⟩ := returns
    have followed_passed := followEpsilons_passed quiet states_passed (forall_mem_nil _) walks
    cases followed with
    | nil => cases returns
    | cons first others =>
      dsimp only at returns
      split at returns
      · cases returns
        exact within (followed_passed _ mem_cons_self)
      · obtain ⟨matched, matches', returns⟩ := bind_returns.mp returns
        split at returns
        · next char next =>
          have more : index < stop := by
            by_contra none
            rw [if_neg none] at next
            cases next
          have passed := followMatchers_passed (Nat.le_succ index) (fun _ => Nat.lt_succ_self index) followed_passed
            (forall_mem_nil _) matches'
          exact ih more passed returns fun passed => ⟨passed.1, passed.2.trans more⟩
        · next next =>
          rw [next] at matches'
          obtain ⟨last, walks', returns⟩ := bind_returns.mp returns
          have passed := followMatchers_passed le_rfl (fun more => by cases more) followed_passed (forall_mem_nil _) matches'
          have last_passed := followEpsilons_passed quiet passed (forall_mem_nil _) walks'
          obtain ⟨member, -⟩ := Option.filter_eq_some_iff.mp (Except.ok.inj returns)
          exact within (last_passed final (mem_of_getLast? member))

theorem regexpMatchAt_bounds {tables : Tables} {sre : Sre} {regexp : Compiled} {capture : Bool} {m : RegexpMatch}
    (compiles : compileTopLevel tables sre = .ok regexp) (inside : index ≤ stop)
    (returns : regexpMatchAt tables regexp matchAll capture index string start stop fuel = .ok (some m)) :
    m.start = index ∧ index ≤ m.stop ∧ m.stop ≤ stop := by
  obtain ⟨groups, runs, returns⟩ := bind_returns.mp returns
  obtain ⟨final, matched, groups_eq⟩ := bind_returns.mp runs
  cases final with
  | none =>
    cases groups_eq
    cases returns
  | some state =>
    cases groups_eq
    cases returns
    have passed := @matchNodes_passed _ _ _ _ _ _ _ _ _ index _ _ (quiet_compileTopLevel compiles) inside
      (forall_mem_singleton.mpr ⟨le_rfl, le_rfl⟩) matched
    exact ⟨rfl, passed⟩

end

end MitScheme.Runtime.Regexp
