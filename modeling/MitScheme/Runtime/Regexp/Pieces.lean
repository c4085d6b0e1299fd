import MitScheme.Runtime.Regexp.Enumeration

namespace MitScheme.Runtime.Regexp

open CharSets List

section
variable {string : List Character} {matchAt : ℕ → Except Error (Option RegexpMatch)}
  {first middle last lastMatchEnd index : ℕ} {m : RegexpMatch} {ms : List RegexpMatch}

theorem substring_append (before : first ≤ middle) (after : middle ≤ last) :
    substring string first middle ++ substring string middle last = substring string first last := by
  unfold substring
  have split := take_append_drop (middle - first) ((string.take last).drop first)
  rw [← split, take_drop, take_take, drop_drop]
  congr 3 <;> omega

theorem length_substring (inside : last ≤ string.length) : (substring string first last).length = last - first := by
  rw [substring, length_drop, length_take, min_eq_left inside]

theorem substring_eq_nil (inside : last ≤ string.length) : substring string first last = [] ↔ last ≤ first := by
  rw [← length_eq_zero_iff, length_substring inside, Nat.sub_eq_zero_iff_le]

/-- The matches divide a part of the string. -/
def Divides (last : ℕ) : ℕ → List RegexpMatch → Prop
  | first, [] => first ≤ last
  | first, m :: ms => first ≤ m.start ∧ m.start ≤ m.stop ∧ Divides last m.stop ms

theorem Divides.le (divides : Divides last first ms) : first ≤ last := by
  induction ms generalizing first with
  | nil => exact divides
  | cons m ms ih => exact divides.1.trans (divides.2.1.trans (ih divides.2.2))

theorem Scan.divides (anchored : Anchored matchAt last) (scan : Scan matchAt last index ms) (ignore : RegexpMatch → Bool)
    (past : first ≤ index) (inside : first ≤ last) : Divides last first (ms.filter fun m => !ignore m) := by
  induction scan generalizing first with
  | done => exact inside
  | @found index m ms finds _ ih =>
    obtain ⟨below, above, -⟩ := m.stop_of_filled anchored finds.2.1 finds.2.2.2
    have start := finds.1
    cases ignored : ignore m with
    | true =>
      rw [filter_cons_of_neg (by rw [ignored]; exact Bool.false_ne_true)]
      exact ih (by unfold nextIndex; omega) inside
    | false =>
      rw [filter_cons_of_pos (by rw [ignored]; rfl)]
      exact ⟨by omega, above, ih (le_max_left _ _) below⟩

theorem collectRight_filter {β : Type} (ignore : RegexpMatch → Bool) (kons : ℕ → RegexpMatch → β → β) (finish : ℕ → β)
    (first : ℕ) (ms : List RegexpMatch) : collectRight ignore kons finish first ms =
      collectRight (fun _ => false) kons finish first (ms.filter fun m => !ignore m) := by
  induction ms generalizing first with
  | nil => rfl
  | cons m ms ih =>
    rw [collectRight]
    cases ignored : ignore m with
    | true =>
      rw [filter_cons_of_neg (by rw [ignored]; exact Bool.false_ne_true)]
      exact ih first
    | false =>
      rw [filter_cons_of_pos (by rw [ignored]; rfl), if_neg Bool.false_ne_true, ih]
      rfl

/-- What is not matched: before the first match, between two of them, and after the last one. -/
def gaps (string : List Character) (last : ℕ) : ℕ → List RegexpMatch → List (List Character)
  | first, [] => [substring string first last]
  | first, m :: ms => substring string first m.start :: gaps string last m.stop ms

/-- What is not matched and the matches in turn. -/
def alternating (string : List Character) (last : ℕ) : ℕ → List RegexpMatch → List (List Character)
  | first, [] => [substring string first last]
  | first, m :: ms => substring string first m.start :: regexpMatchValue string m :: alternating string last m.stop ms

theorem flatten_alternating (divides : Divides last first ms) :
    (alternating string last first ms).flatten = substring string first last := by
  induction ms generalizing first with
  | nil => exact append_nil _
  | cons m ms ih =>
    obtain ⟨before, within, rest⟩ := divides
    rw [alternating, flatten_cons, flatten_cons, ih rest]
    change _ ++ (substring string m.start m.stop ++ _) = _
    rw [substring_append within rest.le, substring_append before (within.trans rest.le)]

theorem collectRight_gaps : collectRight (fun _ => false)
    (fun lastMatchEnd m strings => substring string lastMatchEnd m.start :: strings)
    (fun lastMatchEnd => [substring string lastMatchEnd last]) first ms = gaps string last first ms := by
  induction ms generalizing first with
  | nil => rfl
  | cons m ms ih => exact congrArg (_ :: ·) ih

theorem collectRight_alternating : ∃ rest, (rest = [] ∨ rest = [[]]) ∧ collectRight (fun _ => false)
    (fun lastMatchEnd m strings => substring string lastMatchEnd m.start :: regexpMatchValue string m :: strings)
    (fun lastMatchEnd =>
      let s := substring string lastMatchEnd last
      if s = [] then [] else [s]) first ms ++ rest = alternating string last first ms := by
  induction ms generalizing first with
  | nil =>
    by_cases empty : substring string first last = []
    · exact ⟨[[]], .inr rfl, by simp [collectRight, alternating, empty]⟩
    · exact ⟨[], .inl rfl, by simp [collectRight, alternating, empty]⟩
  | cons m ms ih =>
    obtain ⟨rest, which, same⟩ := @ih m.stop
    exact ⟨rest, which, congrArg (fun strings => _ :: _ :: strings) same⟩

end

section
variable {tables : Tables} {sre : Sre} {string : List Character} {start stop : Option ℕ} {fuel : ℕ}
  {ms : List RegexpMatch}

theorem searchArguments_explicit {first last : ℕ} {matchAt : ℕ → ℕ → Except Error (Option RegexpMatch)}
    (given : searchArguments tables sre string start stop fuel = .ok (first, last, matchAt)) :
    searchArguments tables sre string (some first) (some last) fuel = .ok (first, last, matchAt) := by
  obtain ⟨-, -, ordered, inside, -⟩ := searchArguments_spec given
  obtain ⟨regexp, compiles, given⟩ := bind_returns.mp given
  obtain ⟨last', -, given⟩ := bind_returns.mp given
  obtain ⟨first', -, given⟩ := bind_returns.mp given
  cases given
  exact bind_returns.mpr ⟨regexp, compiles, bind_returns.mpr ⟨last, if_pos inside, bind_returns.mpr ⟨first, if_pos ordered, rfl⟩⟩⟩

theorem pieces_of_found (found : regexpSearchAll tables sre string start stop fuel = .ok ms) :
    (∃ strings rest, regexpPartition tables sre string start stop fuel = .ok strings ∧ (rest = [] ∨ rest = [[]]) ∧
      strings ++ rest = alternating string (stop.getD string.length) (start.getD 0) (ms.filter fun m => !m.empty) ∧
      strings.flatten = substring string (start.getD 0) (stop.getD string.length)) ∧
    regexpSplit tables sre string start stop fuel =
      .ok (gaps string (stop.getD string.length) (start.getD 0) (ms.filter fun m => !m.empty)) := by
  obtain ⟨first, last, matchAt, given, scan, folds⟩ := regexpSearchAll_scan found
  obtain ⟨begins, ends, ordered, inside, anchored⟩ := searchArguments_spec given
  have divides := scan.divides (anchored first) RegexpMatch.empty le_rfl ordered
  have flat : (alternating string last first _).flatten = _ := flatten_alternating divides
  unfold regexpPartition regexpSplit
  rw [(folds _ _).2, collectRight_filter, ← begins, ← ends, collectRight_gaps]
  refine ⟨?_, rfl⟩
  by_cases filled : first < last
  · rw [if_pos filled]
    obtain ⟨rest, which, whole⟩ := @collectRight_alternating string first last (ms.filter fun m => !m.empty)
    refine ⟨_, rest, bind_returns.mpr ⟨_, searchArguments_explicit given, ?_⟩, which, whole, ?_⟩
    · have rounds : last + 2 - first = last + 1 - first + 1 := by omega
      dsimp only
      rw [rounds, (folds_of_scan (anchored first) scan (by omega)).2, collectRight_filter]
    · rw [← flat, ← whole, flatten_append]
      rcases which with rfl | rfl <;> exact (append_nil _).symm
  · rw [if_neg filled]
    have none_filled : ms.filter (fun m => !m.empty) = [] := by
      cases filtered : ms.filter fun m => !m.empty with
      | nil => rfl
      | cons m rest =>
        rw [filtered] at divides
        have nonempty := (mem_filter.mp (filtered ▸ mem_cons_self : m ∈ ms.filter _)).2
        have empty : m.empty = true := RegexpMatch.empty_iff.mpr (by
          obtain ⟨before, within, rest⟩ := divides
          have := rest.le
          omega)
        rw [empty] at nonempty
        cases nonempty
    have nothing := (substring_eq_nil inside).mpr (not_lt.mp filled)
    refine ⟨[[]], [], rfl, .inl rfl, ?_, nothing.symm⟩
    rw [none_filled, alternating, nothing]
    rfl

/-- `($ "aA")` -/
def letters : Sre := .operation .submatch [.terminal (.string [smallA, capitalA])]

def lettersNodes : List Node :=
  [⟨.terminal, []⟩, ⟨.ctxOnly (endGroup (.number 1)), [0]⟩,
    ⟨.match fun char => .boolean (charEqualPredicate capitalA char), [1]⟩,
    ⟨.match fun char => .boolean (charEqualPredicate smallA char), [2]⟩, ⟨.ctxOnly startGroup, [3]⟩]

theorem compile_letters : compileTopLevel asciiTables letters = .ok ⟨⟨4, lettersNodes, false⟩, [.number 1]⟩ := rfl

theorem loopless_letters : Loopless lettersNodes := by
  refine loopless_of_descending fun node next ⟨member, free⟩ => ?_
  rcases node with _ | _ | _ | _ | _ | node <;> simp_all [lettersNodes, nodeAt]

example : regexpSplit asciiTables letters [smallA, capitalA, smallA] none none 12 = .ok [[], [smallA]] := rfl

/-- `(* ($ (* "aA")))` -/
def starOfGroup : Sre :=
  .operation .star [.operation .submatch [.operation .star [.terminal (.string [smallA, capitalA])]]]

def starOfGroupNodes : List Node :=
  [⟨.terminal, []⟩, ⟨.fork, [6, 0]⟩, ⟨.ctxOnly (endGroup (.number 1)), [1]⟩, ⟨.fork, [5, 2]⟩,
    ⟨.match fun char => .boolean (charEqualPredicate capitalA char), [3]⟩,
    ⟨.match fun char => .boolean (charEqualPredicate smallA char), [4]⟩, ⟨.ctxOnly startGroup, [3]⟩]

/-- The walk comes back to the outer star with a new context each time. -/
theorem followEpsilons_starOfGroup {string : List Character} {start stop index fuel fresh : ℕ} {matchAll : Bool}
    {nextChar prevChar : Option Character} {rest outputs : List State} {seen : List (ℕ × ℕ)} {ctx : Context}
    (captures : ctx.groups.isSome = true) (low : ctx.identity < fresh) (old : ∀ pair ∈ seen, pair.2 < ctx.identity) :
    followEpsilons starOfGroupNodes string start stop matchAll nextChar index prevChar fuel (⟨1, ctx⟩ :: rest) outputs seen
      fresh = .error .unfinished := by
  induction fuel using Nat.strong_induction_on generalizing ctx rest outputs seen fresh with
  | _ fuel ih =>
    obtain ⟨groups, some⟩ := Option.isSome_iff_exists.mp captures
    have new : ∀ node identity, ctx.identity ≤ identity → (node, identity) ∉ seen := fun node identity high taken =>
      absurd (old _ taken) (not_lt.mpr high)
    have new' : ∀ node, (node, fresh) ∉ seen := fun node => new node fresh low.le
    rcases fuel with _ | _ | _ | _ | _ | fuel <;>
      simp [followEpsilons, starOfGroupNodes, nodeAt, nextStates, startGroup, endGroup, some, new, new', low.ne']
    refine ih fuel (by omega) rfl (Nat.lt_succ_self _) ?_
    simp only [forall_mem_cons]
    exact ⟨by omega, by omega, by omega, by omega, by omega, fun pair taken => (old pair taken).trans (by omega)⟩

end

end MitScheme.Runtime.Regexp
