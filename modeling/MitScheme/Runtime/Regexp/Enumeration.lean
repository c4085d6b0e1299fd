import Mathlib.Data.Finset.Lattice.Fold
import Mathlib.Data.List.Chain
import MitScheme.Runtime.Regexp.Searches

/-!
The matches that `regexp-fold` passes on, one after the other. An empty match that is found behind the index of its
search is found once more from there.
-/

namespace MitScheme.Runtime.Regexp

open CharSets

section
variable {matchAt : ℕ → Except Error (Option RegexpMatch)} {stop index : ℕ} {m : RegexpMatch} {ms : List RegexpMatch}

/-- What is matched at an index begins there and ends inside. -/
def Anchored (matchAt : ℕ → Except Error (Option RegexpMatch)) (stop : ℕ) : Prop :=
  ∀ index ≤ stop, ∀ m, matchAt index = .ok (some m) → m.start = index ∧ index ≤ m.stop ∧ m.stop ≤ stop

/-- What a search from an index finds: the first match, unless nothing matches. -/
def Finds (matchAt : ℕ → Except Error (Option RegexpMatch)) (stop index : ℕ) : Option RegexpMatch → Prop
  | none => ∀ i, index ≤ i → i ≤ stop → matchAt i = .ok none
  | some m => index ≤ m.start ∧ m.start ≤ stop ∧ (∀ i, index ≤ i → i < m.start → matchAt i = .ok none) ∧
      matchAt m.start = .ok (some m)

variable {found : Option RegexpMatch} {after : Bool}

theorem finds_past (past : stop < index) : Finds matchAt stop index found ↔ found = none := by
  cases found with
  | none => exact iff_of_true (fun i above inside => by omega) rfl
  | some m => exact iff_of_false (fun finds => by have := finds.1; have := finds.2.1; omega) nofun

theorem finds_step (anchored : Anchored matchAt stop) (inside : index ≤ stop) : Finds matchAt stop index found ↔ ∃ here,
    matchAt index = .ok here ∧ (here = none → Finds matchAt stop (index + 1) found) ∧ (here ≠ none → found = here) := by
  constructor
  · intro finds
    cases found with
    | none => exact ⟨none, finds index le_rfl inside, fun _ i above => finds i (by omega), nofun⟩
    | some m =>
      obtain ⟨above, below, before, at_start⟩ := finds
      by_cases here : index = m.start
      · exact ⟨some m, here ▸ at_start, nofun, fun _ => rfl⟩
      · exact ⟨none, before index le_rfl (by omega),
          fun _ => ⟨by omega, below, fun i above => before i (by omega), at_start⟩, nofun⟩
  · rintro ⟨_ | m, here, later, now⟩
    · have finds := later rfl
      have first : ∀ i, index ≤ i → (index + 1 ≤ i → matchAt i = .ok none) → matchAt i = .ok none := by
        intro i above rest
        rcases above.eq_or_lt with rfl | above
        · exact here
        · exact rest above
      cases found with
      | none => exact fun i above inside => first i above fun above => finds i above inside
      | some m =>
        exact ⟨by have := finds.1; omega, finds.2.1, fun i above below => first i above fun above => finds.2.2.1 i above below,
          finds.2.2.2⟩
    · obtain rfl := now nofun
      obtain ⟨rfl, -, -⟩ := anchored index inside m here
      exact ⟨le_rfl, inside, fun i above below => by omega, here⟩

theorem searchFrom_iff (anchored : Anchored matchAt stop) :
    searchFrom matchAt stop index = .ok found ↔ Finds matchAt stop index found := by
  by_cases inside : index ≤ stop
  · rw [searchFrom, if_pos inside]
    induction left : stop - index generalizing index with
    | zero =>
      obtain rfl : index = stop := by omega
      rw [finds_step anchored le_rfl]
      constructor
      · intro here
        exact ⟨found, here, (finds_past (Nat.lt_succ_self _)).mpr, fun _ => rfl⟩
      · rintro ⟨_ | m, here, later, now⟩
        · rwa [(finds_past (Nat.lt_succ_self _)).mp (later rfl)]
        · rwa [now nofun]
    | succ left ih =>
      rw [finds_step anchored inside, searchLoop, bind_returns]
      refine exists_congr fun here => and_congr_right fun _ => ?_
      cases here with
      | none => exact (ih (by omega) (by omega)).trans ⟨fun finds => ⟨fun _ => finds, nofun⟩, fun both => both.1 rfl⟩
      | some m =>
        exact ⟨fun same => ⟨nofun, fun _ => (Except.ok.inj same).symm⟩, fun both => congrArg Except.ok (both.2 nofun).symm⟩
  · rw [searchFrom, if_neg inside, finds_past (not_le.mp inside)]
    exact ⟨fun same => (Except.ok.inj same).symm, fun same => congrArg Except.ok same.symm⟩

/-- The matches that are found by searches from an index on. -/
inductive Scan (matchAt : ℕ → Except Error (Option RegexpMatch)) (stop : ℕ) : ℕ → List RegexpMatch → Prop
  | done {index : ℕ} : Finds matchAt stop index none → Scan matchAt stop index []
  | found {index : ℕ} {m : RegexpMatch} {ms : List RegexpMatch} : Finds matchAt stop index (some m) →
      Scan matchAt stop (nextIndex m index) ms → Scan matchAt stop index (m :: ms)

section
variable {β : Type} (ignore : RegexpMatch → Bool) (kons : ℕ → RegexpMatch → β → β)

/-- What `regexp-fold` makes of the matches. -/
def collect (finish : ℕ → β → β) : ℕ → β → List RegexpMatch → β
  | lastMatchEnd, acc, [] => finish lastMatchEnd acc
  | lastMatchEnd, acc, m :: ms =>
    if ignore m then collect finish lastMatchEnd acc ms else collect finish m.stop (kons lastMatchEnd m acc) ms

/-- What `regexp-fold-right` makes of the matches. -/
def collectRight (finish : ℕ → β) : ℕ → List RegexpMatch → β
  | lastMatchEnd, [] => finish lastMatchEnd
  | lastMatchEnd, m :: ms =>
    if ignore m then collectRight finish lastMatchEnd ms else kons lastMatchEnd m (collectRight finish m.stop ms)

variable {ignore kons}

theorem folds_of_scan {rounds lastMatchEnd : ℕ} (anchored : Anchored matchAt stop) (scan : Scan matchAt stop index ms)
    (enough : stop + 1 ≤ rounds + index) :
    (∀ (finish : ℕ → β → β) acc, foldLoop (searchFrom matchAt stop) ignore kons finish (rounds + 1) index lastMatchEnd acc =
      .ok (collect ignore kons finish lastMatchEnd acc ms)) ∧
    ∀ finish : ℕ → β, foldRightLoop (searchFrom matchAt stop) ignore kons finish (rounds + 1) index lastMatchEnd =
      .ok (collectRight ignore kons finish lastMatchEnd ms) := by
  induction scan generalizing rounds lastMatchEnd with
  | done finds =>
    simp only [foldLoop, foldRightLoop, (searchFrom_iff anchored).mpr finds]
    exact ⟨fun _ _ => rfl, fun _ => rfl⟩
  | @found index m ms finds _ ih =>
    have inside := finds.1.trans finds.2.1
    obtain ⟨rounds, rfl⟩ : ∃ n, rounds = n + 1 := ⟨rounds - 1, by omega⟩
    have next : stop + 1 ≤ rounds + nextIndex m index := by unfold nextIndex; omega
    constructor
    · intro finish acc
      rw [foldLoop, (searchFrom_iff anchored).mpr finds, collect]
      dsimp only [bind, Except.bind]
      split
      · exact (ih next).1 finish _
      · exact (ih next).1 finish _
    · intro finish
      rw [foldRightLoop, (searchFrom_iff anchored).mpr finds, collectRight]
      dsimp only [bind, Except.bind]
      split
      · exact (ih next).2 finish
      · rw [(ih next).2]; rfl

theorem scan_of_foldRightLoop {finish : ℕ → β} {rounds lastMatchEnd : ℕ} {result : β} (anchored : Anchored matchAt stop)
    (returns : foldRightLoop (searchFrom matchAt stop) ignore kons finish rounds index lastMatchEnd = .ok result) :
    ∃ ms, Scan matchAt stop index ms := by
  induction rounds generalizing index lastMatchEnd result with
  | zero => cases returns
  | succ rounds ih =>
    obtain ⟨found, searched, returns⟩ := bind_returns.mp returns
    have finds := (searchFrom_iff anchored).mp searched
    cases found with
    | none => exact ⟨[], .done finds⟩
    | some m =>
      have later : ∃ ms, Scan matchAt stop (nextIndex m index) ms := by
        dsimp only at returns
        split at returns
        · exact ih returns
        · obtain ⟨rest, returns, -⟩ := bind_returns.mp returns
          exact ih returns
      obtain ⟨ms, scan⟩ := later
      exact ⟨m :: ms, .found finds scan⟩

end

theorem finds_of_total (anchored : Anchored matchAt stop) (total : ∀ i ≤ stop, ∃ here, matchAt i = .ok here) (index : ℕ) :
    ∃ found, Finds matchAt stop index found := by
  induction left : stop + 1 - index generalizing index with
  | zero => exact ⟨none, (finds_past (by omega)).mpr rfl⟩
  | succ left ih =>
    have inside : index ≤ stop := by omega
    obtain ⟨later, finds⟩ := ih (index + 1) (by omega)
    obtain ⟨_ | m, here⟩ := total index inside
    · exact ⟨later, (finds_step anchored inside).mpr ⟨none, here, fun _ => finds, nofun⟩⟩
    · exact ⟨some m, (finds_step anchored inside).mpr ⟨some m, here, nofun, fun _ => rfl⟩⟩

theorem scan_of_total (anchored : Anchored matchAt stop) (total : ∀ i ≤ stop, ∃ here, matchAt i = .ok here) (index : ℕ) :
    ∃ ms, Scan matchAt stop index ms := by
  induction left : stop + 1 - index using Nat.strong_induction_on generalizing index with
  | _ bound ih =>
    obtain ⟨_ | m, finds⟩ := finds_of_total anchored total index
    · exact ⟨[], .done finds⟩
    · have more : stop + 1 - nextIndex m index < bound := by
        have := finds.1
        have := finds.2.1
        unfold nextIndex
        omega
      obtain ⟨ms, scan⟩ := ih _ more _ rfl
      exact ⟨m :: ms, .found finds scan⟩

/-- The second match comes after the first, and only empty matches are between them. -/
def Follows (matchAt : ℕ → Except Error (Option RegexpMatch)) (m m' : RegexpMatch) : Prop :=
  m.start < m'.start ∧ m.stop ≤ m'.start ∧
    ∀ i, m.start < i → m.stop ≤ i → i < m'.start → ∀ between, matchAt i = .ok (some between) → between.empty = true

/-- The matches come one after the other, and none is found twice. -/
structure Once (matchAt : ℕ → Except Error (Option RegexpMatch)) (ms : List RegexpMatch) : Prop where
  apart : ms.IsChain (Follows matchAt)
  distinct : ms.Nodup

/-- The positions that a walk over the string comes to: past what matches, or else to the next one. The flag tells that
nothing matches at the position before. -/
inductive Comes (matchAt : ℕ → Except Error (Option RegexpMatch)) (stop start : ℕ) : ℕ → Bool → Prop
  | begin : Comes matchAt stop start start false
  | pass {i : ℕ} {after : Bool} : Comes matchAt stop start i after → i < stop → matchAt i = .ok none →
      Comes matchAt stop start (i + 1) true
  | past {i : ℕ} {after : Bool} {m : RegexpMatch} : Comes matchAt stop start i after → i ≤ stop →
      matchAt i = .ok (some m) → Comes matchAt stop start (if m.empty then i + 1 else m.stop) false

/-- No empty match lies behind a position where nothing matches. -/
def EmptyInPlace (matchAt : ℕ → Except Error (Option RegexpMatch)) (stop start : ℕ) : Prop :=
  ∀ i, Comes matchAt stop start i true → ∀ m, matchAt i = .ok (some m) → m.empty = false

theorem RegexpMatch.empty_iff : m.empty = true ↔ m.start = m.stop := decide_eq_true_iff

theorem RegexpMatch.stop_of_filled (anchored : Anchored matchAt stop) (inside : m.start ≤ stop)
    (found : matchAt m.start = .ok (some m)) : m.stop ≤ stop ∧ m.start ≤ m.stop ∧ (m.empty = false → m.start < m.stop) := by
  obtain ⟨-, above, below⟩ := anchored m.start inside m found
  refine ⟨below, above, fun filled => lt_of_le_of_ne above fun same => ?_⟩
  rw [RegexpMatch.empty_iff.mpr same] at filled
  cases filled

theorem Comes.le {start i : ℕ} (anchored : Anchored matchAt stop) (comes : Comes matchAt stop start i after) :
    start ≤ i := by
  induction comes with
  | begin => exact le_rfl
  | pass _ _ _ ih => omega
  | @past i _ m _ inside found ih =>
    obtain ⟨-, above, -⟩ := anchored i inside m found
    split <;> omega

/-- The position of the next search, unless the match was empty and behind its index. -/
theorem next_eq (anchored : Anchored matchAt stop) (finds : Finds matchAt stop index (some m))
    (placed : m.empty = true → m.start = index) : nextIndex m index = if m.empty then m.start + 1 else m.stop := by
  obtain ⟨above, inside, -, found⟩ := finds
  obtain ⟨-, -, filled⟩ := m.stop_of_filled anchored inside found
  cases empty : m.empty with
  | true =>
    have same := RegexpMatch.empty_iff.mp empty
    have here := placed empty
    rw [nextIndex, if_pos rfl]
    omega
  | false =>
    have more := filled empty
    rw [nextIndex, if_neg Bool.false_ne_true]
    omega

theorem comes_start {start : ℕ} (finds : Finds matchAt stop start (some m)) :
    Comes matchAt stop start m.start (decide (start < m.start)) := by
  obtain ⟨above, inside, before, -⟩ := finds
  have walk : ∀ n, start + n ≤ m.start → Comes matchAt stop start (start + n) (decide (0 < n)) := by
    intro n within
    induction n with
    | zero => exact .begin
    | succ n ih =>
      rw [← add_assoc] at within ⊢
      exact .pass (ih (by omega)) (by omega) (before _ (by omega) (by omega))
  have last := walk (m.start - start) (by omega)
  rw [Nat.add_sub_cancel' above] at last
  simpa [Nat.sub_pos_iff_lt] using last

theorem Comes.trans {start middle i : ℕ} (first : Comes matchAt stop start middle false)
    (comes : Comes matchAt stop middle i after) : Comes matchAt stop start i after := by
  induction comes with
  | begin => exact first
  | pass _ inside none ih => exact .pass ih inside none
  | past _ inside found ih => exact .past ih inside found

section
variable (anchored : Anchored matchAt stop)
include anchored

theorem comes_next {start : ℕ} (finds : Finds matchAt stop start (some m))
    (placed : m.empty = true → m.start = start) : Comes matchAt stop start (nextIndex m start) false := by
  rw [next_eq anchored finds placed]
  exact .past (comes_start finds) finds.2.1 finds.2.2.2

/-- A walk that goes on behind a match comes to the next index. -/
theorem Comes.split {start i : ℕ} (finds : Finds matchAt stop start (some m))
    (placed : m.empty = true → m.start = start) (comes : Comes matchAt stop start i after) :
    (i ≤ m.start ∧ (after = true → start < i)) ∨ Comes matchAt stop (nextIndex m start) i after := by
  induction comes with
  | begin => exact .inl ⟨finds.1, nofun⟩
  | @pass i _ earlier inside none ih =>
    refine ih.imp (fun before => ⟨?_, fun _ => Nat.lt_succ_of_le (earlier.le anchored)⟩) fun comes => .pass comes inside none
    refine Nat.succ_le_of_lt (lt_of_le_of_ne before.1 fun same => ?_)
    rw [same, finds.2.2.2] at none
    cases none
  | @past i _ m' earlier inside found ih =>
    rcases ih with ⟨before, -⟩ | comes
    · have same : i = m.start := by
        by_contra other
        rw [finds.2.2.1 i (earlier.le anchored) (by omega)] at found
        cases found
      rw [same, finds.2.2.2] at found
      cases found
      rw [same, ← next_eq anchored finds placed]
      exact .inr .begin
    · exact .inr (.past comes inside found)

theorem emptyInPlace_done (finds : Finds matchAt stop index none) : EmptyInPlace matchAt stop index := by
  intro i comes m found
  have above := comes.le anchored
  cases comes with
  | pass _ inside _ =>
    rw [finds _ above inside] at found
    cases found

theorem emptyInPlace_found (finds : Finds matchAt stop index (some m)) :
    EmptyInPlace matchAt stop index ↔
      (m.empty = true → m.start = index) ∧ EmptyInPlace matchAt stop (nextIndex m index) := by
  constructor
  · intro placed
    have here : m.empty = true → m.start = index := by
      intro empty
      by_contra other
      have behind := comes_start finds
      rw [decide_eq_true (lt_of_le_of_ne finds.1 (.symm other))] at behind
      rw [placed _ behind m finds.2.2.2] at empty
      cases empty
    exact ⟨here, fun i comes => placed i ((comes_next anchored finds here).trans comes)⟩
  · rintro ⟨here, later⟩ i comes m' found
    rcases comes.split anchored finds here with ⟨before, behind⟩ | comes
    · rcases before.eq_or_lt with rfl | before
      · rw [finds.2.2.2] at found
        cases found
        cases empty : m.empty with
        | false => rfl
        | true => exact absurd (here empty) (behind rfl).ne'
      · rw [finds.2.2.1 i (behind rfl).le before] at found
        cases found
    · exact later i comes m' found

theorem Scan.once_iff (scan : Scan matchAt stop index ms) : Once matchAt ms ↔ EmptyInPlace matchAt stop index := by
  have chain : ms.IsChain (Follows matchAt) ↔ EmptyInPlace matchAt stop index := by
    induction scan with
    | done finds => exact iff_of_true .nil (emptyInPlace_done anchored finds)
    | @found index m ms finds scan ih =>
      rw [List.isChain_cons, ih, emptyInPlace_found anchored finds]
      refine and_congr_left fun _ => ?_
      obtain ⟨-, above, filled⟩ := m.stop_of_filled anchored finds.2.1 finds.2.2.2
      constructor
      · intro follows empty
        by_contra other
        -- The search goes on where the empty match is, and finds it again.
        have same := RegexpMatch.empty_iff.mp empty
        have again : nextIndex m index = m.start := by
          have := finds.1
          unfold nextIndex
          omega
        rw [again] at scan
        have finds' : Finds matchAt stop m.start (some m) := ⟨le_rfl, finds.2.1, fun i above below => by omega, finds.2.2.2⟩
        cases scan with
        | done none => cases (none m.start le_rfl finds.2.1).symm.trans finds.2.2.2
        | found finds'' =>
          have unique := ((searchFrom_iff anchored).mpr finds'').symm.trans ((searchFrom_iff anchored).mpr finds')
          cases unique
          exact absurd (follows m rfl).1 (lt_irrefl _)
      · intro here m' first
        have next := next_eq anchored finds here
        cases scan with
        | done => cases first
        | found finds' =>
          cases first
          obtain ⟨least, -, before, -⟩ := finds'
          have past : m.start < m'.start ∧ m.stop ≤ m'.start ∧
              ∀ i, m.start < i → m.stop ≤ i → nextIndex m index ≤ i := by
            rw [next] at least ⊢
            cases empty : m.empty with
            | true =>
              have same := RegexpMatch.empty_iff.mp empty
              rw [empty, if_pos rfl] at least
              exact ⟨least, by omega, fun i behind _ => behind⟩
            | false =>
              have more := filled empty
              rw [empty, if_neg Bool.false_ne_true] at least
              exact ⟨by omega, least, fun i _ past => past⟩
          refine ⟨past.1, past.2.1, fun i behind reached less between found => ?_⟩
          rw [before i (past.2.2 i behind reached) less] at found
          cases found
  refine ⟨fun once => chain.mp once.apart, fun placed => ⟨chain.mpr placed, ?_⟩⟩
  have ascending : (ms.map RegexpMatch.start).IsChain (· < ·) :=
    List.isChain_map_of_isChain _ (fun _ _ follows => follows.1) (chain.mpr placed)
  exact (List.isChain_iff_pairwise.mp ascending).nodup.of_map

end

end

section
variable {tables : Tables} {sre : Sre} {string : List Character} {start stop : Option ℕ} {fuel : ℕ}
  {ms : List RegexpMatch}

theorem searchArguments_spec {first last : ℕ} {matchAt : ℕ → ℕ → Except Error (Option RegexpMatch)}
    (given : searchArguments tables sre string start stop fuel = .ok (first, last, matchAt)) : first = start.getD 0 ∧
    last = stop.getD string.length ∧ first ≤ last ∧ last ≤ string.length ∧ ∀ index, Anchored (matchAt index) last := by
  obtain ⟨regexp, compiles, given⟩ := bind_returns.mp given
  obtain ⟨last', ends, given⟩ := bind_returns.mp given
  obtain ⟨first', starts, given⟩ := bind_returns.mp given
  cases given
  have inside : last = stop.getD string.length ∧ last ≤ string.length := by
    cases stop with
    | none =>
      cases ends
      exact ⟨rfl, le_rfl⟩
    | some n =>
      simp only [endIndex] at ends
      split at ends <;> cases ends
      exact ⟨rfl, ‹_›⟩
  have ordered : first = start.getD 0 ∧ first ≤ last := by
    cases start with
    | none =>
      cases starts
      exact ⟨rfl, Nat.zero_le _⟩
    | some n =>
      simp only [startIndex] at starts
      split at starts <;> cases starts
      exact ⟨rfl, ‹_›⟩
  exact ⟨ordered.1, inside.1, ordered.2, inside.2, fun _ _ within _ found => regexpMatchAt_bounds compiles within found⟩

theorem collectRight_cons (ms : List RegexpMatch) (lastMatchEnd : ℕ) :
    collectRight (fun _ => false) (fun _ m found => m :: found) (fun _ => []) lastMatchEnd ms = ms := by
  induction ms generalizing lastMatchEnd with
  | nil => rfl
  | cons m ms ih => exact congrArg (m :: ·) (ih m.stop)

theorem searchArguments_given {regexp : Compiled} (compiles : compileTopLevel tables sre = .ok regexp)
    (ordered : start.getD 0 ≤ stop.getD string.length) (inside : stop.getD string.length ≤ string.length) (fuel : ℕ) :
    searchArguments tables sre string start stop fuel = .ok (start.getD 0, stop.getD string.length, fun start index =>
      regexpMatchAt tables regexp false true index string start (stop.getD string.length) fuel) := by
  have last : endIndex stop string.length = .ok (stop.getD string.length) := by
    cases stop with
    | none => rfl
    | some n => exact if_pos inside
  have first : startIndex start (stop.getD string.length) = .ok (start.getD 0) := by
    cases start with
    | none => rfl
    | some n => exact if_pos ordered
  exact bind_returns.mpr ⟨regexp, compiles, bind_returns.mpr ⟨_, last, bind_returns.mpr ⟨_, first, rfl⟩⟩⟩

/-- Where no way leads from a mark of a submatch back to it, enough fuel gives the matches. -/
theorem regexpSearchAll_returns {regexp : Compiled} (compiles : compileTopLevel tables sre = .ok regexp)
    (loopless : Loopless regexp.impl.nodes) (ordered : start.getD 0 ≤ stop.getD string.length)
    (inside : stop.getD string.length ≤ string.length) :
    ∃ enough, ∀ fuel, enough ≤ fuel → ∃ ms, regexpSearchAll tables sre string start stop fuel = .ok ms := by
  have ends (index : ℕ) := @runMatcher_returns string (start.getD 0) (stop.getD string.length) false index
    tables.graphemeClusterBreaks regexp.impl true (.inr loopless)
  choose enough groups returns using ends
  refine ⟨(Finset.range (stop.getD string.length + 1)).sup enough, fun fuel more => ?_⟩
  have given := searchArguments_given compiles ordered inside fuel
  have anchored := (searchArguments_spec given).2.2.2.2 (start.getD 0)
  have total : ∀ i ≤ stop.getD string.length, ∃ here, regexpMatchAt tables regexp false true i string (start.getD 0)
      (stop.getD string.length) fuel = .ok here := by
    intro i within
    rw [regexpMatchAt, returns i fuel ((Finset.le_sup (Finset.mem_range.mpr (Nat.lt_succ_of_le within))).trans more)]
    rcases groups i with _ | _ | ⟨group0, rest⟩ <;> exact ⟨_, rfl⟩
  obtain ⟨ms, scan⟩ := scan_of_total anchored total (start.getD 0)
  have rounds : stop.getD string.length + 2 - start.getD 0 = stop.getD string.length + 1 - start.getD 0 + 1 := by omega
  refine ⟨ms, bind_returns.mpr ⟨_, given, ?_⟩⟩
  dsimp only
  rw [rounds, (folds_of_scan anchored scan (by omega)).2, collectRight_cons]

/-- The matches that are enumerated are those of a scan, and every fold takes them in turn. -/
theorem regexpSearchAll_scan (found : regexpSearchAll tables sre string start stop fuel = .ok ms) :
    ∃ first last matchAt, searchArguments tables sre string start stop fuel = .ok (first, last, matchAt) ∧
      Scan (matchAt first) last first ms ∧ ∀ {β : Type} (ignore : RegexpMatch → Bool) (kons : ℕ → RegexpMatch → β → β),
        (∀ knil finish, regexpFold tables sre string start stop fuel kons knil finish ignore =
          .ok (collect ignore kons finish first knil ms)) ∧
        ∀ finish, regexpFoldRight tables sre string start stop fuel kons finish ignore =
          .ok (collectRight ignore kons finish first ms) := by
  obtain ⟨⟨first, last, matchAt⟩, given, returns⟩ := bind_returns.mp found
  obtain ⟨-, -, ordered, -, anchored⟩ := searchArguments_spec given
  obtain ⟨ms', scan⟩ := scan_of_foldRightLoop (anchored first) returns
  have rounds : last + 2 - first = last + 1 - first + 1 := by omega
  dsimp only at returns
  rw [rounds, (folds_of_scan (anchored first) scan (by omega)).2, collectRight_cons] at returns
  cases returns
  refine ⟨first, last, matchAt, given, scan, fun ignore kons => ⟨fun knil finish => ?_, fun finish => ?_⟩⟩
  · refine bind_returns.mpr ⟨_, given, ?_⟩
    dsimp only
    rw [rounds, (folds_of_scan (anchored first) scan (by omega)).1]
  · refine bind_returns.mpr ⟨_, given, ?_⟩
    dsimp only
    rw [rounds, (folds_of_scan (anchored first) scan (by omega)).2]

/-- The folds pass on the same matches; these come one after the other exactly when no empty match that the walk comes to
lies behind a position where nothing matches. -/
theorem regexp_fold_once_iff (found : regexpSearchAll tables sre string start stop fuel = .ok ms) :
    (∀ {β : Type} (kons : ℕ → RegexpMatch → β → β) (knil : β),
      regexpFold tables sre string start stop fuel kons knil (fun _ acc => acc) (fun _ => false) =
        .ok (collect (fun _ => false) kons (fun _ acc => acc) (start.getD 0) knil ms) ∧
      regexpFoldRight tables sre string start stop fuel kons (fun _ => knil) (fun _ => false) =
        .ok (collectRight (fun _ => false) kons (fun _ => knil) (start.getD 0) ms)) ∧
    ∀ first last matchAt, searchArguments tables sre string start stop fuel = .ok (first, last, matchAt) →
      (Once (matchAt first) ms ↔ EmptyInPlace (matchAt first) last first) := by
  obtain ⟨first, last, matchAt, given, scan, folds⟩ := regexpSearchAll_scan found
  obtain ⟨begins, -, -, -, anchored⟩ := searchArguments_spec given
  rw [← begins]
  refine ⟨fun kons knil => ⟨(folds _ kons).1 knil _, (folds _ kons).2 _⟩, fun _ _ _ given' => ?_⟩
  cases given.symm.trans given'
  exact scan.once_iff (anchored _)

def endOfString : Sre := .assertion .eos

def aMatch (start stop : ℕ) : RegexpMatch := ⟨⟨.number 0, start, stop⟩, [], []⟩

theorem end_of_string_found : regexpSearchAll asciiTables endOfString [smallA] none none 5 = .ok [aMatch 1 1, aMatch 1 1] := by
  decide +kernel

theorem end_of_string_out_of_place : ∃ first last matchAt,
    searchArguments asciiTables endOfString [smallA] none none 5 = .ok (first, last, matchAt) ∧
      ¬EmptyInPlace (matchAt first) last first := by
  obtain ⟨first, last, matchAt, given, -⟩ := regexpSearchAll_scan end_of_string_found
  refine ⟨first, last, matchAt, given, fun placed => ?_⟩
  have once := ((regexp_fold_once_iff end_of_string_found).2 _ _ _ given).mpr placed
  exact absurd once.distinct (by decide)

theorem end_of_string_found_twice : ∃ found, regexpSearchAll asciiTables endOfString [smallA] none none 5 = .ok found ∧
    ∀ matchAt, ¬Once matchAt found :=
  ⟨_, end_of_string_found, fun _ once => absurd once.distinct (by decide)⟩

end

end MitScheme.Runtime.Regexp
