import MitScheme.Library.InversionList
import Mathlib.Order.Nat
import Mathlib.Data.List.Basic

/-!
The operations on inversion lists of `char-set.scm`. The sweep of the combiner also reads lists that
are not strictly ascending, and its results are.
-/

namespace MitScheme.Runtime.CharSets

open Library List

def charCodeLimit : Nat := 0x110000

/-- An inversion list as the codecs describe it, but for the order of its elements. -/
structure Ilist (order : Nat → Nat → Prop) (ilist : List Nat) : Prop where
  ascending : ilist.Pairwise order
  even : ilist.length % 2 = 0
  bounded : ∀ p ∈ ilist, p ≤ charCodeLimit

abbrev Proper (ilist : List Nat) : Prop := Ilist (· < ·) ilist

abbrev Loose (ilist : List Nat) : Prop := Ilist (· ≤ ·) ilist

theorem Ilist.loose {ilist : List Nat} (proper : Proper ilist) : Loose ilist :=
  ⟨proper.ascending.imp le_of_lt, proper.even, proper.bounded⟩

theorem proper_nil : Proper [] := ⟨.nil, rfl, forall_mem_nil _⟩

theorem Ilist.toggled_limit {order : Nat → Nat → Prop} {ilist : List Nat} (valid : Ilist order ilist) {cp : Nat}
    (outside : charCodeLimit ≤ cp) : toggled cp ilist = false := by
  rw [toggled_of_le fun p member => (valid.bounded p member).trans outside, valid.even]
  rfl

theorem Ilist.ext {ilist ilist' : List Nat} (proper : Proper ilist) (proper' : Proper ilist')
    (same : ∀ cp < charCodeLimit, toggled cp ilist = toggled cp ilist') : ilist = ilist' := by
  refine toggled_ext proper.ascending proper'.ascending fun cp => ?_
  rcases lt_or_ge cp charCodeLimit with inside | outside
  · exact same cp inside
  · rw [proper.toggled_limit outside, proper'.toggled_limit outside]

def invertLoop (start : Nat) : List Nat → List Nat → List Nat
  | s :: e :: rest, inverse => invertLoop e rest (s :: start :: inverse)
  | _, inverse => (if start < charCodeLimit then charCodeLimit :: start :: inverse else inverse).reverse

def ilistInvert : List Nat → List Nat
  | s :: e :: rest => if 0 < s then invertLoop 0 (s :: e :: rest) [] else invertLoop e rest []
  | ilist => invertLoop 0 ilist []

/-- `process`: the range belongs to the result when the combination of the two memberships does. -/
def process (combine : Bool → Bool → Bool) (v start stop : Nat) (result : List Nat) : List Nat :=
  if start < stop ∧ combine (v &&& 1 == 1) (v &&& 2 == 2) then
    match result with
    | e :: s :: rest => if start = e then stop :: s :: rest else stop :: start :: result
    | _ => stop :: start :: result
  else result

def combinerTail (combine : Bool → Bool → Bool) (v vi start : Nat) : List Nat → List Nat → List Nat
  | stop :: ilist, result => combinerTail combine (v ^^^ vi) vi stop ilist (process combine v start stop result)
  | [], result =>
    (if start < charCodeLimit then process combine v start charCodeLimit result else result).reverse

def combinerLoop (combine : Bool → Bool → Bool) (v start : Nat) (il1 il2 result : List Nat) : List Nat :=
  match il1, il2 with
  | [], il2 => combinerTail combine v 2 start il2 result
  | il1, [] => combinerTail combine v 1 start il1 result
  | x1 :: rest1, x2 :: rest2 =>
    let stop := min x1 x2
    let result' := process combine v start stop result
    if x2 > stop then combinerLoop combine (v ^^^ 1) stop rest1 (x2 :: rest2) result'
    else if x1 > stop then combinerLoop combine (v ^^^ 2) stop (x1 :: rest1) rest2 result'
    else combinerLoop combine (v ^^^ 3) stop rest1 rest2 result'
termination_by il1.length + il2.length

def ilistCombiner (combine : Bool → Bool → Bool) (il1 il2 : List Nat) : List Nat :=
  combinerLoop combine 0 0 il1 il2 []

def ilistUnion : List Nat → List Nat → List Nat := ilistCombiner fun a b => a || b

def ilistIntersection : List Nat → List Nat → List Nat := ilistCombiner fun a b => a && b

def ilistDifference : List Nat → List Nat → List Nat := ilistCombiner fun a b => a && !b

def ilistXor : List Nat → List Nat → List Nat := ilistCombiner fun a b => if a then !b else b

mutual

/-- `find-end`; the code points descend, and each range is put before the ones above it. -/
def findEnd (cps ilist : List Nat) : List Nat :=
  match cps with
  | cp :: cps => findStart cps cp (cp + 1) ilist
  | [] => ilist
termination_by 2 * cps.length

def findStart (cps : List Nat) (start stop : Nat) (ilist : List Nat) : List Nat :=
  match cps with
  | cp :: cps =>
    if cp = start then findStart cps start stop ilist
    else if cp + 1 = start then findStart cps cp stop ilist
    else findEnd (cp :: cps) (start :: stop :: ilist)
  | [] => start :: stop :: ilist
termination_by 2 * cps.length + 1

end

structure Character where
  code : Nat
  small : code < charCodeLimit

def charsToIlist (chars : List Character) : List Nat :=
  findEnd ((chars.map Character.code).mergeSort fun a b => decide (b ≤ a)) []

inductive Range where
  | point (cp : Nat)
  | pair (start stop : Nat)

/-- `range?` -/
def Range.Legal : Range → Prop
  | .point cp => cp < charCodeLimit
  | .pair start stop => stop ≤ charCodeLimit ∧ start ≤ stop

def makeRange (start stop : Nat) : Range := if stop - start = 1 then .point start else .pair start stop

def charToRange (char : Character) : Range := .point char.code

def Range.start : Range → Nat
  | .point cp => cp
  | .pair start _ => start

def Range.stop : Range → Nat
  | .point cp => cp + 1
  | .pair _ stop => stop

/-- `range<?` -/
def rangeLess (range1 range2 : Range) : Bool :=
  decide (range1.start < range2.start) || (decide (range1.start = range2.start) && decide (range1.stop < range2.stop))

def mergeRanges : List Range → List Range
  | range1 :: range2 :: ranges =>
    if range1.stop < range2.start then range1 :: mergeRanges (range2 :: ranges)
    else mergeRanges (makeRange range1.start (max range1.stop range2.stop) :: ranges)
  | ranges => ranges
termination_by ranges => ranges.length

def normalizeRanges (ranges : List Range) : List Range :=
  mergeRanges ((ranges.mergeSort fun a b => !rangeLess b a).filter fun range => decide (range.start < range.stop))

def rangesToIlist (ranges : List Range) : List Nat :=
  (normalizeRanges ranges).foldr (fun range ilist => range.start :: range.stop :: ilist) []

section
variable {cps ilist : List Nat} {start stop cp : Nat}

/-- The ranges built so far lie above the next one, and do not touch it. -/
structure Above (stop : Nat) (ilist : List Nat) : Prop where
  proper : Proper ilist
  apart : ∀ p ∈ ilist, stop < p

theorem Above.push (above : Above stop ilist) (order : start < stop) (limit : stop ≤ charCodeLimit) :
    Proper (start :: stop :: ilist) := by
  refine ⟨?_, ?_, ?_⟩
  · refine pairwise_cons.mpr ⟨?_, pairwise_cons.mpr ⟨above.apart, above.proper.ascending⟩⟩
    exact forall_mem_cons.mpr ⟨order, fun p member => order.trans (above.apart p member)⟩
  · rw [length_cons, length_cons]
    have even := above.proper.even
    omega
  · exact forall_mem_cons.mpr ⟨order.le.trans limit, forall_mem_cons.mpr ⟨limit, above.proper.bounded⟩⟩

theorem Proper.interval (proper : Proper (start :: stop :: ilist)) :
    toggled cp (start :: stop :: ilist) = true ↔ (start ≤ cp ∧ cp < stop) ∨ toggled cp ilist = true := by
  rw [toggled_interval proper.loose.ascending, Bool.or_eq_true, decide_eq_true_iff]

theorem findStart_spec (descending : (start :: cps).Pairwise (· ≥ ·)) (order : start < stop)
    (limit : stop ≤ charCodeLimit) (above : Above stop ilist) :
    Proper (findStart cps start stop ilist) ∧ ∀ cp, toggled cp (findStart cps start stop ilist) = true ↔
      cp ∈ cps ∨ (start ≤ cp ∧ cp < stop) ∨ toggled cp ilist = true := by
  induction cps generalizing start stop ilist with
  | nil =>
    rw [findStart]
    have proper := above.push order limit
    refine ⟨proper, fun cp => ?_⟩
    rw [proper.interval]
    simp
  | cons next cps ih =>
    obtain ⟨head, tail⟩ := pairwise_cons.mp descending
    have low : next ≤ start := head next mem_cons_self
    rw [findStart]
    split
    · next same =>
      subst same
      obtain ⟨proper, members⟩ := ih tail order limit above
      refine ⟨proper, fun cp => ?_⟩
      rw [members, mem_cons]
      constructor
      · exact fun member => member.imp_left .inr
      · rintro ((rfl | member) | rest)
        · exact .inr (.inl ⟨le_rfl, order⟩)
        · exact .inl member
        · exact .inr rest
    · split
      · next touches =>
        obtain ⟨proper, members⟩ := ih tail (by omega) limit above
        refine ⟨proper, fun cp => ?_⟩
        rw [members, mem_cons]
        have split_range : next ≤ cp ∧ cp < stop ↔ cp = next ∨ start ≤ cp ∧ cp < stop := by omega
        rw [split_range, or_assoc, or_left_comm, or_assoc]
      · next apart =>
        have pushed := above.push order limit
        have above' : Above (next + 1) (start :: stop :: ilist) := by
          refine ⟨pushed, forall_mem_cons.mpr ⟨by omega, fun p member => ?_⟩⟩
          have larger := (pairwise_cons.mp pushed.ascending).1 p member
          omega
        obtain ⟨proper, members⟩ := ih tail (Nat.lt_succ_self next) (by omega) above'
        rw [findEnd]
        refine ⟨proper, fun cp => ?_⟩
        rw [members, pushed.interval, mem_cons]
        have single : next ≤ cp ∧ cp < next + 1 ↔ cp = next := by omega
        rw [single, or_left_comm, or_assoc]

theorem charsToIlist_spec (chars : List Character) :
    Proper (charsToIlist chars) ∧ ∀ cp, toggled cp (charsToIlist chars) = true ↔ ∃ char ∈ chars, char.code = cp := by
  have sorted : ((chars.map Character.code).mergeSort fun a b => decide (b ≤ a)).Pairwise
      fun a b => decide (b ≤ a) = true :=
    pairwise_mergeSort (fun a b c => by simp; omega) (fun a b => by simp; omega) _
  have members (cp : Nat) : cp ∈ (chars.map Character.code).mergeSort (fun a b => decide (b ≤ a)) ↔
      ∃ char ∈ chars, char.code = cp := by
    rw [mem_mergeSort, mem_map]
  unfold charsToIlist
  generalize (chars.map Character.code).mergeSort (fun a b => decide (b ≤ a)) = cps at sorted members
  cases cps with
  | nil =>
    rw [findEnd]
    refine ⟨proper_nil, fun cp => ?_⟩
    rw [← members]
    simp
  | cons first cps =>
    have limit : first < charCodeLimit := by
      obtain ⟨char, -, rfl⟩ := (members first).mp mem_cons_self
      exact char.small
    rw [findEnd]
    obtain ⟨proper, spec⟩ := findStart_spec (sorted.imp of_decide_eq_true) (Nat.lt_succ_self first) limit
      ⟨proper_nil, forall_mem_nil _⟩
    refine ⟨proper, fun cp => ?_⟩
    have single : first ≤ cp ∧ cp < first + 1 ↔ cp = first := by omega
    rw [spec, ← members, single]
    simp [or_comm]

end

section
variable {range : Range} {ranges : List Range} {start stop cp : Nat}

def Range.Covers (range : Range) (cp : Nat) : Prop := range.start ≤ cp ∧ cp < range.stop

theorem makeRange_start : (makeRange start stop).start = start := by
  unfold makeRange
  split <;> rfl

theorem makeRange_stop (order : start < stop) : (makeRange start stop).stop = stop := by
  unfold makeRange
  split
  · next one =>
    change start + 1 = stop
    omega
  · rfl

structure Ordered (ranges : List Range) : Prop where
  starts : ranges.Pairwise fun a b => a.start ≤ b.start
  nonempty : ∀ range ∈ ranges, range.start < range.stop
  bounded : ∀ range ∈ ranges, range.stop ≤ charCodeLimit

structure Separate (ranges : List Range) : Prop extends Ordered ranges where
  apart : ranges.Pairwise fun a b => a.stop < b.start

theorem ordered_cons : Ordered (range :: ranges) ↔ (∀ r ∈ ranges, range.start ≤ r.start) ∧ range.start < range.stop ∧
    range.stop ≤ charCodeLimit ∧ Ordered ranges := by
  constructor
  · rintro ⟨starts, nonempty, bounded⟩
    obtain ⟨head, tail⟩ := pairwise_cons.mp starts
    obtain ⟨order, nonempty'⟩ := forall_mem_cons.mp nonempty
    obtain ⟨limit, bounded'⟩ := forall_mem_cons.mp bounded
    exact ⟨head, order, limit, tail, nonempty', bounded'⟩
  · rintro ⟨head, order, limit, starts, nonempty, bounded⟩
    exact ⟨pairwise_cons.mpr ⟨head, starts⟩, forall_mem_cons.mpr ⟨order, nonempty⟩,
      forall_mem_cons.mpr ⟨limit, bounded⟩⟩

theorem mergeRanges_spec (ordered : Ordered ranges) :
    Separate (mergeRanges ranges) ∧ (∀ cp, (∃ r ∈ mergeRanges ranges, r.Covers cp) ↔ ∃ r ∈ ranges, r.Covers cp) ∧
    ∀ low, (∀ r ∈ ranges, low ≤ r.start) → ∀ r ∈ mergeRanges ranges, low ≤ r.start := by
  fun_induction mergeRanges ranges with
  | case1 range1 range2 ranges apart ih =>
    obtain ⟨head, order, limit, rest⟩ := ordered_cons.mp ordered
    obtain ⟨head2, -⟩ := ordered_cons.mp rest
    obtain ⟨separate, members, least⟩ := ih rest
    have above := least range2.start (forall_mem_cons.mpr ⟨le_rfl, head2⟩)
    refine ⟨⟨ordered_cons.mpr ⟨?_, order, limit, separate.toOrdered⟩, ?_⟩, fun cp => ?_, fun low below => ?_⟩
    · exact fun r member => (head range2 mem_cons_self).trans (above r member)
    · exact pairwise_cons.mpr ⟨fun r member => apart.trans_le (above r member), separate.apart⟩
    · rw [exists_mem_cons_iff, exists_mem_cons_iff, members]
    · obtain ⟨first, others⟩ := forall_mem_cons.mp below
      exact forall_mem_cons.mpr ⟨first, least low others⟩
  | case2 range1 range2 ranges meets ih =>
    obtain ⟨head, order, limit, rest⟩ := ordered_cons.mp ordered
    obtain ⟨head2, order2, limit2, rest2⟩ := ordered_cons.mp rest
    have low := head range2 mem_cons_self
    have grown : range1.start < max range1.stop range2.stop := order.trans_le (le_max_left _ _)
    obtain ⟨separate, members, least⟩ := ih (ordered_cons.mpr ⟨by
      rw [makeRange_start]
      exact fun r member => head r (mem_cons_of_mem _ member), by rwa [makeRange_start, makeRange_stop grown], by
      rw [makeRange_stop grown]
      exact max_le limit limit2, rest2⟩)
    refine ⟨separate, fun cp => ?_, fun low below => ?_⟩
    · rw [members, exists_mem_cons_iff, exists_mem_cons_iff, exists_mem_cons_iff, ← or_assoc]
      have joined : (makeRange range1.start (max range1.stop range2.stop)).Covers cp ↔
          range1.Covers cp ∨ range2.Covers cp := by
        unfold Range.Covers
        rw [makeRange_start, makeRange_stop grown]
        omega
      rw [joined]
    · obtain ⟨first, others⟩ := forall_mem_cons.mp below
      refine least low (forall_mem_cons.mpr ⟨by rwa [makeRange_start], fun r member => ?_⟩)
      exact others r (mem_cons_of_mem _ member)
  | case3 ranges short =>
    refine ⟨⟨ordered, ?_⟩, fun _ => .rfl, fun _ below => below⟩
    rcases ranges with _ | ⟨range1, _ | ⟨range2, ranges⟩⟩
    · exact .nil
    · exact pairwise_singleton _ _
    · exact absurd rfl (short range1 range2 ranges)

theorem proper_of_separate (separate : Separate ranges) :
    Proper (ranges.foldr (fun range ilist => range.start :: range.stop :: ilist) []) ∧
      (∀ low, (∀ r ∈ ranges, low < r.start) →
        ∀ p ∈ ranges.foldr (fun range ilist => range.start :: range.stop :: ilist) [], low < p) ∧
      ∀ cp, toggled cp (ranges.foldr (fun range ilist => range.start :: range.stop :: ilist) []) = true ↔
        ∃ r ∈ ranges, r.Covers cp := by
  induction ranges with
  | nil => exact ⟨proper_nil, fun _ _ => forall_mem_nil _, fun cp => by simp⟩
  | cons range ranges ih =>
    obtain ⟨-, order, limit, rest⟩ := ordered_cons.mp separate.toOrdered
    obtain ⟨apart, tail⟩ := pairwise_cons.mp separate.apart
    obtain ⟨proper, above, members⟩ := ih ⟨rest, tail⟩
    have pushed := Above.push ⟨proper, above range.stop apart⟩ order limit
    rw [foldr_cons]
    refine ⟨pushed, fun low below => ?_, fun cp => ?_⟩
    · obtain ⟨first, others⟩ := forall_mem_cons.mp below
      exact forall_mem_cons.mpr ⟨first, forall_mem_cons.mpr ⟨first.trans order, above low others⟩⟩
    · rw [pushed.interval, members, exists_mem_cons_iff]
      rfl

theorem rangesToIlist_spec (legal : ∀ range ∈ ranges, range.Legal) : Proper (rangesToIlist ranges) ∧ ∀ cp,
    toggled cp (rangesToIlist ranges) = true ↔ ∃ range ∈ ranges, range.Covers cp := by
  have sorted : (ranges.mergeSort fun a b => !rangeLess b a).Pairwise fun a b => (!rangeLess b a) = true :=
    pairwise_mergeSort (fun a b c => by simp [rangeLess]; omega) (fun a b => by simp [rangeLess]; omega) _
  have ordered : Ordered ((ranges.mergeSort fun a b => !rangeLess b a).filter
      fun range => decide (range.start < range.stop)) := by
    refine ⟨?_, fun range member => ?_, fun range member => ?_⟩
    · refine (sorted.imp fun {a b} less => ?_).filter _
      simp only [rangeLess, Bool.not_or, Bool.and_eq_true, Bool.not_eq_true', decide_eq_false_iff_not] at less
      omega
    · exact of_decide_eq_true (mem_filter.mp member).2
    · have source := legal range (mem_mergeSort.mp (mem_filter.mp member).1)
      cases range with
      | point cp => exact source
      | pair start stop => exact source.1
  obtain ⟨separate, members, -⟩ := mergeRanges_spec ordered
  obtain ⟨proper, -, members'⟩ := proper_of_separate separate
  refine ⟨proper, fun cp => ?_⟩
  rw [rangesToIlist, normalizeRanges, members', members]
  constructor
  · rintro ⟨range, member, covers⟩
    exact ⟨range, mem_mergeSort.mp (mem_filter.mp member).1, covers⟩
  · rintro ⟨range, member, covers⟩
    have nonempty : range.start < range.stop := covers.1.trans_lt covers.2
    exact ⟨range, mem_filter.mpr ⟨mem_mergeSort.mpr member, decide_eq_true nonempty⟩, covers⟩

end

end MitScheme.Runtime.CharSets
