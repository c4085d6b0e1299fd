import MitScheme.Runtime.CharSet.Representation

/-!
Both folds read the bit vector a bit at a time, and join a run that ends at the limit to the first of
the ranges above it.
-/

namespace MitScheme.Runtime.CharSets

open Library List

section
variable {β : Type} (proc : Nat → Nat → β → β) (low high : List Nat)

/-- `high-loop` of `char-set-range-fold`. -/
def foldHighLoop (i : Nat) (value : β) : β :=
  if i < highLimit high then foldHighLoop (i + 2) (proc (highRef high i) (highRef high (i + 1)) value) else value
termination_by highLimit high - i

def foldSplice (start stop : Nat) (value : β) : β :=
  if 0 < highLimit high ∧ stop = highRef high 0 then foldHighLoop proc high 2 (proc start (highRef high 1) value)
  else foldHighLoop proc high 0 (proc start stop value)

mutual

/-- `low-start` of `char-set-range-fold`; `left` bits are left from `i` on. -/
def foldLowStart : (left i : Nat) → β → β
  | 0, _, value => foldHighLoop proc high 0 value
  | left + 1, i, value => if lowRef low i then foldLowEnd left i (i + 1) value else foldLowStart left (i + 1) value

/-- `low-end`; `left` bits are left from `j` on. -/
def foldLowEnd : (left i j : Nat) → β → β
  | 0, i, j, value => foldSplice proc high i j value
  | left + 1, i, j, value =>
    if lowRef low j then foldLowEnd left i (j + 1) value else foldLowStart left (j + 1) (proc i j value)

end

def charSetRangeFold (init : β) (charSet : CharSet) : β :=
  foldLowStart proc charSet.low charSet.high (lowLimit charSet.low) 0 init

mutual

/-- `low-end` of `char-set-range-fold-right`, at the bit below `i`. -/
def foldRightLowEnd : (i : Nat) → β → β
  | 0, value => value
  | i + 1, value => if lowRef low i then foldRightLowStart i (i + 1) value else foldRightLowEnd i value

/-- `low-start`, at the bit below `i`. -/
def foldRightLowStart : (i stop : Nat) → β → β
  | 0, stop, value => proc 0 stop value
  | i + 1, stop, value =>
    if lowRef low i then foldRightLowStart i stop value else foldRightLowEnd i (proc (i + 1) stop value)

end

def foldRightSplice (start stop : Nat) (value : β) : β :=
  if start = lowLimit low then foldRightLowStart proc low (lowLimit low) stop value
  else foldRightLowEnd proc low (lowLimit low) (proc start stop value)

/-- `high-loop` of `char-set-range-fold-right`. -/
def foldRightHighLoop (i : Nat) (value : β) : β :=
  if 0 < i then foldRightHighLoop (i - 2) (proc (highRef high i) (highRef high (i + 1)) value)
  else foldRightSplice proc low (highRef high 0) (highRef high 1) value
termination_by i

def charSetRangeFoldRight (init : β) (charSet : CharSet) : β :=
  if 2 ≤ highLimit charSet.high then foldRightHighLoop proc charSet.low charSet.high (highLimit charSet.high - 2) init
  else foldRightLowEnd proc charSet.low (lowLimit charSet.low) init

def charSetToIlist (charSet : CharSet) : List Nat :=
  charSetRangeFoldRight (fun start stop ilist => start :: stop :: ilist) [] charSet

def foldRuns (rs : List (Nat × Nat)) (value : β) : β := rs.foldl (fun value r => proc r.1 r.2 value) value

def foldRunsRight (rs : List (Nat × Nat)) (value : β) : β := rs.foldr (fun r value => proc r.1 r.2 value) value

end

section
variable {β : Type} {proc : Nat → Nat → β → β} {low high ilist rest : List Nat} {limit i j stop : Nat} {value : β}

theorem foldHighLoop_eq (even : (highPoints high).length % 2 = 0) (even_i : i % 2 = 0) :
    foldHighLoop proc high i value = foldRuns proc (runs ((highPoints high).drop i)) value := by
  fun_induction foldHighLoop proc high i value with
  | case1 i value inside ih =>
    rw [← length_highPoints] at inside
    have inside' : i + 1 < (highPoints high).length := by omega
    rw [ih (by omega), drop_eq_getElem_cons inside, drop_eq_getElem_cons inside', runs_cons, foldRuns,
      foldRuns, foldl_cons, highRef_eq inside, highRef_eq inside']
  | case2 i value outside =>
    rw [← length_highPoints] at outside
    rw [drop_eq_nil_of_le (not_lt.mp outside)]
    rfl

theorem skipLow_of_le (ascending : ilist.Pairwise (· < ·)) (even : ilist.length % 2 = 0) (above : ∀ p ∈ ilist, limit ≤ p) :
    skipLow limit ilist = ilist := by
  rcases ilist with _ | ⟨start, _ | ⟨stop, rest⟩⟩
  · rfl
  · exact absurd even (by decide : ¬1 % 2 = 0)
  · have first := above start mem_cons_self
    have order := (pairwise_cons.mp ascending).1 stop mem_cons_self
    rw [skipLow, if_neg (by omega), if_neg (by omega)]

/-- The bits from `i` on are those of the rest of the points. -/
structure Remaining (low high : List Nat) (i : Nat) (rest : List Nat) : Prop where
  ascending : rest.Pairwise (· < ·)
  even : rest.length % 2 = 0
  bits : ∀ cp, i ≤ cp → cp < lowLimit low → lowRef low cp = toggled cp rest
  points : highPoints high = skipLow (lowLimit low) rest

theorem Remaining.next (remaining : Remaining low high i rest) : Remaining low high (i + 1) rest :=
  ⟨remaining.ascending, remaining.even, fun cp later => remaining.bits cp (by omega), remaining.points⟩

theorem Remaining.cons (remaining : Remaining low high j (i :: stop :: rest)) :
    i < stop ∧ (∀ p ∈ rest, stop < p) ∧ rest.Pairwise (· < ·) ∧ rest.length % 2 = 0 := by
  obtain ⟨head, tail⟩ := pairwise_cons.mp remaining.ascending
  obtain ⟨above, tail'⟩ := pairwise_cons.mp tail
  have even := remaining.even
  rw [length_cons, length_cons] at even
  exact ⟨head stop mem_cons_self, above, tail', by omega⟩

theorem foldSplice_eq (remaining : Remaining low high (lowLimit low) (i :: stop :: rest)) (before : i < lowLimit low)
    (inside : lowLimit low ≤ stop) :
    foldSplice proc high i (lowLimit low) value = foldRuns proc (runs (i :: stop :: rest)) value := by
  obtain ⟨order, above, ascending, even⟩ := remaining.cons
  have points := remaining.points
  rw [skipLow] at points
  by_cases last : stop = lowLimit low
  · rw [if_pos last.le, skipLow_of_le ascending even fun p member => by have := above p member; omega] at points
    have apart : ¬(0 < highLimit high ∧ lowLimit low = highRef high 0) := by
      rintro ⟨some, touches⟩
      rw [← length_highPoints] at some
      rw [highRef_eq some] at touches
      have above' : ∀ p ∈ highPoints high, stop < p := by rwa [points]
      have larger := above' _ (getElem_mem some)
      omega
    rw [foldSplice, if_neg apart, foldHighLoop_eq (points ▸ even) rfl, points, ← last]
    rfl
  · rw [if_neg (by omega), if_pos before] at points
    have first : 0 < (highPoints high).length := by rw [points]; exact Nat.succ_pos _
    have second : 1 < (highPoints high).length := by rw [points]; exact Nat.succ_lt_succ (Nat.succ_pos _)
    have touches : 0 < highLimit high ∧ lowLimit low = highRef high 0 := by
      rw [highRef_eq first, ← length_highPoints]
      simp [points]
    have end_first : highRef high 1 = stop := by
      rw [highRef_eq second]
      simp [points]
    rw [foldSplice, if_pos touches, end_first, foldHighLoop_eq (by rw [points, length_cons, length_cons]; omega) rfl,
      points]
    rfl

theorem foldLow_eq (left : Nat) :
    (∀ {i rest value}, i + left = lowLimit low → (∀ p ∈ rest, i ≤ p) → Remaining low high i rest →
      foldLowStart proc low high left i value = foldRuns proc (runs rest) value) ∧
    ∀ {i j stop rest value}, j + left = lowLimit low → i < j → j ≤ stop → Remaining low high j (i :: stop :: rest) →
      foldLowEnd proc low high left i j value = foldRuns proc (runs (i :: stop :: rest)) value := by
  induction left with
  | zero =>
    refine ⟨fun {i rest value} all above remaining => ?_, fun {i j stop rest value} all before inside remaining => ?_⟩
    · have points := remaining.points
      rw [skipLow_of_le remaining.ascending remaining.even fun p member => by have := above p member; omega] at points
      rw [foldLowStart, foldHighLoop_eq (points ▸ remaining.even) rfl, drop_zero, points]
    · obtain rfl : j = lowLimit low := all
      exact foldSplice_eq remaining before inside
  | succ left ih =>
    obtain ⟨ih_start, ih_end⟩ := ih
    refine ⟨fun {i rest value} all above remaining => ?_, fun {i j stop rest value} all before inside remaining => ?_⟩
    · have bit := remaining.bits i le_rfl (by omega)
      rw [foldLowStart]
      rcases rest with _ | ⟨start, _ | ⟨stop, rest⟩⟩
      · rw [bit, toggled_nil]
        exact ih_start (by omega) (forall_mem_nil _) remaining.next
      · exact absurd remaining.even (by decide : ¬1 % 2 = 0)
      · obtain ⟨order, -⟩ := remaining.cons
        have low_start := above start mem_cons_self
        rcases low_start.eq_or_lt with rfl | later
        · rw [bit, toggled_head remaining.ascending]
          exact ih_end (by omega) (Nat.lt_succ_self i) order remaining.next
        · have later' : ∀ p ∈ start :: stop :: rest, i < p := forall_mem_cons.mpr
            ⟨later, fun p member => later.trans ((pairwise_cons.mp remaining.ascending).1 p member)⟩
          rw [bit, toggled_of_lt later']
          exact ih_start (by omega) later' remaining.next
    · obtain ⟨order, above, ascending, even⟩ := remaining.cons
      have weakly : (i :: stop :: rest).Pairwise (· ≤ ·) := remaining.ascending.imp le_of_lt
      have bit := remaining.bits j le_rfl (by omega)
      rw [toggled_interval weakly] at bit
      rw [foldLowEnd]
      rcases inside.eq_or_lt with rfl | more
      · have nothing : toggled j rest = false := toggled_of_lt above
        rw [nothing, decide_eq_false fun range => lt_irrefl j range.2, Bool.or_false] at bit
        rw [bit]
        refine ih_start (by omega) above ⟨ascending, even, fun cp later small => ?_, ?_⟩
        · rw [remaining.bits cp (by omega) small, toggled_interval weakly, decide_eq_false (by omega), Bool.false_or]
        · rw [remaining.points, skipLow, if_pos (by omega)]
      · rw [decide_eq_true ⟨before.le, more⟩, Bool.true_or] at bit
        rw [bit]
        exact ih_end (by omega) (by omega) more remaining.next

end

section
variable {β : Type} {proc : Nat → Nat → β → β} {low high before rest : List Nat} {limit start stop : Nat} {value : β}

theorem foldRunsRight_append (even : before.length % 2 = 0) : foldRunsRight proc (runs (before ++ rest)) value =
    foldRunsRight proc (runs before) (foldRunsRight proc (runs rest) value) := by
  rw [runs_append even, foldRunsRight, foldr_append]
  rfl

theorem foldRightHighLoop_eq {first second : Nat} (even : rest.length % 2 = 0)
    (points : ∃ after, highPoints high = first :: second :: rest ++ after) :
    foldRightHighLoop proc low high rest.length value =
      foldRightSplice proc low first second (foldRunsRight proc (runs rest) value) := by
  generalize size : rest.length = n
  induction n using Nat.strong_induction_on generalizing rest value with
  | _ n ih =>
    obtain ⟨after, points⟩ := points
    by_cases empty : rest = []
    · subst empty
      have length : 1 < (highPoints high).length := by rw [points]; exact Nat.succ_lt_succ (Nat.succ_pos _)
      rw [← size, foldRightHighLoop, if_neg (by simp), highRef_eq length, highRef_eq (by omega)]
      simp [points, runs, foldRunsRight]
    · obtain ⟨rest', s, e, rfl, even'⟩ := pairs_last even empty
      rw [length_append, length_cons, length_cons, length_nil] at size
      have length : n + 1 < (highPoints high).length := by
        rw [points]
        simp
        omega
      have reads : highRef high n = s ∧ highRef high (n + 1) = e := by
        have position : n = rest'.length + 2 := by omega
        rw [highRef_eq length, highRef_eq (by omega)]
        subst position
        simp [points]
      rw [foldRightHighLoop, if_pos (by omega), reads.1, reads.2,
        ih (n - 2) (by omega) even' ⟨s :: e :: after, by rw [points]; simp⟩ (by omega), foldRunsRight_append even']
      rfl

structure Passed (low : List Nat) (i : Nat) (before : List Nat) : Prop where
  ascending : before.Pairwise (· < ·)
  bits : ∀ cp < i, lowRef low cp = toggled cp before

theorem Passed.next {i : Nat} (passed : Passed low (i + 1) before) : Passed low i before :=
  ⟨passed.ascending, fun cp small => passed.bits cp (by omega)⟩

theorem Passed.append {i : Nat} (passed : Passed low i (before ++ [start, stop])) :
    before.Pairwise (· < ·) ∧ start < stop ∧ ∀ p ∈ before, p < start := by
  obtain ⟨ascending, last, below⟩ := pairwise_append.mp passed.ascending
  exact ⟨ascending, (pairwise_cons.mp last).1 stop mem_cons_self, fun p member => below p member start mem_cons_self⟩

theorem Passed.drop {i : Nat} (passed : Passed low i (before ++ [start, stop])) (above : i ≤ start) :
    Passed low i before := by
  obtain ⟨ascending, order, below⟩ := passed.append
  refine ⟨ascending, fun cp small => ?_⟩
  have nothing : toggled cp [start, stop] = false := toggled_of_lt
    (forall_mem_cons.mpr ⟨by omega, forall_mem_cons.mpr ⟨by omega, forall_mem_nil _⟩⟩)
  rw [passed.bits cp small, toggled_append, nothing, Bool.xor_false]

theorem Passed.last {i cp : Nat} (passed : Passed low i (before ++ [start, stop])) (even : before.length % 2 = 0)
    (inside : start ≤ cp + 1) : toggled cp (before ++ [start, stop]) = decide (start ≤ cp ∧ cp < stop) := by
  obtain ⟨-, order, less⟩ := passed.append
  have below : ∀ p ∈ before, p ≤ cp := fun p member => by
    have := less p member
    omega
  have pair : [start, stop].Pairwise (· ≤ ·) :=
    pairwise_cons.mpr ⟨forall_mem_cons.mpr ⟨order.le, forall_mem_nil _⟩, pairwise_singleton _ _⟩
  rw [toggled_append, toggled_of_le below, even, toggled_interval pair, toggled_nil, Bool.or_false]
  exact Bool.false_xor _

theorem foldRightLow_eq (proc : Nat → Nat → β → β) (low : List Nat) (i : Nat) :
    (∀ {before value}, before.length % 2 = 0 → (∀ p ∈ before, p ≤ i) → Passed low i before →
      foldRightLowEnd proc low i value = foldRunsRight proc (runs before) value) ∧
    ∀ {before start stop value}, before.length % 2 = 0 → start ≤ i → i < stop →
      Passed low i (before ++ [start, stop]) →
      foldRightLowStart proc low i stop value = foldRunsRight proc (runs (before ++ [start, stop])) value := by
  induction i with
  | zero =>
    refine ⟨fun {before value} even below passed => ?_, fun {before start stop value} even inside above passed => ?_⟩
    · by_cases empty : before = []
      · rw [empty]
        rfl
      · obtain ⟨before', start, stop, rfl, -⟩ := pairs_last even empty
        have order := passed.append.2.1
        have small := below stop (mem_append_right _ (mem_cons_of_mem _ mem_cons_self))
        omega
    · obtain rfl : start = 0 := by omega
      have empty : before = [] := eq_nil_iff_forall_not_mem.mpr fun p member =>
        Nat.not_lt_zero p (passed.append.2.2 p member)
      rw [empty]
      rfl
  | succ i ih =>
    obtain ⟨ih_end, ih_start⟩ := ih
    refine ⟨fun {before value} even below passed => ?_, fun {before start stop value} even inside above passed => ?_⟩
    · have bit := passed.bits i (Nat.lt_succ_self i)
      rw [foldRightLowEnd]
      by_cases empty : before = []
      · subst empty
        rw [bit, toggled_nil]
        exact ih_end rfl (forall_mem_nil _) passed.next
      · obtain ⟨before', start, stop, rfl, even'⟩ := pairs_last even empty
        obtain ⟨-, order, less⟩ := passed.append
        have small := below stop (mem_append_right _ (mem_cons_of_mem _ mem_cons_self))
        rw [passed.last even' (by omega)] at bit
        rcases small.eq_or_lt with rfl | small
        · rw [bit, decide_eq_true (by omega)]
          exact ih_start even' (by omega) (Nat.lt_succ_self i) passed.next
        · rw [bit, decide_eq_false (by omega)]
          refine ih_end even (fun p member => ?_) passed.next
          rcases mem_append.mp member with member | member
          · have := less p member
            omega
          · have : p = start ∨ p = stop := by simpa using member
            omega
    · obtain ⟨-, order, less⟩ := passed.append
      have bit := passed.bits i (Nat.lt_succ_self i)
      rw [passed.last even inside] at bit
      rw [foldRightLowStart]
      rcases inside.eq_or_lt with rfl | inside
      · rw [bit, decide_eq_false (by omega), foldRunsRight_append even]
        exact ih_end even (fun p member => by have := less p member; omega) (passed.next.drop (by omega))
      · rw [bit, decide_eq_true (by omega)]
        exact ih_start even (by omega) (by omega) passed.next

theorem skipLow_split (limit : Nat) {ilist : List Nat} (ascending : ilist.Pairwise (· < ·)) (even : ilist.length % 2 = 0) :
    ∃ before, before.length % 2 = 0 ∧ (∀ p ∈ before, p ≤ limit) ∧
      ((ilist = before ∧ skipLow limit ilist = []) ∨ ∃ start stop after, ilist = before ++ start :: stop :: after ∧
        limit < stop ∧ skipLow limit ilist = max limit start :: stop :: after) := by
  induction ilist, even using pairs_induction with
  | nil => exact ⟨[], rfl, forall_mem_nil _, .inl ⟨rfl, rfl⟩⟩
  | pair start stop rest _ ih =>
    obtain ⟨head, tail⟩ := pairwise_cons.mp ascending
    have order := head stop mem_cons_self
    rw [skipLow]
    split
    · next whole =>
      obtain ⟨before, even, below, cases⟩ := ih (pairwise_cons.mp tail).2
      refine ⟨start :: stop :: before, ?_, ?_, ?_⟩
      · rw [length_cons, length_cons]
        omega
      · exact forall_mem_cons.mpr ⟨by omega, forall_mem_cons.mpr ⟨whole, below⟩⟩
      · rcases cases with ⟨rfl, skipped⟩ | ⟨start', stop', after, rfl, above, skipped⟩
        · exact .inl ⟨rfl, skipped⟩
        · exact .inr ⟨start', stop', after, rfl, above, skipped⟩
    · next large =>
      refine ⟨[], rfl, forall_mem_nil _, .inr ⟨start, stop, rest, rfl, not_le.mp large, ?_⟩⟩
      split
      · next straddles => rw [max_eq_left straddles.le]
      · next above => rw [max_eq_right (not_lt.mp above)]

end

section
variable {β : Type} {proc : Nat → Nat → β → β} {charSet : CharSet} {ilist : List Nat} {value : β}

theorem charSetRangeFold_eq (holds : Holds charSet ilist) (proper : Proper ilist) :
    charSetRangeFold proc value charSet = foldRuns proc (runs ilist) value :=
  (foldLow_eq (lowLimit charSet.low)).1 (zero_add _) (fun p _ => Nat.zero_le p)
    ⟨proper.ascending, proper.even, fun cp _ => holds.bits cp, holds.points⟩

theorem charSetRangeFoldRight_eq (holds : Holds charSet ilist) (proper : Proper ilist) :
    charSetRangeFoldRight proc value charSet = foldRunsRight proc (runs ilist) value := by
  obtain ⟨low_end, low_start⟩ := foldRightLow_eq proc charSet.low (lowLimit charSet.low)
  have passed : Passed charSet.low (lowLimit charSet.low) ilist := ⟨proper.ascending, holds.bits⟩
  have points := holds.points
  have even := proper.even
  obtain ⟨before, even_b, below, cases⟩ := skipLow_split (lowLimit charSet.low) proper.ascending proper.even
  rw [charSetRangeFoldRight, ← length_highPoints]
  rcases cases with ⟨rfl, skipped⟩ | ⟨start, stop, after, rfl, above, skipped⟩
  · rw [points, skipped]
    exact low_end even_b below passed
  · rw [skipped] at points
    have even_a : after.length % 2 = 0 := by
      rw [length_append, length_cons, length_cons] at even
      omega
    have shorter : Passed charSet.low (lowLimit charSet.low) (before ++ [start, stop]) := by
      obtain ⟨ascending, rest, less⟩ := pairwise_append.mp proper.ascending
      obtain ⟨head, tail⟩ := pairwise_cons.mp rest
      refine ⟨proper.ascending.sublist ?_, fun cp small => ?_⟩
      · exact .append_left (by simp) before
      · have nothing : toggled cp after = false := toggled_of_lt fun p member =>
          (small.trans above).trans ((pairwise_cons.mp tail).1 p member)
        rw [holds.bits cp small, show before ++ start :: stop :: after = before ++ [start, stop] ++ after by simp,
          toggled_append, nothing, Bool.xor_false]
    rw [if_pos (by rw [points]; simp), show (highPoints charSet.high).length - 2 = after.length by rw [points]; rfl,
      foldRightHighLoop_eq even_a ⟨[], points.trans (append_nil _).symm⟩, foldRightSplice, foldRunsRight_append even_b]
    rcases le_or_gt start (lowLimit charSet.low) with inside | outside
    · rw [max_eq_left inside, if_pos rfl, low_start even_b inside above shorter, foldRunsRight_append even_b]
      rfl
    · rw [max_eq_right outside.le, if_neg outside.ne', low_end even_b below (shorter.drop outside.le)]
      rfl

theorem foldRunsRight_points (even : ilist.length % 2 = 0) :
    foldRunsRight (fun start stop ilist => start :: stop :: ilist) (runs ilist) [] = ilist := by
  induction ilist, even using pairs_induction with
  | nil => rfl
  | pair start stop rest _ ih => exact congrArg (fun ilist => start :: stop :: ilist) ih

theorem charSetToIlist_eq (holds : Holds charSet ilist) (proper : Proper ilist) : charSetToIlist charSet = ilist := by
  rw [charSetToIlist, charSetRangeFoldRight_eq holds proper, foldRunsRight_points proper.even]

/-! ### Char-sets without a bit vector

The ranges are enumerated as they are stored, also when they are empty or meet. -/

theorem charSetRangeFold_high (none : charSet.low = []) (even : (highPoints charSet.high).length % 2 = 0) :
    charSetRangeFold proc value charSet = foldRuns proc (runs (highPoints charSet.high)) value := by
  rw [charSetRangeFold, none]
  exact foldHighLoop_eq even rfl

theorem charSetRangeFoldRight_high (none : charSet.low = []) (even : (highPoints charSet.high).length % 2 = 0) :
    charSetRangeFoldRight proc value charSet = foldRunsRight proc (runs (highPoints charSet.high)) value := by
  rw [charSetRangeFoldRight, ← length_highPoints, none]
  generalize points : highPoints charSet.high = ilist at *
  rcases ilist with _ | ⟨start, _ | ⟨stop, rest⟩⟩
  · rfl
  · exact absurd even (by decide : ¬1 % 2 = 0)
  · rw [length_cons, length_cons] at even
    have whole : ∃ after, highPoints charSet.high = start :: stop :: rest ++ after :=
      ⟨[], points.trans (append_nil _).symm⟩
    rw [if_pos (by simp), show (start :: stop :: rest).length - 2 = rest.length from rfl,
      foldRightHighLoop_eq (by omega) whole, foldRightSplice]
    split
    · next zero =>
      subst zero
      rfl
    · rfl

end

end MitScheme.Runtime.CharSets
