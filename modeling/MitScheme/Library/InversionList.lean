import Mathlib.Order.MinMax
import Mathlib.Data.List.Induction

/-!
A set of a linear order as the list of the points at which membership changes: an element is a member
when an odd number of the points lie at or below it.
-/

namespace MitScheme.Library

open List

section
variable {α : Type*} [LinearOrder α] {x p s e : α} {ps qs : List α}

/-- An odd number of the points lie at or below `x`. -/
def toggled (x : α) : List α → Bool
  | [] => false
  | p :: ps => xor (decide (p ≤ x)) (toggled x ps)

@[simp] theorem toggled_nil : toggled x [] = false := rfl

theorem toggled_cons : toggled x (p :: ps) = xor (decide (p ≤ x)) (toggled x ps) := rfl

theorem toggled_append : toggled x (ps ++ qs) = xor (toggled x ps) (toggled x qs) := by
  induction ps with
  | nil => rw [nil_append, toggled_nil, Bool.false_xor]
  | cons p ps ih => rw [cons_append, toggled_cons, ih, toggled_cons, Bool.xor_assoc]

theorem toggled_of_lt (above : ∀ p ∈ ps, x < p) : toggled x ps = false := by
  induction ps with
  | nil => rfl
  | cons p ps ih =>
    obtain ⟨head, rest⟩ := forall_mem_cons.mp above
    rw [toggled_cons, ih rest, decide_eq_false head.not_ge]
    rfl

theorem toggled_of_le (below : ∀ p ∈ ps, p ≤ x) : toggled x ps = decide (ps.length % 2 = 1) := by
  induction ps with
  | nil => rfl
  | cons p ps ih =>
    obtain ⟨head, rest⟩ := forall_mem_cons.mp below
    rw [toggled_cons, ih rest, decide_eq_true head, length_cons]
    rcases Nat.mod_two_eq_zero_or_one ps.length with even | odd
    · rw [show (ps.length + 1) % 2 = 1 by omega, even]
      rfl
    · rw [show (ps.length + 1) % 2 = 0 by omega, odd]
      rfl

theorem toggled_eq_countP : toggled x ps = decide (ps.countP (· ≤ x) % 2 = 1) := by
  induction ps with
  | nil => rfl
  | cons p ps ih =>
    rw [toggled_cons]
    rcases Nat.mod_two_eq_zero_or_one (ps.countP (· ≤ x)) with even | odd <;> by_cases below : p ≤ x <;>
      simp [*, Nat.add_mod]

theorem toggled_reverse : toggled x ps.reverse = toggled x ps := by
  induction ps with
  | nil => rfl
  | cons p ps ih => rw [reverse_cons, toggled_append, ih, Bool.xor_comm, toggled_cons, toggled_cons, toggled_nil, Bool.xor_false]

theorem toggled_of_split {k : ℕ} (below : ∀ p ∈ ps.take k, p ≤ x) (above : ∀ p ∈ ps.drop k, x < p) (short : k ≤ ps.length) :
    toggled x ps = decide (k % 2 = 1) := by
  conv_lhs => rw [← take_append_drop k ps]
  rw [toggled_append, toggled_of_le below, toggled_of_lt above, Bool.xor_false, length_take_of_le short]

theorem toggled_of_index {k : ℕ} (short : k ≤ ps.length) (below : ∀ i, ∀ inside : i < ps.length, i < k → ps[i] ≤ x)
    (above : ∀ i, ∀ inside : i < ps.length, k ≤ i → x < ps[i]) : toggled x ps = decide (k % 2 = 1) := by
  refine toggled_of_split (fun p member => ?_) (fun p member => ?_) short
  · obtain ⟨i, inside, rfl⟩ := mem_iff_getElem.mp member
    rw [length_take] at inside
    rw [getElem_take]
    exact below i (by omega) (by omega)
  · obtain ⟨i, inside, rfl⟩ := mem_iff_getElem.mp member
    rw [length_drop] at inside
    rw [getElem_drop]
    exact above (k + i) (by omega) (by omega)

theorem toggled_interval (ascending : (s :: e :: ps).Pairwise (· ≤ ·)) :
    toggled x (s :: e :: ps) = (decide (s ≤ x ∧ x < e) || toggled x ps) := by
  obtain ⟨head, tail⟩ := pairwise_cons.mp ascending
  have order : s ≤ e := head e mem_cons_self
  rw [toggled_cons, toggled_cons]
  by_cases inside : x < e
  · have nothing : toggled x ps = false := toggled_of_lt fun p member =>
      inside.trans_le ((pairwise_cons.mp tail).1 p member)
    simp [nothing, inside, inside.not_ge]
  · have right := not_lt.mp inside
    simp [right, order.trans right]

theorem toggled_head (ascending : (p :: ps).Pairwise (· < ·)) : toggled p (p :: ps) = true := by
  have nothing : toggled p ps = false := toggled_of_lt (pairwise_cons.mp ascending).1
  rw [toggled_cons, nothing, decide_eq_true le_rfl]
  rfl

theorem toggled_ext (ascending : ps.Pairwise (· < ·)) (ascending' : qs.Pairwise (· < ·))
    (same : ∀ x, toggled x ps = toggled x qs) : ps = qs := by
  induction ps generalizing qs with
  | nil =>
    cases qs with
    | nil => rfl
    | cons q qs =>
      have member := same q
      rw [toggled_head ascending'] at member
      contradiction
  | cons p ps ih =>
    cases qs with
    | nil =>
      have member := same p
      rw [toggled_head ascending] at member
      contradiction
    | cons q qs =>
      have outside {a b : α} {as bs : List α} (less : a < b) (above : (b :: bs).Pairwise (· < ·))
          (start : (a :: as).Pairwise (· < ·)) : toggled a (a :: as) ≠ toggled a (b :: bs) := by
        have nothing : toggled a (b :: bs) = false :=
          toggled_of_lt (forall_mem_cons.mpr ⟨less, fun c member => less.trans ((pairwise_cons.mp above).1 c member)⟩)
        rw [toggled_head start, nothing]
        decide
      rcases lt_trichotomy p q with less | equal | greater
      · exact absurd (same p) (outside less ascending' ascending)
      · subst equal
        rw [ih (pairwise_cons.mp ascending).2 (pairwise_cons.mp ascending').2 fun x => by
          have here := same x
          exact Bool.xor_right_inj.mp here]
      · exact absurd (same q).symm (outside greater ascending ascending')

omit [LinearOrder α] in
theorem pairs_induction {motive : (ps : List α) → ps.length % 2 = 0 → Prop} (nil : motive [] rfl)
    (pair : ∀ s e rest even, motive rest even → motive (s :: e :: rest) (by rw [List.length_cons, List.length_cons]; omega)) :
    ∀ (ps : List α) (even : ps.length % 2 = 0), motive ps even
  | [], _ => nil
  | [_], odd => absurd odd (by decide : ¬1 % 2 = 0)
  | s :: e :: rest, even => pair s e rest (by rw [List.length_cons, List.length_cons] at even; omega)
      (pairs_induction nil pair rest _)

omit [LinearOrder α] in
theorem pairs_last (even : ps.length % 2 = 0) (nonempty : ps ≠ []) :
    ∃ before s e, ps = before ++ [s, e] ∧ before.length % 2 = 0 := by
  induction ps, even using pairs_induction with
  | nil => exact absurd rfl nonempty
  | pair s e rest _ ih =>
    by_cases last : rest = []
    · exact ⟨[], s, e, by rw [last]; rfl, rfl⟩
    · obtain ⟨before, s', e', rfl, even⟩ := ih last
      refine ⟨s :: e :: before, s', e', rfl, ?_⟩
      rw [List.length_cons, List.length_cons]
      omega

def runs : List α → List (α × α)
  | s :: e :: rest => (s, e) :: runs rest
  | _ => []

omit [LinearOrder α] in
@[simp] theorem runs_cons : runs (s :: e :: ps) = (s, e) :: runs ps := rfl

omit [LinearOrder α] in
theorem runs_append (even : ps.length % 2 = 0) : runs (ps ++ qs) = runs ps ++ runs qs := by
  induction ps, even using pairs_induction with
  | nil => rfl
  | pair s e rest _ ih => rw [List.cons_append, List.cons_append, runs_cons, runs_cons, ih, List.cons_append]

omit [LinearOrder α] in
theorem runs_split {r : α × α} (member : r ∈ runs ps) :
    ∃ before after, ps = before ++ r.1 :: r.2 :: after ∧ before.length % 2 = 0 := by
  induction ps using List.twoStepInduction with
  | nil => exact absurd member List.not_mem_nil
  | singleton p => exact absurd member List.not_mem_nil
  | cons_cons s e rest ih _ =>
    rcases List.mem_cons.mp member with rfl | member
    · exact ⟨[], rest, rfl, rfl⟩
    · obtain ⟨before, after, rfl, even⟩ := ih member
      refine ⟨s :: e :: before, after, rfl, ?_⟩
      rw [List.length_cons, List.length_cons]
      omega

theorem toggled_iff_runs (ascending : ps.Pairwise (· ≤ ·)) (even : ps.length % 2 = 0) :
    toggled x ps = true ↔ ∃ r ∈ runs ps, r.1 ≤ x ∧ x < r.2 := by
  induction ps, even using pairs_induction with
  | nil => simp [runs]
  | pair s e rest _ ih =>
    have tail := (pairwise_cons.mp (pairwise_cons.mp ascending).2).2
    rw [toggled_interval ascending, Bool.or_eq_true, ih tail]
    simp

/-- An interval of members that no larger one contains. -/
structure MaximalRun (member : α → Prop) (s e : α) : Prop where
  nonempty : s < e
  members : ∀ x, s ≤ x → x < e → member x
  maximal : ∀ s' ≤ s, ∀ e', e ≤ e' → (∀ x, s' ≤ x → x < e' → member x) → s' = s ∧ e' = e

theorem exists_above (room : p < x) (below : ∀ q ∈ qs, q < x) : ∃ y, p ≤ y ∧ y < x ∧ ∀ q ∈ qs, q ≤ y := by
  induction qs with
  | nil => exact ⟨p, le_rfl, room, forall_mem_nil _⟩
  | cons q qs ih =>
    obtain ⟨head, rest⟩ := forall_mem_cons.mp below
    obtain ⟨y, low, high, above⟩ := ih rest
    refine ⟨max q y, low.trans (le_max_right _ _), max_lt head high, ?_⟩
    exact forall_mem_cons.mpr ⟨le_max_left _ _, fun r member => (above r member).trans (le_max_right _ _)⟩

theorem maximalRun_of_mem {r : α × α} (ascending : ps.Pairwise (· < ·)) (member : r ∈ runs ps) :
    MaximalRun (fun x => toggled x ps = true) r.1 r.2 := by
  obtain ⟨before, after, rfl, even⟩ := runs_split member
  obtain ⟨s, e⟩ := r
  obtain ⟨-, tail, below⟩ := pairwise_append.mp ascending
  obtain ⟨head, tail'⟩ := pairwise_cons.mp tail
  have above := (pairwise_cons.mp tail').1
  have order : s < e := head e mem_cons_self
  have below_s : ∀ p ∈ before, p < s := fun p member => below p member s mem_cons_self
  have reads {x : α} (left : ∀ p ∈ before, p ≤ x) :
      toggled x (before ++ s :: e :: after) = toggled x (s :: e :: after) := by
    rw [toggled_append, toggled_of_le left, even, decide_eq_false (by decide), Bool.false_xor]
  refine ⟨order, fun x low high => ?_, fun s' low e' high all => ?_⟩
  · rw [reads fun p member => ((below_s p member).trans_le low).le, toggled_cons, toggled_cons,
      toggled_of_lt fun p member => high.trans (above p member), decide_eq_true low, decide_eq_false high.not_ge]
    rfl
  · constructor
    · by_contra different
      have less : s' < s := lt_of_le_of_ne low different
      obtain ⟨y, low_y, high_y, above_y⟩ := exists_above less below_s
      have outside : toggled y (before ++ s :: e :: after) = false := by
        rw [reads above_y]
        exact toggled_of_lt (forall_mem_cons.mpr ⟨high_y, fun p member => high_y.trans (head p member)⟩)
      have inside := all y low_y (high_y.trans (order.trans_le high))
      rw [outside] at inside
      contradiction
    · by_contra different
      have less : e < e' := lt_of_le_of_ne high (.symm different)
      have outside : toggled e (before ++ s :: e :: after) = false := by
        rw [reads fun p member => ((below_s p member).trans order).le, toggled_cons, toggled_cons,
          toggled_of_lt above, decide_eq_true order.le, decide_eq_true le_rfl]
        rfl
      have inside := all e (low.trans order.le) less
      rw [outside] at inside
      contradiction

theorem mem_runs_iff (ascending : ps.Pairwise (· < ·)) (even : ps.length % 2 = 0) :
    (s, e) ∈ runs ps ↔ MaximalRun (fun x => toggled x ps = true) s e := by
  refine ⟨maximalRun_of_mem ascending, fun run => ?_⟩
  have weakly : ps.Pairwise (· ≤ ·) := ascending.imp le_of_lt
  obtain ⟨⟨a, b⟩, member, low, high⟩ := (toggled_iff_runs weakly even).mp (run.members s le_rfl run.nonempty)
  have found := maximalRun_of_mem ascending member
  have small : e ≤ b := by
    have grown := (found.maximal a le_rfl (max b e) (le_max_left _ _) fun x left right => by
      rcases lt_or_ge x b with inside | outside
      · exact found.members x left inside
      · exact run.members x (high.le.trans outside) ((lt_max_iff.mp right).resolve_left outside.not_gt)).2
    exact (le_max_right b e).trans grown.le
  obtain ⟨rfl, rfl⟩ := run.maximal a low b small found.members
  exact member

theorem runs_ascending (ascending : ps.Pairwise (· < ·)) : (runs ps).Pairwise fun r r' => r.1 < r'.1 := by
  induction ps using twoStepInduction with
  | nil => exact .nil
  | singleton p => exact .nil
  | cons_cons s e rest ih _ =>
    obtain ⟨head, tail⟩ := pairwise_cons.mp ascending
    refine pairwise_cons.mpr ⟨fun r member => ?_, ih (pairwise_cons.mp tail).2⟩
    obtain ⟨before, after, rfl, -⟩ := runs_split member
    exact head _ (mem_cons_of_mem _ (mem_append_right _ mem_cons_self))

end

end MitScheme.Library
