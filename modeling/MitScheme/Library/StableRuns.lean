import Mathlib.Data.List.Perm.Basic
import Mathlib.Order.Lattice

/-!
A list is divided into runs by elements that are fixed; each run is sorted by a key, and elements of
one key keep their order.
-/

namespace MitScheme.Library

open List

variable {α κ : Type*} [LinearOrder κ] {key : α → κ} {fixed : α → Prop} {xs ys low high : List α} {a : α}

/-- The second list is the first one sorted, and for each key it has the same elements in the same
order. -/
structure StablySorted (key : α → κ) (xs ys : List α) : Prop where
  sorted : ys.Pairwise fun a b => key a ≤ key b
  stable : ∀ k, ys.filter (fun a => key a = k) = xs.filter fun a => key a = k

theorem stablySorted_nil : StablySorted key [] [] := ⟨.nil, fun _ => rfl⟩

theorem StablySorted.perm (sorts : StablySorted key xs ys) : ys.Perm xs := by
  classical
  rw [perm_iff_count]
  intro a
  have count : ∀ zs : List α, zs.count a = (zs.filter fun b => key b = key a).count a := fun zs =>
    (count_filter (by simp)).symm
  rw [count ys, count xs, sorts.stable]

theorem StablySorted.insert (sorts : StablySorted key xs (low ++ high)) (small : ∀ b ∈ low, key b ≤ key a)
    (large : ∀ b ∈ high, key a < key b) : StablySorted key (xs ++ [a]) (low ++ a :: high) := by
  obtain ⟨sorted_low, sorted_high, between⟩ := pairwise_append.mp sorts.sorted
  constructor
  · rw [pairwise_append, pairwise_cons]
    refine ⟨sorted_low, ⟨fun b member => (large b member).le, sorted_high⟩, ?_⟩
    intro b member_b c member_c
    rcases mem_cons.mp member_c with rfl | member_c
    · exact small b member_b
    · exact between b member_b c member_c
  · intro k
    have same := sorts.stable k
    rw [filter_append] at same
    rw [filter_append, filter_append, ← same]
    by_cases here : key a = k
    · -- no greater element has the key of the new one
      have none : high.filter (fun b => key b = k) = [] := by
        apply filter_eq_nil_iff.mpr
        intro b member equal
        have greater := large b member
        rw [of_decide_eq_true equal, here] at greater
        exact lt_irrefl k greater
      simp [here, none]
    · simp [here]

/-- Each maximal run of elements that are not fixed is sorted. -/
inductive RunsSorted (fixed : α → Prop) (key : α → κ) : List α → List α → Prop where
  | last {run out : List α} (loose : ∀ a ∈ run, ¬fixed a) (sorts : StablySorted key run out) :
    RunsSorted fixed key run out
  | next {run out rest out' : List α} {a : α} (loose : ∀ a ∈ run, ¬fixed a) (sorts : StablySorted key run out)
    (here : fixed a) (runs : RunsSorted fixed key rest out') :
    RunsSorted fixed key (run ++ a :: rest) (out ++ a :: out')

theorem RunsSorted.perm (runs : RunsSorted fixed key xs ys) : ys.Perm xs := by
  induction runs with
  | last loose sorts => exact sorts.perm
  | next loose sorts here runs ih => exact sorts.perm.append (ih.cons _)

theorem RunsSorted.getElem? (runs : RunsSorted fixed key xs ys) (here : fixed a) (i : Nat) :
    ys[i]? = some a ↔ xs[i]? = some a := by
  have absent : ∀ {run : List α} {j : Nat}, (∀ b ∈ run, ¬fixed b) → run[j]? ≠ some a := fun loose found =>
    loose a (mem_of_getElem? found) here
  induction runs generalizing i with
  | last loose sorts =>
    have loose' := fun b member => loose b (sorts.perm.mem_iff.mp member)
    exact iff_of_false (absent loose') (absent loose)
  | @next run out rest out' b loose sorts fixed_b runs ih =>
    have loose' := fun b member => loose b (sorts.perm.mem_iff.mp member)
    have length := sorts.perm.length_eq
    by_cases inside : i < run.length
    · rw [getElem?_append_left (by omega), getElem?_append_left inside]
      exact iff_of_false (absent loose') (absent loose)
    · rw [getElem?_append_right (by omega), getElem?_append_right (by omega), length]
      cases i - run.length with
      | zero => rfl
      | succ j =>
        exact ih j

end MitScheme.Library
