import MitScheme.Runtime.Sorting.QuickSort

/-!
The vector and its copy change parts at each level of the recursion; a call returns both of them. Both
sorts are called with the same order and the same key procedure.
-/

namespace MitScheme.Runtime.Sorting

open Library List Option

section
variable {α κ : Type} (predicate : κ → κ → Bool) (key : α → κ)

/-- Whether the element at `p1` is the next one of the two halves. -/
def firstNext (temp : List α) (middle high p1 p2 : ℤ) : Option Bool :=
  if p1 < middle then
    if p2 = high then some true
    else do return !predicate (key (← vectorRef temp p2)) (key (← vectorRef temp p1))
  else some false

def mergeLoop (temp : List α) (middle high : ℤ) : (fuel : ℕ) → List α → ℤ → ℤ → ℤ → Option (List α)
  | 0, _, _, _, _ => none
  | fuel + 1, v, p, p1, p2 =>
    if p < high then do
      if ← firstNext predicate key temp middle high p1 p2 then do
        let v ← vectorSet v p (← vectorRef temp p1)
        mergeLoop temp middle high fuel v (p + 1) (p1 + 1) p2
      else do
        let v ← vectorSet v p (← vectorRef temp p2)
        mergeLoop temp middle high fuel v (p + 1) p1 (p2 + 1)
    else some v

def sortSubvector : (fuel : ℕ) → List α → List α → ℤ → ℤ → Option (List α × List α)
  | 0, _, _, _, _ => none
  | fuel + 1, v, temp, low, high =>
    if high - low > 1 then do
      let middle := (low + high).tdiv 2
      let (temp, v) ← sortSubvector fuel temp v low middle
      let (temp, v) ← sortSubvector fuel temp v middle high
      let v ← mergeLoop predicate key temp middle high fuel v low low middle
      return (v, temp)
    else some (v, temp)

/-- `merge-sort!` -/
def mergeSortBang (fuel : ℕ) : Sequence α → Option (List α)
  | .vector v => (sortSubvector predicate key fuel v v 0 v.length).map Prod.fst
  | .list _ => none

def mergeSort (fuel : ℕ) : Sequence α → Option (Sequence α)
  | .vector v => (mergeSortBang predicate key fuel (.vector v)).map .vector
  | .list xs => (mergeSortBang predicate key fuel (.vector xs)).map .list

end

section
variable {α κ : Type} {predicate : κ → κ → Bool} {key : α → κ} {v temp : List α} {p p1 p2 low middle high fuel : ℕ}

/-- The element of the first half is taken unless the one of the second half goes before it. -/
def notBehind (predicate : κ → κ → Bool) (key : α → κ) (x y : α) : Bool := !predicate (key y) (key x)

theorem set_take_append {x : α} {rest : List α} (inside : p < high) (bound : p < v.length) :
    (v.set p x).take (p + 1) ++ rest ++ (v.set p x).drop high = v.take p ++ x :: rest ++ v.drop high := by
  have front : (v.set p x).take (p + 1) = v.take p ++ [x] := by
    rw [take_add_one, getElem?_set_self bound, take_set_of_le (le_refl p)]
    rfl
  rw [front, drop_set_of_lt inside]
  simp

theorem firstNext_cases (bounds : p1 ≤ middle ∧ middle ≤ p2 ∧ p2 ≤ high) (more : p1 < middle ∨ p2 < high)
    (size : high ≤ temp.length) :
    (∃ x, firstNext predicate key temp middle high p1 p2 = some true ∧ p1 < middle ∧ temp[p1]? = some x ∧
        (segment p1 middle temp).merge (segment p2 high temp) (notBehind predicate key) =
          x :: (segment (p1 + 1) middle temp).merge (segment p2 high temp) (notBehind predicate key)) ∨
      ∃ y, firstNext predicate key temp middle high p1 p2 = some false ∧ p2 < high ∧ temp[p2]? = some y ∧
        (segment p1 middle temp).merge (segment p2 high temp) (notBehind predicate key) =
          y :: (segment p1 middle temp).merge (segment (p2 + 1) high temp) (notBehind predicate key) := by
  rw [firstNext]
  by_cases first : p1 < middle
  · have at_p1 : temp[p1]? = some temp[p1] := getElem?_eq_getElem (by omega)
    rw [if_pos (by omega), segment_cons first at_p1]
    by_cases second : p2 = high
    · refine .inl ⟨_, if_pos (by omega), first, at_p1, ?_⟩
      rw [@segment_empty _ p2 _ _ (by omega), merge_right, merge_right]
    · have at_p2 : temp[p2]? = some temp[p2] := getElem?_eq_getElem (by omega)
      rw [if_neg (by omega), segment_cons (by omega) at_p2]
      by_cases before : predicate (key temp[p2]) (key temp[p1])
      · refine .inr ⟨_, by simp [at_p1, at_p2, before], by omega, at_p2, ?_⟩
        rw [cons_merge_cons_neg _ _ _ (by simp [notBehind, before])]
      · refine .inl ⟨_, by simp [at_p1, at_p2, before], first, at_p1, ?_⟩
        rw [cons_merge_cons_pos _ _ _ (by simp [notBehind, before])]
  · have at_p2 : temp[p2]? = some temp[p2] := getElem?_eq_getElem (by omega)
    rw [if_neg (by omega), segment_empty (by omega), segment_cons (by omega) at_p2, nil_merge, nil_merge]
    exact .inr ⟨_, rfl, by omega, at_p2, rfl⟩

theorem mergeLoop_spec (bounds : p1 ≤ middle ∧ middle ≤ p2 ∧ p2 ≤ high) (left : high - p = (middle - p1) + (high - p2))
    (ordered : p ≤ high) (size : high ≤ temp.length) (size' : v.length = temp.length) (enough : high - p < fuel) :
    mergeLoop predicate key temp middle high fuel v p p1 p2 = some (v.take p ++
      (segment p1 middle temp).merge (segment p2 high temp) (notBehind predicate key) ++ v.drop high) := by
  induction fuel generalizing v p p1 p2 with
  | zero => omega
  | succ fuel ih =>
    rw [mergeLoop]
    by_cases finished : p = high
    · subst finished
      rw [if_neg (by omega), segment_empty (by omega), segment_empty (by omega), merge_right, append_nil,
        take_append_drop]
    rw [if_pos (by omega)]
    have next : ((p + 1 : ℕ) : ℤ) = p + 1 := by omega
    have next1 : ((p1 + 1 : ℕ) : ℤ) = p1 + 1 := by omega
    have next2 : ((p2 + 1 : ℕ) : ℤ) = p2 + 1 := by omega
    rcases @firstNext_cases _ _ predicate key _ _ _ _ _ bounds (by omega) size with
      ⟨x, first, inside, here, merged⟩ | ⟨y, first, inside, here, merged⟩
    · rw [first, vectorRef_natCast, here, merged]
      simp only [bind_eq_bind, bind_some, if_true]
      rw [vectorSet_natCast (by omega), bind_some, ← next, ← next1,
        ih (by omega) (by omega) (by omega) (by simpa using size') (by omega), set_take_append (by omega) (by omega)]
    · rw [first, vectorRef_natCast, vectorRef_natCast, here, merged]
      simp only [bind_eq_bind, bind_some, Bool.false_eq_true, if_false]
      rw [vectorSet_natCast (by omega), bind_some, ← next, ← next2,
        ih (by omega) (by omega) (by omega) (by simpa using size') (by omega), set_take_append (by omega) (by omega)]

theorem pairwise_inOrder {xs : List α} : xs.Pairwise (InOrder predicate key) ↔ xs.Pairwise (notBehind predicate key · ·) := by
  have same : ∀ x y, InOrder predicate key x y ↔ notBehind predicate key x y := fun x y => by simp [InOrder, notBehind]
  exact Pairwise.iff same

section
variable [IsStrictWeakOrder κ fun a b => predicate a b]

theorem notBehind_total (x y : α) : notBehind predicate key x y || notBehind predicate key y x := by
  by_cases before : predicate (key y) (key x)
  · have after : ¬predicate (key x) (key y) := @inOrder_of_less _ _ predicate key _ _ _ before
    simp [notBehind, after]
  · simp [notBehind, before]

theorem notBehind_trans (x y z : α) (first : notBehind predicate key x y) (second : notBehind predicate key y z) :
    notBehind predicate key x z := by
  simp only [notBehind, Bool.not_eq_true', Bool.eq_false_iff] at first second ⊢
  intro less
  have trans : ∀ {a b c : κ}, predicate a b → predicate b c → predicate a c := trans_of (fun a b => predicate a b)
  exact (@IsStrictWeakOrder.incomp_trans _ (fun a b => predicate a b) _ (key x) (key y) (key z)
    ⟨fun before => second (trans less before), first⟩ ⟨fun before => first (trans before less), second⟩).2 less

/-- Of two vectors with the same elements in the segment, the first one gets them in order; in the second one only the
segment changes. -/
theorem sortSubvector_spec (ordered : low ≤ high) (size : high ≤ v.length) (size' : temp.length = v.length)
    (same : ∀ k, low ≤ k → k < high → temp[k]? = v[k]?) (enough : high - low + 1 < fuel) :
    ∃ v' temp', sortSubvector predicate key fuel v temp low high = some (v', temp') ∧ Rearranged low high v v' ∧
      (segment low high v').Pairwise (InOrder predicate key) ∧ temp'.length = temp.length ∧
      ∀ k, k < low ∨ high ≤ k → temp'[k]? = temp[k]? := by
  induction fuel generalizing v temp low high with
  | zero => omega
  | succ fuel ih =>
    rw [sortSubvector]
    by_cases short : high ≤ low + 1
    · refine ⟨v, temp, if_neg (by omega), .refl low high v, ?_, rfl, fun _ _ => rfl⟩
      have length : (segment low high v).length ≤ 1 := by
        simp [Library.segment]
        omega
      generalize segment low high v = xs at length ⊢
      rcases xs with _ | ⟨x, _ | _⟩
      · exact .nil
      · exact pairwise_singleton _ x
      · simp at length
    · rw [if_pos (by omega)]
      obtain ⟨middle, halved, inside⟩ : ∃ m : ℕ, ((low : ℤ) + high).tdiv 2 = m ∧ low < m ∧ m < high := by
        refine ⟨(low + high) / 2, ?_, by omega, by omega⟩
        rw [Int.tdiv_eq_ediv_of_nonneg (by omega)]
        omega
      obtain ⟨temp₁, v₁, sorted₁, moved₁, ordered₁, length₁, outside₁⟩ := @ih temp v low middle
        (by omega) (by omega) size'.symm (fun k above below => (same k above (by omega)).symm) (by omega)
      obtain ⟨temp₂, v₂, sorted₂, moved₂, ordered₂, length₂, outside₂⟩ := @ih temp₁ v₁ middle high
        (by omega) (by have := moved₁.length; omega) (by have := moved₁.length; omega)
        (fun k above below => by
          rw [outside₁ k (by omega), moved₁.outside k (by omega), same k (by omega) below])
        (by omega)
      have moved : Rearranged low high temp temp₂ := (moved₁.mono le_rfl (by omega)).trans (moved₂.mono (by omega) le_rfl)
      rw [halved]
      simp only [bind_eq_bind]
      rw [sorted₁, bind_some]
      rw [sorted₂, bind_some]
      dsimp only
      rw [mergeLoop_spec (by omega) (by omega) ordered (by rw [moved.length]; omega) (by have := moved.length; omega) (by omega)]
      have front : v₂.take low = v.take low := take_congr fun k below => by rw [outside₂ k (by omega), outside₁ k (by omega)]
      have back : v₂.drop high = v.drop high := drop_congr fun k beyond => by rw [outside₂ k (by omega), outside₁ k (by omega)]
      rw [front, back]
      have left : segment low middle temp₂ = segment low middle temp₁ :=
        segment_congr fun k _ below => moved₂.outside k (.inl below)
      have perm : ((segment low middle temp₂).merge (segment middle high temp₂) (notBehind predicate key)).Perm
          (segment low high v) := by
        have halves := @merge_perm_append _ (notBehind predicate key) (segment low middle temp₂) (segment middle high temp₂)
        rw [segment_append (by omega) (by omega)] at halves
        exact halves.trans (segment_congr same ▸ moved.segment)
      have size₃ : (segment low high v).length = high - low := by
        simp [Library.segment]
        omega
      refine ⟨_, temp₂, rfl, rearranged_of_segment ordered size perm, ?_, moved.length, moved.outside⟩
      rw [segment_between (by simp; omega) (perm.length_eq.trans size₃) ordered, pairwise_inOrder]
      apply pairwise_merge notBehind_trans notBehind_total
      · rw [left]
        exact pairwise_inOrder.mp ordered₁
      · exact pairwise_inOrder.mp ordered₂

theorem mergeSortBang_spec (enough : v.length + 1 < fuel) :
    ∃ w, mergeSortBang predicate key fuel (.vector v) = some w ∧ w.Perm v ∧ w.Pairwise (InOrder predicate key) := by
  obtain ⟨w, temp, sorted, rearranged, ordered, -, -⟩ := @sortSubvector_spec _ _ predicate key v v 0 v.length fuel _
    (Nat.zero_le _) le_rfl rfl (fun _ _ _ => rfl) enough
  refine ⟨w, by exact congrArg (Option.map Prod.fst) sorted, rearranged.perm, ?_⟩
  have whole : segment 0 v.length w = w := by
    rw [Library.segment, drop_zero, ← rearranged.length, take_length]
  rwa [whole] at ordered

end

end

section
variable {α κ : Type} {predicate : κ → κ → Bool} {key : α → κ} {v w w' : List α} {fuel : ℕ}

theorem keys_unique (total : ∀ a b, ¬predicate a b → ¬predicate b a → a = b) (perm : w.Perm w')
    (ordered : w.Pairwise (InOrder predicate key)) (ordered' : w'.Pairwise (InOrder predicate key)) :
    w.map key = w'.map key := by
  have keys : ∀ {xs : List α}, xs.Pairwise (InOrder predicate key) → (xs.map key).Pairwise fun a b => ¬predicate b a :=
    fun pairwise => pairwise_map.mpr pairwise
  exact Perm.eq_of_pairwise (fun a b _ _ later earlier => total a b earlier later) (keys ordered) (keys ordered')
    (perm.map key)

def DistinctKeys (key : α → κ) (v : List α) : Prop := ∀ x ∈ v, ∀ y ∈ v, key x = key y → x = y

theorem elements_unique (total : ∀ a b, ¬predicate a b → ¬predicate b a → a = b) (distinct : DistinctKeys key v)
    (perm : w.Perm v) (perm' : w'.Perm v) (ordered : w.Pairwise (InOrder predicate key))
    (ordered' : w'.Pairwise (InOrder predicate key)) : w = w' := by
  refine Perm.eq_of_pairwise ?_ ordered ordered' (perm.trans perm'.symm)
  intro x y member member' later earlier
  exact distinct x (perm.mem_iff.mp member) y (perm'.mem_iff.mp member') (total _ _ earlier later)

/-- Quick sort sorts, and merge sort comes to the same result where the keys decide it. -/
theorem quickSort_sorts [IsStrictWeakOrder κ fun a b => predicate a b] (enough : v.length + 1 < fuel) :
    ∃ w, quickSortBang predicate key fuel (.vector v) = some w ∧ w.Perm v ∧ w.Pairwise (InOrder predicate key) ∧
      ((∀ a b, ¬predicate a b → ¬predicate b a → a = b) →
        (∃ w', mergeSortBang predicate key fuel (.vector v) = some w' ∧ w.map key = w'.map key) ∧
        (DistinctKeys key v → ∀ object : Sequence α, object.elements = v →
          quickSort predicate key fuel object = mergeSort predicate key fuel object)) := by
  obtain ⟨w, sorted, perm, ordered⟩ := @quickSortBang_spec _ _ predicate key v fuel _ (by omega)
  obtain ⟨w', sorted', perm', ordered'⟩ := @mergeSortBang_spec _ _ predicate key v fuel _ enough
  refine ⟨w, sorted, perm, ordered, fun total => ?_⟩
  have keys := keys_unique total (perm.trans perm'.symm) ordered ordered'
  refine ⟨⟨w', sorted', keys⟩, fun distinct object elements => ?_⟩
  have same := elements_unique total distinct perm perm' ordered ordered'
  subst elements same
  cases object with
  | vector v => rw [quickSort]; exact congrArg _ (sorted.trans sorted'.symm)
  | list xs => rw [quickSort]; exact congrArg _ (sorted.trans sorted'.symm)

end

instance natLess : IsStrictWeakOrder ℕ fun a b => decide (a < b) where
  irrefl a := by simp
  trans a b c := by simpa using Nat.lt_trans
  incomp_trans a b c := by
    simp only [decide_eq_true_eq]
    omega

theorem quickSort_sorts_four :
    ∃ w, quickSortBang (fun a b => decide (a < b)) (· / 2) 6 (.vector [7, 2, 5, 3]) = some w ∧ w.Perm [7, 2, 5, 3] ∧
      w.Pairwise (InOrder (fun a b => decide (a < b)) (· / 2)) ∧
      ((∀ a b : ℕ, ¬decide (a < b) → ¬decide (b < a) → a = b) →
        (∃ w', mergeSortBang (fun a b => decide (a < b)) (· / 2) 6 (.vector [7, 2, 5, 3]) = some w' ∧
          w.map (· / 2) = w'.map (· / 2)) ∧
        (DistinctKeys (· / 2) [7, 2, 5, 3] → ∀ object : Sequence ℕ, object.elements = [7, 2, 5, 3] →
          quickSort (fun a b => decide (a < b)) (· / 2) 6 object = mergeSort (fun a b => decide (a < b)) (· / 2) 6 object)) :=
  quickSort_sorts (by decide)

theorem quickSort_not_stable : (∀ a b : ℕ, ¬decide (a < b) → ¬decide (b < a) → a = b) ∧
    quickSort (fun a b : ℕ => decide (a < b)) Prod.fst 5 (.vector [(2, 0), (1, 0), (1, 1)]) =
    some (.vector [(1, 1), (1, 0), (2, 0)]) ∧
    mergeSort (fun a b : ℕ => decide (a < b)) Prod.fst 5 (.vector [(2, 0), (1, 0), (1, 1)]) =
    some (.vector [(1, 0), (1, 1), (2, 0)]) := by
  refine ⟨?_, by decide, by decide⟩
  simp only [decide_eq_true_eq]
  omega

end MitScheme.Runtime.Sorting
