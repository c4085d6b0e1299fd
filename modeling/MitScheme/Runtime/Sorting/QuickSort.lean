import MitScheme.Library.Rearrangement
import Mathlib.Data.Int.Basic

/-!
Indices of a vector are fixnums. A reference or an assignment outside of the vector signals an error. The
loops take fuel; `none` is an error or the end of the fuel.
-/

namespace MitScheme.Runtime.Sorting

section
open Library Option

/-- What the sorting procedures take: `(vector? object)` tells the two apart. -/
inductive Sequence (α : Type) where
  | vector (elements : List α)
  | list (elements : List α)
  deriving DecidableEq, Repr

def Sequence.elements {α : Type} : Sequence α → List α
  | .vector elements => elements
  | .list elements => elements

section
variable {α : Type} {v : List α} {i j n : ℕ} {x y : α} {low high : ℕ}

def vectorRef (v : List α) (i : ℤ) : Option α := if 0 ≤ i then v[i.toNat]? else none

def vectorSet (v : List α) (i : ℤ) (x : α) : Option (List α) :=
  if 0 ≤ i ∧ i < v.length then some (v.set i.toNat x) else none

def exchange (v : List α) (i j : ℤ) : Option (List α) := do
  let ithElement ← vectorRef v i
  let v' ← vectorSet v i (← vectorRef v j)
  vectorSet v' j ithElement

@[simp] theorem vectorRef_natCast : vectorRef v i = v[i]? := by simp [vectorRef]

theorem vectorSet_natCast (bound : i < v.length) : vectorSet v i x = some (v.set i x) := by
  rw [vectorSet, if_pos (by omega), Int.toNat_natCast]

theorem exchange_spec (left : v[i]? = some x) (right : v[j]? = some y) :
    exchange v i j = some ((v.set i y).set j x) := by
  have bound := (getElem?_eq_some_iff.mp left).1
  have bound' := (getElem?_eq_some_iff.mp right).1
  have length : j < (v.set i y).length := by rwa [List.length_set]
  simp [exchange, left, right, vectorSet_natCast bound, vectorSet_natCast length]

end

end

open Library

section
variable {α κ : Type} (predicate : κ → κ → Bool) (key : α → κ)

def increaseI (v : List α) (lthKey : κ) (r : ℤ) : (fuel : ℕ) → ℤ → Option ℤ
  | 0, _ => none
  | fuel + 1, i =>
    if i > r then some i
    else do
      if predicate lthKey (key (← vectorRef v i)) then some i else increaseI v lthKey r fuel (i + 1)

def decreaseJ (v : List α) (lthKey : κ) (l : ℤ) : (fuel : ℕ) → ℤ → Option ℤ
  | 0, _ => none
  | fuel + 1, j =>
    if j ≤ l then some j
    else do
      if !predicate lthKey (key (← vectorRef v j)) then some j else decreaseJ v lthKey l fuel (j - 1)

/-- `inner-loop`, up to the point where the indices have met: the vector and `j`. -/
def innerLoop (lthKey : κ) (l r : ℤ) : (fuel : ℕ) → List α → ℤ → ℤ → Option (List α × ℤ)
  | 0, _, _, _ => none
  | fuel + 1, v, i, j =>
    if i < j then do
      let v ← exchange v i j
      let i ← increaseI predicate key v lthKey r fuel (i + 1)
      let j ← decreaseJ predicate key v lthKey l fuel (j - 1)
      innerLoop lthKey l r fuel v i j
    else some (v, j)

def outerLoop : (fuel : ℕ) → List α → ℤ → ℤ → Option (List α)
  | 0, _, _, _ => none
  | fuel + 1, v, l, r =>
    if r > l then
      if r = l + 1 then do
        if predicate (key (← vectorRef v r)) (key (← vectorRef v l)) then exchange v l r else some v
      else do
        let lthKey := key (← vectorRef v l)
        let i ← increaseI predicate key v lthKey r fuel (l + 1)
        let j ← decreaseJ predicate key v lthKey l fuel r
        let (v, j) ← innerLoop predicate key lthKey l r fuel v i j
        let v ← (if j > l then exchange v j l else some v)
        let v ← outerLoop fuel v (j + 1) r
        outerLoop fuel v l (j - 1)
    else some v

/-- `quick-sort!` -/
def quickSortBang (fuel : ℕ) : Sequence α → Option (List α)
  | .vector v => outerLoop predicate key fuel v 0 (v.length - 1)
  | .list _ => none

def quickSort (fuel : ℕ) : Sequence α → Option (Sequence α)
  | .vector v => (quickSortBang predicate key fuel (.vector v)).map .vector
  | .list xs => (quickSortBang predicate key fuel (.vector xs)).map .list

end

section
variable {α κ : Type} {predicate : κ → κ → Bool} {key : α → κ} {v : List α} {p : κ} {l h i j fuel : ℕ}

theorem increaseI_spec (enough : h - i < fuel) (start : i ≤ h) (size : h ≤ v.length) :
    ∃ i' : ℕ, increaseI predicate key v p (h - 1) fuel i = some (i' : ℤ) ∧ i ≤ i' ∧ i' ≤ h ∧
      Throughout (fun x => ¬predicate p (key x)) i i' v ∧ Throughout (fun x => predicate p (key x)) i' (min h (i' + 1)) v := by
  induction fuel generalizing i with
  | zero => omega
  | succ fuel ih =>
    rw [increaseI]
    by_cases beyond : i = h
    · subst beyond
      refine ⟨i, if_pos (by omega), le_rfl, le_rfl, ?_, ?_⟩
      all_goals
        intro k x above below
        omega
    · have inside : i < v.length := by omega
      have here : vectorRef v i = some v[i] := by rw [vectorRef_natCast, List.getElem?_eq_getElem inside]
      rw [if_neg (by omega), here, Option.bind_eq_bind, Option.bind_some]
      by_cases greater : predicate p (key v[i])
      · refine ⟨i, if_pos greater, le_rfl, start, ?_, ?_⟩
        · intro k x above below
          omega
        · intro k x above below found
          obtain rfl : k = i := by omega
          rw [List.getElem?_eq_getElem inside] at found
          rwa [← Option.some.inj found]
      · obtain ⟨i', scanned, above, below, low, high⟩ := ih (i := i + 1) (by omega) (by omega)
        rw [if_neg greater]
        refine ⟨i', by exact_mod_cast scanned, by omega, below, ?_, high⟩
        intro k x at_least less found
        rcases Nat.eq_or_lt_of_le at_least with rfl | later
        · rw [List.getElem?_eq_getElem inside] at found
          rwa [← Option.some.inj found]
        · exact low k x later less found

theorem decreaseJ_spec (enough : j - l < fuel) (start : l ≤ j) (size : j < v.length) :
    ∃ j' : ℕ, decreaseJ predicate key v p l fuel j = some (j' : ℤ) ∧ l ≤ j' ∧ j' ≤ j ∧
      Throughout (fun x => predicate p (key x)) (j' + 1) (j + 1) v ∧
      Throughout (fun x => ¬predicate p (key x)) (max (l + 1) j') (j' + 1) v := by
  induction fuel generalizing j with
  | zero => omega
  | succ fuel ih =>
    rw [decreaseJ]
    by_cases beyond : j = l
    · subst beyond
      refine ⟨j, if_pos (by omega), le_rfl, le_rfl, ?_, ?_⟩
      all_goals
        intro k x above below
        omega
    · have here : vectorRef v j = some v[j] := by rw [vectorRef_natCast, List.getElem?_eq_getElem size]
      rw [if_neg (by omega), here, Option.bind_eq_bind, Option.bind_some]
      by_cases greater : predicate p (key v[j])
      · obtain ⟨j', scanned, above, below, high, low⟩ := ih (j := j - 1) (by omega) (by omega) (by omega)
        rw [if_neg (by simp [greater])]
        have previous : ((j - 1 : ℕ) : ℤ) = j - 1 := by omega
        refine ⟨j', by rw [← previous, scanned], above, by omega, ?_, low⟩
        intro k x at_least less found
        rcases Nat.eq_or_lt_of_le (Nat.le_of_lt_succ less) with rfl | earlier
        · rw [List.getElem?_eq_getElem size] at found
          rwa [← Option.some.inj found]
        · exact high k x at_least (by omega) found
      · refine ⟨j, if_pos (by simp [greater]), start, le_rfl, ?_, ?_⟩
        · intro k x above below
          omega
        · intro k x above below found
          obtain rfl : k = j := by omega
          rw [List.getElem?_eq_getElem size] at found
          rwa [← Option.some.inj found]

/-- The elements before `i` are not above the key, those behind `j` are, and the two indices stand where they stopped. -/
structure Partitioned (predicate : κ → κ → Bool) (key : α → κ) (p : κ) (l h i j : ℕ) (v : List α) : Prop where
  left : l < i ∧ i ≤ h
  right : l ≤ j ∧ j < h
  low : Throughout (fun x => ¬predicate p (key x)) (l + 1) i v
  high : Throughout (fun x => predicate p (key x)) (j + 1) h v
  stopped_i : Throughout (fun x => predicate p (key x)) i (min h (i + 1)) v
  stopped_j : Throughout (fun x => ¬predicate p (key x)) (max (l + 1) j) (j + 1) v

theorem scans_spec (left : l < i ∧ i ≤ h) (right : l ≤ j ∧ j < h) (size : h ≤ v.length) (enough : h - i < fuel ∧ j - l < fuel)
    (low : Throughout (fun x => ¬predicate p (key x)) (l + 1) i v)
    (high : Throughout (fun x => predicate p (key x)) (j + 1) h v) :
    ∃ i' j' : ℕ, increaseI predicate key v p (h - 1) fuel i = some (i' : ℤ) ∧
      decreaseJ predicate key v p l fuel j = some (j' : ℤ) ∧ i ≤ i' ∧ j' ≤ j ∧ Partitioned predicate key p l h i' j' v := by
  obtain ⟨i', scanned, above, below, smaller, greater⟩ := @increaseI_spec _ _ predicate key v p h i fuel enough.1 left.2 size
  obtain ⟨j', scanned', above', below', greater', smaller'⟩ :=
    @decreaseJ_spec _ _ predicate key v p l j fuel enough.2 right.1 (by omega : j < v.length)
  refine ⟨i', j', scanned, scanned', above, below', ?_⟩
  exact ⟨⟨by omega, below⟩, ⟨above', by omega⟩, low.append smaller, greater'.append high, greater, smaller'⟩

theorem innerLoop_spec (partitioned : Partitioned predicate key p l h i j v) (size : h ≤ v.length)
    (enough : h - i < fuel ∧ j - l < fuel) :
    ∃ (v' : List α) (j' : ℕ), innerLoop predicate key p l (h - 1) fuel v i j = some (v', (j' : ℤ)) ∧ l ≤ j' ∧ j' < h ∧
      Rearranged (l + 1) h v v' ∧ Throughout (fun x => ¬predicate p (key x)) (l + 1) (j' + 1) v' ∧
      Throughout (fun x => predicate p (key x)) (j' + 1) h v' := by
  induction fuel generalizing v i j with
  | zero => omega
  | succ fuel ih =>
    obtain ⟨left, right, low, high, stopped_i, stopped_j⟩ := partitioned
    rw [innerLoop]
    by_cases crossed : j ≤ i
    · rw [if_neg (by omega)]
      refine ⟨v, j, rfl, right.1, right.2, .refl _ _ v, ?_, high⟩
      rcases Nat.eq_or_lt_of_le right.1 with rfl | inside
      · intro k x above below
        omega
      · have last : max (l + 1) j = j := by omega
        rw [last] at stopped_j
        exact (low.mono le_rfl crossed).append stopped_j
    · have at_i : v[i]? = some v[i] := List.getElem?_eq_getElem (by omega)
      have at_j : v[j]? = some v[j] := List.getElem?_eq_getElem (by omega)
      have exchanged := exchange_spec at_i at_j
      have swapped := @rearranged_swap _ i (j + 1) _ _ _ _ _ at_i at_j (by omega) (by omega)
      obtain ⟨first, second⟩ := getElem?_swap at_i at_j (by omega)
      generalize (v.set i v[j]).set j v[i] = v₁ at exchanged swapped first second
      have low₁ : Throughout (fun x => ¬predicate p (key x)) (l + 1) (i + 1) v₁ :=
        (low.apart swapped (by omega)).append (throughout_single first (stopped_j j _ (by omega) (by omega) at_j))
      have high₁ : Throughout (fun x => predicate p (key x)) (j - 1 + 1) h v₁ := by
        rw [Nat.sub_add_cancel (by omega)]
        exact (throughout_single second (stopped_i i _ le_rfl (by omega) at_i)).append (high.apart swapped (by omega))
      obtain ⟨i', j', scanned, scanned', above, below, partitioned⟩ :=
        @scans_spec _ _ predicate key v₁ p l h (i + 1) (j - 1) fuel (by omega) (by omega) (by rwa [swapped.length]) (by omega) low₁ high₁
      obtain ⟨v', j'', ends, rest⟩ := ih partitioned (by rwa [swapped.length]) (by omega)
      have next : ((i + 1 : ℕ) : ℤ) = i + 1 := by omega
      have previous : ((j - 1 : ℕ) : ℤ) = j - 1 := by omega
      refine ⟨v', j'', ?_, rest.1, rest.2.1, (swapped.mono (by omega) (by omega)).trans rest.2.2.1, rest.2.2.2⟩
      rw [if_pos (by omega), exchanged, ← next, ← previous]
      simp only [Option.bind_eq_bind, Option.bind_some]
      rw [scanned, Option.bind_some, scanned', Option.bind_some, ends]

def InOrder (predicate : κ → κ → Bool) (key : α → κ) (earlier later : α) : Prop := ¬predicate (key later) (key earlier)

section
variable [IsStrictOrder κ fun a b => predicate a b]

theorem inOrder_of_less {x y : α} (less : predicate (key x) (key y)) : InOrder predicate key x y := fun greater =>
  irrefl_of (fun a b => predicate a b) (key x) (trans_of (fun a b => predicate a b) less greater)

theorem pivot_placed {x : α} (size : h ≤ v.length) (pivot : v[l]? = some x) (bounds : l ≤ j ∧ j < h)
    (low : Throughout (fun y => ¬predicate (key x) (key y)) (l + 1) (j + 1) v)
    (high : Throughout (fun y => predicate (key x) (key y)) (j + 1) h v) :
    ∃ w, (if (j : ℤ) > l then exchange v j l else some v) = some w ∧ Rearranged l h v w ∧ w[j]? = some x ∧
      Throughout (fun y => ¬predicate (key x) (key y)) l j w ∧ Throughout (fun y => predicate (key x) (key y)) (j + 1) h w := by
  rcases Nat.eq_or_lt_of_le bounds.1 with rfl | apart
  · refine ⟨v, if_neg (by omega), .refl l h v, pivot, ?_, high⟩
    intro k y above below
    omega
  · have at_j : v[j]? = some v[j] := List.getElem?_eq_getElem (by omega)
    have swapped := @rearranged_swap _ l (j + 1) _ _ _ _ _ at_j pivot (by omega) (by omega)
    -- the pivot does not go before itself
    have irreflexive : ¬predicate (key x) (key x) := irrefl_of (fun a b => predicate a b) (key x)
    have all := (throughout_single (P := fun y => ¬predicate (key x) (key y)) pivot irreflexive).append low
    refine ⟨_, (if_pos (by omega)).trans (exchange_spec at_j pivot), swapped.mono le_rfl (by omega),
      (getElem?_swap at_j pivot (by omega)).1, ?_, high.apart swapped (by omega)⟩
    exact (all.rearranged swapped).mono le_rfl (by omega)

theorem settled_around_pivot {x : α} (pivot : v[j]? = some x) (low : Throughout (fun y => ¬predicate (key x) (key y)) l j v)
    (high : Throughout (fun y => predicate (key x) (key y)) (j + 1) h v) (left : Settled (InOrder predicate key) l j v)
    (right : Settled (InOrder predicate key) (j + 1) h v) : Settled (InOrder predicate key) l h v := by
  refine left.around right pivot low ?_ ?_
  · intro k y above below found
    exact inOrder_of_less (high k y above below found)
  · intro k y above below found k' z above' below' found' less
    -- an element behind the pivot that goes before `y` would put the pivot before `y`
    exact low k y above below found (trans_of (fun a b => predicate a b) (high k' z above' below' found') less)

theorem outerLoop_spec (size : h ≤ v.length) (enough : h - l < fuel) :
    ∃ w, outerLoop predicate key fuel v l (h - 1) = some w ∧ Rearranged l h v w ∧ Settled (InOrder predicate key) l h w := by
  induction fuel generalizing v l h with
  | zero => omega
  | succ fuel ih =>
    rw [outerLoop]
    by_cases short : h ≤ l + 1
    · exact ⟨v, if_neg (by omega), .refl l h v, settled_of_short short⟩
    rw [if_pos (by omega)]
    have at_l : v[l]? = some v[l] := List.getElem?_eq_getElem (by omega)
    by_cases two : h = l + 2
    · subst two
      have at_r : v[l + 1]? = some v[l + 1] := List.getElem?_eq_getElem (by omega)
      have last : ((l + 2 : ℕ) : ℤ) - 1 = ((l + 1 : ℕ) : ℤ) := by omega
      rw [if_pos (by omega), last, vectorRef_natCast, vectorRef_natCast, at_l, at_r]
      simp only [Option.bind_eq_bind, Option.bind_some]
      have pair : ∀ {w : List α} {x y : α}, w[l]? = some x → w[l + 1]? = some y → InOrder predicate key x y →
          Settled (InOrder predicate key) l (l + 2) w := by
        intro w x y first second ordered i j x' y' above less below left right
        obtain ⟨rfl, rfl⟩ : i = l ∧ j = l + 1 := by omega
        rw [first] at left
        rw [second] at right
        rwa [← Option.some.inj left, ← Option.some.inj right]
      split
      · rename_i less
        obtain ⟨first, second⟩ := getElem?_swap at_l at_r (by omega)
        exact ⟨_, exchange_spec at_l at_r, rearranged_swap at_l at_r (by omega) (by omega),
          pair first second (inOrder_of_less less)⟩
      · rename_i ordered
        exact ⟨v, rfl, .refl l _ v, pair at_l at_r ordered⟩
    · rw [if_neg (by omega), vectorRef_natCast, at_l]
      simp only [Option.bind_eq_bind, Option.bind_some]
      generalize v[l] = x at at_l
      obtain ⟨i, j, scanned, scanned', -, -, partitioned⟩ :=
        @scans_spec _ _ predicate key v (key x) l h (l + 1) (h - 1) fuel
          (by omega) (by omega) size (by omega) (fun _ _ _ _ => by omega) (fun _ _ _ _ => by omega)
      have next : ((l + 1 : ℕ) : ℤ) = l + 1 := by omega
      have last : ((h - 1 : ℕ) : ℤ) = h - 1 := by omega
      rw [next] at scanned
      rw [last] at scanned'
      rw [scanned, Option.bind_some, scanned', Option.bind_some]
      obtain ⟨v₁, m, inner, above, below, rearranged, low, high⟩ := @innerLoop_spec _ _ predicate key v (key x) l h i j fuel partitioned size
        (by have := partitioned.left; have := partitioned.right; omega)
      rw [inner, Option.bind_some]
      have pivot₁ : v₁[l]? = some x := by rw [rearranged.outside l (by omega), at_l]
      obtain ⟨v₂, placed, rearranged₂, pivot₂, low₂, high₂⟩ :=
        pivot_placed (by rwa [rearranged.length]) pivot₁ ⟨above, below⟩ low high
      rw [placed, Option.bind_some]
      have length₂ : v₂.length = v.length := rearranged₂.length.trans rearranged.length
      obtain ⟨v₃, right, rearranged₃, settled_right⟩ := ih (v := v₂) (l := m + 1) (h := h) (by omega) (by omega)
      obtain ⟨w, left, rearranged₄, settled_left⟩ :=
        ih (v := v₃) (l := l) (h := m) (by have := rearranged₃.length; omega) (by omega)
      have following : ((m + 1 : ℕ) : ℤ) = m + 1 := by omega
      rw [← following, right, Option.bind_some, left]
      refine ⟨w, rfl, ?_, ?_⟩
      · exact (((rearranged.mono (by omega) le_rfl).trans rearranged₂).trans (rearranged₃.mono (by omega) le_rfl)).trans
          (rearranged₄.mono le_rfl (by omega))
      · refine settled_around_pivot (x := x) ?_ ?_ ?_ settled_left (settled_right.apart rearranged₄ (by omega))
        · rw [rearranged₄.outside m (by omega), rearranged₃.outside m (by omega), pivot₂]
        · exact (low₂.apart rearranged₃ (by omega)).rearranged rearranged₄
        · exact (high₂.rearranged rearranged₃).apart rearranged₄ (by omega)

theorem quickSortBang_spec (enough : v.length < fuel) :
    ∃ w, quickSortBang predicate key fuel (.vector v) = some w ∧ w.Perm v ∧ w.Pairwise (InOrder predicate key) := by
  obtain ⟨w, sorted, rearranged, settled⟩ :=
    @outerLoop_spec _ _ predicate key v 0 v.length fuel _ le_rfl (by omega)
  refine ⟨w, sorted, rearranged.perm, ?_⟩
  rw [← settled_all, rearranged.length]
  exact settled

end

end

end MitScheme.Runtime.Sorting
