import Mathlib.Data.List.Perm.Basic

namespace MitScheme.Library

open List

variable {α : Type*} {low low' high high' m k i j : ℕ} {xs ys zs : List α} {x y : α} {P : α → Prop} {r : α → α → Prop}

/-- The elements from `low` up to `high`. -/
def segment (low high : ℕ) (xs : List α) : List α := (xs.take high).drop low

structure Rearranged (low high : ℕ) (xs ys : List α) : Prop where
  perm : ys.Perm xs
  outside : ∀ k, k < low ∨ high ≤ k → ys[k]? = xs[k]?

/-- What holds of the elements from `low` up to `high`. -/
def Throughout (P : α → Prop) (low high : ℕ) (xs : List α) : Prop :=
  ∀ k x, low ≤ k → k < high → xs[k]? = some x → P x

def Settled (r : α → α → Prop) (low high : ℕ) (xs : List α) : Prop :=
  ∀ i j x y, low ≤ i → i < j → j < high → xs[i]? = some x → xs[j]? = some y → r x y

theorem getElem?_segment (k : ℕ) : (segment low high xs)[k]? = if low + k < high then xs[low + k]? else none := by
  rw [segment, getElem?_drop, getElem?_take]

theorem segment_congr (same : ∀ k, low ≤ k → k < high → xs[k]? = ys[k]?) : segment low high xs = segment low high ys := by
  apply ext_getElem?
  intro k
  rw [getElem?_segment, getElem?_segment]
  split
  · exact same _ (Nat.le_add_right _ _) ‹_›
  · rfl

theorem segment_between (front : xs.length = low) (size : ys.length = high - low) (ordered : low ≤ high) :
    segment low high (xs ++ ys ++ zs) = ys := by
  apply ext_getElem?
  intro k
  rw [getElem?_segment, append_assoc, getElem?_append_right (by omega), ← front, Nat.add_sub_cancel_left]
  split
  · rw [getElem?_append_left (by omega)]
  · rw [getElem?_eq_none (by omega)]

theorem take_congr (same : ∀ k < low, xs[k]? = ys[k]?) : xs.take low = ys.take low := by
  apply ext_getElem?
  intro k
  rw [getElem?_take, getElem?_take]
  split
  · exact same k ‹_›
  · rfl

theorem drop_congr (same : ∀ k, high ≤ k → xs[k]? = ys[k]?) : xs.drop high = ys.drop high := by
  apply ext_getElem?
  intro k
  rw [getElem?_drop, getElem?_drop]
  exact same _ (Nat.le_add_right _ _)

theorem segment_empty (crossed : high ≤ low) : segment low high xs = [] := by
  rw [segment, drop_take, Nat.sub_eq_zero_of_le crossed, take_zero]

theorem segment_cons (inside : low < high) (here : xs[low]? = some x) :
    segment low high xs = x :: segment (low + 1) high xs := by
  have first : (xs.take high)[low]? = some x := by rw [getElem?_take, if_pos inside, here]
  obtain ⟨bound, rfl⟩ := List.getElem?_eq_some_iff.mp first
  exact drop_eq_getElem_cons bound

theorem segment_append (left : low ≤ m) (right : m ≤ high) : segment low m xs ++ segment m high xs = segment low high xs := by
  apply ext_getElem?
  intro k
  have length : (segment low m xs).length = min m xs.length - low := by simp [segment]
  rw [getElem?_append, length, getElem?_segment, getElem?_segment, getElem?_segment]
  rcases Nat.lt_or_ge k (min m xs.length - low) with inside | beyond
  · rw [if_pos inside, if_pos (by omega), if_pos (by omega)]
  · rw [if_neg (by omega)]
    rcases Nat.le_total m xs.length with long | short
    · have same : m + (k - (min m xs.length - low)) = low + k := by omega
      rw [same]
    · rw [getElem?_eq_none (by omega), getElem?_eq_none (by omega), ite_self, ite_self]

theorem append_segment (ordered : low ≤ high) : xs.take low ++ segment low high xs ++ xs.drop high = xs := by
  have front : (xs.take high).take low = xs.take low := by rw [take_take, Nat.min_eq_left ordered]
  rw [segment, ← front, take_append_drop, take_append_drop]

theorem Rearranged.refl (low high : ℕ) (xs : List α) : Rearranged low high xs xs := ⟨.refl xs, fun _ _ => rfl⟩

theorem Rearranged.trans (first : Rearranged low high xs ys) (second : Rearranged low high ys zs) :
    Rearranged low high xs zs :=
  ⟨second.perm.trans first.perm, fun k out => (second.outside k out).trans (first.outside k out)⟩

section
variable (rearranged : Rearranged low high xs ys)
include rearranged

theorem Rearranged.mono (left : low' ≤ low) (right : high ≤ high') : Rearranged low' high' xs ys :=
  ⟨rearranged.perm, fun k out => rearranged.outside k (by omega)⟩

theorem Rearranged.length : ys.length = xs.length :=
  rearranged.perm.length_eq

theorem Rearranged.segment : (segment low high ys).Perm (segment low high xs) := by
  rcases Nat.le_total high low with crossed | ordered
  · rw [segment_empty crossed, segment_empty crossed]
  have before := take_congr fun k below => rearranged.outside k (.inl below)
  have after := drop_congr fun k beyond => rearranged.outside k (.inr beyond)
  have perm := rearranged.perm
  rw [← @append_segment _ _ _ ys ordered, ← @append_segment _ _ _ xs ordered, before, after, perm_append_right_iff,
    perm_append_left_iff] at perm
  exact perm

end

theorem rearranged_of_segment (ordered : low ≤ high) (bound : high ≤ xs.length) (perm : ys.Perm (segment low high xs)) :
    Rearranged low high xs (xs.take low ++ ys ++ xs.drop high) := by
  constructor
  · nth_rewrite 3 [← @append_segment _ _ _ xs ordered]
    exact (perm.append_left _).append_right _
  · have length := perm.length_eq
    have size : (segment low high xs).length = high - low := by
      simp [segment]
      omega
    intro k out
    rw [append_assoc, getElem?_append, length_take]
    split
    · rw [getElem?_take, if_pos (by omega)]
    · rw [getElem?_append_right (by omega), getElem?_drop]
      congr 1
      omega

theorem throughout_iff : Throughout P low high xs ↔ ∀ x ∈ segment low high xs, P x := by
  constructor
  · intro holds x member
    obtain ⟨k, found⟩ := mem_iff_getElem?.mp member
    rw [getElem?_segment] at found
    split at found
    · exact holds _ x (Nat.le_add_right _ _) ‹_› found
    · cases found
  · intro holds k x above below found
    refine holds x (mem_iff_getElem?.mpr ⟨k - low, ?_⟩)
    rw [getElem?_segment, Nat.add_sub_of_le above, if_pos below, found]

theorem Throughout.append (left : Throughout P low m xs) (right : Throughout P m high xs) : Throughout P low high xs := by
  intro k x above below found
  rcases Nat.lt_or_ge k m with inside | beyond
  · exact left k x above inside found
  · exact right k x beyond below found

theorem throughout_single (here : xs[k]? = some x) (holds : P x) : Throughout P k (k + 1) xs := by
  intro k' y above below found
  obtain rfl : k' = k := by omega
  rw [here] at found
  rwa [← Option.some.inj found]

theorem Throughout.mono (holds : Throughout P low high xs) (left : low ≤ low') (right : high' ≤ high) :
    Throughout P low' high' xs :=
  fun k x above below => holds k x (by omega) (by omega)

theorem Throughout.rearranged (holds : Throughout P low high xs) (rearranged : Rearranged low high xs ys) :
    Throughout P low high ys :=
  throughout_iff.mpr fun x member => throughout_iff.mp holds x (rearranged.segment.mem_iff.mp member)

theorem Throughout.apart (holds : Throughout P low high xs) (rearranged : Rearranged low' high' xs ys)
    (apart : high ≤ low' ∨ high' ≤ low) : Throughout P low high ys := by
  intro k x above below found
  exact holds k x above below (by rwa [← rearranged.outside k (by omega)])

theorem Settled.apart (settled : Settled r low high xs) (rearranged : Rearranged low' high' xs ys)
    (apart : high ≤ low' ∨ high' ≤ low) : Settled r low high ys := by
  intro i j x y above less below left right
  rw [rearranged.outside _ (by omega)] at left right
  exact settled i j x y above less below left right

theorem settled_of_short (short : high ≤ low + 1) : Settled r low high xs := by
  intro i j x y above less below
  omega

theorem settled_all : Settled r 0 xs.length xs ↔ xs.Pairwise r := by
  rw [pairwise_iff_getElem]
  constructor
  · intro settled i j left right less
    exact settled i j _ _ (Nat.zero_le i) less right (getElem?_eq_getElem left) (getElem?_eq_getElem right)
  · intro pairwise i j x y _ less below left right
    obtain ⟨bound, rfl⟩ := List.getElem?_eq_some_iff.mp left
    obtain ⟨bound', rfl⟩ := List.getElem?_eq_some_iff.mp right
    exact pairwise i j bound bound' less

theorem Settled.around (left : Settled r low m xs) (right : Settled r (m + 1) high xs) (pivot : xs[m]? = some x)
    (before : Throughout (fun y => r y x) low m xs) (after : Throughout (fun y => r x y) (m + 1) high xs)
    (across : Throughout (fun y => Throughout (r y) (m + 1) high xs) low m xs) : Settled r low high xs := by
  intro i j y z above less below first second
  rcases Nat.lt_trichotomy j m with inside | rfl | beyond
  · exact left i j y z above less inside first second
  · rw [pivot] at second
    obtain rfl := Option.some.inj second
    exact before i y above less first
  · rcases Nat.lt_trichotomy i m with inside | rfl | past
    · exact across i y above inside first j z beyond below second
    · rw [pivot] at first
      obtain rfl := Option.some.inj first
      exact after j z beyond below second
    · exact right i j y z past less below first second

theorem getElem?_swap (left : xs[i]? = some x) (right : xs[j]? = some y) (differ : i ≠ j) :
    ((xs.set i y).set j x)[i]? = some y ∧ ((xs.set i y).set j x)[j]? = some x := by
  have inside := (List.getElem?_eq_some_iff.mp left).1
  have inside' := (List.getElem?_eq_some_iff.mp right).1
  constructor
  · rw [getElem?_set_ne differ.symm, getElem?_set_self inside]
  · exact getElem?_set_self (by rwa [length_set])

theorem rearranged_swap (left : xs[i]? = some x) (right : xs[j]? = some y) (bounds : low ≤ i ∧ i < high)
    (bounds' : low ≤ j ∧ j < high) : Rearranged low high xs ((xs.set i y).set j x) := by
  obtain ⟨inside, rfl⟩ := List.getElem?_eq_some_iff.mp left
  obtain ⟨inside', rfl⟩ := List.getElem?_eq_some_iff.mp right
  refine ⟨set_set_perm inside inside', ?_⟩
  intro k out
  rw [getElem?_set_ne (by omega), getElem?_set_ne (by omega)]

end MitScheme.Library
