import Mathlib.Data.Multiset.Range

/-!
Records in a list of cells, addressed by position. A structure owns a multiset of addressed
cells, and an update of one of them leaves the others as they are.
-/

namespace MitScheme.Library

open Multiset (card map_add mem_add mem_map mem_singleton nodup_add)

variable {α : Type*} {store : List α} {cells others : Multiset (ℕ × α)} {i j : ℕ} {a b : α}

/-- The store holds the cells, at addresses that differ. -/
structure Owns (store : List α) (cells : Multiset (ℕ × α)) : Prop where
  held : ∀ p ∈ cells, store[p.1]? = some p.2
  distinct : (cells.map Prod.fst).Nodup

theorem Owns.empty : Owns store 0 := ⟨fun _ member => absurd member (Multiset.notMem_zero _), by simp⟩

theorem Owns.read (owns : Owns store ({(i, a)} + others)) : store[i]? = some a :=
  owns.held (i, a) (by simp)

theorem Owns.rest (owns : Owns store (cells + others)) : Owns store others where
  held := fun p member => owns.held p (mem_add.mpr (.inr member))
  distinct := by
    have distinct := owns.distinct
    rw [map_add, nodup_add] at distinct
    exact distinct.2.1

theorem Owns.outside (owns : Owns store ({(i, a)} + others)) {p : ℕ × α} (member : p ∈ others) : p.1 ≠ i := by
  have distinct := owns.distinct
  rw [map_add, nodup_add] at distinct
  rintro same
  exact Multiset.disjoint_left.mp distinct.2.2 (by simp) (mem_map.mpr ⟨p, member, same⟩)

theorem Owns.write (owns : Owns store ({(i, a)} + others)) (b : α) : Owns (store.set i b) ({(i, b)} + others) where
  held := by
    have inside : i < store.length := (getElem?_eq_some_iff.mp owns.read).1
    intro p member
    rcases mem_add.mp member with here | member
    · rw [mem_singleton.mp here, List.getElem?_set_self inside]
    · rw [List.getElem?_set_ne (owns.outside member).symm]
      exact owns.held p (mem_add.mpr (.inr member))
  distinct := by
    have distinct := owns.distinct
    rw [map_add] at distinct ⊢
    exact distinct

theorem Owns.inside (owns : Owns store cells) {p : ℕ × α} (member : p ∈ cells) : p.1 < store.length :=
  (getElem?_eq_some_iff.mp (owns.held p member)).1

theorem Owns.alloc (owns : Owns store cells) (a : α) : Owns (store ++ [a]) ({(store.length, a)} + cells) where
  held := by
    intro p member
    rcases mem_add.mp member with here | member
    · rw [mem_singleton.mp here, List.getElem?_concat_length]
    · rw [List.getElem?_append_left (owns.inside member)]
      exact owns.held p member
  distinct := by
    rw [map_add, Multiset.map_singleton, Multiset.singleton_add, Multiset.nodup_cons]
    refine ⟨fun member => ?_, owns.distinct⟩
    obtain ⟨p, present, same⟩ := mem_map.mp member
    exact absurd (owns.inside present) (by omega)

theorem Owns.card_le (owns : Owns store cells) : card cells ≤ store.length := by
  have small : cells.map Prod.fst ≤ .range store.length := by
    rw [Multiset.le_iff_subset owns.distinct]
    intro i member
    obtain ⟨p, present, rfl⟩ := mem_map.mp member
    exact Multiset.mem_range.mpr (owns.inside present)
  have counted := Multiset.card_le_card small
  rwa [Multiset.card_map, Multiset.card_range] at counted

end MitScheme.Library
