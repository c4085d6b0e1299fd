import Mathlib.Data.Finset.Disjoint

namespace MitScheme.Library.FirstFit

open List

variable {α : Type} [DecidableEq α]

structure Packing (α : Type) where
  slots : List (Finset α)
  slot : α → Option ℕ

def fit (conflicts : Finset α) (slots : List (Finset α)) : ℕ := slots.findIdx fun held => Disjoint conflicts held

def place (conflicts : α → Finset α) (p : Packing α) (x : α) : Packing α where
  slots := if fit (conflicts x) p.slots < p.slots.length then p.slots.modify (fit (conflicts x) p.slots) (insert x)
    else p.slots ++ [{x}]
  slot := fun y => if y = x then some (fit (conflicts x) p.slots) else p.slot y

def pack (conflicts : α → Finset α) (items : List α) : Packing α := items.foldl (place conflicts) ⟨[], fun _ => none⟩

variable {conflicts : α → Finset α} {p : Packing α} {x y : α} {items done : List α} {i : ℕ}

/-- The items that have been placed, where they are, and which of them cannot be together. -/
structure Packed (conflicts : α → Finset α) (done : List α) (p : Packing α) : Prop where
  placed : ∀ x, (∃ i, p.slot x = some i) ↔ x ∈ done
  held : ∀ i, i < p.slots.length → ∀ x, x ∈ p.slots[i]?.getD ∅ ↔ p.slot x = some i
  bound : ∀ x i, p.slot x = some i → i < p.slots.length
  used : ∀ i, i < p.slots.length → ∃ x, p.slot x = some i
  apart : ∀ x y i, x ≠ y → p.slot x = some i → p.slot y = some i → y ∉ conflicts x ∨ x ∉ conflicts y

theorem fit_le (held : Finset α) (slots : List (Finset α)) : fit held slots ≤ slots.length := findIdx_le_length

theorem fit_disjoint {held : Finset α} {slots : List (Finset α)} (inside : fit held slots < slots.length) :
    Disjoint held (slots[fit held slots]?.getD ∅) := by
  have found := @findIdx_getElem _ _ _ inside
  rw [getElem?_eq_getElem inside]
  exact of_decide_eq_true found

theorem slots_length (p : Packing α) (x : α) : fit (conflicts x) p.slots < (place conflicts p x).slots.length ∧
    p.slots.length ≤ (place conflicts p x).slots.length := by
  unfold place
  split
  · rename_i inside
    simpa using inside
  · have all := fit_le (conflicts x) p.slots
    simp
    omega

theorem slots_place (inside : i < (place conflicts p x).slots.length) : (place conflicts p x).slots[i]?.getD ∅ =
    if i = fit (conflicts x) p.slots then insert x (p.slots[i]?.getD ∅) else p.slots[i]?.getD ∅ := by
  unfold place at inside ⊢
  split at inside
  · rename_i found
    rw [if_pos found, getElem?_modify]
    split
    · rename_i same
      subst same
      rw [if_pos rfl, getElem?_eq_getElem found]
      rfl
    · rename_i different
      rw [if_neg fun same => different same.symm]
      simp
  · rename_i full
    have all := fit_le (conflicts x) p.slots
    have last : fit (conflicts x) p.slots = p.slots.length := by omega
    rw [if_neg full, last]
    split
    · rename_i same
      subst same
      simp
    · rw [length_append, length_singleton] at inside
      rw [getElem?_append_left (by omega)]

theorem slots_old (inside : i < (place conflicts p x).slots.length) (other : i ≠ fit (conflicts x) p.slots) :
    i < p.slots.length := by
  unfold place at inside
  split at inside
  · simpa using inside
  · have all := fit_le (conflicts x) p.slots
    rw [length_append, length_singleton] at inside
    omega

theorem packed_place (packed : Packed conflicts done p) (new : x ∉ done) : Packed conflicts (done ++ [x]) (place conflicts p x) := by
  have unplaced : ∀ i, p.slot x ≠ some i := fun i here => new ((packed.placed x).mp ⟨i, here⟩)
  obtain ⟨fits, longer⟩ := @slots_length _ _ conflicts p x
  have slot (y : α) : (place conflicts p x).slot y = if y = x then some (fit (conflicts x) p.slots) else p.slot y := rfl
  refine ⟨?_, ?_, ?_, ?_, ?_⟩
  · intro y
    rw [slot, mem_append, ← packed.placed y]
    by_cases same : y = x
    · simp [same]
    · simp [same]
  · intro i inside y
    rw [slots_place inside, slot]
    by_cases here : i = fit (conflicts x) p.slots
    · rw [if_pos here, Finset.mem_insert]
      by_cases same : y = x
      · simp [same, here]
      · simp only [same, false_or]
        by_cases old : i < p.slots.length
        · exact packed.held i old y
        · rw [getElem?_eq_none (by omega)]
          simp only [Option.getD_none, Finset.notMem_empty, false_iff]
          intro placed
          exact old (packed.bound y i placed)
    · rw [if_neg here]
      have old := slots_old inside here
      rw [packed.held i old y]
      by_cases same : y = x
      · subst same
        simp [unplaced i, Ne.symm here]
      · rw [if_neg same]
  · intro y i placed
    rw [slot] at placed
    split at placed
    · exact Option.some.inj placed ▸ fits
    · exact (packed.bound y i placed).trans_le longer
  · intro i inside
    by_cases here : i = fit (conflicts x) p.slots
    · exact ⟨x, by rw [slot, if_pos rfl, here]⟩
    · have old : i < p.slots.length := by
        unfold place at inside
        split at inside
        · simpa using inside
        · have all := fit_le (conflicts x) p.slots
          rw [length_append, length_singleton] at inside
          omega
      obtain ⟨y, placed⟩ := packed.used i old
      refine ⟨y, ?_⟩
      rw [slot, if_neg, placed]
      rintro rfl
      exact unplaced i placed
  · -- only the new item can be in conflict, and its slot was disjoint from its conflicts
    have fitted : ∀ y, p.slot y = some (fit (conflicts x) p.slots) → y ∉ conflicts x := by
      intro y placed conflict
      have old := packed.bound y _ placed
      exact Finset.disjoint_left.mp (fit_disjoint old) conflict ((packed.held _ old y).mpr placed)
    intro y z i different placedY placedZ
    rw [slot] at placedY placedZ
    split at placedY
    · rename_i same
      rw [if_neg fun same' => different (same.trans same'.symm)] at placedZ
      refine .inl ?_
      rw [same]
      exact fitted z (placedY ▸ placedZ)
    · split at placedZ
      · rename_i same
        refine .inr ?_
        rw [same]
        exact fitted y (placedZ ▸ placedY)
      · exact packed.apart y z i different placedY placedZ

theorem packed_foldl (packed : Packed conflicts done p) (nodup : (done ++ items).Nodup) :
    Packed conflicts (done ++ items) (items.foldl (place conflicts) p) := by
  induction items generalizing done p with
  | nil => simpa using packed
  | cons x items ih =>
    have new : x ∉ done := by
      intro old
      exact (nodup_append.mp nodup).2.2 x old x mem_cons_self rfl
    have next := ih (packed_place packed new) (by simpa using nodup)
    simpa using next

theorem pack_packed (nodup : items.Nodup) : Packed conflicts items (pack conflicts items) := by
  have empty : Packed conflicts [] (⟨[], fun _ => none⟩ : Packing α) := by
    refine ⟨?_, ?_, ?_, ?_, ?_⟩ <;> simp
  exact packed_foldl empty nodup

theorem pack_apart (nodup : items.Nodup) (different : x ≠ y) (first : x ∈ items) (conflict : y ∈ conflicts x)
    (conflict' : x ∈ conflicts y) : (pack conflicts items).slot x ≠ (pack conflicts items).slot y := by
  have packed := @pack_packed _ _ conflicts _ nodup
  obtain ⟨i, placed⟩ := (packed.placed x).mpr first
  intro same
  rcases packed.apart x y i different placed (same ▸ placed) with absent | absent
  · exact absent conflict
  · exact absent conflict'

theorem foldl_slot (absent : x ∉ items) : (items.foldl (place conflicts) p).slot x = p.slot x := by
  induction items generalizing p with
  | nil => rfl
  | cons y items ih =>
    have rest := @ih (place conflicts p y) (not_mem_of_not_mem_cons absent)
    exact rest.trans (if_neg (ne_of_not_mem_cons absent))

theorem pack_together (nodup : (x :: y :: items).Nodup) (apart : x ∉ conflicts y) :
    (pack conflicts (x :: y :: items)).slot x = some 0 ∧ (pack conflicts (x :: y :: items)).slot y = some 0 := by
  obtain ⟨absentX, nodup⟩ := nodup_cons.mp nodup
  have different := ne_of_not_mem_cons absentX
  have absentX := not_mem_of_not_mem_cons absentX
  obtain ⟨absentY, -⟩ := nodup_cons.mp nodup
  have fits : fit (conflicts y) [{x}] = 0 := by simp [fit, apart]
  have first : place conflicts ⟨[], fun _ => none⟩ x = ⟨[{x}], fun z => if z = x then some 0 else none⟩ := rfl
  unfold pack
  rw [foldl_cons, foldl_cons, foldl_slot absentX, foldl_slot absentY, first]
  constructor
  · simp [place, different]
  · simp [place, fits]

end MitScheme.Library.FirstFit
