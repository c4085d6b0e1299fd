import Mathlib.Data.List.Induction
import Mathlib.Data.List.Nodup

/-!
Moves between locations, executed in sequence where a parallel copy is meant: they agree as long as
no move reads what an earlier one has written.
-/

namespace MitScheme.Library.Moves

open List

variable {ℓ ν : Type} [DecidableEq ℓ]

structure Move (ℓ : Type) where
  source : ℓ
  target : ℓ
deriving DecidableEq, Repr

def step (locations : ℓ → ν) (move : Move ℓ) : ℓ → ν :=
  fun l => if l = move.target then locations move.source else locations l

def sequence (moves : List (Move ℓ)) (locations : ℓ → ν) : ℓ → ν := moves.foldl step locations

def Clear (moves : List (Move ℓ)) : Prop := moves.Pairwise fun earlier later => later.source ≠ earlier.target

variable {moves : List (Move ℓ)} {move : Move ℓ} {locations : ℓ → ν} {l : ℓ}

@[simp] theorem sequence_cons : sequence (move :: moves) locations = sequence moves (step locations move) := rfl

theorem sequence_append (first last : List (Move ℓ)) :
    sequence (first ++ last) locations = sequence last (sequence first locations) :=
  foldl_append

theorem step_target : step locations move move.target = locations move.source := if_pos rfl

theorem step_other (different : l ≠ move.target) : step locations move l = locations l := if_neg different

theorem sequence_other (untouched : ∀ m ∈ moves, l ≠ m.target) : sequence moves locations l = locations l := by
  induction moves generalizing locations with
  | nil => rfl
  | cons move moves ih =>
    obtain ⟨different, untouched⟩ := forall_mem_cons.mp untouched
    rw [sequence_cons, ih untouched, step_other different]

theorem sequence_target (distinct : (moves.map Move.target).Nodup) (clear : Clear moves) :
    ∀ m ∈ moves, sequence moves locations m.target = locations m.source := by
  induction moves generalizing locations with
  | nil => exact nofun
  | cons move moves ih =>
    obtain ⟨fresh, distinct⟩ := nodup_cons.mp distinct
    obtain ⟨unread, clear⟩ := pairwise_cons.mp clear
    intro m member
    rw [sequence_cons]
    rcases mem_cons.mp member with rfl | member
    · rw [sequence_other, step_target]
      intro m' member' same
      exact fresh (mem_map.mpr ⟨m', member', same.symm⟩)
    · rw [ih distinct clear m member, step_other (unread m member)]

theorem exists_clobbered (distinct : (moves.map Move.target).Nodup) (unclear : ¬Clear moves) :
    ∃ earlier ∈ moves, ∃ later ∈ moves, later.source = earlier.target ∧
      ∀ locations : ℓ → ν, sequence moves locations later.target = locations earlier.source := by
  induction moves using reverseRecOn with
  | nil => exact absurd .nil unclear
  | append_singleton moves move ih =>
    rw [map_append, nodup_append] at distinct
    obtain ⟨distinct, -, apart⟩ := distinct
    have final : ∀ l, l ≠ move.target → ∀ locations : ℓ → ν,
        sequence (moves ++ [move]) locations l = sequence moves locations l := by
      intro l different locations
      rw [sequence_append]
      exact step_other different
    by_cases clear : Clear moves
    · -- The last move reads what an earlier one has written.
      have reads : ∃ earlier ∈ moves, move.source = earlier.target := by
        by_contra none
        apply unclear
        refine pairwise_append.mpr ⟨clear, pairwise_singleton _ _, ?_⟩
        intro earlier member later last same
        rw [mem_singleton.mp last] at same
        exact none ⟨earlier, member, same⟩
      obtain ⟨earlier, member, same⟩ := reads
      refine ⟨earlier, mem_append_left _ member, move, mem_append_right _ mem_cons_self, same, ?_⟩
      intro locations
      rw [sequence_append]
      refine step_target.trans ?_
      rw [same]
      exact sequence_target distinct clear earlier member
    · obtain ⟨earlier, member, later, member', same, wrong⟩ := ih distinct clear
      refine ⟨earlier, mem_append_left _ member, later, mem_append_left _ member', same, ?_⟩
      intro locations
      rw [final, wrong]
      exact apart later.target (mem_map.mpr ⟨later, member', rfl⟩) move.target mem_cons_self

end MitScheme.Library.Moves
