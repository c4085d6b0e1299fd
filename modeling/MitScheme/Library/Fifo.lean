import Mathlib.Data.List.Perm.Subperm
import Mathlib.Data.List.Nodup

/-!
A buffer of items in order. Each item that comes in gets a serial number of its own, and the
buffer keeps the serial numbers that went out and to whom.
-/

namespace MitScheme.Library

open List

structure Fifo (α γ : Type*) where
  contents : List (ℕ × α)
  issued : ℕ
  delivered : List (ℕ × γ)
deriving DecidableEq, Repr

namespace Fifo

variable {α γ : Type*} {b : Fifo α γ} {x : α} {who : γ} {n : ℕ}

def empty : Fifo α γ := ⟨[], 0, []⟩

def items (b : Fifo α γ) : List α := b.contents.map Prod.snd

def append (b : Fifo α γ) (x : α) : Fifo α γ :=
  { b with contents := b.contents ++ [(b.issued, x)], issued := b.issued + 1 }

def push (b : Fifo α γ) (x : α) : Fifo α γ :=
  { b with contents := (b.issued, x) :: b.contents, issued := b.issued + 1 }

def clobber (b : Fifo α γ) (x : α) : Fifo α γ :=
  { b with contents := (b.issued, x) :: b.contents.dropLast, issued := b.issued + 1 }

def take (b : Fifo α γ) (who : γ) : Fifo α γ :=
  { b with contents := b.contents.tail, delivered := b.delivered ++ (b.contents.head?.map fun p => (p.1, who)).toList }

def clear (b : Fifo α γ) : Fifo α γ := { b with contents := [] }

def serials (b : Fifo α γ) : List ℕ := b.contents.map Prod.fst ++ b.delivered.map Prod.fst

structure Sound (b : Fifo α γ) : Prop where
  distinct : b.serials.Nodup
  issued : ∀ n ∈ b.serials, n < b.issued

theorem sound_empty : (empty : Fifo α γ).Sound := ⟨nodup_nil, nofun⟩

section
variable (sound : b.Sound)
include sound

theorem Sound.renumber {contents : List (ℕ × α)}
    (kept : (contents.map Prod.fst).Subperm (b.issued :: b.contents.map Prod.fst)) :
    ({ b with contents := contents, issued := b.issued + 1 } : Fifo α γ).Sound := by
  have larger : (contents.map Prod.fst ++ b.delivered.map Prod.fst).Subperm (b.issued :: b.serials) :=
    (subperm_append_right _).mpr kept
  constructor
  · have fresh : (b.issued :: b.serials).Nodup := by
      apply nodup_cons.mpr
      exact ⟨fun member => absurd (sound.issued _ member) (Nat.lt_irrefl _), sound.distinct⟩
    obtain ⟨_, same, sub⟩ := larger
    exact same.nodup_iff.mp (fresh.sublist sub)
  · intro n member
    rcases mem_cons.mp (larger.subset member) with rfl | old
    · exact Nat.lt_succ_self _
    · exact Nat.lt_succ_of_lt (sound.issued n old)

theorem Sound.append (x : α) : (b.append x).Sound := by
  apply sound.renumber
  rw [map_append]
  exact (perm_append_singleton _ _).subperm

theorem Sound.push (x : α) : (b.push x).Sound :=
  sound.renumber (.refl _)

theorem Sound.clobber (x : α) : (b.clobber x).Sound := by
  apply sound.renumber
  apply Sublist.subperm
  exact ((dropLast_sublist _).map _).cons_cons _

theorem Sound.take (who : γ) : (b.take who).Sound := by
  obtain ⟨contents, issued, delivered⟩ := b
  cases contents with
  | nil => simpa [Fifo.take] using sound
  | cons p rest =>
    have moved : (.take ⟨p :: rest, issued, delivered⟩ who : Fifo α γ).serials.Perm
        (serials ⟨p :: rest, issued, delivered⟩) := by
      simp only [Fifo.take, serials, tail_cons, head?_cons, Option.map_some, Option.toList_some,
        map_append, map_cons, map_nil, ← append_assoc]
      exact perm_append_singleton _ _
    constructor
    · exact moved.nodup_iff.mpr sound.distinct
    · intro n member
      exact sound.issued n (moved.mem_iff.mp member)

theorem Sound.clear : b.clear.Sound where
  distinct := (nodup_append.mp sound.distinct).2.1
  issued n member := sound.issued n (mem_append_right _ member)

end

end Fifo

end MitScheme.Library
