/-!
A loop over a linked list that unlinks the dead cells it comes to, and looks at the other ones in
order until it halts. What it does at live cells does not depend on the dead ones.
-/

namespace MitScheme.Library.Unlinking

open List

universe u v

variable {α : Type u} {σ : Type v}

/-- What a loop does at a live cell: it goes on with the cell kept or unlinked, or it halts. -/
inductive Visit (α : Type u) (σ : Type v) where
  | go (cell : α) (acc : σ)
  | unlink (acc : σ)
  | halt (cell : α) (acc : σ)
  | unlinkHalt (acc : σ)

structure Swept (α : Type u) (σ : Type v) where
  cells : List α
  dropped : List α
  acc : σ
  halted : Bool

def sweep (dead : α → Bool) (visit : α → σ → Visit α σ) : (before this : List α) → σ → (dropped : List α) → Swept α σ
  | before, [], acc, dropped => ⟨before.reverse, dropped, acc, false⟩
  | before, cell :: next, acc, dropped =>
    if dead cell then sweep dead visit before next acc (dropped ++ [cell])
    else match visit cell acc with
      | .go cell acc => sweep dead visit (cell :: before) next acc dropped
      | .unlink acc => sweep dead visit before next acc dropped
      | .halt cell acc => ⟨before.reverse ++ cell :: next, dropped, acc, true⟩
      | .unlinkHalt acc => ⟨before.reverse ++ next, dropped, acc, true⟩

def walk (visit : α → σ → Visit α σ) : List α → σ → List α × σ × Bool
  | [], acc => ([], acc, false)
  | cell :: next, acc =>
    match visit cell acc with
    | .go cell acc => (cell :: (walk visit next acc).1, (walk visit next acc).2)
    | .unlink acc => walk visit next acc
    | .halt cell acc => (cell :: next, acc, true)
    | .unlinkHalt acc => (next, acc, true)

variable {dead : α → Bool} {visit : α → σ → Visit α σ} {before this dropped : List α} {acc acc' : σ} {cell cell' : α}

theorem walk_go (visited : visit cell acc = .go cell' acc') :
    walk visit (cell :: this) acc = (cell' :: (walk visit this acc').1, (walk visit this acc').2) := by rw [walk, visited]

theorem walk_unlink (visited : visit cell acc = .unlink acc') :
    walk visit (cell :: this) acc = walk visit this acc' := by rw [walk, visited]

theorem walk_halt (visited : visit cell acc = .halt cell' acc') :
    walk visit (cell :: this) acc = (cell' :: this, acc', true) := by rw [walk, visited]

theorem walk_unlinkHalt (visited : visit cell acc = .unlinkHalt acc') :
    walk visit (cell :: this) acc = (this, acc', true) := by rw [walk, visited]

def Visit.Live (dead : α → Bool) : Visit α σ → Prop
  | .go cell _ => dead cell = false
  | .halt cell _ => dead cell = false
  | _ => True

def live (dead : α → Bool) (cells : List α) : List α := cells.filter fun cell => !dead cell

theorem live_append {cells cells' : List α} : live dead (cells ++ cells') = live dead cells ++ live dead cells' := by
  rw [live, live, live, filter_append]

theorem live_cons_dead (isDead : dead cell = true) : live dead (cell :: this) = live dead this := by
  rw [live, filter_cons_of_neg (by simp [isDead]), live]

theorem live_cons (alive : dead cell = false) : live dead (cell :: this) = cell :: live dead this := by
  rw [live, filter_cons_of_pos (by simp [alive]), live]

theorem sweep_live (alive : ∀ cell acc, dead cell = false → (visit cell acc).Live dead) :
    live dead (sweep dead visit before this acc dropped).cells =
        live dead before.reverse ++ (walk visit (live dead this) acc).1 ∧
      ((sweep dead visit before this acc dropped).acc, (sweep dead visit before this acc dropped).halted) =
        (walk visit (live dead this) acc).2 := by
  induction this generalizing before acc dropped with
  | nil => simp [sweep, walk, live]
  | cons cell next ih =>
    cases isDead : dead cell with
    | true =>
      rw [sweep, if_pos isDead, live_cons_dead isDead]
      exact ih
    | false =>
      rw [sweep, if_neg (by simp [isDead]), live_cons isDead, walk]
      have kept := alive cell acc isDead
      cases visited : visit cell acc with
      | go cell' acc' =>
        rw [visited] at kept
        obtain ⟨cells, ended⟩ := @ih (cell' :: before) dropped acc'
        refine ⟨?_, ended⟩
        rw [cells, reverse_cons, live_append, live_cons kept, append_assoc]
        rfl
      | unlink acc' => exact ih
      | halt cell' acc' =>
        rw [visited] at kept
        refine ⟨?_, rfl⟩
        rw [live_append, live_cons kept]
      | unlinkHalt acc' => exact ⟨live_append, rfl⟩

theorem sweep_dead (alive : ∀ cell acc, dead cell = false → (visit cell acc).Live dead) :
    ∃ unlinked, (sweep dead visit before this acc dropped).dropped = dropped ++ unlinked ∧
      ∃ left, (sweep dead visit before this acc dropped).cells.filter dead = before.reverse.filter dead ++ left ∧
        unlinked ++ left = this.filter dead := by
  induction this generalizing before acc dropped with
  | nil => exact ⟨[], by simp [sweep], [], by simp [sweep]⟩
  | cons cell next ih =>
    cases isDead : dead cell with
    | true =>
      rw [sweep, if_pos isDead, filter_cons_of_pos isDead]
      obtain ⟨unlinked, dropped', left, cells, all⟩ := @ih before (dropped ++ [cell]) acc
      refine ⟨cell :: unlinked, ?_, left, cells, ?_⟩
      · rw [dropped', append_assoc]
        rfl
      · rw [← all]
        rfl
    | false =>
      rw [sweep, if_neg (by simp [isDead]), filter_cons_of_neg (by simp [isDead])]
      have kept := alive cell acc isDead
      cases visited : visit cell acc with
      | go cell' acc' =>
        rw [visited] at kept
        obtain ⟨unlinked, dropped', left, cells, all⟩ := @ih (cell' :: before) dropped acc'
        refine ⟨unlinked, dropped', left, ?_, all⟩
        rw [cells, reverse_cons, filter_append, filter_cons_of_neg (by simp [show dead cell' = false from kept])]
        simp
      | unlink acc' => exact ih
      | halt cell' acc' =>
        rw [visited] at kept
        refine ⟨[], by simp, next.filter dead, ?_, by simp⟩
        rw [filter_append, filter_cons_of_neg (by simp [show dead cell' = false from kept])]
      | unlinkHalt acc' => exact ⟨[], by simp, next.filter dead, filter_append _ _, by simp⟩

end MitScheme.Library.Unlinking
