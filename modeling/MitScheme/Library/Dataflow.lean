import Mathlib.Algebra.Order.BigOperators.Group.Finset

/-!
Sets at the nodes of a graph are propagated from every node to its predecessors. A node is visited in the first pass,
and later when the set at its exit has grown.
-/

namespace MitScheme.Library.Dataflow

open List

variable {α : Type} [DecidableEq α]

/-- For every node the set at its exit that was propagated, the one that was gathered, and the set at its entry. -/
structure Sets (α : Type) where
  exit : ℕ → Finset α
  newExit : ℕ → Finset α
  entry : ℕ → Finset α

def none : Sets α := ⟨fun _ => ∅, fun _ => ∅, fun _ => ∅⟩

section
variable (transfer : ℕ → Finset α → Finset α) (previous : ℕ → List ℕ)

def visit (s : Sets α) (b : ℕ) : Sets α where
  exit := fun n => if n = b then s.newExit b else s.exit n
  entry := fun n => if n = b then transfer b (s.newExit b) else s.entry n
  newExit := fun n => if n ∈ previous b then s.newExit n ∪ transfer b (s.newExit b) else s.newExit n

def pass (first : Bool) : List ℕ → Sets α → Sets α × Bool
  | [], s => (s, false)
  | b :: rest, s =>
    if first ∨ s.exit b ≠ s.newExit b then ((pass first rest (visit transfer previous s b)).1, true)
    else pass first rest s

def passes (nodes : List ℕ) : (fuel : ℕ) → (first : Bool) → Sets α → Option (Sets α)
  | 0, _, _ => Option.none
  | fuel + 1, first, s =>
    let (s, changed) := pass transfer previous first nodes s
    if changed then passes nodes fuel false s else some s

end

variable {transfer : ℕ → Finset α → Finset α} {previous : ℕ → List ℕ} {s s' : Sets α} {nodes : List ℕ} {fuel b : ℕ}

/-- What was gathered is propagated later; where a node was visited, its predecessors have what is at its entry. -/
structure Gathered (transfer : ℕ → Finset α → Finset α) (previous : ℕ → List ℕ) (visited : ℕ → Prop) (s : Sets α) : Prop where
  grows : ∀ n, s.exit n ⊆ s.newExit n
  entry : ∀ n, visited n → s.entry n = transfer n (s.exit n)
  flows : ∀ n, visited n → ∀ p ∈ previous n, s.entry n ⊆ s.newExit p

theorem newExit_visit (n : ℕ) : s.newExit n ⊆ (visit transfer previous s b).newExit n := by
  unfold visit
  dsimp only
  split
  · exact Finset.subset_union_left
  · exact Finset.Subset.refl _

theorem gathered_visit {visited : ℕ → Prop} (gathered : Gathered transfer previous visited s) :
    Gathered transfer previous (fun n => visited n ∨ n = b) (visit transfer previous s b) := by
  refine ⟨?_, ?_, ?_⟩
  · intro n
    refine Finset.Subset.trans ?_ (newExit_visit n)
    unfold visit
    dsimp only
    split
    · rename_i same
      rw [same]
    · exact gathered.grows n
  · intro n here
    unfold visit
    dsimp only
    by_cases same : n = b
    · rw [if_pos same, if_pos same, same]
    · rw [if_neg same, if_neg same]
      exact gathered.entry n (here.resolve_right same)
  · intro n here p isPrevious
    by_cases same : n = b
    · subst same
      unfold visit
      dsimp only
      rw [if_pos rfl, if_pos isPrevious]
      exact Finset.subset_union_right
    · have before := gathered.flows n (here.resolve_right same) p isPrevious
      have entry : (visit transfer previous s b).entry n = s.entry n := if_neg same
      rw [entry]
      exact before.trans (newExit_visit p)

theorem gathered_pass {visited : ℕ → Prop} {first : Bool} (gathered : Gathered transfer previous visited s)
    (earlier : first = false → ∀ n ∈ nodes, visited n) :
    Gathered transfer previous (fun n => visited n ∨ n ∈ nodes) (pass transfer previous first nodes s).1 := by
  induction nodes generalizing s visited with
  | nil => simpa [pass] using gathered
  | cons b rest ih =>
    unfold pass
    split
    · have next := @ih (visit transfer previous s b) (fun n => visited n ∨ n = b) (gathered_visit gathered)
        (fun notFirst n member => .inl (earlier notFirst n (mem_cons_of_mem b member)))
      refine ⟨next.grows, ?_, ?_⟩
      · intro n here
        apply next.entry
        rcases here with here | member
        · exact .inl (.inl here)
        · exact (mem_cons.mp member).elim (fun same => .inl (.inr same)) .inr
      · intro n here
        apply next.flows
        rcases here with here | member
        · exact .inl (.inl here)
        · exact (mem_cons.mp member).elim (fun same => .inl (.inr same)) .inr
    · rename_i skipped
      obtain ⟨notFirst, -⟩ := not_or.mp skipped
      have notFirst : first = false := Bool.not_eq_true _ ▸ notFirst
      have next := ih gathered (fun notFirst n member => earlier notFirst n (mem_cons_of_mem b member))
      have here := earlier notFirst b mem_cons_self
      refine ⟨next.grows, ?_, ?_⟩
      · intro n member
        apply next.entry
        rcases member with member | member
        · exact .inl member
        · exact (mem_cons.mp member).elim (fun same => .inl (same ▸ here)) .inr
      · intro n member
        apply next.flows
        rcases member with member | member
        · exact .inl member
        · exact (mem_cons.mp member).elim (fun same => .inl (same ▸ here)) .inr

theorem pass_unchanged (unchanged : (pass transfer previous false nodes s).2 = false) :
    (pass transfer previous false nodes s).1 = s ∧ ∀ b ∈ nodes, s.exit b = s.newExit b := by
  induction nodes with
  | nil => exact ⟨rfl, nofun⟩
  | cons b rest ih =>
    unfold pass at unchanged ⊢
    by_cases grown : s.exit b = s.newExit b
    · have skips : ¬((false = true) ∨ s.exit b ≠ s.newExit b) := by simp [grown]
      rw [if_neg skips] at unchanged ⊢
      obtain ⟨same, rest⟩ := ih unchanged
      exact ⟨same, forall_mem_cons.mpr ⟨grown, rest⟩⟩
    · rw [if_pos (.inr grown)] at unchanged
      exact nomatch unchanged

/-- The sets stay inside every family that is closed under the flow. -/
structure Closed (transfer : ℕ → Finset α → Finset α) (previous : ℕ → List ℕ) (nodes : List ℕ) (bound : ℕ → Finset α) :
    Prop where
  mono : ∀ b ∈ nodes, ∀ X Y, X ⊆ Y → transfer b X ⊆ transfer b Y
  flows : ∀ b ∈ nodes, ∀ p ∈ previous b, transfer b (bound b) ⊆ bound p

variable {bound : ℕ → Finset α}

theorem inside_visit (closed : Closed transfer previous nodes bound) (member : b ∈ nodes)
    (inside : ∀ n, s.newExit n ⊆ bound n) (n : ℕ) : (visit transfer previous s b).newExit n ⊆ bound n := by
  unfold visit
  dsimp only
  split
  · rename_i isPrevious
    have moved := closed.mono b member _ _ (inside b)
    exact Finset.union_subset (inside n) (moved.trans (closed.flows b member n isPrevious))
  · exact inside n

theorem inside_pass {first : Bool} {rest : List ℕ} (closed : Closed transfer previous nodes bound) (part : ∀ b ∈ rest, b ∈ nodes)
    (inside : ∀ n, s.newExit n ⊆ bound n) : ∀ n, (pass transfer previous first rest s).1.newExit n ⊆ bound n := by
  induction rest generalizing s with
  | nil => exact inside
  | cons b rest ih =>
    obtain ⟨member, part⟩ := forall_mem_cons.mp part
    unfold pass
    split
    · exact ih part (inside_visit closed member inside)
    · exact ih part inside

theorem exit_visit (grows : s.exit b ⊆ s.newExit b) (n : ℕ) : s.exit n ⊆ (visit transfer previous s b).exit n := by
  unfold visit
  dsimp only
  split
  · rename_i same
    exact same ▸ grows
  · exact Finset.Subset.refl _

theorem grows_visit (grows : ∀ n, s.exit n ⊆ s.newExit n) (n : ℕ) :
    (visit transfer previous s b).exit n ⊆ (visit transfer previous s b).newExit n := by
  have gathered : Gathered transfer previous (fun _ => False) s := ⟨grows, fun _ => False.elim, fun _ => False.elim⟩
  exact (gathered_visit gathered).grows n

theorem exit_pass {first : Bool} (grows : ∀ n, s.exit n ⊆ s.newExit n) (n : ℕ) :
    s.exit n ⊆ (pass transfer previous first nodes s).1.exit n := by
  induction nodes generalizing s with
  | nil => exact Finset.Subset.refl _
  | cons b rest ih =>
    unfold pass
    split
    · exact (exit_visit (grows b) n).trans (ih (grows_visit grows))
    · exact ih grows

theorem pass_changed (grows : ∀ n, s.exit n ⊆ s.newExit n) (changed : (pass transfer previous false nodes s).2 = true) :
    ∃ b ∈ nodes, s.exit b ⊂ (pass transfer previous false nodes s).1.exit b := by
  induction nodes generalizing s with
  | nil => exact nomatch changed
  | cons b rest ih =>
    unfold pass at changed ⊢
    by_cases grown : s.exit b = s.newExit b
    · have skips : ¬((false = true) ∨ s.exit b ≠ s.newExit b) := by simp [grown]
      rw [if_neg skips] at changed ⊢
      obtain ⟨n, member, larger⟩ := ih grows changed
      exact ⟨n, mem_cons_of_mem b member, larger⟩
    · rw [if_pos (.inr grown)]
      have visited : (visit transfer previous s b).exit b = s.newExit b := if_pos rfl
      have later := @exit_pass _ _ transfer previous _ rest false (grows_visit grows : ∀ n,
        (visit transfer previous s b).exit n ⊆ _) b
      rw [visited] at later
      exact ⟨b, mem_cons_self, Finset.ssubset_of_ssubset_of_subset ((grows b).ssubset_of_ne grown) later⟩

theorem passes_terminate (closed : Closed transfer previous nodes bound) (gathered : Gathered transfer previous (· ∈ nodes) s)
    (inside : ∀ n, s.newExit n ⊆ bound n) : ∃ fuel s', passes transfer previous nodes fuel false s = some s' ∧
      Gathered transfer previous (· ∈ nodes) s' ∧ (∀ b ∈ nodes, s'.exit b = s'.newExit b) ∧ ∀ n, s'.newExit n ⊆ bound n := by
  generalize room : (∑ n ∈ nodes.toFinset, (bound n).card) - ∑ n ∈ nodes.toFinset, (s.exit n).card = k
  induction k using Nat.strong_induction_on generalizing s with
  | _ k ih =>
    cases changed : (pass transfer previous false nodes s).2 with
    | false =>
      obtain ⟨same, settled⟩ := pass_unchanged changed
      refine ⟨1, s, ?_, gathered, settled, inside⟩
      rw [passes]
      dsimp only
      rw [changed, same]
      rfl
    | true =>
      have gathered' := @gathered_pass _ _ transfer previous s nodes (· ∈ nodes) false gathered fun _ n member => member
      have inside' : ∀ n, (pass transfer previous false nodes s).1.newExit n ⊆ bound n :=
        inside_pass closed (fun _ member => member) inside
      have smaller : ∑ n ∈ nodes.toFinset, (s.exit n).card <
          ∑ n ∈ nodes.toFinset, ((pass transfer previous false nodes s).1.exit n).card := by
        obtain ⟨b, member, larger⟩ := pass_changed gathered.grows changed
        refine Finset.sum_lt_sum ?_ ⟨b, mem_toFinset.mpr member, Finset.card_lt_card larger⟩
        intro n _
        exact Finset.card_le_card (exit_pass gathered.grows n)
      have within : ∑ n ∈ nodes.toFinset, ((pass transfer previous false nodes s).1.exit n).card ≤
          ∑ n ∈ nodes.toFinset, (bound n).card := by
        apply Finset.sum_le_sum
        intro n _
        exact Finset.card_le_card ((gathered'.grows n).trans (inside' n))
      have visited : Gathered transfer previous (· ∈ nodes) (pass transfer previous false nodes s).1 := by
        refine ⟨gathered'.grows, ?_, ?_⟩
        · intro n member
          exact gathered'.entry n (.inl member)
        · intro n member
          exact gathered'.flows n (.inl member)
      obtain ⟨fuel, s', ran, rest⟩ := ih _ (by omega) visited inside' rfl
      refine ⟨fuel + 1, s', ?_, rest⟩
      rw [passes]
      dsimp only
      rw [changed]
      exact ran

theorem passes_spec (closed : Closed transfer previous nodes bound) :
    ∃ fuel s', passes transfer previous nodes fuel true none = some s' ∧
      (∀ b ∈ nodes, s'.exit b = s'.newExit b ∧ s'.entry b = transfer b (s'.exit b) ∧
        ∀ p ∈ previous b, s'.entry b ⊆ s'.newExit p) ∧
      ∀ n, s'.exit n ⊆ bound n := by
  have start : Gathered transfer previous (fun _ => False) none :=
    ⟨fun _ => Finset.Subset.refl _, fun _ => False.elim, fun _ => False.elim⟩
  have gathered := @gathered_pass _ _ transfer previous none nodes _ true start nofun
  have inside : ∀ n, (pass transfer previous true nodes none).1.newExit n ⊆ bound n :=
    inside_pass closed (fun _ member => member) fun _ => Finset.empty_subset _
  have visited : Gathered transfer previous (· ∈ nodes) (pass transfer previous true nodes none).1 := by
    refine ⟨gathered.grows, ?_, ?_⟩
    · intro n member
      exact gathered.entry n (.inr member)
    · intro n member
      exact gathered.flows n (.inr member)
  cases nodes with
  | nil => exact ⟨1, none, rfl, nofun, fun _ => Finset.empty_subset _⟩
  | cons b rest =>
    obtain ⟨fuel, s', ran, gathered', settled, inside'⟩ := passes_terminate closed visited inside
    refine ⟨fuel + 1, s', ?_, ?_, fun n => (gathered'.grows n).trans (inside' n)⟩
    · rw [passes]
      dsimp only
      exact ran
    · intro n member
      exact ⟨settled n member, gathered'.entry n member, gathered'.flows n member⟩

theorem passes_unique {fuel' : ℕ} {first : Bool} {r r' : Sets α} (ran : passes transfer previous nodes fuel first s = some r)
    (ran' : passes transfer previous nodes fuel' first s = some r') : r = r' := by
  induction fuel generalizing fuel' first s with
  | zero => exact nomatch ran
  | succ fuel ih =>
    cases fuel' with
    | zero => exact nomatch ran'
    | succ fuel' =>
      rw [passes] at ran ran'
      dsimp only at ran ran'
      split at ran
      · rename_i changed
        rw [if_pos changed] at ran'
        exact ih ran ran'
      · rename_i settled
        rw [if_neg settled] at ran'
        exact Option.some.inj (ran.symm.trans ran')

end MitScheme.Library.Dataflow
