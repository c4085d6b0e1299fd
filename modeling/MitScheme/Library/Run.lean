import Mathlib.Data.Nat.Notation
import Mathlib.Logic.Relation

/-!
A system takes partial steps on inputs; a run is the sequence of its steps, each of which must
meet a guard in the state it starts from. A loop takes steps until one of them says that it is over.
-/

namespace MitScheme.Library

section
variable {σ ι : Type} (step : σ → ι → Option σ) (guard : σ → ι → Prop) [∀ s i, Decidable (guard s i)]

/-- The state after the inputs, when every step is defined and meets the guard. -/
def run : σ → List ι → Option σ
  | s, [] => some s
  | s, i :: rest => if guard s i then (step s i).bind fun s' => run s' rest else none

variable {step guard}

theorem run_cons {s s' : σ} {i : ι} {rest : List ι} : run step guard s (i :: rest) = some s' ↔ guard s i ∧ ∃ m,
    step s i = some m ∧ run step guard m rest = some s' := by
  rw [run]
  split
  · rename_i met
    rw [Option.bind_eq_some_iff]
    exact ⟨fun ran => ⟨met, ran⟩, fun ran => ran.2⟩
  · rename_i unmet
    exact ⟨nofun, fun ran => absurd ran.1 unmet⟩

theorem run_append {s s' : σ} {first last : List ι} : run step guard s (first ++ last) = some s' ↔ ∃ m,
    run step guard s first = some m ∧ run step guard m last = some s' := by
  induction first generalizing s with
  | nil => simp [run]
  | cons i rest ih =>
    rw [List.cons_append, run_cons]
    constructor
    · rintro ⟨met, m, stepped, ran⟩
      obtain ⟨m', ran, ran'⟩ := ih.mp ran
      exact ⟨m', run_cons.mpr ⟨met, m, stepped, ran⟩, ran'⟩
    · rintro ⟨m', ran, ran'⟩
      obtain ⟨met, m, stepped, ran⟩ := run_cons.mp ran
      exact ⟨met, m, stepped, ih.mpr ⟨m', ran, ran'⟩⟩

theorem run_invariant (inv : σ → Prop) (keeps : ∀ {s i s'}, inv s → guard s i → step s i = some s' → inv s') {s s' : σ}
    {inputs : List ι} (start : inv s) (ran : run step guard s inputs = some s') : inv s' := by
  induction inputs generalizing s with
  | nil => exact Option.some.inj ran ▸ start
  | cons i rest ih =>
    obtain ⟨met, m, stepped, ran⟩ := run_cons.mp ran
    exact ih (keeps start met stepped) ran

theorem run_history (inv : List ι → σ → Prop)
    (keeps : ∀ {past s i s'}, inv past s → guard s i → step s i = some s' → inv (past ++ [i]) s')
    {past : List ι} {s s' : σ} {inputs : List ι} (start : inv past s)
    (ran : run step guard s inputs = some s') : inv (past ++ inputs) s' := by
  induction inputs generalizing past s with
  | nil => rw [List.append_nil]; exact Option.some.inj ran ▸ start
  | cons i rest ih =>
    obtain ⟨met, m, stepped, ran⟩ := run_cons.mp ran
    have after := ih (keeps start met stepped) ran
    rwa [List.append_assoc] at after

end

variable {σ : Type*} {step : σ → Option (Option σ)} {s s' t t' : σ} {n n' : ℕ}

/-- The state in which the loop is finished, when it takes fewer steps than the fuel. -/
def loop (step : σ → Option (Option σ)) : (fuel : ℕ) → σ → Option σ
  | 0, _ => none
  | fuel + 1, s => do
    match ← step s with
    | none => return s
    | some s' => loop step fuel s'

def Goes (step : σ → Option (Option σ)) : σ → σ → Prop := Relation.ReflTransGen fun s s' => step s = some (some s')

theorem loop_finished (finished : step s = some none) : loop step (n + 1) s = some s := by simp [loop, finished]

theorem loop_step (stepped : step s = some (some s')) : loop step (n + 1) s = loop step n s' := by simp [loop, stepped]

theorem loop_unique (ends : loop step n s = some t) (ends' : loop step n' s = some t') : t = t' := by
  induction n generalizing n' s with
  | zero => cases ends
  | succ n ih =>
    cases n' with
    | zero => cases ends'
    | succ n' =>
      cases stepped : step s with
      | none => simp [loop, stepped] at ends
      | some next =>
        cases next with
        | none =>
          rw [loop_finished stepped] at ends ends'
          exact (Option.some.inj ends).symm.trans (Option.some.inj ends')
        | some s' =>
          rw [loop_step stepped] at ends ends'
          exact ih ends ends'

theorem loop_ends (step : σ → Option (Option σ)) (inv : σ → Prop) (measure : σ → ℕ × ℕ)
    (steps : ∀ s, inv s → step s = some none ∨
      ∃ s', step s = some (some s') ∧ inv s' ∧ Prod.Lex (· < ·) (· < ·) (measure s') (measure s))
    (start : inv s) : ∃ n t, loop step n s = some t ∧ inv t ∧ step t = some none := by
  have wf : WellFounded (InvImage (Prod.Lex (· < ·) (· < ·)) measure) :=
    InvImage.wf measure (Prod.lex Nat.lt_wfRel Nat.lt_wfRel).wf
  induction s using wf.induction with
  | _ s ih =>
    rcases steps s start with finished | ⟨s', stepped, kept, less⟩
    · exact ⟨1, s, loop_finished finished, start, finished⟩
    · obtain ⟨n, t, ends, holds, finished⟩ := ih s' less kept
      exact ⟨n + 1, t, (loop_step stepped).trans ends, holds, finished⟩

end MitScheme.Library
