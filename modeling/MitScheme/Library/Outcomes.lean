import Mathlib.Data.List.InsertIdx

/-!
An evaluation returns a value, signals an error, or does not return. The operands of a call are evaluated in the order that
an oracle picks.
-/

namespace MitScheme.Library

inductive Outcome (σ α : Type) where
  | value (a : α) (s : σ)
  | error (s : σ)
  | diverges
  deriving DecidableEq

def Evaluation (σ α : Type) : Type := σ → Outcome σ α

namespace Evaluation

variable {σ α β : Type}

def result (a : α) : Evaluation σ α := fun s => .value a s

def fail : Evaluation σ α := fun s => .error s

def thenDo (m : Evaluation σ α) (f : α → Evaluation σ β) : Evaluation σ β := fun s =>
  match m s with
  | .value a s' => f a s'
  | .error s' => .error s'
  | .diverges => .diverges

instance : Monad (Evaluation σ) where
  pure := result
  bind := thenDo

/-- What an `Option` gives, or an error. -/
def ofOption : Option α → Evaluation σ α
  | some a => result a
  | none => fail

def consult (f : σ → Option α) : Evaluation σ α := fun s => ofOption (f s) s

def Returns (m : Evaluation σ α) (P : α → Prop) : Prop := ∀ s a s', m s = .value a s' → P a

def Quiet (m : Evaluation σ α) : Prop := ∀ s, (∃ a, m s = .value a s) ∨ m s = .error s

theorem pure_bind (a : α) (f : α → Evaluation σ β) : (pure a >>= f) = f a := rfl

theorem bind_apply (m : Evaluation σ α) (f : α → Evaluation σ β) (s : σ) :
    (m >>= f) s = match m s with
      | .value a s' => f a s'
      | .error s' => .error s'
      | .diverges => .diverges := rfl

theorem bind_value {m : Evaluation σ α} {f : α → Evaluation σ β} {s s' : σ} {b : β}
    (returned : (m >>= f) s = .value b s') : ∃ a t, m s = .value a t ∧ f a t = .value b s' := by
  rw [bind_apply] at returned
  cases first : m s with
  | value a t => exact ⟨a, t, rfl, by simpa [first] using returned⟩
  | error t => simp [first] at returned
  | diverges => simp [first] at returned

theorem bind_result (m : Evaluation σ α) (s : σ) : (m >>= fun a => ofOption (some a)) s = m s := by
  rw [bind_apply]
  cases m s with
  | value a t => rfl
  | error t => rfl
  | diverges => rfl

theorem bind_of_value {m : Evaluation σ α} (f : α → Evaluation σ β) {s t : σ} {a : α} (first : m s = .value a t) :
    (m >>= f) s = f a t := by
  simp [bind_apply, first]

theorem bind_of_error {m : Evaluation σ α} (f : α → Evaluation σ β) {s t : σ} (first : m s = .error t) :
    (m >>= f) s = .error t := by
  simp [bind_apply, first]

theorem ofOption_bind (o : Option α) (g : α → Option β) :
    (ofOption o >>= fun a => ofOption (g a) : Evaluation σ β) = ofOption (o.bind g) := by
  cases o with
  | none => rfl
  | some a => rfl

namespace Returns

variable {m : Evaluation σ α} {f : α → Evaluation σ β} {P : α → Prop} {Q : β → Prop}

theorem mono {P' : α → Prop} (returns : Returns m P) (implies : ∀ a, P a → P' a) : Returns m P' :=
  fun s a s' value => implies a (returns s a s' value)

theorem pure {a : α} (holds : P a) : Returns (Pure.pure a : Evaluation σ α) P := by
  intro s b s' value
  cases value
  exact holds

theorem fail : Returns (fail : Evaluation σ α) P := by
  intro s b s' value
  cases value

theorem ofOption {o : Option α} (holds : ∀ a, o = some a → P a) : Returns (ofOption o : Evaluation σ α) P := by
  cases o with
  | none => exact fail
  | some a => exact pure (holds a rfl)

theorem consult {g : σ → Option α} (holds : ∀ s a, g s = some a → P a) : Returns (consult g) P :=
  fun s => ofOption (holds s) s

theorem bind (first : Returns m P) (second : ∀ a, P a → Returns (f a) Q) : Returns (m >>= f) Q := by
  intro s b s' value
  obtain ⟨a, t, left, right⟩ := bind_value value
  exact second a (first s a t left) t b s' right

theorem bind_any (second : ∀ a, Returns (f a) Q) : Returns (m >>= f) Q :=
  bind (fun _ _ _ _ => trivial : Returns m fun _ => True) fun a _ => second a

end Returns

namespace Quiet

variable {m : Evaluation σ α} {f : α → Evaluation σ β} {P : α → Prop}

theorem pure (a : α) : Quiet (Pure.pure a : Evaluation σ α) := fun _ => .inl ⟨a, rfl⟩

theorem fail : Quiet (fail : Evaluation σ α) := fun _ => .inr rfl

theorem ofOption (o : Option α) : Quiet (ofOption o : Evaluation σ α) := by
  cases o with
  | none => exact fail
  | some a => exact pure a

theorem consult (g : σ → Option α) : Quiet (consult g) := fun s => ofOption (g s) s

theorem bind (returns : Returns m P) (first : Quiet m) (second : ∀ a, P a → Quiet (f a)) : Quiet (m >>= f) := by
  intro s
  rcases first s with ⟨a, value⟩ | error
  · rw [bind_of_value f value]
    exact second a (returns s a s value) s
  · exact .inr (bind_of_error f error)

theorem bind_any (first : Quiet m) (second : ∀ a, Quiet (f a)) : Quiet (m >>= f) :=
  bind (fun _ _ _ _ => trivial : Returns m fun _ => True) first fun a _ => second a

end Quiet

/-- The evaluations one after the other, the next one always picked from those that remain. -/
def inSomeOrder (pick : σ → ℕ → ℕ) : ℕ → List (Evaluation σ α) → Evaluation σ (List α)
  | 0, _ => pure []
  | n + 1, ms => fun s =>
    let i := pick s (n + 1) % (n + 1)
    match ms[i]? with
    | none => .value [] s
    | some m => (do
        let a ← m
        let as ← inSomeOrder pick n (ms.eraseIdx i)
        pure (as.insertIdx i a)) s

theorem forall₂_insertIdx {R : β → α → Prop} {a : α} :
    ∀ {i : ℕ} {bs : List β} {as : List α} (inside : i < bs.length), R bs[i] a → List.Forall₂ R (bs.eraseIdx i) as →
      List.Forall₂ R bs (as.insertIdx i a)
  | 0, _ :: _, _, _, head, tail => .cons head tail
  | i + 1, _ :: bs, _, inside, head, .cons first rest =>
    .cons first (forall₂_insertIdx (Nat.lt_of_succ_lt_succ inside) head rest)

theorem inSomeOrder_succ (pick : σ → ℕ → ℕ) {n : ℕ} {ms : List (Evaluation σ α)} (count : ms.length = n + 1) (s : σ) :
    ∃ i, ∃ inside : i < ms.length, inSomeOrder pick (n + 1) ms s = (do
      let a ← ms[i]
      let as ← inSomeOrder pick n (ms.eraseIdx i)
      pure (as.insertIdx i a)) s := by
  have inside : pick s (n + 1) % (n + 1) < ms.length := by
    rw [count]
    exact Nat.mod_lt _ n.succ_pos
  refine ⟨_, inside, ?_⟩
  simp [inSomeOrder, List.getElem?_eq_getElem inside]

theorem inSomeOrder_returns (pick : σ → ℕ → ℕ) : ∀ {n : ℕ} {ms : List (Evaluation σ α)}, ms.length = n →
    Returns (inSomeOrder pick n ms) (List.Forall₂ (fun m a => ∃ s s', m s = .value a s') ms)
  | 0, ms, count => by
    rw [List.eq_nil_of_length_eq_zero count]
    exact .pure .nil
  | n + 1, ms, count => by
    intro s as s' value
    obtain ⟨i, inside, unfolded⟩ := inSomeOrder_succ pick count s
    rw [unfolded] at value
    obtain ⟨a, t, first, rest⟩ := bind_value value
    obtain ⟨others, t', second, last⟩ := bind_value rest
    cases last
    have erased : (ms.eraseIdx i).length = n := by rw [List.length_eraseIdx_of_lt inside, count, Nat.add_sub_cancel]
    exact forall₂_insertIdx inside ⟨s, t, first⟩ (inSomeOrder_returns pick erased t others s' second)

theorem inSomeOrder_quiet (pick : σ → ℕ → ℕ) : ∀ {n : ℕ} {ms : List (Evaluation σ α)}, ms.length = n →
    (∀ m ∈ ms, Quiet m) → Quiet (inSomeOrder pick n ms)
  | 0, _, _, _ => .pure []
  | n + 1, ms, count, quiet => by
    intro s
    obtain ⟨i, inside, unfolded⟩ := inSomeOrder_succ pick count s
    have erased : (ms.eraseIdx i).length = n := by rw [List.length_eraseIdx_of_lt inside, count, Nat.add_sub_cancel]
    rw [unfolded]
    refine Quiet.bind_any (quiet _ (List.getElem_mem inside)) (fun a => ?_) s
    exact .bind_any (inSomeOrder_quiet pick erased fun m among => quiet m (List.mem_of_mem_eraseIdx among))
      fun as => .pure _

end Evaluation

end MitScheme.Library
