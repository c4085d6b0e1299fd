import MitScheme.Library.Outcomes
import Mathlib.Data.List.Perm.Basic
import Mathlib.Data.List.Zip

/-!
An evaluation realizes a function of some operands when it evaluates each of them exactly once, in whatever order, and then
gives what the function gives for their values.
-/

namespace MitScheme.Library

open List

namespace Outcome

variable {σ α : Type}

def Agree (o o' : Outcome σ α) : Prop := o = o' ∨ ∃ s s', o = .error s ∧ o' = .error s'

theorem Agree.refl (o : Outcome σ α) : Agree o o := .inl rfl

theorem Agree.of_errors {o o' : Outcome σ α} {s s' : σ} (left : o = .error s) (right : o' = .error s') : Agree o o' :=
  .inr ⟨s, s', left, right⟩

theorem Agree.error {o o' : Outcome σ α} (agree : Agree o o') {s : σ} (left : o' = .error s) : ∃ s', o = .error s' := by
  rcases agree with rfl | ⟨t, t', right, _⟩
  · exact ⟨s, left⟩
  · exact ⟨t, right⟩

theorem Agree.value {o o' : Outcome σ α} (agree : Agree o o') {a : α} {s : σ} (right : o' = .value a s) : o = .value a s := by
  rcases agree with rfl | ⟨t, t', _, error⟩
  · exact right
  · rw [error] at right
    cases right

theorem Agree.trans {o o' o'' : Outcome σ α} (first : Agree o o') (second : Agree o' o'') : Agree o o'' := by
  rcases second with rfl | ⟨s, s', left, right⟩
  · exact first
  · obtain ⟨t, error⟩ := first.error left
    exact .of_errors error right

end Outcome

namespace Evaluation

variable {σ α β : Type}

def Sequential : List (Evaluation σ α × α) → σ → σ → Prop
  | [], s, s' => s = s'
  | (m, a) :: rest, s, s' => ∃ t, m s = .value a t ∧ Sequential rest t s'

def InSomeOrder (ms : List (Evaluation σ α)) (as : List α) (s s' : σ) : Prop :=
  ms.length = as.length ∧ ∃ order : List (Evaluation σ α × α), order.Perm (ms.zip as) ∧ Sequential order s s'

theorem Sequential.append : ∀ {first second : List (Evaluation σ α × α)} {s t s' : σ}, Sequential first s t →
    Sequential second t s' → Sequential (first ++ second) s s'
  | [], _, _, _, _, left, right => by
    cases left
    exact right
  | (_, _) :: _, _, _, _, _, ⟨t, value, rest⟩, right => ⟨t, value, rest.append right⟩

theorem Sequential.split : ∀ {first second : List (Evaluation σ α × α)} {s s' : σ}, Sequential (first ++ second) s s' →
    ∃ t, Sequential first s t ∧ Sequential second t s'
  | [], _, s, _, rest => ⟨s, rfl, rest⟩
  | (_, _) :: _, _, _, _, ⟨u, value, rest⟩ => by
    obtain ⟨t, left, right⟩ := rest.split
    exact ⟨t, ⟨u, value, left⟩, right⟩

namespace InSomeOrder

variable {ms ms' : List (Evaluation σ α)} {as as' : List α} {s t s' : σ}

theorem nil (s : σ) : InSomeOrder ([] : List (Evaluation σ α)) [] s s := ⟨rfl, [], .nil, rfl⟩

theorem single {m : Evaluation σ α} {a : α} (value : m s = .value a s') : InSomeOrder [m] [a] s s' :=
  ⟨rfl, [(m, a)], .refl _, s', value, rfl⟩

theorem append (left : InSomeOrder ms as s t) (right : InSomeOrder ms' as' t s') :
    InSomeOrder (ms ++ ms') (as ++ as') s s' := by
  obtain ⟨count, order, same, sequential⟩ := left
  obtain ⟨count', order', same', sequential'⟩ := right
  refine ⟨by simp [count, count'], order ++ order', ?_, sequential.append sequential'⟩
  rw [zip_append count]
  exact same.append same'

theorem append_swap (right : InSomeOrder ms' as' s t) (left : InSomeOrder ms as t s') :
    InSomeOrder (ms ++ ms') (as ++ as') s s' := by
  obtain ⟨count, order, same, sequential⟩ := left
  obtain ⟨count', order', same', sequential'⟩ := right
  refine ⟨by simp [count, count'], order' ++ order, ?_, sequential'.append sequential⟩
  rw [zip_append count]
  exact perm_append_comm.trans (same.append same')

end InSomeOrder

/-- After any of the operands have been evaluated, in whatever order, each of the others returns a value that is accepted. -/
def Suited (A : α → Prop) (ms : List (Evaluation σ α)) (s : σ) : Prop :=
  ∀ (before : List (Evaluation σ α × α)) (m : Evaluation σ α) (others : List (Evaluation σ α)) (t : σ),
    (before.map Prod.fst ++ m :: others).Perm ms → Sequential before s t → ∃ a t', m t = .value a t' ∧ A a

def Gives (A : α → Prop) (m : Evaluation σ α) (a : α) : Prop := (∃ t t', m t = .value a t') ∧ A a

namespace Suited

variable {A : α → Prop} {m : Evaluation σ α} {ms ms' : List (Evaluation σ α)} {as : List α} {s t : σ}

theorem perm (suited : Suited A ms s) (same : ms.Perm ms') : Suited A ms' s := fun before m others t split =>
  suited before m others t (split.trans same.symm)

theorem left (suited : Suited A (ms ++ ms') s) : Suited A ms s := by
  intro before m others t split sequential
  refine suited before m (others ++ ms') t ?_ sequential
  have whole := split.append_right ms'
  rwa [append_assoc, cons_append] at whole

theorem right (suited : Suited A (ms ++ ms') s) : Suited A ms' s := (suited.perm perm_append_comm).left

theorem head (suited : Suited A (m :: ms) s) : ∃ a t, m s = .value a t ∧ A a := suited [] m ms s (.refl _) rfl

theorem order_perm {order : List (Evaluation σ α × α)} (count : ms.length = as.length) (same : order.Perm (ms.zip as)) :
    (order.map Prod.fst).Perm ms := by
  have firsts := same.map Prod.fst
  rwa [map_fst_zip (Nat.le_of_eq count)] at firsts

theorem after (suited : Suited A (ms ++ ms') s) (ordered : InSomeOrder ms as s t) : Suited A ms' t := by
  obtain ⟨count, order, same, sequential⟩ := ordered
  intro before m others u split later
  refine suited (order ++ before) m others u ?_ (sequential.append later)
  rw [map_append, append_assoc]
  exact (order_perm count same).append split

theorem gives (suited : Suited A ms s) (ordered : InSomeOrder ms as s t) : List.Forall₂ (Gives A) ms as := by
  obtain ⟨count, order, same, sequential⟩ := ordered
  rw [forall₂_iff_zip]
  refine ⟨count, fun {m a} among => ?_⟩
  obtain ⟨before, later, split⟩ := append_of_mem (same.mem_iff.mpr among)
  rw [split] at sequential
  obtain ⟨u, first, u', value, -⟩ := sequential.split
  have operands : (before.map Prod.fst ++ m :: later.map Prod.fst).Perm ms := by
    have all := order_perm count same
    rwa [split, map_append, map_cons] at all
  obtain ⟨b, u'', value', accepted⟩ := suited before m _ u operands first
  cases value.symm.trans value'
  exact ⟨⟨u, u', value⟩, accepted⟩

end Suited

theorem Sequential.grows {size : σ → ℕ} : ∀ {order : List (Evaluation σ α × α)} {s s' : σ},
    (∀ step ∈ order, ∀ s a t, step.1 s = .value a t → size s ≤ size t) → Sequential order s s' → size s ≤ size s' ∧
      ((∃ step ∈ order, ∀ s a t, step.1 s = .value a t → size s < size t) → size s < size s')
  | [], s, s', _, same => by
    cases same
    exact ⟨le_rfl, fun ⟨step, among, _⟩ => absurd among not_mem_nil⟩
  | (m, a) :: order, s, s', never, ⟨t, value, rest⟩ => by
    obtain ⟨later, strictly⟩ := rest.grows fun step among => never step (mem_cons_of_mem _ among)
    have first := never (m, a) mem_cons_self s a t value
    refine ⟨le_trans first later, ?_⟩
    rintro ⟨step, among, grows⟩
    rcases mem_cons.mp among with rfl | among
    · exact lt_of_lt_of_le (grows s a t value) later
    · exact lt_of_le_of_lt first (strictly ⟨step, among, grows⟩)

theorem InSomeOrder.grows {size : σ → ℕ} {ms : List (Evaluation σ α)} {as : List α} {s s' : σ}
    (ordered : InSomeOrder ms as s s') (never : ∀ m ∈ ms, ∀ s a t, m s = .value a t → size s ≤ size t)
    {m : Evaluation σ α} (among : m ∈ ms) (grows : ∀ s a t, m s = .value a t → size s < size t) : size s < size s' := by
  obtain ⟨count, order, same, sequential⟩ := ordered
  have within : ∀ step ∈ order, step.1 ∈ ms := fun step among => (of_mem_zip (same.mem_iff.mp among)).1
  refine (sequential.grows fun step among => never step.1 (within step among)).2 ?_
  obtain ⟨i, inside, rfl⟩ := mem_iff_getElem.mp among
  have inside' : i < (ms.zip as).length := by
    rw [length_zip]
    omega
  refine ⟨(ms.zip as)[i], same.mem_iff.mpr (getElem_mem inside'), ?_⟩
  rw [getElem_zip]
  exact grows

theorem inSomeOrder_one (pick : σ → ℕ → ℕ) (m : Evaluation σ α) : inSomeOrder pick 1 [m] = m >>= fun a => pure [a] := by
  funext s
  obtain ⟨i, inside, unfolded⟩ := @inSomeOrder_succ σ α pick 0 [m] rfl s
  obtain rfl : i = 0 := by simpa using inside
  exact unfolded

theorem inSomeOrder_two (pick : σ → ℕ → ℕ) (m m' : Evaluation σ α) (s : σ) :
    inSomeOrder pick 2 [m, m'] s = (m >>= fun a => m' >>= fun b => pure [a, b]) s ∨
      inSomeOrder pick 2 [m, m'] s = (m' >>= fun b => m >>= fun a => pure [a, b]) s := by
  obtain ⟨i, inside, unfolded⟩ := @inSomeOrder_succ σ α pick 1 [m, m'] rfl s
  have either : i = 0 ∨ i = 1 := by
    simp only [length_cons, length_nil] at inside
    omega
  rcases either with rfl | rfl
  · left
    rw [unfolded, getElem_cons_zero, eraseIdx_cons_zero, inSomeOrder_one, bind_apply, bind_apply]
    cases m s with
    | value a t =>
      simp only [bind_apply]
      cases m' t <;> rfl
    | error t => rfl
    | diverges => rfl
  · right
    rw [unfolded, getElem_cons_succ, getElem_cons_zero, eraseIdx_cons_succ, eraseIdx_cons_zero,
      inSomeOrder_one, bind_apply, bind_apply]
    cases m' s with
    | value a t =>
      simp only [bind_apply]
      cases m t <;> rfl
    | error t => rfl
    | diverges => rfl

theorem inSomeOrder_pure (pick : σ → ℕ → ℕ) : ∀ {n : ℕ} {as : List α}, as.length = n →
    inSomeOrder pick n (as.map fun a => (pure a : Evaluation σ α)) = pure as
  | 0, as, count => by
    rw [eq_nil_of_length_eq_zero count]
    rfl
  | n + 1, as, count => by
    funext s
    have count' : (as.map fun a => (pure a : Evaluation σ α)).length = n + 1 := by rw [length_map, count]
    obtain ⟨i, inside, unfolded⟩ := inSomeOrder_succ pick count' s
    rw [length_map] at inside
    have erased : (as.eraseIdx i).length = n := by rw [length_eraseIdx_of_lt inside, count, Nat.add_sub_cancel]
    rw [unfolded, getElem_map, eraseIdx_map, inSomeOrder_pure pick erased]
    exact congrArg (fun as => Outcome.value as s) (insertIdx_eraseIdx_getElem inside)

def RealizesAt (s : σ) (e : Evaluation σ β) (ms : List (Evaluation σ α)) (g : List α → Evaluation σ β) : Prop :=
  ∃ as s', InSomeOrder ms as s s' ∧ Outcome.Agree (e s) (g as s')

def Realizes (A : α → Prop) (e : Evaluation σ β) (ms : List (Evaluation σ α)) (g : List α → Evaluation σ β) : Prop :=
  ∀ s, Suited A ms s → RealizesAt s e ms g

def RealizesPure (A : α → Prop) (e : Evaluation σ β) (ms : List (Evaluation σ α)) (f : List α → Option β) : Prop :=
  Realizes A e ms fun as => ofOption (f as)

theorem agree_bind {e : Evaluation σ α} {o : Option α} {s s' : σ} (agree : Outcome.Agree (e s) (ofOption o s'))
    (k : α → Evaluation σ β) : Outcome.Agree ((e >>= k) s) ((ofOption o >>= k) s') := by
  cases o with
  | none =>
    obtain ⟨t, error⟩ := agree.error rfl
    exact .of_errors (bind_of_error k error) rfl
  | some a =>
    rw [bind_of_value k (agree.value rfl)]
    exact .refl _

theorem agree_both {e : Evaluation σ α} {e' : Evaluation σ β} {o : Option α} {o' : Option β} {γ : Type} {s t s' : σ}
    (agree : Outcome.Agree (e s) (ofOption o t)) (agree' : Outcome.Agree (e' t) (ofOption o' s'))
    (k : α → β → Evaluation σ γ) :
    Outcome.Agree ((e >>= fun a => e' >>= fun b => k a b) s)
      ((ofOption o >>= fun a => ofOption o' >>= fun b => k a b) s') := by
  cases o with
  | none =>
    obtain ⟨t, error⟩ := agree.error rfl
    exact .of_errors (bind_of_error _ error) rfl
  | some a =>
    rw [bind_of_value _ (agree.value rfl)]
    exact agree_bind agree' (k a)

theorem ofOption_comm (o : Option α) (o' : Option β) {γ : Type} (k : α → β → Evaluation σ γ) (s : σ) :
    Outcome.Agree ((ofOption o' >>= fun b => ofOption o >>= fun a => k a b) s)
      ((ofOption o >>= fun a => ofOption o' >>= fun b => k a b) s) := by
  cases o with
  | none =>
    cases o' with
    | none => exact .refl _
    | some b => exact .refl _
  | some a =>
    cases o' with
    | none => exact .refl _
    | some b => exact .refl _

namespace Realizes

variable {A : α → Prop} {e : Evaluation σ β} {ms : List (Evaluation σ α)} {g g' : List α → Evaluation σ β}

theorem congr (realizes : Realizes A e ms g) (same : ∀ as, List.Forall₂ (Gives A) ms as → g as = g' as) : Realizes A e ms g' := by
  intro s suited
  obtain ⟨as, s', ordered, agree⟩ := realizes s suited
  refine ⟨as, s', ordered, ?_⟩
  rw [← same as (suited.gives ordered)]
  exact agree

end Realizes

namespace RealizesPure

variable {A : α → Prop} {e e' : Evaluation σ β} {ms ms' : List (Evaluation σ α)} {f f' : List α → Option β} {γ : Type}

theorem congr (realizes : RealizesPure A e ms f) (same : ∀ as, List.Forall₂ (Gives A) ms as → f as = f' as) :
    RealizesPure A e ms f' :=
  Realizes.congr realizes fun as returned => by rw [same as returned]

theorem constant (b : β) : RealizesPure A (pure b) ([] : List (Evaluation σ α)) fun _ => some b :=
  fun s _ => ⟨[], s, .nil s, .refl _⟩

theorem operand (m : Evaluation σ α) : RealizesPure A m [m] List.head? := by
  intro s suited
  obtain ⟨a, s', value, -⟩ := suited.head
  exact ⟨[a], s', .single value, .inl value⟩

theorem bind (realizes : RealizesPure A e ms f) (k : β → Evaluation σ γ) :
    Realizes A (e >>= k) ms fun as => ofOption (f as) >>= k := by
  intro s suited
  obtain ⟨as, s', ordered, agree⟩ := realizes s suited
  exact ⟨as, s', ordered, agree_bind agree k⟩

theorem bind_both (realizes : RealizesPure A e ms f) (realizes' : RealizesPure A e' ms' f') (k : β → β → Evaluation σ γ)
    {m : Evaluation σ γ} (either : ∀ s, Suited A (ms ++ ms') s → m s = (e >>= fun a => e' >>= fun b => k a b) s ∨
      m s = (e' >>= fun b => e >>= fun a => k a b) s) :
    Realizes A m (ms ++ ms') fun as =>
      ofOption (f (as.take ms.length)) >>= fun a => ofOption (f' (as.drop ms.length)) >>= fun b => k a b := by
  intro s suited
  rcases either s suited with order | order
  · obtain ⟨as, t, ordered, agree⟩ := realizes s suited.left
    obtain ⟨as', s', ordered', agree'⟩ := realizes' t (suited.after ordered)
    refine ⟨as ++ as', s', ordered.append ordered', ?_⟩
    simp only [order, take_left' ordered.1.symm, drop_left' ordered.1.symm]
    exact agree_both agree agree' k
  · have swapped := suited.perm perm_append_comm
    obtain ⟨as', t, ordered', agree'⟩ := realizes' s swapped.left
    obtain ⟨as, s', ordered, agree⟩ := realizes t (swapped.after ordered')
    refine ⟨as ++ as', s', .append_swap ordered' ordered, ?_⟩
    simp only [order, take_left' ordered.1.symm, drop_left' ordered.1.symm]
    exact (agree_both agree' agree fun b a => k a b).trans (ofOption_comm _ _ k s')

end RealizesPure

end Evaluation

end MitScheme.Library
