import MitScheme.Runtime.WeakPair.Maps
import MitScheme.Runtime.WeakPair.Members

namespace MitScheme.Runtime.WeakPairs

open Library Library.Unlinking List

variable {κ δ β : Type}

inductive Event (ω κ : Type) where
  | operation (operation : ω)
  | collection (dead : κ → Bool)

/-- What happened: an operation with its answer and the data its finalizer was applied to, or a collection. -/
inductive Record (κ δ β : Type) where
  | performed (operation : Operation κ δ β) (answer : Answer κ δ β) (finalized : List δ)
  | collected (dead : κ → Bool)

structure Session (κ δ β : Type) where
  table : WeakAlistTable κ δ
  records : List (Record κ δ β)

def step (s : Session κ δ β) : Event (Operation κ δ β) κ → Option (Session κ δ β)
  | .operation operation =>
    let r := perform s.table operation
    some ⟨r.1, s.records ++ [.performed operation r.2 (r.1.finalized.drop s.table.finalized.length)]⟩
  | .collection dead => some ⟨collect dead s.table, s.records ++ [.collected dead]⟩

/-- The map of the keys that were not reclaimed, and the data of the reclaimed ones that were not dropped yet. -/
structure Account (κ δ : Type) where
  live : Multiset (κ × δ)
  owed : Multiset δ

/-- The records follow a finite map, and every association that is dropped because its key was reclaimed is finalized
once, unless `clear!` forgets it. -/
inductive Follows (keyEq : κ → κ → Bool) (finalizer : Bool) : List (Record κ δ β) → Account κ δ → Prop where
  | nil : Follows keyEq finalizer [] ⟨0, 0⟩
  | performed {records a operation answer live' owed'} (follows : Follows keyEq finalizer records a)
      (performs : Performs keyEq a.live operation answer live') (dropped : List δ)
      (paid : operation ≠ .clear ∧ ↑dropped + owed' = a.owed ∨ operation = .clear ∧ dropped = [] ∧ owed' = 0) :
      Follows keyEq finalizer (records ++ [.performed operation answer (if finalizer then dropped else [])]) ⟨live', owed'⟩
  | collected {records a} (follows : Follows keyEq finalizer records a) (dead : κ → Bool) :
      Follows keyEq finalizer (records ++ [.collected dead])
        ⟨a.live.filter fun e => dead e.1 = false, a.owed + (a.live.filter fun e => dead e.1 = true).map Prod.snd⟩

/-- The operation is not an `intern!` of a key that is not there. -/
def Spares (table : WeakAlistTable κ δ) : Event (Operation κ δ β) κ → Prop
  | .operation (.intern key _) => ∃ e ∈ entries table.alist, table.keyEq key e.1 = true
  | _ => True

instance (table : WeakAlistTable κ δ) (event : Event (Operation κ δ β) κ) : Decidable (Spares table event) := by
  cases event with
  | operation operation => cases operation <;> unfold Spares <;> infer_instance
  | collection dead => exact isTrue trivial

structure Valid (keyEq : κ → κ → Bool) (finalizer : Bool) (s : Session κ δ β) : Prop where
  sameEq : s.table.keyEq = keyEq
  sameFinalizer : s.table.finalizer = finalizer
  unique : Unique keyEq (entries s.table.alist)
  follows : Follows keyEq finalizer s.records ⟨entries s.table.alist, lost s.table.alist⟩

variable {keyEq : κ → κ → Bool} {finalizer : Bool} {s s' : Session κ δ β} {table : WeakAlistTable κ δ}

theorem entries_collect (dead : κ → Bool) (alist : List (WeakPair κ δ)) :
    entries (alist.map fun p => if p.car.any dead then { p with car := none } else p) =
        (entries alist).filter (fun e => dead e.1 = false) ∧
      (lost (alist.map fun p => if p.car.any dead then { p with car := none } else p) : Multiset δ) =
        lost alist + ((entries alist).filter fun e => dead e.1 = true).map Prod.snd := by
  induction alist with
  | nil => exact ⟨rfl, rfl⟩
  | cons p alist ih =>
    obtain ⟨car, cdr⟩ := p
    obtain ⟨live, owed⟩ := ih
    cases car with
    | none =>
      refine ⟨live, ?_⟩
      have grown := congrArg (fun m => cdr ::ₘ m) owed
      rwa [← Multiset.cons_add] at grown
    | some key =>
      cases isDead : dead key with
      | true =>
        simp only [map_cons, Option.any_some, isDead, if_true]
        rw [show entries (⟨some key, cdr⟩ :: alist) = (key, cdr) :: entries alist from rfl,
          filter_cons_of_neg (by simp [isDead]), filter_cons_of_pos (by simp [isDead])]
        refine ⟨live, ?_⟩
        have grown := congrArg (fun m => cdr ::ₘ m) owed
        rwa [← Multiset.add_cons] at grown
      | false =>
        simp only [map_cons, Option.any_some, isDead, Bool.false_eq_true, if_false]
        rw [show entries (⟨some key, cdr⟩ :: alist) = (key, cdr) :: entries alist from rfl,
          filter_cons_of_pos (by simp [isDead]), filter_cons_of_neg (by simp [isDead])]
        exact ⟨congrArg ((key, cdr) :: ·) live, owed⟩

theorem Valid.operation (valid : Valid keyEq finalizer s) {operation : Operation κ δ β}
    (spares : Spares s.table (.operation operation)) (stepped : step s (.operation operation) = some s') :
    Valid keyEq finalizer s' := by
  obtain ⟨rfl, rfl, unique, follows⟩ := valid
  obtain rfl := Option.some.inj stepped
  by_cases clears : operation = .clear
  · subst clears
    refine ⟨rfl, rfl, .nil, ?_⟩
    have cleared := follows.performed .clear [] (.inr ⟨rfl, rfl, rfl⟩)
    simp only [ite_self] at cleared
    simp only [perform, weakAlistTableClear, drop_length]
    exact cleared
  · have interns : ∀ key value, operation = .intern key value →
        ∃ e ∈ entries s.table.alist, s.table.keyEq key e.1 = true := by
      rintro key value rfl
      exact spares
    obtain ⟨table', es, answer, performed, ⟨rfl, sameEq, sameFinalizer, dropped, applied, paid⟩, performs, keeps⟩ :=
      perform_refines operation clears interns
    refine ⟨by rw [performed]; exact sameEq, by rw [performed]; exact sameFinalizer, ?_, ?_⟩
    · rw [performed]
      exact keeps unique
    · rw [performed]
      rw [applied, drop_left]
      exact follows.performed performs dropped (.inl ⟨clears, congrArg (fun l : List δ => (l : Multiset δ)) paid⟩)

theorem Valid.collection (valid : Valid keyEq finalizer s) {dead : κ → Bool}
    (stepped : step s (.collection dead) = some s') : Valid keyEq finalizer s' := by
  obtain ⟨rfl, rfl, unique, follows⟩ := valid
  obtain rfl := Option.some.inj stepped
  obtain ⟨live, owed⟩ := entries_collect dead s.table.alist
  refine ⟨rfl, rfl, ?_, ?_⟩
  · rw [collect, live]
    exact unique.sublist filter_sublist
  · dsimp only [collect]
    rw [live, owed]
    exact follows.collected dead

theorem Valid.step (valid : Valid keyEq finalizer s) {event : Event (Operation κ δ β) κ} (spares : Spares s.table event)
    (stepped : step s event = some s') : Valid keyEq finalizer s' := by
  cases event with
  | operation operation => exact valid.operation spares stepped
  | collection dead => exact valid.collection stepped

inductive SetRecord (κ β : Type) where
  | performed (operation : SetOperation κ β) (answer : SetAnswer κ β)
  | collected (dead : κ → Bool)

structure SetSession (κ β : Type) where
  set : WeakListSet κ
  records : List (SetRecord κ β)

inductive FollowsSet (eq : κ → κ → Bool) : List (SetRecord κ β) → Multiset κ → Prop where
  | nil : FollowsSet eq [] 0
  | performed {records m operation answer m'} (follows : FollowsSet eq records m)
      (performs : SetPerforms eq m operation answer m') : FollowsSet eq (records ++ [.performed operation answer]) m'
  | collected {records m} (follows : FollowsSet eq records m) (dead : κ → Bool) :
      FollowsSet eq (records ++ [.collected dead]) (m.filter fun x => dead x = false)

theorem kept_cells (dead : κ → Bool) (cells : List (Option κ)) :
    (cells.map fun cell => if cell.any dead then none else cell).filterMap id =
      (cells.filterMap id).filter fun x => dead x = false := by
  induction cells with
  | nil => rfl
  | cons cell cells ih =>
    cases cell with
    | none => exact ih
    | some item =>
      cases isDead : dead item with
      | true => simpa [isDead] using ih
      | false => simpa [isDead] using ih

variable [DecidableEq κ]

def setStep (s : SetSession κ β) : Event (SetOperation κ β) κ → SetSession κ β
  | .operation operation =>
    ⟨(performOnSet s.set operation).1, s.records ++ [.performed operation (performOnSet s.set operation).2]⟩
  | .collection dead => ⟨collectItems dead s.set, s.records ++ [.collected dead]⟩

structure ValidSet (eq : κ → κ → Bool) (s : SetSession κ β) : Prop where
  predicate : s.set.predicate = eq
  listed : ∃ xs, Lists s.set xs ∧ FollowsSet eq s.records xs ∧ UniqueItems eq xs

variable {eq : κ → κ → Bool} {t : SetSession κ β}

theorem ValidSet.step (refl : ∀ x, eq x x = true) (valid : ValidSet eq t) (event : Event (SetOperation κ β) κ) :
    ValidSet eq (setStep t event) := by
  obtain ⟨rfl, xs, lists, follows, unique⟩ := valid
  cases event with
  | operation operation =>
    obtain ⟨set', xs', answer, performed, lists', same, performs, keeps⟩ := performOnSet_refines refl lists operation
    simp only [setStep, performed]
    exact ⟨same, xs', lists', follows.performed performs, keeps unique⟩
  | collection dead =>
    obtain ⟨cells, weak, rfl⟩ := lists
    refine ⟨?_, _, ⟨_, ?_, kept_cells dead cells⟩, ?_, .filter _ unique⟩
    · simp [setStep, collectItems, weak]
    · simp [setStep, collectItems, weak]
    · exact follows.collected dead

theorem ValidSet.session (refl : ∀ x, eq x x = true) (valid : ValidSet eq t) (events : List (Event (SetOperation κ β) κ)) :
    ValidSet eq (events.foldl setStep t) := by
  induction events generalizing t with
  | nil => exact valid
  | cons event events ih =>
    apply ih
    exact valid.step refl event

variable {κ' : Type} {items : List κ}

/-- Weak tables answer as the finite map, and weak sets as the finite set, that the operations make of the keys that were
not reclaimed; and each association that is dropped because its key was reclaimed is finalized once. -/
theorem weak_tables_and_sets (refl : ∀ x, eq x x = true) (empty : items = []) {tableEvents : List (Event (Operation κ' δ β) κ')}
    {setEvents : List (Event (SetOperation κ β) κ)} {keyEq : κ' → κ' → Bool} {s : Session κ' δ β}
    (ran : run step (fun s event => Spares s.table event) ⟨weakAlistTable keyEq finalizer, []⟩ tableEvents = some s) :
    Follows keyEq finalizer s.records ⟨entries s.table.alist, lost s.table.alist⟩ ∧
      Unique keyEq (entries s.table.alist) ∧
      ∃ xs, Lists (setEvents.foldl setStep ⟨weakListSet eq items, []⟩).set xs ∧
        FollowsSet eq (setEvents.foldl setStep ⟨weakListSet eq items, []⟩).records xs ∧ UniqueItems eq xs := by
  subst empty
  have start : Valid keyEq finalizer ⟨weakAlistTable keyEq finalizer, ([] : List (Record κ' δ β))⟩ :=
    ⟨rfl, rfl, .nil, .nil⟩
  have valid := run_invariant (Valid keyEq finalizer) (fun valid => valid.step) start ran
  have startSet : ValidSet eq (⟨weakListSet eq [], []⟩ : SetSession κ β) :=
    ⟨rfl, [], ⟨[], rfl, rfl⟩, .nil, .nil⟩
  exact ⟨valid.follows, valid.unique, (startSet.session refl setEvents).listed⟩

/-- Two keys are set, one is reclaimed, and its datum is finalized when the table is cleaned. -/
def cleaning : List (Event (Operation ℕ ℕ ℕ) ℕ) :=
  [.operation (.set 1 7), .operation (.set 2 8), .operation (.intern 2 9), .collection fun key => key == 1,
    .operation .clean]

theorem weak_tables_and_sets_cleaning : ∃ s xs,
    run step (fun s event => Spares s.table event) ⟨weakAlistTable (fun a b => a == b) true, []⟩ cleaning = some s ∧
      s.table.finalized = [7] ∧
      Follows (fun a b => a == b) true s.records ⟨entries s.table.alist, lost s.table.alist⟩ ∧
      Lists ([.operation (.add 3), .operation .toList].foldl setStep
        (⟨weakListSet (fun a b => a == b) [], []⟩ : SetSession ℕ ℕ)).set xs := by
  have finalized : (run step (fun s => Spares s.table)
      ⟨weakAlistTable (fun a b => a == b) true, []⟩ cleaning).map (fun s => s.table.finalized) = some [7] := by
    decide
  obtain ⟨s, ran, finalized⟩ := Option.map_eq_some_iff.mp finalized
  obtain ⟨follows, -, xs, lists, -⟩ := weak_tables_and_sets (fun x : ℕ => beq_self_eq_true x) rfl ran
  exact ⟨s, xs, ran, finalized, follows, lists⟩

theorem Follows.last {records : List (Record κ' δ β)} {keyEq : κ' → κ' → Bool} {operation : Operation κ' δ β}
    {answer : Answer κ' δ β} {finalized : List δ} {a : Account κ' δ}
    (follows : Follows keyEq finalizer (records ++ [.performed operation answer finalized]) a) :
    ∃ before : Account κ' δ, Performs keyEq before.live operation answer a.live := by
  generalize same : records ++ [.performed operation answer finalized] = all at follows
  cases follows with
  | nil => simp at same
  | performed follows performs dropped paid =>
    obtain ⟨-, last⟩ := append_inj' same rfl
    obtain ⟨rfl, rfl, -⟩ := Record.performed.inj (cons.inj last).1
    exact ⟨_, performs⟩
  | collected follows dead =>
    obtain ⟨-, last⟩ := append_inj' same rfl
    exact nomatch (cons.inj last).1

theorem intern_and_constructor_fail :
    (¬∀ s : Session ℕ ℕ ℕ, run step (fun _ _ => True) ⟨weakAlistTable (fun a b => a == b) false, []⟩
        [.operation (.intern 1 7)] = some s →
      Follows (fun a b => a == b) false s.records ⟨entries s.table.alist, lost s.table.alist⟩) ∧
    ¬∃ xs, Lists ([.operation .size].foldl setStep (⟨weakListSet (fun a b => a == b) [1], []⟩ : SetSession ℕ ℕ)).set xs := by
  constructor
  · intro follows
    obtain ⟨before, performs⟩ := Follows.last (follows _ rfl : Follows _ _ ([] ++ _) _)
    cases performs
  · rintro ⟨xs, cells, weak, -⟩
    cases weak

end MitScheme.Runtime.WeakPairs
