import Mathlib.Data.List.Perm.Subperm
import Mathlib.Data.List.Nodup

/-!
Pairs in a store, addressed by position. The second part of a pair refers to the next one; a
chain is a path along these references, up to a reference where it stops.
-/

namespace MitScheme.Library

open List

structure Pair (α ρ : Type*) where
  car : α
  cdr : ρ
deriving DecidableEq, Repr

variable {α ρ : Type*} {link : ℕ → ρ} {store : List (Pair α ρ)} {nodes rest : List (ℕ × α)} {start middle stop : ρ}
  {i : ℕ} {x : α}

/-- The nodes, addresses with their values, lead from `start` to `stop`. -/
def Chain (link : ℕ → ρ) (store : List (Pair α ρ)) : ρ → List (ℕ × α) → ρ → Prop
  | start, [], stop => start = stop
  | start, (i, x) :: rest, stop => start = link i ∧ ∃ next, store[i]? = some ⟨x, next⟩ ∧ Chain link store next rest stop

theorem chain_append : Chain link store start (nodes ++ rest) stop ↔
    ∃ middle, Chain link store start nodes middle ∧ Chain link store middle rest stop := by
  induction nodes generalizing start with
  | nil =>
    constructor
    · intro chain
      exact ⟨start, rfl, chain⟩
    · rintro ⟨middle, same, chain⟩
      cases same
      exact chain
  | cons node nodes ih =>
    constructor
    · rintro ⟨here, next, held, chain⟩
      obtain ⟨middle, first, last⟩ := ih.mp chain
      exact ⟨middle, ⟨here, next, held, first⟩, last⟩
    · rintro ⟨middle, ⟨here, next, held, first⟩, last⟩
      exact ⟨here, next, held, ih.mpr ⟨middle, first, last⟩⟩

theorem chain_single : Chain link store start [(i, x)] stop ↔ start = link i ∧ store[i]? = some ⟨x, stop⟩ := by
  constructor
  · rintro ⟨here, next, held, same⟩
    cases same
    exact ⟨here, held⟩
  · rintro ⟨here, held⟩
    exact ⟨here, stop, held, rfl⟩

section
variable (chain : Chain link store start nodes stop)
include chain

theorem Chain.nil_of_stop (none : ∀ i, start ≠ link i) : nodes = [] := by
  cases nodes with
  | nil => rfl
  | cons node nodes => exact absurd chain.1 (none node.1)

theorem Chain.inside {node : ℕ × α} (member : node ∈ nodes) : node.1 < store.length := by
  induction nodes generalizing start with
  | nil => cases member
  | cons first nodes ih =>
    obtain ⟨here, next, held, chain⟩ := chain
    cases member with
    | head => exact (List.getElem?_eq_some_iff.mp held).1
    | tail _ member => exact ih chain member

theorem Chain.length_le (distinct : (nodes.map Prod.fst).Nodup) : nodes.length ≤ store.length := by
  have small : (nodes.map Prod.fst).Subperm (range store.length) := by
    apply subperm_of_subset distinct
    intro i member
    obtain ⟨node, present, rfl⟩ := mem_map.mp member
    exact mem_range.mpr (chain.inside present)
  have counted := small.length_le
  rwa [length_map, length_range] at counted

theorem Chain.frame {store' : List (Pair α ρ)}
    (agree : ∀ i ∈ nodes.map Prod.fst, store'[i]? = store[i]?) : Chain link store' start nodes stop := by
  induction nodes generalizing start with
  | nil => exact chain
  | cons node nodes ih =>
    obtain ⟨here, next, held, chain⟩ := chain
    refine ⟨here, next, ?_, ih chain ?_⟩
    · rw [agree node.1 (by simp), held]
    · intro i member
      exact agree i (mem_cons_of_mem _ member)

theorem Chain.alloc (pair : Pair α ρ) : Chain link (store ++ [pair]) start nodes stop := by
  apply chain.frame
  intro i member
  obtain ⟨node, present, rfl⟩ := mem_map.mp member
  rw [getElem?_append_left (chain.inside present)]

theorem Chain.outside (apart : i ∉ nodes.map Prod.fst)
    (change : Pair α ρ → Pair α ρ) : Chain link (store.modify i change) start nodes stop := by
  apply chain.frame
  intro j member
  have different : i ≠ j := by
    rintro rfl
    exact apart member
  simp [different]

end

theorem Chain.retarget (chain : Chain link store start (nodes ++ [(i, x)]) stop)
    (distinct : ((nodes ++ [(i, x)]).map Prod.fst).Nodup) (stop' : ρ) :
    Chain link (store.modify i fun pair => { pair with cdr := stop' }) start (nodes ++ [(i, x)]) stop' := by
  obtain ⟨middle, first, last⟩ := chain_append.mp chain
  obtain ⟨here, held⟩ := chain_single.mp last
  rw [map_append, nodup_append] at distinct
  refine chain_append.mpr ⟨middle, first.outside ?_ _, chain_single.mpr ⟨here, ?_⟩⟩
  · intro member
    exact distinct.2.2 i member i (by simp) rfl
  · simp [held]

theorem Chain.update (change : α → α) (chain : Chain link store start nodes stop) :
    Chain link (store.modify i fun pair => { pair with car := change pair.car }) start
      (nodes.map fun node => if node.1 = i then (node.1, change node.2) else node) stop := by
  induction nodes generalizing start with
  | nil => exact chain
  | cons node nodes ih =>
    obtain ⟨j, x⟩ := node
    obtain ⟨here, next, held, chain⟩ := chain
    rw [map_cons]
    by_cases same : j = i
    · subst same
      rw [if_pos rfl]
      exact ⟨here, next, by simp [held], ih chain⟩
    · rw [if_neg same]
      exact ⟨here, next, by simp [held, Ne.symm same], ih chain⟩

theorem Chain.map (change : α → α) (chain : Chain link store start nodes stop) :
    Chain link (store.map fun pair => { pair with car := change pair.car }) start
      (nodes.map fun node => (node.1, change node.2)) stop := by
  induction nodes generalizing start with
  | nil => exact chain
  | cons node nodes ih =>
    obtain ⟨here, next, held, chain⟩ := chain
    exact ⟨here, next, by simp [held], ih chain⟩

theorem Chain.unique {nodes' : List (ℕ × α)} (injective : Function.Injective link) (stops : ∀ i, stop ≠ link i)
    (chain : Chain link store start nodes stop) (chain' : Chain link store start nodes' stop) : nodes = nodes' := by
  induction nodes generalizing start nodes' with
  | nil =>
    cases chain
    exact (chain'.nil_of_stop stops).symm
  | cons node nodes ih =>
    obtain ⟨i, x⟩ := node
    obtain ⟨rfl, next, held, chain⟩ := chain
    rcases nodes' with _ | ⟨⟨j, y⟩, nodes'⟩
    · exact absurd (show link i = stop from chain') (stops i).symm
    · obtain ⟨same, next', held', chain'⟩ := chain'
      obtain rfl := injective same
      obtain ⟨rfl, rfl⟩ := Pair.mk.inj (Option.some.inj (held.symm.trans held'))
      rw [ih chain chain']

theorem Chain.suffix {front : List (ℕ × α)} (chain : Chain link store start (front ++ (i, x) :: rest) stop) :
    Chain link store (link i) ((i, x) :: rest) stop := by
  obtain ⟨middle, -, here, last⟩ := chain_append.mp chain
  exact ⟨rfl, last⟩

theorem Chain.nodup (injective : Function.Injective link) (stops : ∀ i, stop ≠ link i)
    (chain : Chain link store start nodes stop) : (nodes.map Prod.fst).Nodup := by
  induction nodes generalizing start with
  | nil => exact nodup_nil
  | cons node nodes ih =>
    obtain ⟨i, x⟩ := node
    obtain ⟨rfl, next, held, tail⟩ := chain
    rw [map_cons, nodup_cons]
    refine ⟨fun member => ?_, ih tail⟩
    obtain ⟨⟨j, y⟩, present, rfl⟩ := mem_map.mp member
    obtain ⟨front, rest, rfl⟩ := append_of_mem present
    have whole : Chain link store (link j) ((j, x) :: (front ++ (j, y) :: rest)) stop := ⟨rfl, next, held, tail⟩
    have lengths := congrArg length (tail.suffix.unique injective stops whole)
    simp only [length_cons, length_append] at lengths
    omega

def Grounded (link : ℕ → ρ) (stop : ρ) (store : List (Pair α ρ)) : Prop :=
  ∀ i < store.length, ∃ nodes, Chain link store (link i) nodes stop

theorem Chain.grounded {store' : List (Pair α ρ)} (moved : ℕ → Prop)
    (ends : ∀ i, moved i → ∃ nodes, Chain link store' (link i) nodes stop)
    (agree : ∀ i, ¬moved i → store'[i]? = store[i]?) (chain : Chain link store start nodes stop) :
    ∃ nodes, Chain link store' start nodes stop := by
  induction nodes generalizing start with
  | nil => exact ⟨[], chain⟩
  | cons node nodes ih =>
    obtain ⟨i, x⟩ := node
    obtain ⟨rfl, next, held, tail⟩ := chain
    by_cases changed : moved i
    · exact ends i changed
    · obtain ⟨nodes', tail'⟩ := ih tail
      exact ⟨(i, x) :: nodes', rfl, next, by rw [agree i changed, held], tail'⟩

theorem Grounded.change {store' : List (Pair α ρ)} (grounded : Grounded link stop store) (moved : ℕ → Prop)
    (ends : ∀ i, moved i → ∃ nodes, Chain link store' (link i) nodes stop)
    (agree : ∀ i, ¬moved i → store'[i]? = store[i]?) (length : store'.length = store.length) :
    Grounded link stop store' := by
  intro i inside
  obtain ⟨nodes, chain⟩ := grounded i (length ▸ inside)
  exact chain.grounded moved ends agree

end MitScheme.Library
