import MitScheme.Runtime.WtTree.SetOperations

/-!
The exported procedures over a store of trees of one type. No procedure writes into a node, so the
nodes are values; a tree is an index into the store, and a new tree is added at the end.
-/

namespace MitScheme.Runtime.WtTree

open Library

section
variable {K V : Type} [LinearOrder K]

inductive Command (K V : Type) where
  | make
  | singleton (k : K) (v : V)
  | alist (alist : List (K × V))
  | add (tree : Nat) (k : K) (v : V)
  | delete (tree : Nat) (k : K)
  | deleteMin (tree : Nat)
  | splitLt (tree : Nat) (bound : K)
  | splitGt (tree : Nat) (bound : K)
  | union (tree1 tree2 : Nat)
  | unionMerge (tree1 tree2 : Nat) (merge : K → V → V → V)
  | intersection (tree1 tree2 : Nat)
  | difference (tree1 tree2 : Nat)

def guaranteeTree (store : List (Node K V)) (tree : Nat) : Except Error (Node K V) :=
  match store[tree]? with
  | some root => .ok root
  | none => .error .wrongType

def perform (store : List (Node K V)) : Command K V → Except Error (Node K V)
  | .make => .ok .empty
  | .singleton k v => .ok (singleton k v)
  | .alist alist => addAlist alist .empty
  | .add tree k v => do nodeAdd k v (← guaranteeTree store tree)
  | .delete tree k => do nodeDelete k (← guaranteeTree store tree)
  | .deleteMin tree => do nodeDelmin (← guaranteeTree store tree)
  | .splitLt tree bound => do nodeSplitLt bound (← guaranteeTree store tree)
  | .splitGt tree bound => do nodeSplitGt bound (← guaranteeTree store tree)
  | .union tree1 tree2 => do nodeUnion (← guaranteeTree store tree1) (← guaranteeTree store tree2)
  | .unionMerge tree1 tree2 merge => do
    nodeUnionMerge merge (← guaranteeTree store tree1) (← guaranteeTree store tree2)
  | .intersection tree1 tree2 => do nodeIntersection (← guaranteeTree store tree1) (← guaranteeTree store tree2)
  | .difference tree1 tree2 => do nodeDifference (← guaranteeTree store tree1) (← guaranteeTree store tree2)

def step (store : List (Node K V)) (command : Command K V) : Except Error (List (Node K V)) := do
  let tree ← perform store command
  .ok (store ++ [tree])

def run (store : List (Node K V)) (commands : List (Command K V)) : Except Error (List (Node K V)) :=
  commands.foldlM step store

/-- `tree/get`; `none` stands for the default. -/
def treeGet (k : K) (tree : Node K V) : Option V := (nodeFind k tree).map Prod.snd

/-- `balanced?` -/
def balancedP : Node K V → Bool
  | .empty => true
  | .node _ l _ r _ => !overweight l.size r.size && !overweight r.size l.size && balancedP l && balancedP r

/-- `ordered?` -/
def orderedP : Node K V → (K → Bool) → (K → Bool) → Bool
  | .empty, _, _ => true
  | .node _ l k r _, notTooLow, notTooHigh =>
    notTooLow k && notTooHigh k && orderedP l notTooLow (fun k' => k' < k) &&
      orderedP r (fun k' => k < k') notTooHigh

def validP (tree : Node K V) : Bool := balancedP tree && orderedP tree (fun _ => true) (fun _ => true)

def Counts : Node K V → Prop
  | .empty => True
  | .node w l k r v => w = (Node.node w l k r v).entries.length ∧ Counts l ∧ Counts r

structure Sound (t : Node K V) : Prop where
  weighed : t.Weighed
  sorted : Sorted t.entries
  balanced : t.Balanced

variable {t t1 t2 : Node K V}

theorem treeGet_eq (sorted : Sorted t.entries) (k : K) : treeGet k t = lookup k t.entries := nodeFind_eq sorted

omit [LinearOrder K] in
theorem counts_of_weighed (weighed : t.Weighed) : Counts t := by
  induction t with
  | empty => trivial
  | node w l k r v left right =>
    obtain ⟨weight, weighed_l, weighed_r⟩ := weighed
    exact ⟨Node.Weighed.size_eq (t := .node w l k r v) ⟨weight, weighed_l, weighed_r⟩, left weighed_l, right weighed_r⟩

omit [LinearOrder K] in
theorem balancedP_of_balanced (balanced : t.Balanced) : balancedP t = true := by
  induction t with
  | empty => rfl
  | node w l k r v left right =>
    obtain ⟨near, balanced_l, balanced_r⟩ := balanced
    have light_l : overweight l.size r.size = false := by
      rw [Bool.eq_false_iff, ne_eq, overweight_iff]
      have small := near.2
      omega
    have light_r : overweight r.size l.size = false := by
      rw [Bool.eq_false_iff, ne_eq, overweight_iff]
      have small := near.1
      omega
    rw [balancedP, light_l, light_r, left balanced_l, right balanced_r]
    rfl

theorem orderedP_of_sorted (sorted : Sorted t.entries) {notTooLow notTooHigh : K → Bool}
    (low : ∀ p ∈ t.entries, notTooLow p.1 = true) (high : ∀ p ∈ t.entries, notTooHigh p.1 = true) :
    orderedP t notTooLow notTooHigh = true := by
  induction t generalizing notTooLow notTooHigh with
  | empty => rfl
  | node w l k r v left right =>
    obtain ⟨sorted_l, sorted_r, small, large⟩ := sorted_node.mp sorted
    have member_l : ∀ p ∈ l.entries, p ∈ (Node.node w l k r v).entries := fun p member => by
      simp [Node.entries, member]
    have member_r : ∀ p ∈ r.entries, p ∈ (Node.node w l k r v).entries := fun p member => by
      simp [Node.entries, member]
    have member_k : (k, v) ∈ (Node.node w l k r v).entries := by simp [Node.entries]
    rw [orderedP, low _ member_k, high _ member_k,
      left sorted_l (fun p member => low p (member_l p member)) (fun p member => decide_eq_true (small p member)),
      right sorted_r (fun p member => decide_eq_true (large p member)) fun p member => high p (member_r p member)]
    rfl

theorem Sound.validP (sound : Sound t) : validP t = true := by
  rw [WtTree.validP, balancedP_of_balanced sound.balanced,
    orderedP_of_sorted sound.sorted (fun _ _ => rfl) fun _ _ => rfl]
  rfl

theorem sound_empty : Sound (.empty : Node K V) := ⟨trivial, List.Pairwise.nil, trivial⟩

theorem sound_of_results {es : List (K × V)} {balanced : Prop} (results : Results t es balanced) (sorted : Sorted es)
    (holds : balanced) : Sound t := ⟨results.weighed, results.entries ▸ sorted, results.balanced holds⟩

theorem sound_of_combines {f : K → Option V → Option V → Option V} (combines : Combines f t1 t2 t)
    (sound1 : Sound t1) (sound2 : Sound t2) : Sound t :=
  ⟨combines.weighed, combines.sorted, combines.balanced sound1.balanced sound2.balanced⟩

theorem addAlist_sound (alist : List (K × V)) (sound : Sound t) : ∃ t', addAlist alist t = .ok t' ∧ Sound t' := by
  induction alist generalizing t with
  | nil => exact ⟨t, rfl, sound⟩
  | cons p alist ih =>
    obtain ⟨t', added, results, -⟩ := nodeAdd_results sound.weighed sound.sorted p.1 p.2
    obtain ⟨t'', rest, sound'⟩ := ih (sound_of_results results (sound.sorted.insertEntry p.1 p.2) sound.balanced)
    exact ⟨t'', by rw [addAlist, added]; exact rest, sound'⟩

/-- Every error other than those for an empty tree and for what is no tree would be a reference
into an empty node. -/
theorem perform_sound {store : List (Node K V)} (sound : ∀ t ∈ store, Sound t) (command : Command K V) :
    (∃ t, perform store command = .ok t ∧ Sound t) ∨ perform store command = .error .empty ∨
      perform store command = .error .wrongType := by
  have fetch : ∀ tree, (∃ t, guaranteeTree store tree = .ok t ∧ Sound t) ∨ guaranteeTree store tree = .error .wrongType := by
    intro tree
    rw [guaranteeTree]
    cases found : store[tree]? with
    | some t => exact .inl ⟨t, rfl, sound t (List.mem_of_getElem? found)⟩
    | none => exact .inr rfl
  have one : ∀ {f : Node K V → Except Error (Node K V)} tree,
      (∀ t, Sound t → (∃ t', f t = .ok t' ∧ Sound t') ∨ f t = .error .empty) →
      (∃ t, (guaranteeTree store tree >>= f) = .ok t ∧ Sound t) ∨ (guaranteeTree store tree >>= f) = .error .empty ∨
        (guaranteeTree store tree >>= f) = .error .wrongType := by
    intro f tree sound_f
    rcases fetch tree with ⟨t, fetched, sound_t⟩ | missing
    · rw [fetched]
      rcases sound_f t sound_t with result | empty
      · exact .inl result
      · exact .inr (.inl empty)
    · rw [missing]
      exact .inr (.inr rfl)
  have two : ∀ {f : Node K V → Node K V → Except Error (Node K V)} tree1 tree2,
      (∀ t1 t2, Sound t1 → Sound t2 → ∃ t', f t1 t2 = .ok t' ∧ Sound t') →
      (∃ t, (guaranteeTree store tree1 >>= fun t1 => guaranteeTree store tree2 >>= f t1) = .ok t ∧ Sound t) ∨
        (guaranteeTree store tree1 >>= fun t1 => guaranteeTree store tree2 >>= f t1) = .error .empty ∨
        (guaranteeTree store tree1 >>= fun t1 => guaranteeTree store tree2 >>= f t1) = .error .wrongType := by
    intro f tree1 tree2 sound_f
    rcases fetch tree1 with ⟨t1, fetched, sound1⟩ | missing
    · rw [fetched]
      exact one tree2 fun t2 sound2 => .inl (sound_f t1 t2 sound1 sound2)
    · rw [missing]
      exact .inr (.inr rfl)
  cases command with
  | make => exact .inl ⟨_, rfl, sound_empty⟩
  | singleton k v =>
    obtain ⟨t, added, results, -⟩ := nodeAdd_results (t := (.empty : Node K V)) trivial List.Pairwise.nil k v
    cases added
    exact .inl ⟨_, rfl, sound_of_results results (.insertEntry List.Pairwise.nil k v) trivial⟩
  | alist alist => exact .inl (addAlist_sound alist sound_empty)
  | add tree k v =>
    refine one tree fun t sound => .inl ?_
    obtain ⟨t', added, results, -⟩ := nodeAdd_results sound.weighed sound.sorted k v
    exact ⟨t', added, sound_of_results results (sound.sorted.insertEntry k v) sound.balanced⟩
  | delete tree k =>
    refine one tree fun t sound => .inl ?_
    obtain ⟨t', deleted, results, -⟩ := nodeDelete_results sound.weighed sound.sorted k
    exact ⟨t', deleted, sound_of_results results (sound.sorted.deleteEntry k) sound.balanced⟩
  | deleteMin tree =>
    refine one tree fun t sound => ?_
    by_cases empty : t = .empty
    · subst empty
      exact .inr rfl
    · obtain ⟨p, rest, -, deleted, delmins⟩ := nodeDelmin_delmins sound.weighed empty
      have sorted := sound.sorted
      rw [delmins.entries, sorted_cons] at sorted
      exact .inl ⟨rest, deleted, delmins.weighed, sorted.2, delmins.balanced sound.balanced⟩
  | splitLt tree bound =>
    refine one tree fun t sound => .inl ?_
    obtain ⟨t', split, results⟩ := nodeSplitLt_results sound.weighed sound.sorted bound
    exact ⟨t', split, sound_of_results results (sound.sorted.below bound) sound.balanced⟩
  | splitGt tree bound =>
    refine one tree fun t sound => .inl ?_
    obtain ⟨t', split, results⟩ := nodeSplitGt_results sound.weighed sound.sorted bound
    exact ⟨t', split, sound_of_results results (sound.sorted.above bound) sound.balanced⟩
  | union tree1 tree2 =>
    refine two tree1 tree2 fun t1 t2 sound1 sound2 => ?_
    obtain ⟨t, ran, combines⟩ := nodeUnion_combines sound1.weighed sound1.sorted sound2.weighed sound2.sorted
    exact ⟨t, ran, sound_of_combines combines sound1 sound2⟩
  | unionMerge tree1 tree2 merge =>
    refine two tree1 tree2 fun t1 t2 sound1 sound2 => ?_
    obtain ⟨t, ran, combines⟩ := nodeUnionMerge_combines merge sound1.weighed sound1.sorted sound2.weighed sound2.sorted
    exact ⟨t, ran, sound_of_combines combines sound1 sound2⟩
  | intersection tree1 tree2 =>
    refine two tree1 tree2 fun t1 t2 sound1 sound2 => ?_
    obtain ⟨t, ran, combines⟩ := nodeIntersection_combines sound1.weighed sound1.sorted sound2.weighed sound2.sorted
    exact ⟨t, ran, sound_of_combines combines sound1 sound2⟩
  | difference tree1 tree2 =>
    refine two tree1 tree2 fun t1 t2 sound1 sound2 => ?_
    obtain ⟨t, ran, combines⟩ := nodeDifference_combines sound1.weighed sound1.sorted sound2.weighed sound2.sorted
    exact ⟨t, ran, sound_of_combines combines sound1 sound2⟩

theorem run_sound {store : List (Node K V)} (sound : ∀ t ∈ store, Sound t) (commands : List (Command K V)) :
    (∃ store', run store commands = .ok store' ∧ ∀ t ∈ store', Sound t) ∨ run store commands = .error .empty ∨
      run store commands = .error .wrongType := by
  induction commands generalizing store with
  | nil => exact .inl ⟨store, rfl, sound⟩
  | cons command commands ih =>
    have first : run store (command :: commands) = (step store command >>= fun store => run store commands) := rfl
    rw [first, step]
    rcases perform_sound sound command with ⟨t, performed, sound_t⟩ | failed | failed
    · rw [performed]
      refine ih fun t' member => ?_
      rcases List.mem_append.mp member with member | member
      · exact sound t' member
      · exact List.mem_singleton.mp member ▸ sound_t
    · rw [failed]
      exact .inr (.inl rfl)
    · rw [failed]
      exact .inr (.inr rfl)

/-- Every tree that any calls make is valid, and no call refers into an empty node. -/
theorem trees_valid (commands : List (Command K V)) :
    (∃ store, run [] commands = .ok store ∧ ∀ t ∈ store, validP t = true ∧ t.Balanced ∧ Sorted t.entries ∧ Counts t) ∨
    run [] commands = .error .empty ∨ run [] commands = .error .wrongType := by
  rcases run_sound (fun t member => absurd member List.not_mem_nil) commands with ⟨store, ran, sound⟩ | failed
  · exact .inl ⟨store, ran, fun t member => ⟨(sound t member).validP, (sound t member).balanced,
      (sound t member).sorted, counts_of_weighed (sound t member).weighed⟩⟩
  · exact .inr failed

/-- The call adds a tree that is the map, and leaves the trees of the store as they are. -/
def Makes (store : List (Node K V)) (command : Command K V) (map : K → Option V) : Prop :=
  ∃ t, step store command = .ok (store ++ [t]) ∧ t.Weighed ∧ Sorted t.entries ∧ ∀ k, treeGet k t = map k

theorem makes_of_ok {store : List (Node K V)} {command : Command K V} {map : K → Option V}
    (performed : perform store command = .ok t) (weighed : t.Weighed) (sorted : Sorted t.entries)
    (maps : ∀ k, lookup k t.entries = map k) : Makes store command map :=
  ⟨t, by rw [step, performed]; rfl, weighed, sorted, fun k => by rw [treeGet_eq sorted, maps]⟩

/-- The operations on ordered trees are the operations on finite maps. -/
theorem trees_are_maps {store : List (Node K V)} {tree1 tree2 : Nat} (read1 : store[tree1]? = some t1)
    (read2 : store[tree2]? = some t2) (weighed1 : t1.Weighed) (sorted1 : Sorted t1.entries) (weighed2 : t2.Weighed)
    (sorted2 : Sorted t2.entries) :
    Makes store (.union tree1 tree2) (fun k => (treeGet k t2).or (treeGet k t1)) ∧
    Makes store (.difference tree1 tree2) (fun k => if (treeGet k t2).isSome then none else treeGet k t1) ∧
    (∀ b, Makes store (.splitLt tree1 b) fun k => if k < b then treeGet k t1 else none) ∧
    (∀ b, Makes store (.splitGt tree1 b) fun k => if b < k then treeGet k t1 else none) ∧
    (∀ k' v, Makes store (.add tree1 k' v) fun k => if k = k' then some v else treeGet k t1) ∧
    (∀ k', Makes store (.delete tree1 k') fun k => if k = k' then none else treeGet k t1) ∧
    (t1 ≠ .empty → ∃ k', (treeGet k' t1).isSome ∧ (∀ k, (treeGet k t1).isSome → k' ≤ k) ∧
      Makes store (.deleteMin tree1) fun k => if k = k' then none else treeGet k t1) := by
  have fetch1 : guaranteeTree store tree1 = .ok t1 := by rw [guaranteeTree, read1]
  have fetch2 : guaranteeTree store tree2 = .ok t2 := by rw [guaranteeTree, read2]
  have get1 := treeGet_eq sorted1
  have get2 := treeGet_eq sorted2
  simp only [get1, get2]
  refine ⟨?_, ?_, fun b => ?_, fun b => ?_, fun k' v => ?_, fun k' => ?_, fun nonempty => ?_⟩
  · obtain ⟨t, ran, combines⟩ := nodeUnion_combines weighed1 sorted1 weighed2 sorted2
    exact makes_of_ok (by rw [perform, fetch1, fetch2]; exact ran) combines.weighed combines.sorted combines.lookup
  · obtain ⟨t, ran, combines⟩ := nodeDifference_combines weighed1 sorted1 weighed2 sorted2
    refine makes_of_ok (by rw [perform, fetch1, fetch2]; exact ran) combines.weighed combines.sorted fun k => ?_
    rw [combines.lookup]
    cases lookup k t2.entries <;> rfl
  · obtain ⟨t, ran, results⟩ := nodeSplitLt_results weighed1 sorted1 b
    refine makes_of_ok (by rw [perform, fetch1]; exact ran) results.weighed
      (results.entries ▸ sorted1.below b) fun k => ?_
    rw [results.entries, lookup_below sorted1]
  · obtain ⟨t, ran, results⟩ := nodeSplitGt_results weighed1 sorted1 b
    refine makes_of_ok (by rw [perform, fetch1]; exact ran) results.weighed
      (results.entries ▸ sorted1.above b) fun k => ?_
    rw [results.entries, lookup_above sorted1]
  · obtain ⟨t, ran, results, -⟩ := nodeAdd_results weighed1 sorted1 k' v
    refine makes_of_ok (by rw [perform, fetch1]; exact ran) results.weighed
      (results.entries ▸ sorted1.insertEntry k' v) fun k => ?_
    rw [results.entries, lookup_insertEntry sorted1]
  · obtain ⟨t, ran, results, -⟩ := nodeDelete_results weighed1 sorted1 k'
    refine makes_of_ok (by rw [perform, fetch1]; exact ran) results.weighed
      (results.entries ▸ sorted1.deleteEntry k') fun k => ?_
    rw [results.entries, lookup_deleteEntry sorted1]
  · obtain ⟨p, rest, -, ran, delmins⟩ := nodeDelmin_delmins weighed1 nonempty
    have sorted := sorted1
    rw [delmins.entries, sorted_cons] at sorted
    obtain ⟨least, sorted_rest⟩ := sorted
    refine ⟨p.1, ?_, fun k found => ?_, ?_⟩
    · rw [delmins.entries, lookup_cons, if_pos rfl]
      rfl
    · by_contra less
      rw [delmins.entries, lookup_cons, if_neg (fun same => less same.le),
        lookup_eq_none_of_lt least (le_of_not_ge less)] at found
      cases found
    · refine makes_of_ok (by rw [perform, fetch1]; exact ran) delmins.weighed sorted_rest fun k => ?_
      rw [delmins.entries, lookup_cons]
      by_cases same : k = p.1
      · rw [if_pos same, same, lookup_eq_none_of_lt least (le_refl _)]
      · rw [if_neg same, if_neg fun equal => same equal.symm]

end

theorem trees_are_maps_three :
    let t1 : Node Nat Nat := .node 3 (.node 1 .empty 1 .empty 10) 2 (.node 1 .empty 3 .empty 30) 20
    let t2 : Node Nat Nat := .node 1 .empty 2 .empty 21
    Makes [t1, t2] (.union 0 1) (fun k => (treeGet k t2).or (treeGet k t1)) ∧
    Makes [t1, t2] (.difference 0 1) (fun k => if (treeGet k t2).isSome then none else treeGet k t1) ∧
    (∀ b, Makes [t1, t2] (.splitLt 0 b) fun k => if k < b then treeGet k t1 else none) ∧
    (∀ b, Makes [t1, t2] (.splitGt 0 b) fun k => if b < k then treeGet k t1 else none) ∧
    (∀ k' v, Makes [t1, t2] (.add 0 k' v) fun k => if k = k' then some v else treeGet k t1) ∧
    (∀ k', Makes [t1, t2] (.delete 0 k') fun k => if k = k' then none else treeGet k t1) ∧
    (t1 ≠ .empty → ∃ k', (treeGet k' t1).isSome ∧ (∀ k, (treeGet k t1).isSome → k' ≤ k) ∧
      Makes [t1, t2] (.deleteMin 0) fun k => if k = k' then none else treeGet k t1) :=
  trees_are_maps rfl rfl ⟨rfl, ⟨rfl, trivial, trivial⟩, rfl, trivial, trivial⟩ (by decide) ⟨rfl, trivial, trivial⟩
    (by decide)

end MitScheme.Runtime.WtTree
