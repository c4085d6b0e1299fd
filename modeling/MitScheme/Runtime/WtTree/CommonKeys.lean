import MitScheme.Runtime.WtTree.Trees

namespace MitScheme.Runtime.WtTree

open Library

section
variable {K V : Type} [LinearOrder K] {t1 t2 t : Node K V} {store : List (Node K V)} {tree1 tree2 : Nat}

def Agree (t1 t2 : Node K V) : Prop :=
  ∀ k v1 v2, treeGet k t1 = some v1 → treeGet k t2 = some v2 → v1 = v2

/-- The manual's union of two maps, with the datum of the first tree before that of the second. -/
def mergedInOrder (merge : K → V → V → V) (k : K) : Option V → Option V → Option V
  | some v1, some v2 => some (merge k v1 v2)
  | v1, none => v1
  | none, v2 => v2

theorem step_eq {command : Command K V} (performed : perform store command = .ok t) :
    step store command = .ok (store ++ [t]) := by
  rw [step, performed]
  rfl

theorem step_inj {command : Command K V} {t' : Node K V} (performed : perform store command = .ok t)
    (stepped : step store command = .ok (store ++ [t'])) : t' = t := by
  rw [step_eq performed] at stepped
  simpa using stepped.symm

/-- The domain restriction of the first tree to the keys of the second. -/
def restriction (t1 t2 : Node K V) : List (K × V) := t1.entries.filter fun p => (treeGet p.1 t2).isSome

theorem mem_restriction {p : K × V} : p ∈ restriction t1 t2 ↔ p ∈ t1.entries ∧ (treeGet p.1 t2).isSome := by
  rw [restriction, List.mem_filter]

theorem entries_intersection (sorted1 : Sorted t1.entries) (sorted2 : Sorted t2.entries)
    (combines : Combines common t1 t2 t) : t.entries = restriction t1 t2 ↔ Agree t1 t2 := by
  have get1 := treeGet_eq sorted1
  have get2 := treeGet_eq sorted2
  constructor
  · intro same k v1 v2 found1 found2
    have found : lookup k t.entries = some v2 := by
      rw [combines.lookup, ← get1, ← get2, found1, found2]
      rfl
    have member : (k, v2) ∈ restriction t1 t2 := same ▸ combines.sorted.lookup_eq_some.mp found
    have first : lookup k t1.entries = some v2 := sorted1.lookup_eq_some.mpr (mem_restriction.mp member).1
    rw [← get1, found1] at first
    exact Option.some.inj first
  · intro agree
    apply combines.sorted.ext (List.Pairwise.filter _ sorted1)
    intro p
    change p ∈ t.entries ↔ p ∈ restriction t1 t2
    rw [mem_restriction, ← combines.sorted.lookup_eq_some, ← sorted1.lookup_eq_some, combines.lookup, ← get1, ← get2]
    cases found1 : treeGet p.1 t1 with
    | none => simp [common]
    | some v1 =>
      cases found2 : treeGet p.1 t2 with
      | none => simp [common]
      | some v2 => simp [common, agree p.1 v1 v2 found1 found2]

/-- The intersection is the restriction of the first tree exactly when the trees agree. -/
theorem intersection_restricts_iff (read1 : store[tree1]? = some t1) (read2 : store[tree2]? = some t2)
    (weighed1 : t1.Weighed) (sorted1 : Sorted t1.entries) (weighed2 : t2.Weighed) (sorted2 : Sorted t2.entries) :
    (∃ t, step store (.intersection tree1 tree2) = .ok (store ++ [t]) ∧
      t.entries = t1.entries.filter fun p => (treeGet p.1 t2).isSome) ↔ Agree t1 t2 := by
  have fetch1 : guaranteeTree store tree1 = .ok t1 := by rw [guaranteeTree, read1]
  have fetch2 : guaranteeTree store tree2 = .ok t2 := by rw [guaranteeTree, read2]
  obtain ⟨t, ran, combines⟩ := nodeIntersection_combines weighed1 sorted1 weighed2 sorted2
  have performed : perform store (.intersection tree1 tree2) = .ok t := by
    rw [perform, fetch1, fetch2]
    exact ran
  have decided := entries_intersection sorted1 sorted2 combines
  constructor
  · rintro ⟨t', stepped, restricts⟩
    rw [step_inj performed stepped] at restricts
    exact decided.mp restricts
  · intro agree
    exact ⟨t, step_eq performed, decided.mpr agree⟩

omit [LinearOrder K] in
theorem merged_eq_inOrder {merge : K → V → V → V} {k : K} {v1 v2 : Option V}
    (same : ∀ a1 a2, v1 = some a1 → v2 = some a2 → merge k a2 a1 = merge k a1 a2) :
    merged merge k v1 v2 = mergedInOrder merge k v1 v2 := by
  cases v1 with
  | none => cases v2 <;> rfl
  | some a1 =>
    cases v2 with
    | none => rfl
    | some a2 => exact congrArg some (same a1 a2 rfl rfl)

theorem makes_unionMerge_iff {merge : K → V → V → V} (sorted1 : Sorted t1.entries) (sorted2 : Sorted t2.entries)
    (combines : Combines (merged merge) t1 t2 t) (performed : perform store (.unionMerge tree1 tree2 merge) = .ok t) :
    Makes store (.unionMerge tree1 tree2 merge) (fun k => mergedInOrder merge k (treeGet k t1) (treeGet k t2)) ↔
      ∀ k v1 v2, treeGet k t1 = some v1 → treeGet k t2 = some v2 → merge k v2 v1 = merge k v1 v2 := by
  have get1 := treeGet_eq sorted1
  have get2 := treeGet_eq sorted2
  constructor
  · rintro ⟨t', stepped, -, -, maps⟩ k v1 v2 found1 found2
    have value : treeGet k t' = mergedInOrder merge k (treeGet k t1) (treeGet k t2) := maps k
    rw [step_inj performed stepped, treeGet_eq combines.sorted, combines.lookup, ← get1, ← get2, found1, found2] at value
    exact Option.some.inj value
  · intro same
    apply makes_of_ok performed combines.weighed combines.sorted
    intro k
    rw [combines.lookup, ← get1, ← get2]
    exact merged_eq_inOrder (same k)

theorem nodeUnionMerge_second (weighed1 : t1.Weighed) (sorted1 : Sorted t1.entries) (sorted2 : Sorted t2.entries)
    (agree : ∀ k v1 v2, lookup k t1.entries = some v1 → lookup k t2.entries = some v2 → v1 = v2) :
    nodeUnionMerge (fun _ _ v2 => v2) t1 t2 = nodeUnion t1 t2 := by
  induction t2 generalizing t1 with
  | empty => cases t1 <;> rfl
  | node w l ak r av left right =>
    by_cases empty : t1 = .empty
    · subst empty
      rfl
    obtain ⟨sorted_l, sorted_r, small, large⟩ := sorted_node.mp sorted2
    obtain ⟨l1, split_lt, results_l⟩ := nodeSplitLt_results weighed1 sorted1 ak
    obtain ⟨r1, split_gt, results_r⟩ := nodeSplitGt_results weighed1 sorted1 ak
    -- a key of a part is a key of the whole
    have whole_l : ∀ k v, lookup k l.entries = some v → lookup k (Node.node w l ak r av).entries = some v := by
      intro k v found
      apply sorted2.lookup_eq_some.mpr
      exact List.mem_append_left _ (sorted_l.lookup_eq_some.mp found)
    have whole_r : ∀ k v, lookup k r.entries = some v → lookup k (Node.node w l ak r av).entries = some v := by
      intro k v found
      apply sorted2.lookup_eq_some.mpr
      exact List.mem_append_right _ (List.mem_cons_of_mem _ (sorted_r.lookup_eq_some.mp found))
    have whole_l1 : ∀ k v, lookup k l1.entries = some v → lookup k t1.entries = some v := by
      intro k v found
      rw [results_l.entries] at found
      exact sorted1.lookup_eq_some.mpr (mem_below.mp ((sorted1.below ak).lookup_eq_some.mp found)).1
    have whole_r1 : ∀ k v, lookup k r1.entries = some v → lookup k t1.entries = some v := by
      intro k v found
      rw [results_r.entries] at found
      exact sorted1.lookup_eq_some.mpr (mem_above.mp ((sorted1.above ak).lookup_eq_some.mp found)).1
    have union_l := left results_l.weighed (results_l.entries ▸ sorted1.below ak) sorted_l
      fun k v1 v2 found1 found2 => agree k v1 v2 (whole_l1 k v1 found1) (whole_l k v2 found2)
    have union_r := right results_r.weighed (results_r.entries ▸ sorted1.above ak) sorted_r
      fun k v1 v2 found1 found2 => agree k v1 v2 (whole_r1 k v1 found1) (whole_r k v2 found2)
    have found := nodeFind_eq (k := ak) sorted1
    rw [nodeUnionMerge, nodeUnion, split_lt, split_gt]
    · simp only [bind, Except.bind, union_l, union_r]
      cases search : nodeFind ak t1 with
      | none => rfl
      | some entry =>
        rw [search] at found
        have same : entry.2 = av := agree ak entry.2 av found.symm (lookup_present small)
        rw [← same]
    · exact empty
    · exact empty

theorem unionMerge_union_iff (sorted1 : Sorted t1.entries) (sorted2 : Sorted t2.entries) (weighed1 : t1.Weighed)
    (weighed2 : t2.Weighed) : nodeUnionMerge (fun _ _ v2 => v2) t1 t2 = nodeUnion t1 t2 ↔ Agree t1 t2 := by
  have get1 := treeGet_eq sorted1
  have get2 := treeGet_eq sorted2
  constructor
  · intro same k v1 v2 found1 found2
    obtain ⟨t, ran, combines⟩ := nodeUnion_combines weighed1 sorted1 weighed2 sorted2
    obtain ⟨t', ran', combines'⟩ := nodeUnionMerge_combines (fun _ _ v2 => v2) weighed1 sorted1 weighed2 sorted2
    obtain rfl : t' = t := by
      rw [same, ran] at ran'
      exact (Except.ok.inj ran').symm
    have value := combines.lookup k
    rw [combines'.lookup, ← get1, ← get2, found1, found2] at value
    exact Option.some.inj value
  · intro agree
    apply nodeUnionMerge_second weighed1 sorted1 sorted2
    intro k v1 v2 found1 found2
    rw [← get1] at found1
    rw [← get2] at found2
    exact agree k v1 v2 found1 found2

/-- The merge procedure is applied as the manual says exactly when the order of the data does not
matter to it, and choosing the second datum gives the union exactly when the trees agree. -/
theorem unionMerge_merges_iff (read1 : store[tree1]? = some t1) (read2 : store[tree2]? = some t2)
    (weighed1 : t1.Weighed) (sorted1 : Sorted t1.entries) (weighed2 : t2.Weighed) (sorted2 : Sorted t2.entries) :
    (∀ merge : K → V → V → V,
      Makes store (.unionMerge tree1 tree2 merge) (fun k => mergedInOrder merge k (treeGet k t1) (treeGet k t2)) ↔
        ∀ k v1 v2, treeGet k t1 = some v1 → treeGet k t2 = some v2 → merge k v2 v1 = merge k v1 v2) ∧
    (step store (.unionMerge tree1 tree2 fun _ _ v2 => v2) = step store (.union tree1 tree2) ↔ Agree t1 t2) := by
  have fetch1 : guaranteeTree store tree1 = .ok t1 := by rw [guaranteeTree, read1]
  have fetch2 : guaranteeTree store tree2 = .ok t2 := by rw [guaranteeTree, read2]
  have performed : ∀ merge, perform store (.unionMerge tree1 tree2 merge) = nodeUnionMerge merge t1 t2 := by
    intro merge
    rw [perform, fetch1, fetch2]
    rfl
  constructor
  · intro merge
    obtain ⟨t, ran, combines⟩ := nodeUnionMerge_combines merge weighed1 sorted1 weighed2 sorted2
    exact makes_unionMerge_iff sorted1 sorted2 combines ((performed merge).trans ran)
  · rw [← unionMerge_union_iff sorted1 sorted2 weighed1 weighed2]
    obtain ⟨t, ran, -⟩ := nodeUnion_combines weighed1 sorted1 weighed2 sorted2
    obtain ⟨t', ran', -⟩ := nodeUnionMerge_combines (fun _ _ v2 => v2) weighed1 sorted1 weighed2 sorted2
    have performed_union : perform store (.union tree1 tree2) = .ok t := by
      rw [perform, fetch1, fetch2]
      exact ran
    rw [step_eq performed_union, step_eq ((performed _).trans ran'), ran, ran']
    simp

end

theorem intersection_restricts_iff_one :
    let t1 : Node Nat Nat := .node 2 .empty 1 (.node 1 .empty 2 .empty 20) 10
    let t2 : Node Nat Nat := .node 1 .empty 2 .empty 20
    (∃ t, step [t1, t2] (.intersection 0 1) = .ok ([t1, t2] ++ [t]) ∧
      t.entries = t1.entries.filter fun p => (treeGet p.1 t2).isSome) ↔ Agree t1 t2 :=
  intersection_restricts_iff rfl rfl ⟨rfl, trivial, rfl, trivial, trivial⟩ (by decide) ⟨rfl, trivial, trivial⟩
    (by decide)

theorem intersection_not_restriction :
    let t1 : Node Nat Nat := .node 1 .empty 1 .empty 10
    let t2 : Node Nat Nat := .node 1 .empty 1 .empty 11
    ¬∃ t, step [t1, t2] (.intersection 0 1) = .ok ([t1, t2] ++ [t]) ∧
      t.entries = t1.entries.filter fun p => (treeGet p.1 t2).isSome := by
  rintro t1 t2 ⟨t, stepped, restricts⟩
  have performed : perform [t1, t2] (.intersection 0 1) = .ok (.node 1 .empty 1 .empty 11) := by
    change nodeConcat3 1 11 .empty .empty = _
    rw [nodeConcat3]
    rfl
  rw [step_inj performed stepped] at restricts
  revert restricts
  decide

theorem unionMerge_merges_iff_one :
    let t1 : Node Nat Nat := .node 2 .empty 1 (.node 1 .empty 2 .empty 20) 10
    let t2 : Node Nat Nat := .node 1 .empty 2 .empty 20
    (∀ merge : Nat → Nat → Nat → Nat,
      Makes [t1, t2] (.unionMerge 0 1 merge) (fun k => mergedInOrder merge k (treeGet k t1) (treeGet k t2)) ↔
        ∀ k v1 v2, treeGet k t1 = some v1 → treeGet k t2 = some v2 → merge k v2 v1 = merge k v1 v2) ∧
    (step [t1, t2] (.unionMerge 0 1 fun _ _ v2 => v2) = step [t1, t2] (.union 0 1) ↔ Agree t1 t2) :=
  unionMerge_merges_iff rfl rfl ⟨rfl, trivial, rfl, trivial, trivial⟩ (by decide) ⟨rfl, trivial, trivial⟩ (by decide)

theorem unionMerge_reversed :
    let t1 : Node Nat Nat := .node 1 .empty 1 .empty 10
    let t2 : Node Nat Nat := .node 1 .empty 1 .empty 11
    ¬Makes [t1, t2] (.unionMerge 0 1 fun _ v1 v2 => v1 - v2)
      fun k => mergedInOrder (fun _ v1 v2 => v1 - v2) k (treeGet k t1) (treeGet k t2) := by
  rintro t1 t2 ⟨t, stepped, -, -, maps⟩
  have performed : perform [t1, t2] (.unionMerge 0 1 fun _ v1 v2 => v1 - v2) = .ok (.node 1 .empty 1 .empty 1) := by
    change nodeConcat3 1 1 .empty .empty = _
    rw [nodeConcat3]
    rfl
  have value := maps 1
  rw [step_inj performed stepped] at value
  revert value
  decide

end MitScheme.Runtime.WtTree
