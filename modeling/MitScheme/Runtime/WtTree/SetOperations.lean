import MitScheme.Runtime.WtTree.Operations

namespace MitScheme.Runtime.WtTree

open Library

section
variable {K V : Type} [LinearOrder K] {f : K → Option V → Option V → Option V} {t t1 t2 l r l1 r1 left right : Node K V}
  {ak : K} {av : V}

/-- A tree holds the combination of two trees, and is balanced when they are. -/
structure Combines (f : K → Option V → Option V → Option V) (t1 t2 t : Node K V) : Prop where
  weighed : t.Weighed
  sorted : Sorted t.entries
  lookup : ∀ k, lookup k t.entries = f k (lookup k t1.entries) (lookup k t2.entries)
  balanced : t1.Balanced → t2.Balanced → t.Balanced

theorem combines_empty_left (weighed : t2.Weighed) (sorted : Sorted t2.entries) (keeps : ∀ k v, f k none v = v) :
    Combines f .empty t2 t2 :=
  ⟨weighed, sorted, fun k => (keeps k _).symm, fun _ balanced => balanced⟩

theorem combines_empty_right (weighed : t1.Weighed) (sorted : Sorted t1.entries) (keeps : ∀ k v, f k v none = v) :
    Combines f t1 .empty t1 :=
  ⟨weighed, sorted, fun k => (keeps k _).symm, fun balanced _ => balanced⟩

structure Parts (f : K → Option V → Option V → Option V) (t1 : Node K V) (ak : K) (av : V) (l r left right : Node K V) :
    Prop where
  sorted : Sorted (l.entries ++ (ak, av) :: r.entries)
  sorted1 : Sorted t1.entries
  weighed_l : left.Weighed
  weighed_r : right.Weighed
  small : ∀ p ∈ left.entries, p.1 < ak
  large : ∀ p ∈ right.entries, ak < p.1
  sorted_l : Sorted left.entries
  sorted_r : Sorted right.entries
  lookup_l : ∀ k, Library.lookup k left.entries = f k (Library.lookup k (below ak t1.entries)) (Library.lookup k l.entries)
  lookup_r : ∀ k, Library.lookup k right.entries = f k (Library.lookup k (above ak t1.entries)) (Library.lookup k r.entries)
  balanced_l : t1.Balanced → l.Balanced → left.Balanced
  balanced_r : t1.Balanced → r.Balanced → right.Balanced

/-- What the operations on sets do first with a node: `t1` is split at the key, and its parts are combined with the subtrees. -/
theorem parts_of_splits {combine : Node K V → Node K V → Except Failure (Node K V)} (nothing : ∀ k, f k none none = none)
    {w : ℕ} (weighed1 : t1.Weighed) (sorted1 : Sorted t1.entries) (weighed : (Node.node w l ak r av).Weighed)
    (sorted : Sorted (l.entries ++ (ak, av) :: r.entries))
    (on_l : ∀ {t1}, t1.Weighed → Sorted t1.entries → l.Weighed → Sorted l.entries → ∃ t, combine t1 l = .ok t ∧ Combines f t1 l t)
    (on_r : ∀ {t1}, t1.Weighed → Sorted t1.entries → r.Weighed → Sorted r.entries → ∃ t, combine t1 r = .ok t ∧ Combines f t1 r t) :
    ∃ l1 r1 left right, nodeSplitLt ak t1 = .ok l1 ∧ nodeSplitGt ak t1 = .ok r1 ∧ combine l1 l = .ok left ∧
      combine r1 r = .ok right ∧ Parts f t1 ak av l r left right := by
  obtain ⟨sorted_l, sorted_r, small, large⟩ := sorted_node.mp sorted
  obtain ⟨l1, split_lt, results_l⟩ := nodeSplitLt_results weighed1 sorted1 ak
  obtain ⟨r1, split_gt, results_r⟩ := nodeSplitGt_results weighed1 sorted1 ak
  obtain ⟨left, made_l, combines_l⟩ := on_l results_l.weighed (results_l.entries ▸ sorted1.below ak) weighed.2.1 sorted_l
  obtain ⟨right, made_r, combines_r⟩ := on_r results_r.weighed (results_r.entries ▸ sorted1.above ak) weighed.2.2 sorted_r
  have lookup_l := combines_l.lookup
  have lookup_r := combines_r.lookup
  rw [results_l.entries] at lookup_l
  rw [results_r.entries] at lookup_r
  refine ⟨l1, r1, left, right, split_lt, split_gt, made_l, made_r, ?_⟩
  exact {
    sorted, sorted1, lookup_l, lookup_r
    weighed_l := combines_l.weighed
    weighed_r := combines_r.weighed
    small := fun p => combined_below nothing combines_l.sorted small sorted1 lookup_l
    large := fun p => combined_above nothing combines_r.sorted large sorted1 lookup_r
    sorted_l := combines_l.sorted
    sorted_r := combines_r.sorted
    balanced_l := fun balanced => combines_l.balanced (results_l.balanced balanced)
    balanced_r := fun balanced => combines_r.balanced (results_r.balanced balanced) }

theorem Parts.concat3 (parts : Parts f t1 ak av l r left right) {w : Nat} {v : V}
    (here : f ak (lookup ak t1.entries) (some av) = some v) :
    ∃ t, nodeConcat3 ak v left right = .ok t ∧ Combines f t1 (.node w l ak r av) t := by
  have sorted : Sorted (left.entries ++ (ak, v) :: right.entries) :=
    sorted_node.mpr ⟨parts.sorted_l, parts.sorted_r, parts.small, parts.large⟩
  obtain ⟨t, joined, results⟩ := nodeConcat3_results (v := v) parts.weighed_l parts.weighed_r sorted
  refine ⟨t, joined, results.weighed, by rw [results.entries]; exact sorted, fun k => ?_, ?_⟩
  · rw [results.entries]
    have root : ∀ p ∈ [(ak, v)], p.1 = ak := by simp
    refine lookup_combined parts.sorted1 parts.sorted parts.small parts.large root parts.lookup_l parts.lookup_r ?_ k
    rw [here, lookup_cons, if_pos rfl]
  · rintro balanced ⟨-, balanced_l, balanced_r⟩
    exact results.balanced ⟨parts.balanced_l balanced balanced_l, parts.balanced_r balanced balanced_r⟩

theorem Parts.concat (parts : Parts f t1 ak av l r left right) {w : Nat}
    (here : f ak (lookup ak t1.entries) (some av) = none) :
    ∃ t, nodeConcat left right = .ok t ∧ Combines f t1 (.node w l ak r av) t := by
  have sorted : Sorted (left.entries ++ right.entries) := sorted_append.mpr ⟨parts.sorted_l, parts.sorted_r,
    fun p member_p q member_q => (parts.small p member_p).trans (parts.large q member_q)⟩
  obtain ⟨t, joined, results⟩ := nodeConcat_results parts.weighed_l parts.weighed_r sorted
  refine ⟨t, joined, results.weighed, by rw [results.entries]; exact sorted, fun k => ?_, ?_⟩
  · rw [results.entries]
    have root : ∀ p ∈ ([] : List (K × V)), p.1 = ak := by simp
    refine lookup_combined parts.sorted1 parts.sorted parts.small parts.large root parts.lookup_l parts.lookup_r ?_ k
    rw [here]
    rfl
  · rintro balanced ⟨-, balanced_l, balanced_r⟩
    exact results.balanced ⟨parts.balanced_l balanced balanced_l, parts.balanced_r balanced balanced_r⟩

def overridden (_ : K) (v1 v2 : Option V) : Option V := v2.or v1

def merged (merge : K → V → V → V) (k : K) : Option V → Option V → Option V
  | some v1, some v2 => some (merge k v2 v1)
  | v1, none => v1
  | none, v2 => v2

def without (_ : K) (v1 : Option V) : Option V → Option V
  | some _ => none
  | none => v1

def common (_ : K) : Option V → Option V → Option V
  | some _, v2 => v2
  | none, _ => none

theorem nodeUnion_combines (weighed1 : t1.Weighed) (sorted1 : Sorted t1.entries) (weighed2 : t2.Weighed)
    (sorted2 : Sorted t2.entries) : ∃ t, nodeUnion t1 t2 = .ok t ∧ Combines overridden t1 t2 t := by
  induction t2 generalizing t1 with
  | empty =>
    refine ⟨t1, ?_, combines_empty_right weighed1 sorted1 fun _ _ => Option.none_or⟩
    cases t1 <;> rfl
  | node w l ak r av left right =>
    by_cases empty : t1 = .empty
    · subst empty
      exact ⟨_, rfl, combines_empty_left weighed2 sorted2 fun _ _ => Option.or_none⟩
    obtain ⟨l1, r1, lu, ru, split_lt, split_gt, union_l, union_r, parts⟩ :=
      parts_of_splits (fun _ => rfl) weighed1 sorted1 weighed2 sorted2 left right
    obtain ⟨t, joined, combines⟩ := parts.concat3 (w := w) (v := av) rfl
    refine ⟨t, ?_, combines⟩
    rw [nodeUnion, split_lt, split_gt]
    · simp [bind, Except.bind, union_l, union_r, joined]
    · exact empty

theorem nodeUnionMerge_combines (merge : K → V → V → V) (weighed1 : t1.Weighed) (sorted1 : Sorted t1.entries)
    (weighed2 : t2.Weighed) (sorted2 : Sorted t2.entries) :
    ∃ t, nodeUnionMerge merge t1 t2 = .ok t ∧ Combines (merged merge) t1 t2 t := by
  induction t2 generalizing t1 with
  | empty =>
    refine ⟨t1, ?_, combines_empty_right weighed1 sorted1 fun _ v => by cases v <;> rfl⟩
    cases t1 <;> rfl
  | node w l ak r av left right =>
    by_cases empty : t1 = .empty
    · subst empty
      exact ⟨_, rfl, combines_empty_left weighed2 sorted2 fun _ v => by cases v <;> rfl⟩
    obtain ⟨l1, r1, lu, ru, split_lt, split_gt, union_l, union_r, parts⟩ :=
      parts_of_splits (fun _ => rfl) weighed1 sorted1 weighed2 sorted2 left right
    -- the datum is merged when the key is found
    have found := nodeFind_eq (k := ak) sorted1
    have here : merged merge ak (lookup ak t1.entries) (some av) =
        some ((nodeFind ak t1).elim av fun e => merge ak av e.2) := by
      rw [← found]
      cases nodeFind ak t1 <;> rfl
    obtain ⟨t, joined, combines⟩ := parts.concat3 (w := w) here
    refine ⟨t, ?_, combines⟩
    rw [nodeUnionMerge, split_lt, split_gt]
    · simp only [bind, Except.bind, union_l, union_r]
      cases find : nodeFind ak t1 with
      | none =>
        rw [find] at joined
        exact joined
      | some e =>
        rw [find] at joined
        exact joined
    · exact empty

theorem nodeDifference_combines (weighed1 : t1.Weighed) (sorted1 : Sorted t1.entries) (weighed2 : t2.Weighed)
    (sorted2 : Sorted t2.entries) : ∃ t, nodeDifference t1 t2 = .ok t ∧ Combines without t1 t2 t := by
  induction t2 generalizing t1 with
  | empty =>
    refine ⟨t1, ?_, combines_empty_right weighed1 sorted1 fun _ _ => rfl⟩
    cases t1 <;> rfl
  | node w l ak r av left right =>
    by_cases empty : t1 = .empty
    · subst empty
      refine ⟨.empty, rfl, trivial, sorted1, fun k => ?_, fun _ _ => trivial⟩
      cases lookup k (Node.node w l ak r av).entries <;> rfl
    obtain ⟨l1, r1, ld, rd, split_lt, split_gt, difference_l, difference_r, parts⟩ :=
      parts_of_splits (fun _ => rfl) weighed1 sorted1 weighed2 sorted2 left right
    obtain ⟨t, joined, combines⟩ := parts.concat (w := w) rfl
    refine ⟨t, ?_, combines⟩
    rw [nodeDifference, split_lt, split_gt]
    · simp [bind, Except.bind, difference_l, difference_r, joined]
    · exact empty

theorem nodeIntersection_combines (weighed1 : t1.Weighed) (sorted1 : Sorted t1.entries) (weighed2 : t2.Weighed)
    (sorted2 : Sorted t2.entries) : ∃ t, nodeIntersection t1 t2 = .ok t ∧ Combines common t1 t2 t := by
  induction t2 generalizing t1 with
  | empty =>
    refine ⟨.empty, ?_, trivial, sorted2, fun k => ?_, fun _ _ => trivial⟩
    · cases t1 <;> rfl
    · cases lookup k t1.entries <;> rfl
  | node w l ak r av left right =>
    by_cases empty : t1 = .empty
    · subst empty
      exact ⟨.empty, rfl, trivial, sorted1, fun _ => rfl, fun _ _ => trivial⟩
    obtain ⟨l1, r1, li, ri, split_lt, split_gt, common_l, common_r, parts⟩ :=
      parts_of_splits (fun _ => rfl) weighed1 sorted1 weighed2 sorted2 left right
    have found := nodeFind_eq (k := ak) sorted1
    cases search : nodeFind ak t1 with
    | some entry =>
      rw [search] at found
      obtain ⟨t, joined, combines⟩ := parts.concat3 (w := w) (v := av) (by rw [← found]; rfl)
      refine ⟨t, ?_, combines⟩
      rw [nodeIntersection, split_lt, split_gt]
      · simp [bind, Except.bind, common_l, common_r, search, joined]
      · exact empty
    | none =>
      rw [search] at found
      obtain ⟨t, joined, combines⟩ := parts.concat (w := w) (by rw [← found]; rfl)
      refine ⟨t, ?_, combines⟩
      rw [nodeIntersection, split_lt, split_gt]
      · simp [bind, Except.bind, common_l, common_r, search, joined]
      · exact empty

end

end MitScheme.Runtime.WtTree
