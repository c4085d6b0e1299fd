import MitScheme.Library.SortedEntries
import MitScheme.Runtime.WtTree.Node

namespace MitScheme.Runtime.WtTree

open Library
open List (append_nil length_append nil_append)

section
variable {K V : Type} [LinearOrder K]

/-- The loop of `node/find`, down to the last node whose key is not greater. -/
def findLoop (k : K) : Node K V → Option (K × V) → Option (K × V)
  | .empty, best => best
  | .node _ l k' r v', best => if k < k' then findLoop k l best else findLoop k r (some (k', v'))

def nodeFind (k : K) (node : Node K V) : Option (K × V) :=
  match findLoop k node none with
  | none => none
  | some best => if best.1 < k then none else some best

def nodeAdd (k : K) (v : V) : Node K V → Except Error (Node K V)
  | .empty => .ok (singleton k v)
  | .node _ l key r val =>
    if k < key then do
      let l ← nodeAdd k v l
      tJoin key val l r
    else if key < k then do
      let r ← nodeAdd k v r
      tJoin key val l r
    else .ok (nJoin key v l r)

def nodeDelete (x : K) : Node K V → Except Error (Node K V)
  | .empty => .ok .empty
  | .node _ l key r val =>
    if x < key then do
      let l ← nodeDelete x l
      tJoin key val l r
    else if key < x then do
      let r ← nodeDelete x r
      tJoin key val l r
    else nodeConcat2 l r

def nodeConcat3 (k : K) (v : V) (l r : Node K V) : Except Error (Node K V) :=
  match l, r with
  | .empty, r => nodeAdd k v r
  | l, .empty => nodeAdd k v l
  | .node w1 l1 k1 r1 v1, .node w2 l2 k2 r2 v2 =>
    if overweight w1 w2 then do
      let l ← nodeConcat3 k v (.node w1 l1 k1 r1 v1) l2
      tJoin k2 v2 l r2
    else if overweight w2 w1 then do
      let r ← nodeConcat3 k v r1 (.node w2 l2 k2 r2 v2)
      tJoin k1 v1 l1 r
    else .ok (nJoin k v (.node w1 l1 k1 r1 v1) (.node w2 l2 k2 r2 v2))
termination_by sizeOf l + sizeOf r

def nodeConcat (tree1 tree2 : Node K V) : Except Error (Node K V) :=
  match tree1, tree2 with
  | .empty, tree2 => .ok tree2
  | tree1, .empty => .ok tree1
  | tree1, tree2 => do
    let (k, v) ← nodeMin tree2
    let rest ← nodeDelmin tree2
    nodeConcat3 k v tree1 rest

def nodeSplitLt (x : K) : Node K V → Except Error (Node K V)
  | .empty => .ok .empty
  | .node _ l k r v =>
    if x < k then nodeSplitLt x l
    else if k < x then do
      let r ← nodeSplitLt x r
      nodeConcat3 k v l r
    else .ok l

def nodeSplitGt (x : K) : Node K V → Except Error (Node K V)
  | .empty => .ok .empty
  | .node _ l k r v =>
    if k < x then nodeSplitGt x r
    else if x < k then do
      let l ← nodeSplitGt x l
      nodeConcat3 k v l r
    else .ok r

def nodeUnion : Node K V → Node K V → Except Error (Node K V)
  | .empty, tree2 => .ok tree2
  | tree1, .empty => .ok tree1
  | tree1, .node _ l ak r av => do
    let l1 ← nodeSplitLt ak tree1
    let r1 ← nodeSplitGt ak tree1
    let l ← nodeUnion l1 l
    let r ← nodeUnion r1 r
    nodeConcat3 ak av l r

def nodeUnionMerge (merge : K → V → V → V) : Node K V → Node K V → Except Error (Node K V)
  | .empty, tree2 => .ok tree2
  | tree1, .empty => .ok tree1
  | tree1, .node _ l ak r av => do
    let l1 ← nodeSplitLt ak tree1
    let r1 ← nodeSplitGt ak tree1
    let value := match nodeFind ak tree1 with
      | some (_, v1) => merge ak av v1
      | none => av
    let l ← nodeUnionMerge merge l1 l
    let r ← nodeUnionMerge merge r1 r
    nodeConcat3 ak value l r

def nodeDifference : Node K V → Node K V → Except Error (Node K V)
  | .empty, _ => .ok .empty
  | tree1, .empty => .ok tree1
  | tree1, .node _ l ak r _ => do
    let l1 ← nodeSplitLt ak tree1
    let r1 ← nodeSplitGt ak tree1
    let l ← nodeDifference l1 l
    let r ← nodeDifference r1 r
    nodeConcat l r

def nodeIntersection : Node K V → Node K V → Except Error (Node K V)
  | .empty, _ => .ok .empty
  | _, .empty => .ok .empty
  | tree1, .node _ l ak r av => do
    let l1 ← nodeSplitLt ak tree1
    let r1 ← nodeSplitGt ak tree1
    let l ← nodeIntersection l1 l
    let r ← nodeIntersection r1 r
    match nodeFind ak tree1 with
    | some _ => nodeConcat3 ak av l r
    | none => nodeConcat l r

def addAlist : List (K × V) → Node K V → Except Error (Node K V)
  | [], node => .ok node
  | (k, v) :: alist, node => do
    let node ← nodeAdd k v node
    addAlist alist node

variable {k x : K} {v : V} {t l r t1 t2 : Node K V}

theorem findLoop_eq (sorted : Sorted t.entries) (best : Option (K × V)) :
    findLoop k t best = ((t.entries.filter (·.1 ≤ k)).getLast?).or best := by
  induction t generalizing best with
  | empty => rfl
  | node w l key r val left right =>
    obtain ⟨sorted_l, sorted_r, small, large⟩ := sorted_node.mp sorted
    rw [Node.entries, List.filter_append, List.filter_cons]
    by_cases less : k < key
    · have none_r : r.entries.filter (·.1 ≤ k) = [] := by
        refine List.filter_eq_nil_iff.mpr fun p member le => ?_
        exact absurd (of_decide_eq_true le) ((less.trans (large p member)).not_ge)
      rw [findLoop, if_pos less, left sorted_l, none_r, if_neg (by simpa using less), append_nil]
    · rw [findLoop, if_neg less, right sorted_r, if_pos (by simpa using less), List.getLast?_append, List.getLast?_cons]
      cases (r.entries.filter (·.1 ≤ k)).getLast? <;> rfl

theorem nodeFind_eq (sorted : Sorted t.entries) : (nodeFind k t).map Prod.snd = lookup k t.entries := by
  rw [nodeFind, findLoop_eq sorted, Option.or_none]
  cases found : (t.entries.filter (·.1 ≤ k)).getLast? with
  | none =>
    rw [List.getLast?_eq_none_iff, List.filter_eq_nil_iff] at found
    symm
    rw [Option.map_none, lookup_eq_none]
    rintro p member rfl
    exact found p member (decide_eq_true (le_refl p.1))
  | some best =>
    obtain ⟨init, split⟩ := List.getLast?_eq_some_iff.mp found
    have member : best ∈ t.entries.filter (·.1 ≤ k) := by simp [split]
    rw [List.mem_filter, decide_eq_true_iff] at member
    by_cases less : best.1 < k
    · -- the last key that is not greater is smaller, so no key is equal
      simp only [if_pos less, Option.map_none]
      symm
      rw [lookup_eq_none]
      rintro p member_p rfl
      have kept : p ∈ t.entries.filter (·.1 ≤ p.1) := List.mem_filter.mpr ⟨member_p, by simp⟩
      have ordered : Sorted (init ++ [best]) := split ▸ List.Pairwise.filter _ sorted
      rw [split, List.mem_append, List.mem_singleton] at kept
      rcases kept with earlier | rfl
      · exact lt_asymm less ((sorted_append.mp ordered).2.2 p earlier best List.mem_cons_self)
      · exact lt_irrefl _ less
    · have same : best.1 = k := le_antisymm member.2 (not_lt.mp less)
      simp only [if_neg less, Option.map_some]
      symm
      rw [sorted.lookup_eq_some, ← same]
      exact member.1

structure Results (t : Node K V) (es : List (K × V)) (balanced : Prop) : Prop where
  weighed : t.Weighed
  entries : t.entries = es
  balanced : balanced → t.Balanced

omit [LinearOrder K] in
/-- A node is joined again behind a subtree whose size has changed by one at most. -/
theorem tJoin_changed_left {l' : Node K V} {es : List (K × V)} (results : Results l' es l.Balanced) (weighed_r : r.Weighed)
    (changed : l'.size = l.size ∨ l'.size = l.size + 1 ∨ l.size = l'.size + 1) (w : ℕ) : ∃ t', tJoin k v l' r = .ok t' ∧
      Results t' (es ++ (k, v) :: r.entries) (Node.node w l k r v).Balanced ∧ t'.size = 1 + l'.size + r.size := by
  obtain ⟨t', joined, joins⟩ := tJoin_joins (k := k) (v := v) results.weighed weighed_r
  refine ⟨t', joined, ⟨joins.weighed, by rw [joins.entries, results.entries], ?_⟩, joins.size results.weighed weighed_r⟩
  rintro ⟨near, balanced_l, balanced_r⟩
  refine joins.balanced (results.balanced balanced_l) balanced_r ?_
  rcases changed with same | more | less
  · rw [same]
    exact near.mono (by decide)
  · rw [more]
    exact near.succ_left
  · rw [less] at near
    exact near.pred_left

omit [LinearOrder K] in
theorem tJoin_changed_right {r' : Node K V} {es : List (K × V)} (weighed_l : l.Weighed) (results : Results r' es r.Balanced)
    (changed : r'.size = r.size ∨ r'.size = r.size + 1 ∨ r.size = r'.size + 1) (w : ℕ) : ∃ t', tJoin k v l r' = .ok t' ∧
      Results t' (l.entries ++ (k, v) :: es) (Node.node w l k r v).Balanced ∧ t'.size = 1 + l.size + r'.size := by
  obtain ⟨t', joined, joins⟩ := tJoin_joins (k := k) (v := v) weighed_l results.weighed
  refine ⟨t', joined, ⟨joins.weighed, by rw [joins.entries, results.entries], ?_⟩, joins.size weighed_l results.weighed⟩
  rintro ⟨near, balanced_l, balanced_r⟩
  refine joins.balanced balanced_l (results.balanced balanced_r) ?_
  rcases changed with same | more | less
  · rw [same]
    exact near.mono (by decide)
  · rw [more]
    exact near.symm.succ_left.symm
  · rw [less] at near
    exact near.symm.pred_left.symm

theorem nodeAdd_results (weighed : t.Weighed) (sorted : Sorted t.entries) (k : K) (v : V) : ∃ t', nodeAdd k v t =
    .ok t' ∧ Results t' (insertEntry k v t.entries) t.Balanced ∧ (t'.size = t.size ∨ t'.size = t.size + 1) := by
  induction t with
  | empty =>
    exact ⟨_, rfl, ⟨⟨rfl, trivial, trivial⟩, rfl, fun _ => ⟨⟨Nat.le_succ _, Nat.le_succ _⟩, trivial, trivial⟩⟩, .inr rfl⟩
  | node w l key r val left right =>
    obtain ⟨weight, weighed_l, weighed_r⟩ := weighed
    obtain ⟨sorted_l, sorted_r, small, large⟩ := sorted_node.mp sorted
    rw [Node.entries, insertEntry_node small large]
    by_cases less : k < key
    · obtain ⟨l', added, results, grown⟩ := left weighed_l sorted_l
      obtain ⟨t', joined, results', size⟩ := tJoin_changed_left (k := key) (v := val) results weighed_r (by omega) w
      rw [if_pos less]
      exact ⟨t', by rw [nodeAdd, if_pos less, added]; exact joined, results', by rw [size, Node.size]; omega⟩
    by_cases more : key < k
    · obtain ⟨r', added, results, grown⟩ := right weighed_r sorted_r
      obtain ⟨t', joined, results', size⟩ := tJoin_changed_right (k := key) (v := val) weighed_l results (by omega) w
      rw [if_neg less, if_pos more]
      exact ⟨t', by rw [nodeAdd, if_neg less, if_pos more, added]; exact joined, results', by rw [size, Node.size]; omega⟩
    · obtain rfl : key = k := (not_lt.mp less).antisymm (not_lt.mp more)
      rw [if_neg less, if_neg more]
      refine ⟨_, by rw [nodeAdd, if_neg less, if_neg more], ⟨weighed_nJoin weighed_l weighed_r, rfl, ?_⟩, .inl ?_⟩
      · exact fun balanced => balanced
      · rw [size_nJoin, Node.size, weight]

theorem nodeDelete_results (weighed : t.Weighed) (sorted : Sorted t.entries) (k : K) : ∃ t', nodeDelete k t = .ok t' ∧
    Results t' (deleteEntry k t.entries) t.Balanced ∧ (t.size = t'.size ∨ t.size = t'.size + 1) := by
  induction t with
  | empty => exact ⟨.empty, rfl, ⟨trivial, rfl, fun balanced => balanced⟩, .inl rfl⟩
  | node w l key r val left right =>
    obtain ⟨weight, weighed_l, weighed_r⟩ := weighed
    obtain ⟨sorted_l, sorted_r, small, large⟩ := sorted_node.mp sorted
    rw [Node.entries, deleteEntry_node small large]
    by_cases less : k < key
    · obtain ⟨l', deleted, results, shrunk⟩ := left weighed_l sorted_l
      obtain ⟨t', joined, results', size⟩ := tJoin_changed_left (k := key) (v := val) results weighed_r (by omega) w
      rw [if_pos less]
      exact ⟨t', by rw [nodeDelete, if_pos less, deleted]; exact joined, results', by rw [size, Node.size]; omega⟩
    by_cases more : key < k
    · obtain ⟨r', deleted, results, shrunk⟩ := right weighed_r sorted_r
      obtain ⟨t', joined, results', size⟩ := tJoin_changed_right (k := key) (v := val) weighed_l results (by omega) w
      rw [if_neg less, if_pos more]
      exact ⟨t', by rw [nodeDelete, if_neg less, if_pos more, deleted]; exact joined, results',
        by rw [size, Node.size]; omega⟩
    · obtain ⟨t', joined, weighed, entries, balanced⟩ := nodeConcat2_spec weighed_l weighed_r
      rw [if_neg less, if_neg more]
      refine ⟨t', by rw [nodeDelete, if_neg less, if_neg more, joined], ⟨weighed, entries, ?_⟩, .inr ?_⟩
      · rintro ⟨near, balanced_l, balanced_r⟩
        exact balanced balanced_l balanced_r near
      · rw [Node.size, weighed.size_eq, entries, length_append, ← weighed_l.size_eq, ← weighed_r.size_eq]
        omega

theorem insertEntry_eq_cons {es : List (K × V)} (large : ∀ p ∈ es, k < p.1) : insertEntry k v es = (k, v) :: es := by
  rw [insertEntry, below_eq_nil fun p member => (large p member).le, above_eq_self large, nil_append]

theorem insertEntry_eq_concat {es : List (K × V)} (small : ∀ p ∈ es, p.1 < k) :
    insertEntry k v es = es ++ [(k, v)] := by
  rw [insertEntry, below_eq_self small, above_eq_nil fun p member => (small p member).le]

theorem nodeConcat3_results (weighed_l : l.Weighed) (weighed_r : r.Weighed)
    (sorted : Sorted (l.entries ++ (k, v) :: r.entries)) :
    ∃ t, nodeConcat3 k v l r = .ok t ∧ Results t (l.entries ++ (k, v) :: r.entries) (l.Balanced ∧ r.Balanced) := by
  induction l, r using nodeConcat3.induct with
  | case1 r =>
    obtain ⟨sorted_r, small, large⟩ := (sorted_node.mp sorted).2
    obtain ⟨t, added, results, -⟩ := nodeAdd_results weighed_r sorted_r k v
    rw [insertEntry_eq_cons large] at results
    exact ⟨t, by rw [nodeConcat3, added], results.weighed, results.entries, fun both => results.balanced both.2⟩
  | case2 l nonempty =>
    obtain ⟨sorted_l, -, small, -⟩ := sorted_node.mp sorted
    obtain ⟨t, added, results, -⟩ := nodeAdd_results weighed_l sorted_l k v
    rw [insertEntry_eq_concat small] at results
    refine ⟨t, ?_, results.weighed, results.entries, fun both => results.balanced both.1⟩
    rw [nodeConcat3, added]
    exact nonempty
  | case3 w1 l1 k1 r1 v1 w2 l2 k2 r2 v2 heavy ih =>
    obtain ⟨weight, weighed_l2, weighed_r2⟩ := weighed_r
    have split : (Node.node w1 l1 k1 r1 v1).entries ++ (k, v) :: (Node.node w2 l2 k2 r2 v2).entries =
        ((Node.node w1 l1 k1 r1 v1).entries ++ (k, v) :: l2.entries) ++ (k2, v2) :: r2.entries := by
      simp [Node.entries]
    rw [split] at sorted ⊢
    obtain ⟨x, joined, results⟩ := ih weighed_l weighed_l2 (sorted_append.mp sorted).1
    obtain ⟨t, joined', joins⟩ := tJoin_joins (k := k2) (v := v2) results.weighed weighed_r2
    refine ⟨t, by rw [nodeConcat3, if_pos heavy, joined]; exact joined', joins.weighed,
      by rw [joins.entries, results.entries], ?_⟩
    rintro ⟨balanced_l, near, balanced_l2, balanced_r2⟩
    refine joins.balanced (results.balanced ⟨balanced_l, balanced_l2⟩) balanced_r2 ?_
    have size_x : x.size = 1 + (Node.node w1 l1 k1 r1 v1).size + l2.size := by
      rw [results.weighed.size_eq, results.entries, weighed_l.size_eq, weighed_l2.size_eq, length_append,
        List.length_cons]
      omega
    rw [overweight_iff, weight] at heavy
    rw [size_x]
    exact near_join heavy near
  | case4 w1 l1 k1 r1 v1 w2 l2 k2 r2 v2 light heavy ih =>
    obtain ⟨weight, weighed_l1, weighed_r1⟩ := weighed_l
    have split : (Node.node w1 l1 k1 r1 v1).entries ++ (k, v) :: (Node.node w2 l2 k2 r2 v2).entries =
        l1.entries ++ (k1, v1) :: (r1.entries ++ (k, v) :: (Node.node w2 l2 k2 r2 v2).entries) := by
      simp [Node.entries]
    rw [split] at sorted ⊢
    obtain ⟨x, joined, results⟩ := ih weighed_r1 weighed_r (sorted_node.mp sorted).2.1
    obtain ⟨t, joined', joins⟩ := tJoin_joins (k := k1) (v := v1) weighed_l1 results.weighed
    refine ⟨t, by rw [nodeConcat3, if_neg light, if_pos heavy, joined]; exact joined', joins.weighed,
      by rw [joins.entries, results.entries], ?_⟩
    rintro ⟨⟨near, balanced_l1, balanced_r1⟩, balanced_r⟩
    refine joins.balanced balanced_l1 (results.balanced ⟨balanced_r1, balanced_r⟩) ?_
    have size_x : x.size = 1 + (Node.node w2 l2 k2 r2 v2).size + r1.size := by
      rw [results.weighed.size_eq, results.entries, weighed_r.size_eq, weighed_r1.size_eq, length_append,
        List.length_cons]
      omega
    rw [overweight_iff, weight, show 1 + l1.size + r1.size = 1 + r1.size + l1.size by omega] at heavy
    rw [size_x]
    exact (near_join heavy near.symm).symm
  | case5 w1 l1 k1 r1 v1 w2 l2 k2 r2 v2 light light' =>
    refine ⟨_, by rw [nodeConcat3, if_neg light, if_neg light'], weighed_nJoin weighed_l weighed_r, entries_nJoin, ?_⟩
    rintro ⟨balanced_l, balanced_r⟩
    rw [overweight_iff] at light light'
    refine balanced_nJoin ?_ balanced_l balanced_r
    rw [Node.size, Node.size]
    exact ⟨by omega, by omega⟩

theorem nodeConcat_results (weighed_l : l.Weighed) (weighed_r : r.Weighed) (sorted : Sorted (l.entries ++ r.entries)) :
    ∃ t, nodeConcat l r = .ok t ∧ Results t (l.entries ++ r.entries) (l.Balanced ∧ r.Balanced) := by
  by_cases empty_l : l = .empty
  · subst empty_l
    exact ⟨r, by simp [nodeConcat], weighed_r, rfl, And.right⟩
  by_cases empty_r : r = .empty
  · subst empty_r
    refine ⟨l, ?_, weighed_l, (append_nil _).symm, And.left⟩
    cases l with
    | empty => exact absurd rfl empty_l
    | node => rfl
  obtain ⟨p, rest, least, deleted, delmins⟩ := nodeDelmin_delmins weighed_r empty_r
  rw [delmins.entries] at sorted ⊢
  obtain ⟨t, joined, results⟩ := nodeConcat3_results (k := p.1) (v := p.2) weighed_l delmins.weighed sorted
  refine ⟨t, ?_, results.weighed, results.entries, fun both => results.balanced ⟨both.1, delmins.balanced both.2⟩⟩
  rw [nodeConcat, least, deleted]
  · exact joined
  · exact empty_l
  · exact empty_r

theorem nodeSplitLt_results (weighed : t.Weighed) (sorted : Sorted t.entries) (x : K) :
    ∃ t', nodeSplitLt x t = .ok t' ∧ Results t' (below x t.entries) t.Balanced := by
  induction t with
  | empty => exact ⟨.empty, rfl, trivial, rfl, fun balanced => balanced⟩
  | node w l key r val left right =>
    obtain ⟨weight, weighed_l, weighed_r⟩ := weighed
    obtain ⟨sorted_l, sorted_r, small, large⟩ := sorted_node.mp sorted
    rw [Node.entries, below_node small large, nodeSplitLt]
    split_ifs with less more
    · obtain ⟨t', ran, results⟩ := left weighed_l sorted_l
      exact ⟨t', ran, results.weighed, results.entries, fun balanced => results.balanced balanced.2.1⟩
    · obtain ⟨r', ran, results⟩ := right weighed_r sorted_r
      have parts : Sorted (l.entries ++ (key, val) :: r'.entries) := by
        rw [results.entries]
        exact sorted_node.mpr ⟨sorted_l, sorted_r.below x, small, fun p member => large p (mem_below.mp member).1⟩
      obtain ⟨t', joined, results'⟩ := nodeConcat3_results weighed_l results.weighed parts
      rw [ran, ← results.entries]
      exact ⟨t', joined, results'.weighed, results'.entries,
        fun balanced => results'.balanced ⟨balanced.2.1, results.balanced balanced.2.2⟩⟩
    · exact ⟨l, rfl, weighed_l, rfl, fun balanced => balanced.2.1⟩

theorem nodeSplitGt_results (weighed : t.Weighed) (sorted : Sorted t.entries) (x : K) :
    ∃ t', nodeSplitGt x t = .ok t' ∧ Results t' (above x t.entries) t.Balanced := by
  induction t with
  | empty => exact ⟨.empty, rfl, trivial, rfl, fun balanced => balanced⟩
  | node w l key r val left right =>
    obtain ⟨weight, weighed_l, weighed_r⟩ := weighed
    obtain ⟨sorted_l, sorted_r, small, large⟩ := sorted_node.mp sorted
    rw [Node.entries, above_node small large, nodeSplitGt]
    split_ifs with more less less
    · exact absurd more less.asymm
    · obtain ⟨t', ran, results⟩ := right weighed_r sorted_r
      exact ⟨t', ran, results.weighed, results.entries, fun balanced => results.balanced balanced.2.2⟩
    · obtain ⟨l', ran, results⟩ := left weighed_l sorted_l
      have parts : Sorted (l'.entries ++ (key, val) :: r.entries) := by
        rw [results.entries]
        exact sorted_node.mpr ⟨sorted_l.above x, sorted_r, fun p member => small p (mem_above.mp member).1, large⟩
      obtain ⟨t', joined, results'⟩ := nodeConcat3_results results.weighed weighed_r parts
      rw [ran, ← results.entries]
      exact ⟨t', joined, results'.weighed, results'.entries,
        fun balanced => results'.balanced ⟨results.balanced balanced.2.1, balanced.2.2⟩⟩
    · exact ⟨r, rfl, weighed_r, rfl, fun balanced => balanced.2.2⟩

end

end MitScheme.Runtime.WtTree
