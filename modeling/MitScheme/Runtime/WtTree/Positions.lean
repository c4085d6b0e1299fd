import MitScheme.Runtime.WtTree.Trees

namespace MitScheme.Runtime.WtTree

open Library List Node

inductive Caller where
  | index
  | indexDatum
  | indexPair
  deriving DecidableEq, Repr

inductive IndexError where
  /-- `error:bad-range-argument` -/
  | badRange (index : Int) (caller : Caller)
  | node (error : Error)
  deriving DecidableEq, Repr

section
variable {K V : Type}

def indexLoop : Node K V → Int → Except IndexError (K × V)
  | .empty, _ => .error (.node .reference)
  | .node _ l k r v, index =>
    if index < l.size then indexLoop l index
    else if index > l.size then indexLoop r (index - (1 + l.size))
    else .ok (k, v)

def nodeIndex (node : Node K V) (index : Int) (caller : Caller) : Except IndexError (K × V) :=
  if ¬(0 ≤ index ∧ index < node.size) then .error (.badRange index caller) else indexLoop node index

def wtTreeIndex (tree : Node K V) (index : Int) : Except IndexError K := Prod.fst <$> nodeIndex tree index .index

def wtTreeIndexDatum (tree : Node K V) (index : Int) : Except IndexError V :=
  Prod.snd <$> nodeIndex tree index .indexDatum

def wtTreeIndexPair (tree : Node K V) (index : Int) : Except IndexError (K × V) := nodeIndex tree index .indexPair

variable [LinearOrder K]

def nodeRank (k : K) : Node K V → Nat → Option Nat
  | .empty, _ => none
  | .node _ l k' r _, rank =>
    if k < k' then nodeRank k l rank
    else if k' < k then nodeRank k r (1 + rank + l.size)
    else some (rank + l.size)

def wtTreeRank (tree : Node K V) (key : K) : Option Nat := nodeRank key tree 0

def nodeSubset : Node K V → Node K V → Except Error Bool
  | .empty, _ => .ok true
  | .node w l k r _, tree2 =>
    if w ≤ tree2.size then
      match tree2 with
      | .empty => .error .reference
      | .node w2 l2 k2 r2 v2 => do
        if k < k2 then
          if ← nodeSubset l l2 then
            match nodeFind k (.node w2 l2 k2 r2 v2) with
            | some _ => nodeSubset r (.node w2 l2 k2 r2 v2)
            | none => .ok false
          else .ok false
        else if k2 < k then
          if ← nodeSubset r r2 then
            match nodeFind k (.node w2 l2 k2 r2 v2) with
            | some _ => nodeSubset l (.node w2 l2 k2 r2 v2)
            | none => .ok false
          else .ok false
        else if ← nodeSubset l l2 then nodeSubset r r2
        else .ok false
    else .ok false

def wtTreeSubset (tree1 tree2 : Node K V) : Except Error Bool := nodeSubset tree1 tree2

def Node.keys (t : Node K V) : List K := t.entries.map Prod.fst

variable {w : Nat} {l r t t1 t2 : Node K V} {k k' : K} {v : V}

omit [LinearOrder K] in
@[simp] theorem Node.keys_empty : (empty : Node K V).keys = [] := rfl

omit [LinearOrder K] in
theorem Node.keys_node : (node w l k r v).keys = l.keys ++ k :: r.keys := by
  rw [keys, entries, List.map_append, List.map_cons]
  rfl

omit [LinearOrder K] in
theorem Node.Weighed.keys_length (weighed : t.Weighed) : t.keys.length = t.size := by
  rw [weighed.size_eq, keys, List.length_map]

theorem pairwise_keys : t.keys.Pairwise (· < ·) ↔ Sorted t.entries := by
  rw [Node.keys, pairwise_map]
  rfl

theorem nodup_keys (sorted : Sorted t.entries) : t.keys.Nodup := by
  have increasing := pairwise_keys.mpr sorted
  exact increasing.imp fun less => less.ne

theorem keys_of_node (sorted : Sorted (node w l k r v).entries) :
    Sorted l.entries ∧ Sorted r.entries ∧ (∀ k' ∈ l.keys, k' < k) ∧ ∀ k' ∈ r.keys, k < k' := by
  obtain ⟨sorted_l, sorted_r, small, large⟩ := sorted_node.mp sorted
  refine ⟨sorted_l, sorted_r, ?_, ?_⟩
  · intro k' member
    obtain ⟨p, among, rfl⟩ := mem_map.mp member
    exact small p among
  · intro k' member
    obtain ⟨p, among, rfl⟩ := mem_map.mp member
    exact large p among

theorem nodeFind_isSome (sorted : Sorted t.entries) : (nodeFind k t).isSome ↔ k ∈ t.keys := by
  rw [← Option.isSome_map (f := Prod.snd), nodeFind_eq sorted, Option.isSome_iff_exists, Node.keys, mem_map]
  constructor
  · rintro ⟨v, found⟩
    exact ⟨(k, v), sorted.lookup_eq_some.mp found, rfl⟩
  · rintro ⟨p, member, rfl⟩
    exact ⟨p.2, sorted.lookup_eq_some.mpr member⟩

omit [LinearOrder K] in
theorem indexLoop_eq (weighed : t.Weighed) {i : Nat} {p : K × V} (here : t.entries[i]? = some p) :
    indexLoop t i = .ok p := by
  induction t generalizing i with
  | empty => simp [entries] at here
  | node w l k r v left right =>
    obtain ⟨-, weighed_l, weighed_r⟩ := weighed
    have size_l := weighed_l.size_eq
    rw [entries] at here
    rw [indexLoop]
    rcases Nat.lt_trichotomy i l.size with less | same | more
    · rw [if_pos (by omega)]
      rw [List.getElem?_append_left (by omega)] at here
      exact left weighed_l here
    · rw [if_neg (by omega), if_neg (by omega)]
      rw [List.getElem?_append_right (by omega), show i - l.entries.length = 0 by omega] at here
      exact congrArg Except.ok (Option.some.inj here)
    · rw [if_neg (by omega), if_pos (by omega)]
      rw [List.getElem?_append_right (by omega), show i - l.entries.length = i - (1 + l.size) + 1 by omega] at here
      rw [show (i : Int) - (1 + l.size) = (i - (1 + l.size) : Nat) by omega]
      exact right weighed_r here

omit [LinearOrder K] in
theorem nodeIndex_eq (weighed : t.Weighed) {i : Nat} {p : K × V} (here : t.entries[i]? = some p) (caller : Caller) :
    nodeIndex t i caller = .ok p := by
  obtain ⟨inside, -⟩ := List.getElem?_eq_some_iff.mp here
  rw [nodeIndex, weighed.size_eq, if_neg (by omega)]
  exact indexLoop_eq weighed here

omit [LinearOrder K] in
theorem nodeIndex_outside {index : Int} (outside : ¬(0 ≤ index ∧ index < t.size)) (caller : Caller) :
    nodeIndex t index caller = .error (.badRange index caller) := if_pos outside

omit [LinearOrder K] in
theorem wtTreeIndex_parts (weighed : t.Weighed) {i : Nat} {p : K × V} (here : t.entries[i]? = some p) :
    wtTreeIndex t i = .ok p.1 ∧ wtTreeIndexDatum t i = .ok p.2 ∧ wtTreeIndexPair t i = .ok p := by
  rw [wtTreeIndex, wtTreeIndexDatum, wtTreeIndexPair, nodeIndex_eq weighed here, nodeIndex_eq weighed here,
    nodeIndex_eq weighed here]
  exact ⟨rfl, rfl, rfl⟩

omit [LinearOrder K] in
theorem wtTreeIndex_eq (weighed : t.Weighed) {i : Nat} (here : t.keys[i]? = some k) : wtTreeIndex t i = .ok k := by
  rw [Node.keys, List.getElem?_map, Option.map_eq_some_iff] at here
  obtain ⟨p, here, rfl⟩ := here
  exact (wtTreeIndex_parts weighed here).1

theorem nodeRank_eq (weighed : t.Weighed) (sorted : Sorted t.entries) (k : K) (rank : Nat) :
    nodeRank k t rank = (t.keys.idxOf? k).map (rank + ·) := by
  induction t generalizing rank with
  | empty => rfl
  | node w l key r v left right =>
    obtain ⟨-, weighed_l, weighed_r⟩ := weighed
    obtain ⟨sorted_l, sorted_r, small, large⟩ := keys_of_node sorted
    have size_l := weighed_l.keys_length
    rw [keys_node, idxOf?, findIdx?_append, findIdx?_cons, nodeRank]
    have absent_l : ¬k < key → l.keys.findIdx? (· == k) = none := by
      intro more
      rw [findIdx?_eq_none_iff]
      intro k' member
      have less := small k' member
      simp only [beq_eq_false_iff_ne]
      rintro rfl
      exact more less
    have absent_r : ¬key < k → r.keys.findIdx? (· == k) = none := by
      intro less
      rw [findIdx?_eq_none_iff]
      intro k' member
      have more := large k' member
      simp only [beq_eq_false_iff_ne]
      rintro rfl
      exact less more
    by_cases less : k < key
    · rw [if_pos less, left weighed_l sorted_l, absent_r less.asymm, if_neg (by simpa using less.ne')]
      simp [idxOf?]
    by_cases more : key < k
    · rw [if_neg less, if_pos more, right weighed_r sorted_r, absent_l less, if_neg (by simpa using more.ne)]
      simp only [idxOf?, Option.none_or, Option.map_map, size_l]
      congr 1
      funext n
      simp only [Function.comp_apply]
      omega
    · obtain rfl : key = k := (not_lt.mp less).antisymm (not_lt.mp more)
      rw [absent_l less]
      simp [size_l]

theorem wtTreeRank_eq (weighed : t.Weighed) (sorted : Sorted t.entries) (k : K) : wtTreeRank t k = t.keys.idxOf? k := by
  rw [wtTreeRank, nodeRank_eq weighed sorted]
  simp

theorem wtTreeRank_eq_some (weighed : t.Weighed) (sorted : Sorted t.entries) {i : Nat} :
    wtTreeRank t k = some i ↔ t.keys[i]? = some k := by
  rw [wtTreeRank_eq weighed sorted, idxOf?_eq_some_iff, getElem?_eq_some_iff]
  constructor
  · rintro ⟨inside, here, -⟩
    exact ⟨inside, here⟩
  · rintro ⟨inside, here⟩
    refine ⟨inside, here, ?_⟩
    rintro j before same
    have equal : j = i := (nodup_keys sorted).getElem_inj_iff.mp (same.trans here.symm)
    omega

theorem wtTreeRank_eq_none (weighed : t.Weighed) (sorted : Sorted t.entries) : wtTreeRank t k = none ↔ k ∉ t.keys := by
  rw [wtTreeRank_eq weighed sorted, idxOf?_eq_none_iff]

theorem size_le_of_keys_subset (weighed1 : t1.Weighed) (sorted1 : Sorted t1.entries) (weighed2 : t2.Weighed)
    (subset : ∀ k ∈ t1.keys, k ∈ t2.keys) : t1.size ≤ t2.size := by
  rw [← weighed1.keys_length, ← weighed2.keys_length]
  have within : t1.keys.Subperm t2.keys := subperm_of_subset (nodup_keys sorted1) subset
  exact within.length_le

section
variable {w1 w2 : Nat} {l1 r1 l2 r2 : Node K V} {k1 k2 : K} {v1 v2 : V}

theorem mem_keys_left (sorted2 : Sorted (node w2 l2 k2 r2 v2).entries) (less : k < k2) :
    k ∈ (node w2 l2 k2 r2 v2).keys ↔ k ∈ l2.keys := by
  obtain ⟨-, -, -, large⟩ := keys_of_node sorted2
  rw [keys_node, mem_append, mem_cons]
  constructor
  · rintro (member | rfl | member)
    · exact member
    · exact absurd less (lt_irrefl k)
    · exact absurd (large k member) less.asymm
  · exact .inl

theorem mem_keys_right (sorted2 : Sorted (node w2 l2 k2 r2 v2).entries) (more : k2 < k) :
    k ∈ (node w2 l2 k2 r2 v2).keys ↔ k ∈ r2.keys := by
  obtain ⟨-, -, small, -⟩ := keys_of_node sorted2
  rw [keys_node, mem_append, mem_cons]
  constructor
  · rintro (member | rfl | member)
    · exact absurd (small k member) more.asymm
    · exact absurd more (lt_irrefl k)
    · exact member
  · exact fun member => .inr (.inr member)

omit [LinearOrder K] in
theorem forall_keys_node {P : K → Prop} :
    (∀ k ∈ (node w1 l1 k1 r1 v1).keys, P k) ↔ (∀ k ∈ l1.keys, P k) ∧ P k1 ∧ ∀ k ∈ r1.keys, P k := by
  rw [keys_node, List.forall_mem_append, List.forall_mem_cons]

end

theorem nodeSubset_larger {w : Nat} (larger : ¬w ≤ t2.size) : nodeSubset (.node w l k r v) t2 = .ok false := by
  cases t2 <;> rw [nodeSubset, if_neg larger]

theorem nodeSubset_spec (weighed1 : t1.Weighed) (sorted1 : Sorted t1.entries) (weighed2 : t2.Weighed)
    (sorted2 : Sorted t2.entries) : ∃ b, nodeSubset t1 t2 = .ok b ∧ (b = true ↔ ∀ k ∈ t1.keys, k ∈ t2.keys) := by
  induction t1 generalizing t2 with
  | empty => exact ⟨true, rfl, by simp⟩
  | node w l k r v left right =>
    by_cases larger : w ≤ t2.size
    swap
    · refine ⟨false, nodeSubset_larger larger, ?_⟩
      have bounded := size_le_of_keys_subset weighed1 sorted1 weighed2
      simp only [Bool.false_eq_true, false_iff]
      exact fun subset => larger (bounded subset)
    obtain ⟨weight, weighed_l, weighed_r⟩ := weighed1
    obtain ⟨sorted_l, sorted_r, small, large⟩ := keys_of_node sorted1
    cases t2 with
    | empty =>
      rw [size] at larger
      omega
    | node w2 l2 k2 r2 v2 =>
      obtain ⟨sorted_l2, sorted_r2, small2, large2⟩ := keys_of_node sorted2
      have found := nodeFind_isSome (k := k) sorted2
      rw [nodeSubset, if_pos larger, forall_keys_node]
      rcases lt_trichotomy k k2 with less | rfl | more
      · -- the left part can only be in the left part
        obtain ⟨b, ran, decides⟩ := left weighed_l sorted_l weighed2.2.1 sorted_l2
        obtain ⟨b', ran', decides'⟩ := right weighed_r sorted_r weighed2 sorted2
        have within : (∀ k' ∈ l.keys, k' ∈ (node w2 l2 k2 r2 v2).keys) ↔ ∀ k' ∈ l.keys, k' ∈ l2.keys :=
          forall₂_congr fun k' member => mem_keys_left sorted2 ((small k' member).trans less)
        rw [within, ← decides, ← decides', ← found]
        simp only [if_pos less, ran, ran', bind, Except.bind]
        cases b <;> cases nodeFind k (.node w2 l2 k2 r2 v2) <;> simp
      · obtain ⟨b, ran, decides⟩ := left weighed_l sorted_l weighed2.2.1 sorted_l2
        obtain ⟨b', ran', decides'⟩ := right weighed_r sorted_r weighed2.2.2 sorted_r2
        have within_l : (∀ k' ∈ l.keys, k' ∈ (node w2 l2 k r2 v2).keys) ↔ ∀ k' ∈ l.keys, k' ∈ l2.keys :=
          forall₂_congr fun k' member => mem_keys_left sorted2 (small k' member)
        have within_r : (∀ k' ∈ r.keys, k' ∈ (node w2 l2 k r2 v2).keys) ↔ ∀ k' ∈ r.keys, k' ∈ r2.keys :=
          forall₂_congr fun k' member => mem_keys_right sorted2 (large k' member)
        have root : k ∈ (node w2 l2 k r2 v2).keys := by simp [keys_node]
        rw [within_l, within_r, ← decides, ← decides']
        simp only [if_neg (lt_irrefl k), ran, ran', bind, Except.bind]
        cases b <;> simp [root]
      · obtain ⟨b, ran, decides⟩ := left weighed_l sorted_l weighed2 sorted2
        obtain ⟨b', ran', decides'⟩ := right weighed_r sorted_r weighed2.2.2 sorted_r2
        have within : (∀ k' ∈ r.keys, k' ∈ (node w2 l2 k2 r2 v2).keys) ↔ ∀ k' ∈ r.keys, k' ∈ r2.keys :=
          forall₂_congr fun k' member => mem_keys_right sorted2 (more.trans (large k' member))
        rw [within, ← decides, ← decides', ← found]
        simp only [if_neg more.asymm, if_pos more, ran, ran', bind, Except.bind]
        cases b' <;> cases nodeFind k (.node w2 l2 k2 r2 v2) <;> simp

/-- Subset test, index and rank of ordered trees with correct weights. -/
theorem subsets_and_positions (weighed1 : t1.Weighed) (sorted1 : Sorted t1.entries) (weighed2 : t2.Weighed)
    (sorted2 : Sorted t2.entries) :
    (∃ b, wtTreeSubset t1 t2 = .ok b ∧ (b = true ↔ ∀ k ∈ t1.keys, k ∈ t2.keys)) ∧
    (∀ i : Nat, i < t1.size → ∃ k, t1.keys[i]? = some k ∧ wtTreeIndex t1 i = .ok k) ∧
    (∀ i : Int, ¬(0 ≤ i ∧ i < t1.size) → wtTreeIndex t1 i = .error (.badRange i .index)) ∧
    (∀ k i, wtTreeRank t1 k = some i ↔ t1.keys[i]? = some k) ∧ (∀ k, wtTreeRank t1 k = none ↔ k ∉ t1.keys) ∧
    (∀ (i : Nat) k, wtTreeIndex t1 i = .ok k → wtTreeRank t1 k = some i) ∧
    ∀ k i, wtTreeRank t1 k = some i → wtTreeIndex t1 i = .ok k := by
  have length := weighed1.keys_length
  have index : ∀ i : Nat, i < t1.size → ∃ k, t1.keys[i]? = some k ∧ wtTreeIndex t1 i = .ok k := by
    intro i inside
    have here : t1.keys[i]? = some t1.keys[i] := getElem?_eq_getElem (by omega)
    exact ⟨t1.keys[i], here, wtTreeIndex_eq weighed1 here⟩
  have outside : ∀ i : Int, ¬(0 ≤ i ∧ i < t1.size) → wtTreeIndex t1 i = .error (.badRange i .index) := by
    intro i outside
    rw [wtTreeIndex, nodeIndex_outside outside]
    rfl
  refine ⟨nodeSubset_spec weighed1 sorted1 weighed2 sorted2, index, outside, ?_, ?_, ?_, ?_⟩
  · exact fun k i => wtTreeRank_eq_some weighed1 sorted1
  · exact fun k => wtTreeRank_eq_none weighed1 sorted1
  · intro i k ran
    by_cases inside : i < t1.size
    · obtain ⟨k', here, ran'⟩ := index i inside
      obtain rfl : k' = k := by
        rw [ran] at ran'
        exact (Except.ok.inj ran').symm
      exact (wtTreeRank_eq_some weighed1 sorted1).mpr here
    · rw [outside i (by omega)] at ran
      cases ran
  · intro k i ranked
    exact wtTreeIndex_eq weighed1 ((wtTreeRank_eq_some weighed1 sorted1).mp ranked)

end

theorem subsets_and_positions_three :
    let t1 : Node Nat Nat := .node 3 (.node 1 .empty 1 .empty 10) 2 (.node 1 .empty 3 .empty 30) 20
    let t2 : Node Nat Nat := .node 2 .empty 2 (.node 1 .empty 3 .empty 30) 21
    (∃ b, wtTreeSubset t1 t2 = .ok b ∧ (b = true ↔ ∀ k ∈ t1.keys, k ∈ t2.keys)) ∧
    (∀ i : Nat, i < t1.size → ∃ k, t1.keys[i]? = some k ∧ wtTreeIndex t1 i = .ok k) ∧
    (∀ i : Int, ¬(0 ≤ i ∧ i < t1.size) → wtTreeIndex t1 i = .error (.badRange i .index)) ∧
    (∀ k i, wtTreeRank t1 k = some i ↔ t1.keys[i]? = some k) ∧ (∀ k, wtTreeRank t1 k = none ↔ k ∉ t1.keys) ∧
    (∀ (i : Nat) k, wtTreeIndex t1 i = .ok k → wtTreeRank t1 k = some i) ∧
    ∀ k i, wtTreeRank t1 k = some i → wtTreeIndex t1 i = .ok k :=
  subsets_and_positions ⟨rfl, ⟨rfl, trivial, trivial⟩, rfl, trivial, trivial⟩ (by decide)
    ⟨rfl, trivial, rfl, trivial, trivial⟩ (by decide)

end MitScheme.Runtime.WtTree
