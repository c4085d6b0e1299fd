import MitScheme.Library.LogBalance
import Mathlib.Data.BitVec

/-!
The trees of `avltree.c`, which lead from names to indices.
-/

namespace MitScheme.Microcode.AvlTree

open Library List Nat

abbrev Value := BitVec 64

/-- A `tree_node`; the empty tree is the null pointer. -/
inductive Tree (N : Type) where
  | null
  | node (height : ℕ) (left rite : Tree N) (name : N) (value : Value)
  deriving DecidableEq, Repr

variable {N : Type}

/-- `BRANCH_HEIGHT` -/
def branchHeight : Tree N → ℕ
  | .null => 0
  | .node height .. => height

@[simp] theorem branchHeight_null : branchHeight (.null : Tree N) = 0 := rfl

@[simp] theorem branchHeight_node (height : ℕ) (left rite : Tree N) (name : N) (value : Value) :
    branchHeight (.node height left rite name value) = height := rfl

/-- A node after `update_height`. -/
def updateHeight (left rite : Tree N) (name : N) (value : Value) : Tree N :=
  .node (1 + max (branchHeight left) (branchHeight rite)) left rite name value

def leafMake (name : N) (value : Value) : Tree N := .node 1 .null .null name value

/-- In the rotations and what calls them, nothing is a reference through the null pointer. -/
def rotateLeft : Tree N → Option (Tree N)
  | .node _ left (.node _ beta rite name' value') name value =>
    some (updateHeight (updateHeight left beta name value) rite name' value')
  | _ => none

def rotateRite : Tree N → Option (Tree N)
  | .node _ (.node _ left beta name' value') rite name value =>
    some (updateHeight left (updateHeight beta rite name value) name' value')
  | _ => none

def rebalanceLeft (height : ℕ) (left rite : Tree N) (name : N) (value : Value) : Option (Tree N) :=
  if 1 + branchHeight rite ≥ branchHeight left then some (updateHeight left rite name value)
  else match left with
    | .node _ inner outer _ _ => do
      let left ← if branchHeight outer > branchHeight inner then rotateLeft left else some left
      rotateRite (.node height left rite name value)
    | .null => none

def rebalanceRite (height : ℕ) (left rite : Tree N) (name : N) (value : Value) : Option (Tree N) :=
  if 1 + branchHeight left ≥ branchHeight rite then some (updateHeight left rite name value)
  else match rite with
    | .node _ inner outer _ _ => do
      let rite ← if branchHeight inner > branchHeight outer then rotateRite rite else some rite
      rotateLeft (.node height left rite name value)
    | .null => none

section
-- `strcmp_ci`
variable (cmp : N → N → Ordering)

def treeInsert (name : N) (value : Value) : Tree N → Option (Tree N)
  | .null => some (leafMake name value)
  | .node height left rite name' value' =>
    match cmp name name' with
    | .eq => some (.node height left rite name' value')
    | .lt => do rebalanceLeft height (← treeInsert name value left) rite name' value'
    | .gt => do rebalanceRite height left (← treeInsert name value rite) name' value'

def treeLookup (name : N) : Tree N → Tree N
  | .null => .null
  | .node height left rite name' value =>
    match cmp name name' with
    | .eq => .node height left rite name' value
    | .lt => treeLookup name left
    | .gt => treeLookup name rite

end

/-- The array of names is a pointer, and `bias` is the static variable, which is also answered. -/
def treeBuild (high : ℕ) (names : ℕ → N) (value : Value) (bias : Bool) : Tree N × Bool :=
  if 1 < high then
    let middle := if high % 2 = 0 then high / 2 - bias.toNat else high / 2
    let next := middle + 1
    let left := treeBuild middle names value (if high % 2 = 0 then !bias else bias)
    let rite := treeBuild (high - next) (fun i => names (next + i)) (value + BitVec.ofNat 64 next) left.2
    (updateHeight left.1 rite.1 (names middle) (value + BitVec.ofNat 64 middle), rite.2)
  else if high = 1 then (leafMake (names 0) value, bias) else (.null, bias)
termination_by high
decreasing_by all_goals (split <;> omega)

/-- The names in order, with their values. -/
def entries : Tree N → List (N × Value)
  | .null => []
  | .node _ left rite name value => entries left ++ (name, value) :: entries rite

/-- The heights are right, and those of the children of a node differ by at most one. -/
def Avl : Tree N → Prop
  | .null => True
  | .node height left rite _ _ => height = 1 + max (branchHeight left) (branchHeight rite) ∧
    branchHeight left ≤ 1 + branchHeight rite ∧ branchHeight rite ≤ 1 + branchHeight left ∧ Avl left ∧ Avl rite

variable {height : ℕ} {left rite tree : Tree N} {name : N} {value : Value}

/-- What rebalancing makes of a node with these children, one of which may be too high by one. -/
structure Rebalanced (left rite : Tree N) (name : N) (value : Value) (tree : Tree N) : Prop where
  avl : Avl tree
  entries : entries tree = entries left ++ (name, value) :: entries rite
  level : branchHeight left ≤ 1 + branchHeight rite ∧ branchHeight rite ≤ 1 + branchHeight left →
    branchHeight tree = 1 + max (branchHeight left) (branchHeight rite)
  lower : max (branchHeight left) (branchHeight rite) ≤ branchHeight tree
  upper : branchHeight tree ≤ 1 + max (branchHeight left) (branchHeight rite)

theorem rebalanced_level (avl_left : Avl left) (avl_rite : Avl rite) (left_low : branchHeight left ≤ 1 + branchHeight rite)
    (rite_low : branchHeight rite ≤ 1 + branchHeight left) :
    Rebalanced left rite name value (updateHeight left rite name value) where
  avl := ⟨rfl, left_low, rite_low, avl_left, avl_rite⟩
  entries := rfl
  level := fun _ => rfl
  lower := Nat.le_add_left ..
  upper := le_rfl

theorem rebalanceLeft_spec (height : ℕ) (name : N) (value : Value) (avl_left : Avl left) (avl_rite : Avl rite)
    (left_low : branchHeight left ≤ 2 + branchHeight rite) (rite_low : branchHeight rite ≤ 1 + branchHeight left) :
    ∃ tree, rebalanceLeft height left rite name value = some tree ∧ Rebalanced left rite name value tree := by
  unfold rebalanceLeft
  split
  case isTrue fits => exact ⟨_, rfl, rebalanced_level avl_left avl_rite fits rite_low⟩
  case isFalse high =>
    cases left with
    | null => simp at high
    | node h inner outer name' value' =>
      obtain ⟨rfl, inner_low, outer_low, avl_inner, avl_outer⟩ := avl_left
      simp only [branchHeight_node] at high left_low
      by_cases twice : branchHeight outer > branchHeight inner
      · dsimp only
        rw [if_pos twice]
        cases outer with
        | null => simp at twice
        | node h first second name'' value'' =>
          obtain ⟨rfl, first_low, second_low, avl_first, avl_second⟩ := avl_outer
          simp only [branchHeight_node] at *
          refine ⟨_, rfl, ?_⟩
          constructor <;> simp [Avl, entries, updateHeight, avl_inner, avl_first, avl_second, avl_rite] <;> omega
      · dsimp only
        rw [if_neg twice]
        refine ⟨_, rfl, ?_⟩
        constructor <;> simp [Avl, entries, updateHeight, avl_inner, avl_outer, avl_rite] <;> omega

theorem rebalanceRite_spec (height : ℕ) (name : N) (value : Value) (avl_left : Avl left) (avl_rite : Avl rite)
    (left_low : branchHeight left ≤ 1 + branchHeight rite) (rite_low : branchHeight rite ≤ 2 + branchHeight left) :
    ∃ tree, rebalanceRite height left rite name value = some tree ∧ Rebalanced left rite name value tree := by
  unfold rebalanceRite
  split
  case isTrue fits => exact ⟨_, rfl, rebalanced_level avl_left avl_rite left_low fits⟩
  case isFalse high =>
    cases rite with
    | null => simp at high
    | node h inner outer name' value' =>
      obtain ⟨rfl, inner_low, outer_low, avl_inner, avl_outer⟩ := avl_rite
      simp only [branchHeight_node] at high rite_low
      by_cases twice : branchHeight inner > branchHeight outer
      · dsimp only
        rw [if_pos twice]
        cases inner with
        | null => simp at twice
        | node h first second name'' value'' =>
          obtain ⟨rfl, first_low, second_low, avl_first, avl_second⟩ := avl_inner
          simp only [branchHeight_node] at *
          refine ⟨_, rfl, ?_⟩
          constructor <;> simp [Avl, entries, updateHeight, avl_left, avl_first, avl_second, avl_outer] <;> omega
      · dsimp only
        rw [if_neg twice]
        refine ⟨_, rfl, ?_⟩
        constructor <;> simp [Avl, entries, updateHeight, avl_inner, avl_outer, avl_left] <;> omega

section
variable {cmp : N → N → Ordering} {es fs : List (N × Value)} {name' : N} {value' : Value}

/-- The names increase. -/
def Increasing (cmp : N → N → Ordering) (es : List (N × Value)) : Prop :=
  es.Pairwise fun p q => cmp p.1 q.1 = .lt

/-- The value of the first entry with the name. -/
def lookup (cmp : N → N → Ordering) (name : N) (es : List (N × Value)) : Option Value :=
  (es.find? fun p => cmp name p.1 = .eq).map Prod.snd

def nodeValue : Tree N → Option Value
  | .null => none
  | .node _ _ _ _ value => some value

theorem lookup_append : lookup cmp name (es ++ fs) = (lookup cmp name es).or (lookup cmp name fs) := by
  rw [lookup, find?_append, Option.map_or]
  rfl

theorem lookup_cons (n : N) (p : N × Value) :
    lookup cmp n (p :: es) = if cmp n p.1 = .eq then some p.2 else lookup cmp n es := by
  by_cases same : cmp n p.1 = .eq <;> simp [lookup, same]

theorem lookup_none (apart : ∀ p ∈ es, cmp name p.1 ≠ .eq) : lookup cmp name es = none := by
  simpa [lookup] using apart

theorem treeInsert_present (avl : Avl tree) (present : treeLookup cmp name tree ≠ .null) :
    treeInsert cmp name value tree = some tree := by
  induction tree with
  | null => exact absurd rfl present
  | node height left rite name' value' ih_left ih_rite =>
    obtain ⟨rfl, left_low, rite_low, avl_left, avl_rite⟩ := avl
    rw [treeLookup] at present
    rw [treeInsert]
    split at present
    case h_1 => rfl
    case h_2 =>
      rw [ih_left avl_left present]
      exact if_pos left_low
    case h_3 =>
      rw [ih_rite avl_rite present]
      exact if_pos rite_low

variable [Std.TransCmp cmp]

theorem increasing_node : Increasing cmp (es ++ (name, value) :: fs) ↔ Increasing cmp es ∧
    Increasing cmp fs ∧ (∀ p ∈ es, cmp p.1 name = .lt) ∧ ∀ p ∈ fs, cmp name p.1 = .lt := by
  simp only [Increasing, pairwise_append, pairwise_cons, forall_mem_cons]
  constructor
  · rintro ⟨below, ⟨first, above⟩, apart⟩
    exact ⟨below, above, fun p member => (apart p member).1, first⟩
  · rintro ⟨below, above, last, first⟩
    exact ⟨below, ⟨first, above⟩, fun p member => ⟨last p member, fun q member' =>
      Std.TransCmp.lt_trans (last p member) (first q member')⟩⟩

theorem treeLookup_value (increasing : Increasing cmp (entries tree)) :
    nodeValue (treeLookup cmp name tree) = lookup cmp name (entries tree) := by
  induction tree with
  | null => rfl
  | node height left rite name' value' ih_left ih_rite =>
    obtain ⟨increasing_left, increasing_rite, below, above⟩ := increasing_node.mp increasing
    rw [treeLookup, entries, lookup_append]
    split
    case h_1 same =>
      rw [lookup_none]
      · simp [lookup, same, nodeValue]
      · intro p member equal
        have less := Std.TransCmp.lt_of_lt_of_eq (below p member) (Std.OrientedCmp.eq_symm same)
        exact nomatch (Std.OrientedCmp.eq_symm equal).symm.trans less
    case h_2 less =>
      have missing : lookup cmp name ((name', value') :: entries rite) = none := by
        refine lookup_none (forall_mem_cons.mpr ⟨by simp [less], fun p member equal => ?_⟩)
        exact nomatch equal.symm.trans (Std.TransCmp.lt_trans less (above p member))
      rw [ih_left increasing_left, missing, Option.or_none]
    case h_3 greater =>
      have less := Std.OrientedCmp.lt_of_gt greater
      have missing : lookup cmp name (entries left) = none := by
        refine lookup_none fun p member equal => ?_
        exact nomatch (Std.OrientedCmp.eq_symm equal).symm.trans (Std.TransCmp.lt_trans (below p member) less)
      rw [ih_rite increasing_rite, missing]
      simp [lookup, greater]

/-- A tree with one more name. -/
structure Inserted (cmp : N → N → Ordering) (name : N) (value : Value) (tree tree' : Tree N) : Prop where
  avl : Avl tree'
  entries : ∃ es fs, entries tree = es ++ fs ∧ entries tree' = es ++ (name, value) :: fs ∧
    (∀ p ∈ es, cmp p.1 name = .lt) ∧ ∀ p ∈ fs, cmp name p.1 = .lt
  lower : branchHeight tree ≤ branchHeight tree'
  upper : branchHeight tree' ≤ 1 + branchHeight tree

theorem treeInsert_absent (value : Value) (avl : Avl tree) (increasing : Increasing cmp (entries tree))
    (absent : treeLookup cmp name tree = .null) :
    ∃ tree', treeInsert cmp name value tree = some tree' ∧ Inserted cmp name value tree tree' := by
  induction tree with
  | null => exact ⟨_, rfl, ⟨rfl, by simp, by simp, trivial, trivial⟩, ⟨[], [], by simp [entries, leafMake]⟩, by simp, by simp [leafMake]⟩
  | node height left rite name' value' ih_left ih_rite =>
    obtain ⟨rfl, left_low, rite_low, avl_left, avl_rite⟩ := avl
    obtain ⟨increasing_left, increasing_rite, below, above⟩ := increasing_node.mp increasing
    rw [treeLookup] at absent
    rw [treeInsert]
    split at absent
    case h_1 => exact nomatch absent
    case h_2 less =>
      obtain ⟨left', inserted, avl', ⟨es, fs, parts, parts', before, after⟩, lower, upper⟩ :=
        ih_left avl_left increasing_left absent
      obtain ⟨tree', rebalanced, r⟩ := rebalanceLeft_spec (1 + max (branchHeight left) (branchHeight rite))
        name' value' avl' avl_rite (by omega) (by omega)
      rw [inserted]
      obtain ⟨level, low, high⟩ : _ ∧ _ ∧ _ := ⟨r.level, r.lower, r.upper⟩
      refine ⟨tree', rebalanced, r.avl, ⟨es, fs ++ (name', value') :: entries rite, ?_, ?_, before, ?_⟩, ?_, ?_⟩
      · rw [entries, parts, append_assoc]
      · rw [r.entries, parts', append_assoc, cons_append]
      · simp only [forall_mem_append, forall_mem_cons]
        exact ⟨after, less, fun p member => Std.TransCmp.lt_trans less (above p member)⟩
      all_goals rw [branchHeight_node]; omega
    case h_3 greater =>
      obtain ⟨rite', inserted, avl', ⟨es, fs, parts, parts', before, after⟩, lower, upper⟩ :=
        ih_rite avl_rite increasing_rite absent
      obtain ⟨tree', rebalanced, r⟩ := rebalanceRite_spec (1 + max (branchHeight left) (branchHeight rite))
        name' value' avl_left avl' (by omega) (by omega)
      obtain ⟨level, low, high⟩ : _ ∧ _ ∧ _ := ⟨r.level, r.lower, r.upper⟩
      have less := Std.OrientedCmp.lt_of_gt greater
      rw [inserted]
      refine ⟨tree', rebalanced, r.avl, ⟨entries left ++ (name', value') :: es, fs, ?_, ?_, ?_, after⟩, ?_, ?_⟩
      · rw [entries, parts, append_assoc, cons_append]
      · rw [r.entries, parts', append_assoc, cons_append]
      · simp only [forall_mem_append, forall_mem_cons]
        exact ⟨fun p member => Std.TransCmp.lt_trans (below p member) less, less, before⟩
      all_goals rw [branchHeight_node]; omega

/-- The entries that `tree_build` is to make of an array. -/
def built (high : ℕ) (names : ℕ → N) (value : Value) : List (N × Value) :=
  (List.range high).map fun i => (names i, value + BitVec.ofNat 64 i)

theorem built_split (middle rest : ℕ) (names : ℕ → N) (value : Value) :
    built (1 + middle + rest) names value = built middle names value ++ (names middle, value + BitVec.ofNat 64 middle) ::
      built rest (fun i => names (middle + 1 + i)) (value + BitVec.ofNat 64 (middle + 1)) := by
  rw [built, show 1 + middle + rest = middle + (1 + rest) by omega, range_add, add_comm 1 rest, range_succ_eq_map]
  simp [built, Function.comp_def, BitVec.ofNat_add, add_assoc, add_comm 1]
  exact fun i _ => BitVec.add_comm _ _

theorem size_halves {a b : ℕ} (left : a ≤ b + 1) (rite : b ≤ a + 1) :
    Nat.size (1 + a + b) = 1 + max (Nat.size a) (Nat.size b) := by
  have double : ∀ m, 2 * m ≤ 1 + a + b → size m + 1 ≤ size (1 + a + b) := by
    intro m le
    cases size : size m with
    | zero => exact lt_size.mpr (by omega)
    | succ k =>
      have high : 2 ^ k ≤ m := lt_size.mp (by omega)
      exact lt_size.mpr (by omega)
  have upper := size_node_le (le_max_left (size a) (size b)) (le_max_right (size a) (size b))
  have left := double a (by omega)
  have rite := double b (by omega)
  omega

theorem treeBuild_spec (high : ℕ) (names : ℕ → N) (value : Value) (bias : Bool) :
    Avl (treeBuild high names value bias).1 ∧ branchHeight (treeBuild high names value bias).1 = Nat.size high ∧
      entries (treeBuild high names value bias).1 = built high names value := by
  induction high using Nat.strongRecOn generalizing names value bias with
  | _ high ih =>
    rw [treeBuild]
    split
    case isTrue several =>
      obtain ⟨middle, rest, split, middle_le, rest_le, is_middle⟩ : ∃ middle rest, high = 1 + middle + rest ∧
          middle ≤ rest + 1 ∧ rest ≤ middle + 1 ∧
          (if high % 2 = 0 then high / 2 - bias.toNat else high / 2) = middle := by
        refine ⟨_, high - (1 + if high % 2 = 0 then high / 2 - bias.toNat else high / 2), ?_, ?_, ?_, rfl⟩
        all_goals cases bias <;> simp only [Bool.toNat_true, Bool.toNat_false] <;> split_ifs <;> omega
      have is_rest : high - (middle + 1) = rest := by omega
      simp only [is_middle, is_rest]
      obtain ⟨avl_left, height_left, entries_left⟩ := ih middle (by omega) names value (if high % 2 = 0 then !bias else bias)
      obtain ⟨avl_rite, height_rite, entries_rite⟩ := ih rest (by omega) (fun i => names (middle + 1 + i))
        (value + .ofNat 64 (middle + 1)) (treeBuild middle names value (if high % 2 = 0 then !bias else bias)).2
      have near : Near 1 middle rest :=
        ⟨(size_le_size middle_le).trans (size_succ rest).2, (size_le_size rest_le).trans (size_succ middle).2⟩
      refine ⟨⟨rfl, ?_, ?_, avl_left, avl_rite⟩, ?_, ?_⟩
      · rw [height_left, height_rite, add_comm]
        exact near.1
      · rw [height_left, height_rite, add_comm]
        exact near.2
      · rw [updateHeight, branchHeight_node, height_left, height_rite, split, size_halves middle_le rest_le]
      · rw [updateHeight, entries, entries_left, entries_rite, split, built_split]
    case isFalse few =>
      rcases le_one_iff_eq_zero_or_eq_one.mp (not_lt.mp few) with rfl | rfl
      · exact ⟨trivial, rfl, rfl⟩
      · exact ⟨⟨rfl, by simp, by simp, trivial, trivial⟩, rfl, by simp [leafMake, entries, built]⟩

/-- The calls of `tree_insert`, one after the other. -/
def insertAll (cmp : N → N → Ordering) (tree : Tree N) (insertions : List (N × Value)) : Option (Tree N) :=
  insertions.foldlM (fun tree p => treeInsert cmp p.1 p.2 tree) tree

theorem treeLookup_null (increasing : Increasing cmp (entries tree)) :
    treeLookup cmp name tree = .null ↔ lookup cmp name (entries tree) = none := by
  rw [← treeLookup_value increasing]
  cases treeLookup cmp name tree <;> simp [nodeValue]

theorem insert_step (avl : Avl tree) (increasing : Increasing cmp (entries tree)) (name : N) (value : Value) :
    ∃ tree', treeInsert cmp name value tree = some tree' ∧ Avl tree' ∧ Increasing cmp (entries tree') ∧
      ∀ n, lookup cmp n (entries tree') = lookup cmp n (entries tree ++ [(name, value)]) := by
  by_cases present : treeLookup cmp name tree = .null
  · obtain ⟨tree', inserted, avl', ⟨es, fs, parts, parts', before, after⟩, -⟩ :=
      treeInsert_absent value avl increasing present
    rw [parts] at increasing
    obtain ⟨increasing_es, increasing_fs, -⟩ := pairwise_append.mp increasing
    refine ⟨tree', inserted, avl', parts' ▸ increasing_node.mpr ⟨increasing_es, increasing_fs, before, after⟩, fun n => ?_⟩
    rw [parts, parts', lookup_append, lookup_append, lookup_append, lookup_cons, lookup_cons]
    split
    case isTrue same =>
      rw [lookup_none, lookup_none]
      · rfl
      · intro p member equal
        exact nomatch equal.symm.trans (Std.TransCmp.lt_of_eq_of_lt same (after p member))
      · intro p member equal
        exact nomatch (Std.OrientedCmp.eq_symm equal).symm.trans (Std.TransCmp.lt_of_lt_of_eq (before p member) (Std.OrientedCmp.eq_symm same))
    case isFalse => exact (Option.or_none ..).symm
  · refine ⟨tree, treeInsert_present avl present, avl, increasing, fun n => ?_⟩
    rw [lookup_append, lookup_cons]
    split
    case isTrue same =>
      have congr : lookup cmp n (entries tree) = lookup cmp name (entries tree) := by
        simp [lookup, Std.TransCmp.congr_left same]
      obtain ⟨found, known⟩ := Option.ne_none_iff_exists'.mp (mt (treeLookup_null increasing).mpr present)
      rw [congr, known, Option.some_or]
    case isFalse => exact (Option.or_none ..).symm

theorem insertAll_spec (avl : Avl tree) (increasing : Increasing cmp (entries tree)) (insertions : List (N × Value)) :
    ∃ tree', insertAll cmp tree insertions = some tree' ∧ Avl tree' ∧ Increasing cmp (entries tree') ∧
      ∀ n, lookup cmp n (entries tree') = lookup cmp n (entries tree ++ insertions) := by
  induction insertions generalizing tree with
  | nil => exact ⟨tree, rfl, avl, increasing, fun n => by rw [append_nil]⟩
  | cons p insertions ih =>
    obtain ⟨next, inserted, avl_next, increasing_next, looked⟩ := insert_step avl increasing p.1 p.2
    obtain ⟨tree', rest, avl', increasing', looked'⟩ := ih avl_next increasing_next
    refine ⟨tree', ?_, avl', increasing', fun n => ?_⟩
    · rw [insertAll, foldlM_cons, inserted]
      exact rest
    · rw [looked', lookup_append, looked, ← lookup_append, append_assoc]
      rfl

/-- Name trees are AVL search trees that lead from each name to the value that it was first given. -/
theorem name_trees (high : ℕ) (names : ℕ → N) (base : Value) (bias : Bool) (insertions : List (N × Value))
    (increasing : ∀ i j, i < j → j < high → cmp (names i) (names j) = .lt) : ∃ tree,
    insertAll cmp (treeBuild high names base bias).1 insertions = some tree ∧ Increasing cmp (entries tree) ∧
    Avl tree ∧ (∀ name, nodeValue (treeLookup cmp name tree) = lookup cmp name (built high names base ++ insertions)) ∧
    ∀ name value, treeLookup cmp name tree ≠ .null → treeInsert cmp name value tree = some tree := by
  obtain ⟨avl_built, -, entries_built⟩ := treeBuild_spec high names base bias
  have increasing_built : Increasing cmp (entries (treeBuild high names base bias).1) := by
    rw [entries_built, Increasing, built, pairwise_map]
    exact pairwise_lt_range.imp_of_mem fun _ inside less => increasing _ _ less (mem_range.mp inside)
  obtain ⟨tree, inserted, avl, increasing', looked⟩ := insertAll_spec avl_built increasing_built insertions
  refine ⟨tree, inserted, increasing', avl, fun name => ?_, fun name value => treeInsert_present avl⟩
  rw [treeLookup_value increasing', looked, entries_built]

theorem name_trees_small : ∃ tree, insertAll compare (treeBuild 4 (fun i => 2 * i) 10 true).1 [(3, 7), (4, 8)] = some tree ∧
    treeLookup compare 4 tree ≠ .null := by
  obtain ⟨tree, inserted, -, -, looked, -⟩ := name_trees 4 (fun i => 2 * i) 10 true [(3, 7), (4, 8)]
    fun i j less _ => Nat.compare_eq_lt.mpr (mul_lt_mul_of_pos_left less (by decide))
  refine ⟨tree, inserted, fun missing => ?_⟩
  have found := looked 4
  rw [missing] at found
  exact absurd found (by decide)

end

end MitScheme.Microcode.AvlTree
