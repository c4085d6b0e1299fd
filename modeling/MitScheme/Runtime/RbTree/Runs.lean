import Mathlib.Data.Nat.Log
import MitScheme.Runtime.RbTree.Associations

/-!
The changes that any program makes to a red-black tree, what they do to its invariants, and sessions of operations
on a tree and on the finite map that it stands for.
-/

namespace MitScheme.Runtime.RbTrees

open MitScheme.Library Shape
open Prod (fst map snd)

variable {K V : Type}

inductive Change (K V : Type) where
  | insert (key : K) (datum : V)
  | delete (key : K)
  | deleteMin (default : K)
  | deleteMinDatum (default : V)
  | deleteMinPair
  | deleteMax (default : K)
  | deleteMaxDatum (default : V)
  | deleteMaxPair
  | intern (key : K) (fail : Unit → V)
  | clear

inductive Reply (K V : Type) where
  | unspecific
  | boolean (value : Bool)
  | key (value : K)
  | datum (value : V)
  | pair (value : Option (K × V))

section
variable [LinearOrder K]

def change (tree : Tree K V) : Change K V → Except Error (Tree K V × Reply K V)
  | .insert key datum => (·, .unspecific) <$> rbTreeInsert tree key datum
  | .delete key => (map id .boolean) <$> rbTreeDelete tree key
  | .deleteMin default => (map id .key) <$> rbTreeDeleteMin tree default
  | .deleteMinDatum default => (map id .datum) <$> rbTreeDeleteMinDatum tree default
  | .deleteMinPair => (map id .pair) <$> rbTreeDeleteMinPair tree
  | .deleteMax default => (map id .key) <$> rbTreeDeleteMax tree default
  | .deleteMaxDatum default => (map id .datum) <$> rbTreeDeleteMaxDatum tree default
  | .deleteMaxPair => (map id .pair) <$> rbTreeDeleteMaxPair tree
  | .intern key fail => (map id .datum) <$> rbTreeIntern tree key fail
  | .clear => .ok (rbTreeClear tree, .unspecific)

def changes (tree : Tree K V) : List (Change K V) → Except Error (Tree K V)
  | [] => .ok tree
  | c :: rest => change tree c >>= fun (tree, _) => changes tree rest

def entriesAfter (es : List (K × V)) : Change K V → List (K × V)
  | .insert key datum => insertEntry key datum es
  | .delete key => deleteEntry key es
  | .deleteMin _ | .deleteMinDatum _ | .deleteMinPair => es.tail
  | .deleteMax _ | .deleteMaxDatum _ | .deleteMaxPair => es.dropLast
  | .intern key fail => if (lookup key es).isSome then es else insertEntry key (fail ()) es
  | .clear => []

def replyOf (es : List (K × V)) : Change K V → Reply K V
  | .insert _ _ | .clear => .unspecific
  | .delete key => .boolean (lookup key es).isSome
  | .deleteMin default => .key (es.head?.elim default fst)
  | .deleteMinDatum default => .datum (es.head?.elim default snd)
  | .deleteMinPair => .pair es.head?
  | .deleteMax default => .key (es.getLast?.elim default fst)
  | .deleteMaxDatum default => .datum (es.getLast?.elim default snd)
  | .deleteMaxPair => .pair es.getLast?
  | .intern key fail => .datum ((lookup key es).getD (fail ()))

variable {tree : Tree K V} {es : List (K × V)} {t : Shape K V}

theorem Valid.change (valid : Valid tree es t) (c : Change K V) :
    ∃ tree' t', change tree c = .ok (tree', replyOf es c) ∧ Valid tree' (entriesAfter es c) t' := by
  cases c with
  | insert key datum =>
    obtain ⟨tree', t', ran, valid'⟩ := valid.insert key datum
    exact ⟨tree', t', by rw [RbTrees.change, ran]; rfl, valid'⟩
  | delete key =>
    obtain ⟨tree', t', ran, valid'⟩ := valid.delete key
    exact ⟨tree', t', by rw [RbTrees.change, ran]; rfl, valid'⟩
  | deleteMin default =>
    obtain ⟨tree', t', ran, valid'⟩ := valid.deleteExtremePair .left
    exact ⟨tree', t', by rw [RbTrees.change, rbTreeDeleteMin, ran]; rfl, valid'⟩
  | deleteMinDatum default =>
    obtain ⟨tree', t', ran, valid'⟩ := valid.deleteExtremePair .left
    exact ⟨tree', t', by rw [RbTrees.change, rbTreeDeleteMinDatum, ran]; rfl, valid'⟩
  | deleteMinPair =>
    obtain ⟨tree', t', ran, valid'⟩ := valid.deleteExtremePair .left
    exact ⟨tree', t', by rw [RbTrees.change, rbTreeDeleteMinPair, ran]; rfl, valid'⟩
  | deleteMax default =>
    obtain ⟨tree', t', ran, valid'⟩ := valid.deleteExtremePair .right
    exact ⟨tree', t', by rw [RbTrees.change, rbTreeDeleteMax, ran]; rfl, valid'⟩
  | deleteMaxDatum default =>
    obtain ⟨tree', t', ran, valid'⟩ := valid.deleteExtremePair .right
    exact ⟨tree', t', by rw [RbTrees.change, rbTreeDeleteMaxDatum, ran]; rfl, valid'⟩
  | deleteMaxPair =>
    obtain ⟨tree', t', ran, valid'⟩ := valid.deleteExtremePair .right
    exact ⟨tree', t', by rw [RbTrees.change, rbTreeDeleteMaxPair, ran]; rfl, valid'⟩
  | intern key fail =>
    obtain ⟨tree', t', ran, valid'⟩ := valid.intern key fail
    exact ⟨tree', t', by rw [RbTrees.change, ran]; rfl, valid'⟩
  | clear => exact ⟨_, _, rfl, valid_clear tree⟩

theorem Valid.changes (valid : Valid tree es t) (list : List (Change K V)) :
    ∃ tree' t', changes tree list = .ok tree' ∧ Valid tree' (list.foldl entriesAfter es) t' := by
  induction list generalizing tree es t with
  | nil => exact ⟨tree, t, rfl, valid⟩
  | cons c rest ih =>
    obtain ⟨tree1, t1, ran, valid1⟩ := valid.change c
    obtain ⟨tree', t', ran', valid'⟩ := ih valid1
    exact ⟨tree', t', by rw [changes, ran]; exact ran', valid'⟩

theorem valid_makeRbTree (keyEq : ℕ) : Valid (makeRbTree keyEq : RbTree K V).tree [] .leaf := valid_clear ⟨none, []⟩

end

def Shape.noRedRed : Shape K V → Prop
  | .leaf => True
  | .node _ color left _ _ right =>
    (color = .red → left.color = .black ∧ right.color = .black) ∧ left.noRedRed ∧ right.noRedRed

/-- The numbers of black nodes on the paths from the root to the leaves. -/
def Shape.blackCounts : Shape K V → List ℕ
  | .leaf => [0]
  | .node _ color left _ _ right =>
    (left.blackCounts ++ right.blackCounts).map (· + if color = .black then 1 else 0)

theorem Shape.Balanced.noRedRed {t : Shape K V} {c : Color} {n : ℕ} (balanced : t.Balanced c n) : t.noRedRed := by
  induction balanced with
  | leaf => trivial
  | red left right ihl ihr => exact ⟨fun _ => ⟨left.color_eq, right.color_eq⟩, ihl, ihr⟩
  | black left right ihl ihr => exact ⟨fun red => absurd red (by decide), ihl, ihr⟩

theorem Shape.Balanced.blackCounts {t : Shape K V} {c : Color} {n : ℕ} (balanced : t.Balanced c n) :
    ∀ a ∈ t.blackCounts, a = n := by
  induction balanced with
  | leaf => exact fun a => List.mem_singleton.mp
  | red left right ihl ihr =>
    intro a member
    obtain ⟨b, below, rfl⟩ := List.mem_map.mp member
    exact (List.mem_append.mp below).elim (ihl b) (ihr b)
  | black left right ihl ihr =>
    intro a member
    obtain ⟨b, below, rfl⟩ := List.mem_map.mp member
    exact congrArg (· + 1) ((List.mem_append.mp below).elim (ihl b) (ihr b))

theorem Represents.upLink {tree : Tree K V} {t : Shape K V} {d : Direction} {i j : ℕ} {p : Node K V}
    (laid : Represents tree t) (member : i ∈ t.inorder.map fst) (read : tree.node (some i) = .ok p)
    (link : p.getLinkPlus d = some j) : ∃ q, tree.node (some j) = .ok q ∧ q.up = some i := by
  obtain ⟨⟨i, k, v⟩, present, rfl⟩ := List.mem_map.mp member
  obtain ⟨pre, post, order⟩ := List.append_of_mem present
  obtain ⟨path, c, l, r, rfl, -, -⟩ := exists_place order []
  have here : ∃ a b, Represents tree (plug path (.make d i c a k v b)) := by
    cases d with
    | left => exact ⟨l, r, laid⟩
    | right => exact ⟨r, l, laid⟩
  obtain ⟨a, b, here⟩ := here
  rw [here.node] at read
  obtain rfl := Except.ok.inj read
  rw [getLinkPlus_make] at link
  rcases a.eq_make .left with rfl | ⟨j', c', a', k', v', b', rfl⟩
  · cases link
  · obtain rfl := Option.some.inj link
    have child : Represents tree (plug (⟨d, i, c, k, v, b⟩ :: path) (.make .left j' c' a' k' v' b')) := here
    exact ⟨_, child.node, rfl⟩

variable [LinearOrder K]

/-- The linked nodes of a tree, laid out from its root, meet the invariants of red-black trees. -/
structure RedBlack (tree : Tree K V) (t : Shape K V) : Prop where
  laid : Represents tree t
  root_black : t.color = .black
  no_red_red : t.noRedRed
  black_counts : ∀ a ∈ t.blackCounts, ∀ b ∈ t.blackCounts, a = b
  keys_increase : (t.inorder.map (·.2.1)).Pairwise (· < ·)
  up_links : ∀ i ∈ t.inorder.map fst, ∀ p, tree.node (some i) = .ok p →
    ∀ d j, p.getLinkPlus d = some j → ∃ q, tree.node (some j) = .ok q ∧ q.up = some i

theorem Valid.redBlack {tree : Tree K V} {es : List (K × V)} {t : Shape K V} (valid : Valid tree es t) :
    RedBlack tree t := by
  obtain ⟨m, balanced⟩ := valid.balanced
  have counts := balanced.blackCounts
  refine ⟨valid.laid, balanced.color_eq, balanced.noRedRed,
    fun a member b member' => (counts a member).trans (counts b member').symm, ?_,
    fun i member p read d j => valid.laid.upLink member read⟩
  have sorted : t.entries.Pairwise (·.1 < ·.1) := valid.entries ▸ valid.sorted
  rw [Shape.entries, associations, List.pairwise_map] at sorted
  exact List.pairwise_map.mpr sorted

/-- The operations that insert and delete keep the invariants, and the height is logarithmic. -/
theorem red_black_kept (keyEq : ℕ) (list : List (Change K V)) :
    ∃ tree t height size, changes (makeRbTree keyEq).tree list = .ok tree ∧ RedBlack tree t ∧
      rbTreeHeight tree = .ok height ∧ rbTreeSize tree = .ok size ∧ height ≤ 2 * Nat.log 2 (size + 1) := by
  obtain ⟨tree, t, ran, valid⟩ := (valid_makeRbTree keyEq).changes list
  obtain ⟨m, balanced⟩ := valid.balanced
  refine ⟨tree, t, t.height, t.inorder.length, ran, valid.redBlack, ?_, ?_, ?_⟩
  · unfold rbTreeHeight
    rw [valid.laid.root]
    exact (@measures_eq K V tree tree.fuel t [] valid.laid valid.laid.size_lt).1
  · unfold rbTreeSize
    rw [valid.laid.root]
    exact (@measures_eq K V tree tree.fuel t [] valid.laid valid.laid.size_lt).2
  · have height := balanced.height_le.2 rfl
    have blacks : m ≤ Nat.log 2 (t.inorder.length + 1) := Nat.le_log_of_pow_le (by decide) balanced.size_ge
    omega

inductive Command (K V : Type) where
  | change (change : Change K V)
  | update (key : K) (updater : V → V) (fail : Option (Unit → V)) (succeed : Option (V → V))
  | map (procedure : K → V → V)

def perform (tree : Tree K V) : Command K V → Except Error (Tree K V × Reply K V)
  | .change c => change tree c
  | .update key updater fail succeed => (·, .unspecific) <$> rbTreeUpdate tree key updater fail succeed
  | .map procedure => (·, .unspecific) <$> rbTreeMap procedure tree

/-- A command in a session: an error that is signalled before a change leaves the tree as it is. -/
def step (x : RbTree K V) (c : Command K V) : RbTree K V :=
  ((perform x.tree c).toOption).elim x fun (tree, _) => { x with tree }

def session (x : RbTree K V) (commands : List (Command K V)) : RbTree K V := commands.foldl step x

noncomputable def mapChange (m : K → Option V) : Change K V → K → Option V
  | .insert key datum => Function.update m key (some datum)
  | .delete key => Function.update m key none
  | .deleteMin _ | .deleteMinDatum _ | .deleteMinPair => eraseLeast m
  | .deleteMax _ | .deleteMaxDatum _ | .deleteMaxPair => eraseGreatest m
  | .intern key fail => if (m key).isSome then m else Function.update m key (some (fail ()))
  | .clear => fun _ => none

/-- What a command does to a finite map: an update of an absent key inserts what `fail` returns. -/
noncomputable def mapStep (m : K → Option V) : Command K V → K → Option V
  | .change c => mapChange m c
  | .update key updater fail succeed =>
    (m key).elim (fail.elim m fun fail => Function.update m key (some (updater (fail ()))))
      fun datum => Function.update m key (some (updater (applySucceed succeed datum)))
  | .map procedure => fun k => (m k).map (procedure k)

noncomputable def mapSession (m : K → Option V) (commands : List (Command K V)) : K → Option V :=
  commands.foldl mapStep m

def Meets (m : K → Option V) : Command K V → Prop
  | .update key _ (some _) _ => (m key).isSome
  | _ => True

/-- Every command of a session meets the condition in the map that it starts from. -/
def Met : (K → Option V) → List (Command K V) → Prop
  | _, [] => True
  | m, c :: rest => Meets m c ∧ Met (mapStep m c) rest

variable {tree : Tree K V} {es : List (K × V)} {t : Shape K V} {m : K → Option V}

theorem mapStep_absent {key : K} {updater : V → V} {succeed : Option (V → V)} (absent : m key = none) :
    mapStep m (.update key updater none succeed) = m := by
  rw [mapStep, absent]
  rfl

theorem mapStep_present {key : K} {updater : V → V} {fail : Option (Unit → V)} {succeed : Option (V → V)} {datum : V}
    (present : m key = some datum) : mapStep m (.update key updater fail succeed) =
      Function.update m key (some (updater (applySucceed succeed datum))) := by
  rw [mapStep, present]
  rfl

theorem lookup_insert_update (sorted : Sorted es) (key : K) (datum : V) (k : K) :
    lookup k (insertEntry key datum es) = Function.update (fun k => lookup k es) key (some datum) k := by
  rw [lookup_insertEntry sorted, Function.update_apply]

theorem lookup_entriesAfter (sorted : Sorted es) (c : Change K V) (k : K) :
    lookup k (entriesAfter es c) = mapChange (fun k => lookup k es) c k := by
  cases c with
  | insert key datum => exact lookup_insert_update sorted key datum k
  | delete key =>
    rw [entriesAfter, lookup_deleteEntry sorted]
    exact (Function.update_apply (fun k => lookup k es) key none k).symm
  | deleteMin _ => exact lookup_tail sorted k
  | deleteMinDatum _ => exact lookup_tail sorted k
  | deleteMinPair => exact lookup_tail sorted k
  | deleteMax _ => exact lookup_dropLast sorted k
  | deleteMaxDatum _ => exact lookup_dropLast sorted k
  | deleteMaxPair => exact lookup_dropLast sorted k
  | intern key fail =>
    rw [entriesAfter, mapChange]
    by_cases present : (lookup key es).isSome
    · rw [if_pos present, if_pos present]
    · rw [if_neg present, if_neg present]
      exact lookup_insert_update sorted key (fail ()) k
  | clear => rfl

theorem lookup_map (procedure : K → V → V) (k : K) :
    lookup k (es.map fun p => (p.1, procedure p.1 p.2)) = (lookup k es).map (procedure k) := by
  induction es with
  | nil => rfl
  | cons p es ih =>
    rw [List.map_cons, lookup_cons, lookup_cons, ih]
    by_cases same : p.1 = k
    · rw [if_pos same, if_pos same, ← same]
      rfl
    · rw [if_neg same, if_neg same]

theorem Valid.step {x : RbTree K V} (valid : Valid x.tree es t) (maps : ∀ k, Library.lookup k es = m k) {c : Command K V}
    (meets : Meets m c) :
    ∃ es' t', Valid (step x c).tree es' t' ∧ (step x c).keyEq = x.keyEq ∧ ∀ k, Library.lookup k es' = mapStep m c k := by
  obtain rfl : (fun k => Library.lookup k es) = m := funext maps
  cases c with
  | change c =>
    obtain ⟨tree', t', ran, valid'⟩ := valid.change c
    have stepped : step x (.change c) = { x with tree := tree' } := by
      rw [step, perform, ran]
      rfl
    rw [stepped]
    exact ⟨_, t', valid', rfl, lookup_entriesAfter valid.sorted c⟩
  | map procedure =>
    obtain ⟨tree', t', ran, valid'⟩ := valid.map procedure
    have stepped : step x (.map procedure) = { x with tree := tree' } := by
      rw [step, perform, ran]
      rfl
    rw [stepped]
    exact ⟨_, t', valid', rfl, lookup_map procedure⟩
  | update key updater fail succeed =>
    rcases valid.update key updater fail succeed with ⟨absent, ran⟩ | ⟨tree', t', datum, present, ran, valid'⟩
    · -- without `fail` the update signals an error in both
      have stepped : step x (.update key updater fail succeed) = x := by
        rw [step, perform, ran]
        rfl
      rw [stepped]
      refine ⟨es, t, valid, rfl, fun k => ?_⟩
      cases fail with
      | none => rw [mapStep_absent (m := fun k => Library.lookup k es) absent]
      | some fail =>
        have present : (Library.lookup key es).isSome := meets
        rw [absent] at present
        cases present
    · have stepped : step x (.update key updater fail succeed) = { x with tree := tree' } := by
        rw [step, perform, ran]
        rfl
      rw [stepped]
      refine ⟨_, t', valid', rfl, fun k => ?_⟩
      rw [mapStep_present (m := fun k => Library.lookup k es) present]
      exact lookup_insert_update valid.sorted key _ k

theorem Valid.session {x : RbTree K V} (valid : Valid x.tree es t) (maps : ∀ k, Library.lookup k es = m k)
    {commands : List (Command K V)} (met : Met m commands) :
    ∃ es' t', Valid (session x commands).tree es' t' ∧ (session x commands).keyEq = x.keyEq ∧
      ∀ k, Library.lookup k es' = mapSession m commands k := by
  induction commands generalizing x es t m with
  | nil => exact ⟨es, t, valid, rfl, maps⟩
  | cons c rest ih =>
    obtain ⟨es1, t1, valid1, same, maps1⟩ := valid.step maps met.1
    obtain ⟨es2, t2, valid2, same2, maps2⟩ := ih valid1 maps1 met.2
    exact ⟨es2, t2, valid2, same2.trans same, maps2⟩

/-- The tree is the finite map: its associations are the sorted ones of the map, and the operations
that read it agree with the map. -/
structure Refines (tree : Tree K V) (m : K → Option V) (es : List (K × V)) : Prop where
  sorted : Sorted es
  maps : ∀ k, Library.lookup k es = m k
  alist : rbTreeToAlist tree = .ok es
  key_list : rbTreeKeyList tree = .ok (es.map fst)
  datum_list : rbTreeDatumList tree = .ok (es.map snd)
  lookup : ∀ key default, rbTreeLookup tree key default = .ok ((m key).getD default)
  ref : ∀ key fail succeed, rbTreeRef tree key fail succeed = (m key).elim
    (fail.elim (.error .badRangeArgument) fun fail => .ok (fail ())) fun datum => .ok (applySucceed succeed datum)
  contains : ∀ key, rbTreeContains tree key = .ok (m key).isSome
  min : ∀ default, rbTreeMin tree default = .ok (es.head?.elim default fst)
  min_datum : ∀ default, rbTreeMinDatum tree default = .ok (es.head?.elim default snd)
  min_pair : rbTreeMinPair tree = .ok es.head?
  max : ∀ default, rbTreeMax tree default = .ok (es.getLast?.elim default fst)
  max_datum : ∀ default, rbTreeMaxDatum tree default = .ok (es.getLast?.elim default snd)
  max_pair : rbTreeMaxPair tree = .ok es.getLast?
  /-- The iterations meet every association once, in increasing and in decreasing order. -/
  visits : ∃ ids, nextNodes tree = .ok ids ∧ prevNodes tree = .ok ids.reverse ∧ ids.Nodup ∧
    List.Forall₂ (fun i e => ∃ p, tree.node (some i) = .ok p ∧ p.pair = e) ids es
  replies : ∀ c, ∃ tree', change tree c = .ok (tree', replyOf es c)

theorem Valid.visits (valid : Valid tree es t) :
    List.Forall₂ (fun i e => ∃ p, tree.node (some i) = .ok p ∧ p.pair = e) (t.inorder.map fst) es := by
  rw [← valid.entries, Shape.entries, associations, List.forall₂_map_left_iff, List.forall₂_map_right_iff,
    List.forall₂_same]
  intro e member
  obtain ⟨i, k, v⟩ := e
  obtain ⟨pre, post, order⟩ := List.append_of_mem member
  obtain ⟨p, record, rfl, rfl⟩ := valid.record order
  exact ⟨p, record, rfl⟩

theorem Valid.refines (valid : Valid tree es t) (maps : ∀ k, Library.lookup k es = m k) : Refines tree m es where
  sorted := valid.sorted
  maps := maps
  alist := valid.toAlist
  key_list := valid.keyList
  datum_list := valid.datumList
  lookup key default := by rw [valid.lookup, maps]
  ref key fail succeed := by rw [valid.ref, maps]
  contains key := by rw [valid.contains, maps]
  min default := by rw [rbTreeMin, valid.extremePair]; rfl
  min_datum default := by rw [rbTreeMinDatum, valid.extremePair]; rfl
  min_pair := valid.extremePair .left
  max default := by rw [rbTreeMax, valid.extremePair]; rfl
  max_datum default := by rw [rbTreeMaxDatum, valid.extremePair]; rfl
  max_pair := valid.extremePair .right
  visits := ⟨_, valid.laid.nextNodes, valid.laid.prevNodes, valid.laid.nodup, valid.visits⟩
  replies c := by
    obtain ⟨tree', -, ran, -⟩ := valid.change c
    exact ⟨tree', ran⟩

/-- Sessions on red-black trees are sessions on finite maps, as long as no update of an absent key is
given a datum to insert, and two trees of one order are equal when their associations agree. -/
theorem sessions_refine_maps (keyEq : ℕ) {commands commands' : List (Command K V)} (met : Met (fun _ => none) commands)
    (met' : Met (fun _ => none) commands') :
    ∃ es es', Refines (session (makeRbTree keyEq) commands).tree (mapSession (fun _ => none) commands) es ∧
      Refines (session (makeRbTree keyEq) commands').tree (mapSession (fun _ => none) commands') es' ∧
      ∀ datumEq, rbTreeEqual (session (makeRbTree keyEq) commands) (session (makeRbTree keyEq) commands') datumEq =
        .ok (decide (Agree datumEq es es')) := by
  obtain ⟨es, t, valid, same, maps⟩ := (valid_makeRbTree keyEq).session (fun _ => rfl) met
  obtain ⟨es', t', valid', same', maps'⟩ := (valid_makeRbTree keyEq).session (fun _ => rfl) met'
  exact ⟨es, es', valid.refines maps, valid'.refines maps', valid.equal valid' (same.trans same'.symm)⟩

theorem sessions_refine_maps_two :
    let commands : List (Command ℕ ℕ) := [.change (.insert 2 20), .update 2 (· + 1) (some fun _ => 5) none,
      .change (.insert 1 10)]
    let commands' : List (Command ℕ ℕ) := [.change (.insert 1 10), .update 3 (· + 1) none none]
    ∃ es es', Refines (session (makeRbTree 0) commands).tree (mapSession (fun _ => none) commands) es ∧
      Refines (session (makeRbTree 0) commands').tree (mapSession (fun _ => none) commands') es' ∧
      ∀ datumEq, rbTreeEqual (session (makeRbTree 0) commands) (session (makeRbTree 0) commands') datumEq =
        .ok (decide (Agree datumEq es es')) :=
  sessions_refine_maps 0 ⟨trivial, rfl, trivial, trivial⟩ ⟨trivial, trivial, trivial⟩

theorem update_absent_lost : ¬∀ commands : List (Command ℕ ℕ),
    ∃ es, Refines (session (makeRbTree 0) commands).tree (mapSession (fun _ => none) commands) es := by
  intro all
  obtain ⟨es, refines⟩ := all [.update 1 id (some fun _ => 5) none]
  have present := refines.contains 1
  exact absurd (Except.ok.inj present) (by simp [mapSession, mapStep])

end MitScheme.Runtime.RbTrees
