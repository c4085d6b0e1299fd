import MitScheme.Library.SortedEntries
import MitScheme.Runtime.RbTree.Balance

namespace MitScheme.Runtime.RbTrees

open MitScheme.Library Shape
open List (append_assoc length_append length_cons reverse)

variable {K V : Type} {tree : Tree K V} {m : ℕ} {path : List (Frame K V)} {t : Shape K V} {es : List (K × V)}

def associations (nodes : List (ℕ × K × V)) : List (K × V) := nodes.map Prod.snd

def Shape.entries (t : Shape K V) : List (K × V) := associations t.inorder

theorem associations_append (xs ys : List (ℕ × K × V)) :
    associations (xs ++ ys) = associations xs ++ associations ys := List.map_append

variable {i : ℕ} {k : K} {v : V} {pre post : List (ℕ × K × V)}

theorem associations_place :
    associations (pre ++ (i, k, v) :: post) = associations pre ++ (k, v) :: associations post :=
  associations_append ..

theorem entries_plug : (plug path t).entries = associations (before path) ++ t.entries ++ associations (after path) := by
  rw [Shape.entries, inorder_plug, associations_append, associations_append]
  rfl

variable [LinearOrder K] {key : K} {datum : V}

structure Valid (tree : Tree K V) (es : List (K × V)) (t : Shape K V) : Prop where
  laid : Represents tree t
  balanced : ∃ m, t.Balanced .black m
  entries : t.entries = es
  sorted : Sorted es

def zoom (key : K) : Shape K V → List (Frame K V) → List (Frame K V) × Shape K V
  | .leaf, path => (path, .leaf)
  | .node i c l k v r, path =>
    if key = k then (path, .node i c l k v r)
    else if key < k then zoom key l (⟨.left, i, c, k, v, r⟩ :: path)
    else zoom key r (⟨.right, i, c, k, v, l⟩ :: path)

theorem plug_zoom (key : K) (t : Shape K V) (path : List (Frame K V)) :
    plug (zoom key t path).1 (zoom key t path).2 = plug path t := by
  induction t generalizing path with
  | leaf => rfl
  | node i c l k v r ihl ihr =>
    unfold zoom
    split_ifs with same less
    · rfl
    · exact ihl _
    · exact ihr _

theorem zoom_ends (key : K) (t : Shape K V) (path : List (Frame K V)) :
    (zoom key t path).2 = .leaf ∨ ∃ i c l v r, (zoom key t path).2 = .node i c l key v r := by
  induction t generalizing path with
  | leaf => exact .inl rfl
  | node i c l k v r ihl ihr =>
    unfold zoom
    split_ifs with same less
    · subst same
      exact .inr ⟨i, c, l, v, r, rfl⟩
    · exact ihl _
    · exact ihr _

def Separates (path : List (Frame K V)) (key : K) : Prop :=
  (∀ p ∈ associations (before path), p.1 < key) ∧ ∀ q ∈ associations (after path), key < q.1

theorem zoom_separates {path : List (Frame K V)} (sorted : Sorted (plug path t).entries)
    (separates : Separates path key) : Separates (zoom key t path).1 key := by
  induction t generalizing path with
  | leaf => exact separates
  | node i c l k v r ihl ihr =>
    unfold zoom
    obtain ⟨small, large⟩ := separates
    have split := sorted
    have parts : (Shape.node i c l k v r).entries = l.entries ++ (k, v) :: r.entries := by
      rw [Shape.entries, inorder, associations_append]
      rfl
    rw [entries_plug, parts, append_assoc, append_assoc, List.cons_append, ← append_assoc,
      sorted_node] at split
    obtain ⟨-, -, less_k, greater_k⟩ := split
    split_ifs with same less
    · exact ⟨small, large⟩
    · refine ihl sorted ⟨small, fun q member => ?_⟩
      rcases List.mem_cons.mp member with rfl | member
      · exact less
      · refine less.trans (greater_k q ?_)
        rw [Shape.entries, ← associations_append]
        exact member
    · have greater : k < key := lt_of_le_of_ne (not_lt.mp less) (.symm same)
      refine ihr sorted ⟨fun p member => ?_, large⟩
      rw [before_right, associations_append, List.mem_append, associations_append] at member
      rcases member with member | member
      · exact (less_k p member).trans greater
      · rw [List.mem_singleton.mp member]
        exact greater

omit [LinearOrder K] in
theorem card_cells (t : Shape K V) (up : Option ℕ) : Multiset.card (t.cells up) = t.inorder.length := by
  induction t generalizing up with
  | leaf => rfl
  | node i c l k v r ihl ihr =>
    unfold cells inorder
    rw [Multiset.card_add, Multiset.card_add, Multiset.card_singleton, ihl, ihr, length_append, length_cons]
    omega

omit [LinearOrder K] in
theorem Represents.size_lt (laid : Represents tree t) : t.inorder.length < tree.fuel := by
  have counted := laid.owns.card_le
  rw [card_cells] at counted
  unfold Tree.fuel
  omega

/-- A loop that goes down to the node with the key, or to where that node would be. -/
structure Descends {R : Type} (tree : Tree K V) (key : K) (loop : ℕ → Option ℕ → Option ℕ → Option Direction → Except Error R)
    (absent : Option ℕ → Option Direction → Except Error R) (found : Option ℕ → Except Error R) : Prop where
  leaf : ∀ fuel y d, loop (fuel + 1) none y d = absent y d
  node : ∀ fuel i y d, loop (fuel + 1) (some i) y d = tree.node (some i) >>= fun p =>
    if key = p.key then found (some i)
    else if key < p.key then loop fuel p.left (some i) (some .left) else loop fuel p.right (some i) (some .right)

theorem Descends.eq {R : Type} {loop : ℕ → Option ℕ → Option ℕ → Option Direction → Except Error R}
    {absent : Option ℕ → Option Direction → Except Error R} {found : Option ℕ → Except Error R} {fuel : ℕ}
    (descends : Descends tree key loop absent found) (laid : Represents tree (plug path t)) (enough : t.inorder.length < fuel) :
    loop fuel t.root (upOf path) (directionOf path) =
      if (zoom key t path).2.root.isNone then absent (upOf (zoom key t path).1) (directionOf (zoom key t path).1)
      else found (zoom key t path).2.root := by
  induction t generalizing path fuel with
  | leaf =>
    cases fuel with
    | zero => exact absurd enough (Nat.not_lt_zero _)
    | succ fuel => exact descends.leaf fuel _ _
  | node i c l k v r ihl ihr =>
    cases fuel with
    | zero => exact absurd enough (Nat.not_lt_zero _)
    | succ fuel =>
      have record := @Represents.node K V tree .left i c k v path l r laid
      rw [inorder, length_append, length_cons] at enough
      unfold zoom
      rw [root, descends.node, record, ok_bind]
      simp only [Node.make]
      by_cases same : key = k
      · rw [if_pos same, if_pos same]
        rfl
      · rw [if_neg same, if_neg same]
        by_cases less : key < k
        · rw [if_pos less, if_pos less]
          exact @ihl (⟨.left, i, c, k, v, r⟩ :: path) fuel laid (by omega)
        · rw [if_neg less, if_neg less]
          exact @ihr (⟨.right, i, c, k, v, l⟩ :: path) fuel laid (by omega)

theorem findLoop_eq {fuel : ℕ} (laid : Represents tree (plug path t)) (enough : t.inorder.length < fuel) :
    findLoop tree key fuel t.root = .ok (zoom key t path).2.root := by
  have descends : Descends tree key (fun fuel x _ _ => findLoop tree key fuel x) (fun _ _ => pure none) pure :=
    ⟨fun _ _ _ => rfl, fun _ _ _ _ => rfl⟩
  refine (descends.eq laid enough).trans ?_
  cases (zoom key t path).2.root <;> rfl

theorem insertLoop_eq {fuel : ℕ} (laid : Represents tree (plug path t)) (enough : t.inorder.length < fuel) :
    insertLoop tree key datum fuel t.root (upOf path) (directionOf path) =
      if (zoom key t path).2.root.isNone then
        attach tree key datum (upOf (zoom key t path).1) (directionOf (zoom key t path).1)
      else tree.setNode (zoom key t path).2.root (·.setDatum datum) := by
  have descends : Descends tree key (insertLoop tree key datum) (attach tree key datum)
      fun x => tree.setNode x (·.setDatum datum) := ⟨fun _ _ _ => rfl, fun _ _ _ _ => rfl⟩
  exact descends.eq laid enough

section
variable (valid : Valid tree es t)
include valid

theorem Valid.zoom (key : K) :
    ∃ path t' c n, zoom key t [] = (path, t') ∧ Represents tree (plug path t') ∧ PathBalanced path c n ∧
      t'.Balanced c n ∧ plug path t' = t ∧ Separates path key ∧
      es = associations (before path) ++ t'.entries ++ associations (after path) ∧
      (t' = .leaf ∨ ∃ i c l v r, t' = .node i c l key v r) := by
  have same := plug_zoom key t []
  have balanced := valid.balanced
  obtain ⟨m, balanced⟩ := balanced
  rw [plug] at same
  rw [← same] at balanced
  obtain ⟨c, n, around, balanced⟩ := balanced.zoom
  refine ⟨_, _, c, n, rfl, ?_, around, balanced, same, ?_, ?_, zoom_ends key t []⟩
  · rw [same]
    exact valid.laid
  · have sorted : Sorted (plug [] t).entries := valid.entries ▸ valid.sorted
    exact zoom_separates sorted ⟨fun _ member => absurd member List.not_mem_nil,
      fun _ member => absurd member List.not_mem_nil⟩
  · rw [← entries_plug, same, valid.entries]

theorem Valid.setDatum (order : t.inorder = pre ++ (i, k, v) :: post) (v' : V) : ∃ tree' t',
    tree.setNode (some i) (·.setDatum v') = .ok tree' ∧
    Valid tree' (associations pre ++ (k, v') :: associations post) t' ∧ t'.inorder = pre ++ (i, k, v') :: post := by
  obtain ⟨path, c, l, r, same, left, right⟩ := exists_place order []
  subst same
  obtain ⟨m, balanced⟩ := valid.balanced
  obtain ⟨c', n, around, balanced⟩ := balanced.zoom
  have laid : Represents tree (plug path (.make .left i c l k v r)) := valid.laid
  obtain ⟨tree', ran, laid⟩ := laid.setNode (·.setDatum v') fun _ _ _ => rfl
  have order' : (plug path (.node i c l k v' r)).inorder = pre ++ (i, k, v') :: post := by
    rw [inorder_node, left, right, before, after, List.nil_append, List.append_nil]
  have entries := valid.entries
  rw [Shape.entries, order, associations_place] at entries
  have sorted := valid.sorted
  rw [← entries, sorted_node] at sorted
  refine ⟨tree', _, ran, ⟨laid, around.fill balanced.contents, ?_, sorted_node.mpr sorted⟩, order'⟩
  calc (plug path (.node i c l k v' r)).entries
    _ = associations (pre ++ (i, k, v') :: post) := congrArg associations order'
    _ = _ := associations_place

theorem Valid.insert (key : K) (datum : V) :
    ∃ tree' t', rbTreeInsert tree key datum = .ok tree' ∧ Valid tree' (insertEntry key datum es) t' := by
  obtain ⟨path, t', c, n, ends, laid, around, balanced, same, ⟨small, large⟩, split, kind⟩ := valid.zoom key
  have ran := @insertLoop_eq K V tree [] t _ key datum tree.fuel valid.laid valid.laid.size_lt
  unfold rbTreeInsert
  rw [valid.laid.root, show (none : Option ℕ) = upOf ([] : List (Frame K V)) from rfl,
    show (none : Option Direction) = directionOf ([] : List (Frame K V)) from rfl, ran, ends]
  rcases kind with rfl | ⟨i, c', l, v, r, rfl⟩
  · -- a new node at the leaf
    cases balanced
    obtain ⟨tree1, z, ran, laid⟩ := laid.attach key datum
    obtain ⟨tree2, t2, ran', laid2, balanced2, order⟩ := laid.insertFixup (.red .leaf .leaf) around
    have entries : es = associations (before path) ++ associations (after path) := by
      rw [split]
      simp [Shape.entries, inorder, associations]
    have added : t2.entries = insertEntry key datum es := by
      rw [entries, insertEntry_append small large, Shape.entries, order, inorder_node]
      simp [inorder, associations]
    rw [ran]
    exact ⟨tree2, t2, ran', laid2, balanced2, added, valid.sorted.insertEntry key datum⟩
  · subst same
    obtain ⟨tree', t', ran, valid', -⟩ := valid.setDatum inorder_node datum
    have entries := valid.entries
    rw [Shape.entries, inorder_node, associations_place] at entries
    have sorted := valid.sorted
    rw [← entries, sorted_node] at sorted
    refine ⟨tree', t', ran, ?_⟩
    rw [← entries, insertEntry_present sorted.2.2.1 sorted.2.2.2]
    exact valid'

theorem Valid.findNode (key : K) : (findNode tree key = .ok none ∧ lookup key es = none) ∨
    ∃ i v pre post, findNode tree key = .ok (some i) ∧ t.inorder = pre ++ (i, key, v) :: post := by
  obtain ⟨path, t', c, n, ends, laid, around, balanced, same, ⟨small, large⟩, split, kind⟩ := valid.zoom key
  have ran := @findLoop_eq K V tree [] t _ key tree.fuel valid.laid valid.laid.size_lt
  unfold RbTrees.findNode
  rw [valid.laid.root, ran, ends]
  rcases kind with rfl | ⟨i, c', l, v, r, rfl⟩
  · refine .inl ⟨rfl, ?_⟩
    rw [split, append_assoc]
    exact lookup_absent small (by simpa [Shape.entries, inorder, associations] using large)
  · exact .inr ⟨i, v, _, _, rfl, same ▸ inorder_node⟩

theorem Valid.lookup_place (order : t.inorder = pre ++ (i, k, v) :: post) : lookup k es = some v := by
  have entries := valid.entries
  rw [Shape.entries, order, associations_place] at entries
  have sorted := valid.sorted
  rw [← entries, sorted_node] at sorted
  rw [← entries]
  exact lookup_present sorted.2.2.1

end

variable {K V : Type} {tree : Tree K V} {d e : Direction} {i n m fuel : ℕ} {c : Color} {k : K} {v : V}
  {f : Frame K V} {path : List (Frame K V)} {t a b : Shape K V}

def traversal (d : Direction) (t : Shape K V) : List (ℕ × K × V) :=
  if d = .left then t.inorder else t.inorder.reverse

/-- The nodes around a hole that a traversal from one side meets after it. -/
def afterFrom (d : Direction) (path : List (Frame K V)) : List (ℕ × K × V) :=
  if d = .left then after path else (before path).reverse

theorem traversal_make : traversal d (.make d i c a k v b) = traversal d a ++ (i, k, v) :: traversal d b := by
  cases d with
  | left => rfl
  | right => simp [traversal, inorder_make]

theorem afterFrom_same (towards : f.direction = d.negate) : afterFrom d (f :: path) = afterFrom d path := by
  obtain ⟨direction, i, c, k, v, s⟩ := f
  subst towards
  cases d <;> simp [afterFrom, Direction.negate]

theorem afterFrom_other (away : f.direction = d) :
    afterFrom d (f :: path) = (f.id, f.key, f.datum) :: (traversal d f.sibling ++ afterFrom d path) := by
  obtain ⟨direction, i, c, k, v, s⟩ := f
  subst away
  cases direction <;> simp [afterFrom, traversal]

theorem exists_place_from {pre post : List (ℕ × K × V)} (order : traversal d t = pre ++ (i, k, v) :: post) :
    ∃ path c a b, t = plug path (.make d.negate i c a k v b) ∧ traversal d a ++ afterFrom d path = post := by
  cases d with
  | left =>
    obtain ⟨path, c, l, r, same, -, right⟩ := exists_place order []
    refine ⟨path, c, r, l, same, ?_⟩
    rw [after, List.append_nil] at right
    exact right
  | right =>
    have reversed : t.inorder = post.reverse ++ (i, k, v) :: pre.reverse := by
      have reversed := congrArg reverse order
      simp only [traversal, if_neg (show ¬Direction.right = .left by simp), List.reverse_reverse] at reversed
      simpa using reversed
    obtain ⟨path, c, l, r, same, left, -⟩ := exists_place reversed []
    refine ⟨path, c, l, r, same, ?_⟩
    rw [before, List.nil_append] at left
    have mirrored := congrArg reverse left
    rw [List.reverse_reverse, List.reverse_append] at mirrored
    exact (List.reverse_append ..).symm.trans (by rw [List.reverse_append, mirrored])

theorem Represents.record {pre post : List (ℕ × K × V)} (laid : Represents tree t)
    (order : traversal d t = pre ++ (i, k, v) :: post) : ∃ p, tree.node (some i) = .ok p ∧ p.key = k ∧ p.datum = v := by
  obtain ⟨path, c, a, b, rfl, -⟩ := exists_place_from order
  exact ⟨_, laid.node, rfl, rfl⟩

theorem descendLoop_eq (laid : Represents tree (plug path t)) (nonempty : t ≠ .leaf) (enough : t.inorder.length < fuel) :
    ∃ p rest, traversal d t = p :: rest ∧ descendLoop tree d fuel t.root = .ok (some p.1) := by
  induction fuel generalizing path t with
  | zero => exact absurd enough (Nat.not_lt_zero _)
  | succ fuel ih =>
    rcases t.eq_make d with rfl | ⟨i, c, a, k, v, b, rfl⟩
    · exact absurd rfl nonempty
    · unfold descendLoop
      rw [root_make, laid.node, ok_bind, getLinkPlus_make, traversal_make]
      have shorter : a.inorder.length < fuel := by
        rw [inorder_make] at enough
        split_ifs at enough <;> simp only [length_append, length_cons] at enough <;> omega
      rcases a.eq_make d with rfl | ⟨j, c', a', k', v', b', rfl⟩
      · refine ⟨(i, k, v), traversal d b, ?_, rfl⟩
        cases d <;> rfl
      · have child : Represents tree (plug (⟨d, i, c, k, v, b⟩ :: path) (.make d j c' a' k' v' b')) := laid
        have nonleaf : (Shape.make d j c' a' k' v' b') ≠ .leaf := by cases d <;> simp [Shape.make]
        obtain ⟨p, rest, first, ran⟩ := ih child nonleaf shorter
        rw [if_pos (by simp), first]
        exact ⟨p, _, rfl, ran⟩

theorem ascendLoop_eq (laid : Represents tree (plug path t)) (root : t.root = some i) (enough : path.length < fuel) :
    ascendLoop tree d.negate fuel (some i) = .ok ((afterFrom d path).head?.map Prod.fst) := by
  induction path generalizing t i fuel with
  | nil =>
    cases fuel with
    | zero => exact absurd enough (Nat.not_lt_zero _)
    | succ fuel =>
      rcases t.eq_make .left with rfl | ⟨j, c, a, k, v, b, rfl⟩
      · cases root
      · obtain rfl := Option.some.inj root
        unfold ascendLoop
        rw [laid.node, ok_bind]
        cases d <;> rfl
  | cons f path ih =>
    cases fuel with
    | zero => exact absurd enough (Nat.not_lt_zero _)
    | succ fuel =>
      rcases t.eq_make .left with rfl | ⟨j, c, a, k, v, b, rfl⟩
      · cases root
      · obtain rfl := Option.some.inj root
        have frame := laid.frame
        have apart := laid.apart root_make
        rw [root_make] at frame
        unfold ascendLoop
        rw [laid.node, ok_bind, up_make, upOf, if_pos (by simp), frame, ok_bind]
        by_cases towards : f.direction = d.negate
        · rw [towards, getLinkPlus_make, if_pos rfl, afterFrom_same towards]
          have parent : Represents tree (plug path (f.fill (.make .left j c a k v b))) := laid
          exact ih parent root_make (by simp only [length_cons] at enough; omega)
        · have away : f.direction = d := by
            rw [Direction.eq_negate towards, negate_negate]
          rw [away, ← node_make_negate, getLinkPlus_make, if_neg (apart.symm), afterFrom_other away]
          rfl

theorem Represents.stepNode {pre post : List (ℕ × K × V)} (laid : Represents tree t)
    (order : traversal d t = pre ++ (i, k, v) :: post) :
    stepNode tree d.negate (some i) = .ok (post.head?.map Prod.fst) := by
  obtain ⟨path, c, a, b, rfl, rest⟩ := exists_place_from order
  unfold RbTrees.stepNode
  rw [laid.node, ok_bind, getLinkPlus_make, negate_negate, ← rest]
  rcases a.eq_make d with rfl | ⟨j, c', a', k', v', b', rfl⟩
  · rw [ascendLoop_eq laid root_make laid.length_lt]
    cases d <;> rfl
  · have child : Represents tree (plug (⟨d.negate, i, c, k, v, b⟩ :: path) (.make d j c' a' k' v' b')) := laid
    have nonleaf : (Shape.make d j c' a' k' v' b') ≠ .leaf := by cases d <;> simp [Shape.make]
    have enough : (Shape.make d j c' a' k' v' b').inorder.length < tree.fuel := by
      have whole := child.size_lt
      rw [inorder_plug, length_append, length_append] at whole
      omega
    obtain ⟨p, others, first, ran⟩ := @descendLoop_eq K V tree d _ _ _ child nonleaf enough
    rw [if_pos (by simp), ran, first]
    rfl

theorem Represents.extremeNode (laid : Represents tree t) (d : Direction) :
    extremeNode tree d = .ok ((traversal d t).head?.map Prod.fst) := by
  unfold RbTrees.extremeNode
  rw [laid.root]
  rcases t.eq_make d with rfl | ⟨i, c, a, k, v, b, rfl⟩
  · cases d <;> rfl
  · have nonleaf : (Shape.make d i c a k v b) ≠ .leaf := by cases d <;> simp [Shape.make]
    obtain ⟨p, others, first, ran⟩ := @descendLoop_eq K V tree d _ [] (.make d i c a k v b) laid nonleaf laid.size_lt
    rw [if_pos (by simp), ran, first]
    rfl

def visitLoop (tree : Tree K V) (d : Direction) : ℕ → Option ℕ → Except Error (List ℕ)
  | 0, _ => .error .outOfFuel
  | fuel + 1, x => x.elim (pure []) fun i => do
    let next ← RbTrees.stepNode tree d x
    let rest ← visitLoop tree d fuel next
    pure (i :: rest)

/-- The nodes that `min-node` and `next-node` lead through. -/
def nextNodes (tree : Tree K V) : Except Error (List ℕ) := do
  let x ← minNode tree
  visitLoop tree .right tree.fuel x

/-- The nodes that `max-node` and `prev-node` lead through. -/
def prevNodes (tree : Tree K V) : Except Error (List ℕ) := do
  let x ← maxNode tree
  visitLoop tree .left tree.fuel x

theorem visitLoop_eq {pre post : List (ℕ × K × V)} (laid : Represents tree t)
    (order : traversal d t = pre ++ post) (enough : post.length < fuel) :
    visitLoop tree d.negate fuel (post.head?.map Prod.fst) = .ok (post.map Prod.fst) := by
  induction post generalizing pre fuel with
  | nil =>
    cases fuel with
    | zero => exact absurd enough (Nat.not_lt_zero _)
    | succ fuel => rfl
  | cons p post ih =>
    cases fuel with
    | zero => exact absurd enough (Nat.not_lt_zero _)
    | succ fuel =>
      obtain ⟨i, k, v⟩ := p
      have later : traversal d t = (pre ++ [(i, k, v)]) ++ post := by
        rw [order, append_assoc]
        rfl
      rw [List.head?_cons, Option.map_some, visitLoop, Option.elim_some, laid.stepNode order, ok_bind, ih later (Nat.lt_of_succ_lt_succ enough)]
      rfl

theorem Represents.nextNodes (laid : Represents tree t) : nextNodes tree = .ok (t.inorder.map Prod.fst) := by
  unfold RbTrees.nextNodes minNode
  rw [laid.extremeNode]
  exact @visitLoop_eq K V tree .left _ t [] t.inorder laid rfl laid.size_lt

theorem Represents.prevNodes (laid : Represents tree t) : prevNodes tree = .ok (t.inorder.map Prod.fst).reverse := by
  unfold RbTrees.prevNodes maxNode
  rw [laid.extremeNode, ← List.map_reverse]
  refine @visitLoop_eq K V tree .right _ t [] t.inorder.reverse laid rfl ?_
  rw [List.length_reverse]
  exact laid.size_lt

theorem cells_ids (t : Shape K V) (up : Option ℕ) : (t.cells up).map Prod.fst = (t.inorder.map Prod.fst : Multiset ℕ) := by
  induction t generalizing up with
  | leaf => rfl
  | node i c l k v r ihl ihr =>
    unfold cells inorder
    rw [Multiset.map_add, Multiset.map_add, Multiset.map_singleton, ihl, ihr, List.map_append, Multiset.coe_add, Multiset.singleton_add, Multiset.cons_coe, Multiset.coe_eq_coe]
    exact List.perm_middle.symm

theorem Represents.nodup (laid : Represents tree t) : (t.inorder.map Prod.fst).Nodup := by
  have distinct := laid.owns.distinct
  rw [cells_ids] at distinct
  exact Multiset.coe_nodup.mp distinct

end MitScheme.Runtime.RbTrees
