import Mathlib.Algebra.Order.Group.Multiset
import MitScheme.Library.Cells
import MitScheme.Runtime.RbTree.Operations

/-!
The finite trees that linked nodes lay out, paths to a node of such a tree, and what an update of
a record, a rotation, a new leaf and the removal of a node do to the tree.
-/

namespace MitScheme.Runtime.RbTrees

open MitScheme.Library Node

variable {K V : Type} {tree : Tree K V} {d : Direction} {i x y : ℕ} {c cx cy : Color} {k kx ky : K} {v vx vy : V}

theorem ok_bind {α β : Type} (a : α) (f : α → Except Error β) : (Except.ok a >>= f) = f a := rfl

inductive Shape (K V : Type) where
  | leaf
  | node (id : ℕ) (color : Color) (left : Shape K V) (key : K) (datum : V) (right : Shape K V)

namespace Shape

def root : Shape K V → Option ℕ
  | leaf => none
  | node id _ _ _ _ _ => some id

/-- A node by the subtrees that its links in the direction and against it refer to. -/
def make (d : Direction) (id : ℕ) (color : Color) (plus : Shape K V) (key : K) (datum : V) (minus : Shape K V) :
    Shape K V :=
  if d = .left then node id color plus key datum minus else node id color minus key datum plus

/-- The records of the nodes of a tree below `up`. -/
def cells (up : Option ℕ) : Shape K V → Multiset (ℕ × Node K V)
  | leaf => 0
  | node id color left key datum right =>
    {(id, ⟨key, datum, up, left.root, right.root, some color⟩)} + (left.cells (some id) + right.cells (some id))

end Shape

def Node.make (d : Direction) (up : Option ℕ) (color : Color) (plus minus : Option ℕ) (key : K) (datum : V) :
    Node K V :=
  ⟨key, datum, up, if d = .left then plus else minus, if d = .left then minus else plus, some color⟩

section
variable {up l r : Option ℕ} {a b : Shape K V}

@[simp] theorem root_leaf : (Shape.leaf : Shape K V).root = none := rfl

@[simp] theorem cells_leaf : (Shape.leaf : Shape K V).cells up = 0 := rfl

@[simp] theorem root_make : (Shape.make d i c a k v b).root = some i := by cases d <;> rfl

theorem cells_make : (Shape.make d i c a k v b).cells up =
    {(i, make d up c a.root b.root k v)} + (a.cells (some i) + b.cells (some i)) := by
  cases d with
  | left => rfl
  | right =>
    rw [add_comm (a.cells _)]
    rfl

theorem make_negate : Shape.make d.negate i c a k v b = Shape.make d i c b k v a := by cases d <;> rfl

@[simp] theorem negate_negate : d.negate.negate = d := by cases d <;> rfl

theorem node_make_negate : make d.negate up c l r k v = make d up c r l k v := by cases d <;> rfl

@[simp] theorem getLinkPlus_make : (make d up c l r k v).getLinkPlus d = l := by cases d <;> rfl

@[simp] theorem getLinkMinus_make : (make d up c l r k v).getLinkMinus d = r := by cases d <;> rfl

@[simp] theorem setLinkPlus_make {l' : Option ℕ} :
    (make d up c l r k v).setLinkPlus d l' = make d up c l' r k v := by cases d <;> rfl

@[simp] theorem setLinkMinus_make {r' : Option ℕ} :
    (make d up c l r k v).setLinkMinus d r' = make d up c l r' k v := by cases d <;> rfl

@[simp] theorem setColor_make {c' : Color} :
    (make d up c l r k v).setColor c' = make d up c' l r k v := rfl

@[simp] theorem left_make : (make .left up c l r k v).left = l := rfl

@[simp] theorem right_make : (make .left up c l r k v).right = r := rfl

@[simp] theorem up_make : (make d up c l r k v).up = up := rfl

@[simp] theorem color_make : (make d up c l r k v).color = some c := rfl

end

structure Frame (K V : Type) where
  direction : Direction
  id : ℕ
  color : Color
  key : K
  datum : V
  sibling : Shape K V

def Frame.fill (f : Frame K V) (t : Shape K V) : Shape K V :=
  Shape.make f.direction f.id f.color t f.key f.datum f.sibling

def plug : List (Frame K V) → Shape K V → Shape K V
  | [], t => t
  | f :: path, t => plug path (f.fill t)

def upOf : List (Frame K V) → Option ℕ
  | [] => none
  | f :: _ => some f.id

def rootOf : List (Frame K V) → Option ℕ → Option ℕ
  | [], child => child
  | f :: path, _ => rootOf path (some f.id)

def pathCells : List (Frame K V) → Option ℕ → Multiset (ℕ × Node K V)
  | [], _ => 0
  | f :: path, child =>
    {(f.id, make f.direction (upOf path) f.color child f.sibling.root f.key f.datum)} +
      (f.sibling.cells (some f.id) + pathCells path (some f.id))

theorem root_plug (path : List (Frame K V)) (t : Shape K V) : (plug path t).root = rootOf path t.root := by
  induction path generalizing t with
  | nil => rfl
  | cons f path ih =>
    unfold plug rootOf
    rw [ih, Frame.fill, root_make]

theorem cells_plug (path : List (Frame K V)) (t : Shape K V) :
    (plug path t).cells none = pathCells path t.root + t.cells (upOf path) := by
  induction path generalizing t with
  | nil => exact (zero_add _).symm
  | cons f path ih =>
    unfold plug pathCells
    rw [ih, Frame.fill, root_make, cells_make, upOf]
    ac_rfl

structure Holds (tree : Tree K V) (root : Option ℕ) (cells : Multiset (ℕ × Node K V)) : Prop where
  root : tree.root = root
  owns : Owns tree.nodes cells

def Represents (tree : Tree K V) (t : Shape K V) : Prop := Holds tree t.root (t.cells none)

section
variable {root : Option ℕ} {cells others : Multiset (ℕ × Node K V)} {p : Node K V}

theorem Holds.node (holds : Holds tree root ({(i, p)} + others)) : tree.node (some i) = .ok p := by
  rw [Tree.node, holds.owns.read]
  rfl

theorem Holds.setNode (holds : Holds tree root ({(i, p)} + others)) (set : Node K V → Node K V) :
    ∃ tree', tree.setNode (some i) set = .ok tree' ∧ Holds tree' root ({(i, set p)} + others) := by
  refine ⟨{ tree with nodes := tree.nodes.set i (set p) }, ?_, holds.root, holds.owns.write (set p)⟩
  rw [Tree.setNode, holds.node]
  rfl

theorem Holds.arrange (holds : Holds tree root cells) (same : cells = others) : Holds tree root others :=
  same ▸ holds

end

variable {path : List (Frame K V)} {t a b e : Shape K V}

theorem represents_plug : Represents tree (plug path t) ↔
    Holds tree (rootOf path t.root) (pathCells path t.root + t.cells (upOf path)) := by
  rw [Represents, root_plug, cells_plug]

theorem represents_make : Represents tree (plug path (Shape.make d i c a k v b)) ↔
    Holds tree (rootOf path (some i)) ({(i, make d (upOf path) c a.root b.root k v)} +
      (a.cells (some i) + b.cells (some i) + pathCells path (some i))) := by
  rw [represents_plug, root_make, cells_make]
  rw [show ∀ m n s : Multiset (ℕ × Node K V), m + (n + s) = n + (s + m) by intro m n s; ac_rfl]

theorem Represents.node (laid : Represents tree (plug path (Shape.make d i c a k v b))) :
    tree.node (some i) = .ok (make d (upOf path) c a.root b.root k v) :=
  (represents_make.mp laid).node

theorem Represents.frame {f : Frame K V} (laid : Represents tree (plug (f :: path) t)) : tree.node (some f.id) =
    .ok (make f.direction (upOf path) f.color t.root f.sibling.root f.key f.datum) :=
  @Represents.node K V tree f.direction f.id f.color f.key f.datum path t f.sibling laid

theorem Represents.setNode {c' : Color} {k' : K} {v' : V}
    (laid : Represents tree (plug path (Shape.make d i c a k v b))) (set : Node K V → Node K V)
    (sets : ∀ up l r, set (make d up c l r k v) = make d up c' l r k' v') : ∃ tree',
    tree.setNode (some i) set = .ok tree' ∧ Represents tree' (plug path (Shape.make d i c' a k' v' b)) := by
  obtain ⟨tree', ran, holds⟩ := (represents_make.mp laid).setNode set
  rw [sets] at holds
  exact ⟨tree', ran, represents_make.mpr holds⟩

theorem Represents.setColor (laid : Represents tree (plug path (Shape.make d i c a k v b))) (c' : Color) : ∃ tree',
    tree.setNode (some i) (·.setColor c') = .ok tree' ∧ Represents tree' (plug path (Shape.make d i c' a k v b)) :=
  laid.setNode (·.setColor c') fun _ _ _ => setColor_make

variable {root up : Option ℕ} {others : Multiset (ℕ × Node K V)} {p : Node K V}

theorem Direction.eq_negate {d d' : Direction} (different : d' ≠ d) : d' = d.negate := by
  cases d <;> cases d' <;> first | rfl | exact absurd rfl different

theorem Holds.adopt (holds : Holds tree root (t.cells up + others)) (up' : Option ℕ) :
    ∃ tree', adopt tree t.root up' = .ok tree' ∧ Holds tree' root (t.cells up' + others) := by
  cases t with
  | leaf => exact ⟨tree, rfl, holds⟩
  | node id color left key datum right =>
    obtain ⟨tree', ran, holds⟩ := (holds.arrange (add_assoc ..)).setNode (·.setUp up')
    exact ⟨tree', ran, holds.arrange (add_assoc ..).symm⟩

theorem Holds.root_ne (holds : Holds tree root ({(x, p)} + (t.cells up + others))) : t.root ≠ some x := by
  cases t with
  | leaf => simp
  | node id color left key datum right =>
    intro same
    have present : (id, (⟨key, datum, up, left.root, right.root, some color⟩ : Node K V)) ∈
        (Shape.node id color left key datum right).cells up + others :=
      Multiset.mem_add.mpr (.inl (Multiset.mem_add.mpr (.inl (Multiset.mem_singleton_self _))))
    exact holds.owns.outside present (Option.some.inj same)

theorem Holds.relink (holds : Holds tree (rootOf path (some x)) ({(x, p)} + (pathCells path (some x) + others)))
    (y : Option ℕ) (d : Direction) : ∃ tree', relink tree (upOf path) (some x) y d = .ok tree' ∧
    Holds tree' (rootOf path y) ({(x, p)} + (pathCells path y + others)) := by
  cases path with
  | nil => exact ⟨tree.setRoot y, rfl, rfl, holds.owns⟩
  | cons f path =>
    unfold pathCells at holds
    have sibling := holds.arrange (show _ = {(x, p)} + (f.sibling.cells (some f.id) +
      ({(f.id, .make f.direction (upOf path) f.color (some x) f.sibling.root f.key f.datum)} +
        (pathCells path (some f.id) + others))) by ac_rfl)
    have apart : f.sibling.root ≠ some x := sibling.root_ne
    have holds := holds.arrange (show _ =
      {(f.id, .make f.direction (upOf path) f.color (some x) f.sibling.root f.key f.datum)} +
        ({(x, p)} + (f.sibling.cells (some f.id) + (pathCells path (some f.id) + others))) by ac_rfl)
    have linked : ∀ {tree'}, Holds tree' (rootOf path (some f.id))
        ({(f.id, make f.direction (upOf path) f.color y f.sibling.root f.key f.datum)} +
          ({(x, p)} + (f.sibling.cells (some f.id) + (pathCells path (some f.id) + others)))) →
        Holds tree' (rootOf (f :: path) y) ({(x, p)} + (pathCells (f :: path) y + others)) := by
      intro tree' holds
      unfold pathCells
      exact holds.arrange (by ac_rfl)
    unfold RbTrees.relink upOf
    rw [holds.node, ok_bind]
    by_cases same : f.direction = d
    · subst same
      obtain ⟨tree', ran, holds⟩ := holds.setNode (·.setLinkPlus f.direction y)
      rw [setLinkPlus_make] at holds
      rw [getLinkPlus_make, if_pos rfl]
      exact ⟨tree', ran, linked holds⟩
    · have other : f.direction = d.negate := Direction.eq_negate same
      rw [other, node_make_negate] at holds linked ⊢
      obtain ⟨tree', ran, holds⟩ := holds.setNode (·.setLinkMinus d y)
      rw [setLinkMinus_make] at holds
      rw [getLinkPlus_make, if_neg apart.symm]
      exact ⟨tree', ran, linked holds⟩

theorem Represents.rotatePlus (laid : Represents tree (plug path (.make d x cx a kx vx (.make d y cy b ky vy e)))) :
    ∃ tree', rotatePlus tree (some x) d = .ok tree' ∧
    Represents tree' (plug path (.make d y cy (.make d x cx a kx vx b) ky vy e)) := by
  have holds := represents_make.mp laid
  rw [root_make, cells_make] at holds
  generalize apart : a.cells (some x) + e.cells (some y) = others
  have holds := holds.arrange (show _ = {(x, .make d (upOf path) cx a.root (some y) kx vx)} +
    ({(y, .make d (some x) cy b.root e.root ky vy)} + (b.cells (some y) + (pathCells path (some x) + others)))
    by rw [← apart]; ac_rfl)
  have child := holds.arrange (add_left_comm ..)
  unfold RbTrees.rotatePlus
  dsimp only
  rw [holds.node, ok_bind, getLinkMinus_make, child.node, ok_bind, getLinkPlus_make]
  -- the subtree between the nodes
  obtain ⟨tree1, ran, holds⟩ := holds.setNode (·.setLinkMinus d b.root)
  rw [setLinkMinus_make] at holds
  rw [ran, ok_bind]
  have holds := holds.arrange (show _ = b.cells (some y) + ({(x, .make d (upOf path) cx a.root b.root kx vx)} +
    ({(y, .make d (some x) cy b.root e.root ky vy)} + (pathCells path (some x) + others))) by ac_rfl)
  obtain ⟨tree2, ran, holds⟩ := holds.adopt (some x)
  rw [ran, ok_bind]
  -- the parent of the node
  have holds := holds.arrange (show _ = {(x, .make d (upOf path) cx a.root b.root kx vx)} +
    ({(y, .make d (some x) cy b.root e.root ky vy)} + (pathCells path (some x) + (b.cells (some x) + others)))
    by ac_rfl)
  rw [holds.node, ok_bind, up_make]
  obtain ⟨tree3, ran, holds⟩ := (holds.arrange (add_left_comm ..)).setNode (·.setUp (upOf path))
  rw [ran, ok_bind]
  have holds := holds.arrange (show _ = {(x, .make d (upOf path) cx a.root b.root kx vx)} +
    (pathCells path (some x) + ({(y, .make d (upOf path) cy b.root e.root ky vy)} + (b.cells (some x) + others)))
    by ac_rfl)
  obtain ⟨tree4, ran, holds⟩ := holds.relink (some y) d
  rw [ran, ok_bind]
  -- the links between the nodes
  have holds := holds.arrange (show _ = {(y, .make d (upOf path) cy b.root e.root ky vy)} +
    ({(x, .make d (upOf path) cx a.root b.root kx vx)} + (pathCells path (some y) + (b.cells (some x) + others)))
    by ac_rfl)
  obtain ⟨tree5, ran, holds⟩ := holds.setNode (·.setLinkPlus d (some x))
  rw [setLinkPlus_make] at holds
  rw [ran]
  obtain ⟨tree6, ran, holds⟩ := (holds.arrange (add_left_comm ..)).setNode (·.setUp (some y))
  refine ⟨tree6, ran, represents_make.mpr ?_⟩
  rw [root_make, cells_make]
  exact holds.arrange (by rw [← apart]; ac_rfl)

theorem Represents.rotateMinus (laid : Represents tree (plug path (.make d x cx (.make d y cy e ky vy b) kx vx a))) :
    ∃ tree', rotateMinus tree (some x) d = .ok tree' ∧
    Represents tree' (plug path (.make d y cy e ky vy (.make d x cx b kx vx a))) := by
  rw [← make_negate, ← @make_negate K V d y] at laid
  obtain ⟨tree', ran, laid⟩ := laid.rotatePlus
  rw [make_negate, make_negate] at laid
  exact ⟨tree', ran, laid⟩

def directionOf : List (Frame K V) → Option Direction
  | [] => none
  | f :: _ => some f.direction

theorem Holds.linkBelow (holds : Holds tree (rootOf path none) (pathCells path none + others)) (z : Option ℕ) :
    ∃ tree', linkBelow tree z (upOf path) (directionOf path) = .ok tree' ∧
      Holds tree' (rootOf path z) (pathCells path z + others) := by
  cases path with
  | nil => exact ⟨tree.setRoot z, rfl, rfl, holds.owns⟩
  | cons f path =>
    have sets : linkBelow tree z (upOf (f :: path)) (directionOf (f :: path)) =
        tree.setNode (some f.id) (·.setLinkPlus f.direction z) := by
      cases direction : f.direction <;> simp [RbTrees.linkBelow, upOf, directionOf, direction, setLinkPlus]
    obtain ⟨tree', ran, holds⟩ := (holds.arrange (add_assoc ..)).setNode (·.setLinkPlus f.direction z)
    rw [setLinkPlus_make] at holds
    rw [sets]
    exact ⟨tree', ran, holds.arrange (add_assoc ..).symm⟩

theorem Represents.attach (laid : Represents tree (plug path .leaf)) (k : K) (v : V) :
    ∃ tree' z, attach tree k v (upOf path) (directionOf path) = insertFixup tree' (some z) ∧
      Represents tree' (plug path (.node z .red .leaf k v .leaf)) := by
  rw [represents_plug] at laid
  rw [cells_leaf, add_zero] at laid
  have holds : Holds (tree.makeNode k v).1 (rootOf path none)
      ({(tree.nodes.length, ⟨k, v, none, none, none, none⟩)} + pathCells path none) :=
    ⟨laid.root, laid.owns.alloc _⟩
  unfold RbTrees.attach
  dsimp only
  obtain ⟨tree1, ran, holds⟩ := holds.setNode (·.setUp (upOf path))
  rw [show (tree.makeNode k v).2 = some tree.nodes.length from rfl, ran, ok_bind]
  obtain ⟨tree2, ran, holds⟩ := (holds.arrange (add_comm ..)).linkBelow (some tree.nodes.length)
  rw [ran, ok_bind]
  obtain ⟨tree3, ran, holds⟩ := (holds.arrange (add_comm ..)).setNode (·.setColor .red)
  rw [ran]
  refine ⟨tree3, tree.nodes.length, rfl, (represents_make (d := .left)).mpr ?_⟩
  rw [cells_leaf, add_zero, zero_add]
  exact holds

theorem Represents.unlink (laid : Represents tree (plug path (.make d x c t k v .leaf))) :
    ∃ tree', Represents tree' (plug path t) ∧
      unlink tree (some x) = if c = .black then deleteFixup tree' t.root (upOf path) else pure tree' := by
  have holds := represents_make.mp laid
  have child : (make d (upOf path) c t.root none k v).left.or
      (make d (upOf path) c t.root none k v).right = t.root := by
    cases d with
    | left => exact Option.or_none
    | right => rfl
  unfold RbTrees.unlink
  dsimp only
  rw [root_leaf] at holds
  rw [holds.node, ok_bind, child, up_make]
  have holds := holds.arrange (show _ = t.cells (some x) + ({(x, .make d (upOf path) c t.root none k v)} +
    (pathCells path (some x) + Shape.leaf.cells (some x))) by ac_rfl)
  obtain ⟨tree1, ran, holds⟩ := holds.adopt (upOf path)
  rw [ran, ok_bind]
  have holds := holds.arrange (show _ = {(x, .make d (upOf path) c t.root none k v)} +
    (pathCells path (some x) + (t.cells (upOf path) + Shape.leaf.cells (some x))) by ac_rfl)
  obtain ⟨tree2, ran, holds⟩ := holds.relink t.root .left
  rw [ran, ok_bind, holds.node, ok_bind, color_make]
  refine ⟨tree2, represents_plug.mpr ⟨holds.root, ?_⟩, ?_⟩
  · have owns := holds.owns.rest
    rw [cells_leaf, add_zero] at owns
    exact owns
  · simp

end MitScheme.Runtime.RbTrees
