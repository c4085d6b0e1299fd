import MitScheme.Runtime.RbTree.Layout

/-!
The colors and the black heights of a tree and of a path to a subtree, and the nodes of a tree in
order. A path is balanced for a color and a height when the tree is, once the hole has a subtree
of that color and height.
-/

namespace MitScheme.Runtime.RbTrees

open MitScheme.Library List

variable {K V : Type} {tree : Tree K V} {d : Direction} {i n m : ℕ} {c c' : Color} {k : K} {v : V}
  {f : Frame K V} {path : List (Frame K V)} {t t' a b : Shape K V}

namespace Shape

def color : Shape K V → Color
  | leaf => .black
  | node _ color _ _ _ _ => color

inductive Balanced : Shape K V → Color → ℕ → Prop
  | leaf : Balanced .leaf .black 0
  | red {i n : ℕ} {k : K} {v : V} {l r : Shape K V} :
      Balanced l .black n → Balanced r .black n → Balanced (.node i .red l k v r) .red n
  | black {i n : ℕ} {c c' : Color} {k : K} {v : V} {l r : Shape K V} :
      Balanced l c n → Balanced r c' n → Balanced (.node i .black l k v r) .black (n + 1)

def inorder : Shape K V → List (ℕ × K × V)
  | leaf => []
  | node id _ left key datum right => left.inorder ++ (id, key, datum) :: right.inorder

def blacken : Shape K V → Shape K V
  | leaf => leaf
  | node id _ left key datum right => node id .black left key datum right

end Shape

open Shape

@[simp] theorem color_shape : (Shape.make d i c a k v b).color = c := by cases d <;> rfl

@[simp] theorem blacken_make : (Shape.make d i c a k v b).blacken = .make d i .black a k v b := by cases d <;> rfl

theorem inorder_make : (Shape.make d i c a k v b).inorder =
    if d = .left then a.inorder ++ (i, k, v) :: b.inorder else b.inorder ++ (i, k, v) :: a.inorder := by
  cases d <;> rfl

theorem inorder_make_congr (same : a.inorder = t.inorder) :
    (Shape.make d i c a k v b).inorder = (Shape.make d i c' t k v b).inorder := by
  rw [inorder_make, inorder_make, same]

theorem inorder_blacken : t.blacken.inorder = t.inorder := by cases t <;> rfl

theorem Shape.eq_make (d : Direction) : t = .leaf ∨ ∃ i c a k v b, t = .make d i c a k v b := by
  cases t with
  | leaf => exact .inl rfl
  | node id color left key datum right =>
    refine .inr ?_
    cases d with
    | left => exact ⟨id, color, left, key, datum, right, rfl⟩
    | right => exact ⟨id, color, right, key, datum, left, rfl⟩

namespace Shape.Balanced

theorem color_eq (balanced : t.Balanced c n) : t.color = c := by cases balanced <;> rfl

theorem make_red (plus : a.Balanced .black n) (minus : b.Balanced .black n) :
    (Shape.make d i .red a k v b).Balanced .red n := by
  cases d with
  | left => exact .red plus minus
  | right => exact .red minus plus

theorem make_black (plus : a.Balanced c n) (minus : b.Balanced c' n) :
    (Shape.make d i .black a k v b).Balanced .black (n + 1) := by
  cases d with
  | left => exact .black plus minus
  | right => exact .black minus plus

theorem of_make_red (balanced : (Shape.make d i .red a k v b).Balanced c n) :
    c = .red ∧ a.Balanced .black n ∧ b.Balanced .black n := by
  cases d with
  | left =>
    cases balanced with
    | red left right => exact ⟨rfl, left, right⟩
  | right =>
    cases balanced with
    | red left right => exact ⟨rfl, right, left⟩

theorem of_make_black (balanced : (Shape.make d i .black a k v b).Balanced c n) :
    c = .black ∧ ∃ m ca cb, n = m + 1 ∧ a.Balanced ca m ∧ b.Balanced cb m := by
  cases d with
  | left =>
    cases balanced with
    | black left right => exact ⟨rfl, _, _, _, rfl, left, right⟩
  | right =>
    cases balanced with
    | black left right => exact ⟨rfl, _, _, _, rfl, right, left⟩

theorem exists_red (balanced : t.Balanced .red n) (d : Direction) :
    ∃ i a k v b, t = .make d i .red a k v b ∧ a.Balanced .black n ∧ b.Balanced .black n := by
  rcases t.eq_make d with rfl | ⟨i, c, a, k, v, b, rfl⟩
  · cases balanced
  · have red := balanced.color_eq
    rw [color_shape] at red
    subst red
    obtain ⟨-, plus, minus⟩ := balanced.of_make_red
    exact ⟨i, a, k, v, b, rfl, plus, minus⟩

theorem exists_black (balanced : t.Balanced .black (n + 1)) (d : Direction) :
    ∃ i a k v b ca cb, t = .make d i .black a k v b ∧ a.Balanced ca n ∧ b.Balanced cb n := by
  rcases t.eq_make d with rfl | ⟨i, c, a, k, v, b, rfl⟩
  · cases balanced
  · have black := balanced.color_eq
    rw [color_shape] at black
    subst black
    obtain ⟨-, m, ca, cb, height, plus, minus⟩ := balanced.of_make_black
    obtain rfl := Nat.succ.inj height
    exact ⟨i, a, k, v, b, ca, cb, rfl, plus, minus⟩

theorem contents {k' : K} {v' : V} (balanced : (Shape.node i c a k v b).Balanced c' n) :
    (Shape.node i c a k' v' b).Balanced c' n := by
  cases balanced with
  | red left right => exact .red left right
  | black left right => exact .black left right

theorem blacken (balanced : t.Balanced c n) : ∃ m, t.blacken.Balanced .black m := by
  cases balanced with
  | leaf => exact ⟨0, .leaf⟩
  | red left right => exact ⟨_, .black left right⟩
  | black left right => exact ⟨_, .black left right⟩

theorem blacken_red (balanced : t.Balanced .red n) : t.blacken.Balanced .black (n + 1) := by
  cases balanced with
  | red left right => exact .black left right

theorem blacken_eq (balanced : t.Balanced .black n) : t.blacken = t := by cases balanced <;> rfl

end Shape.Balanced

def Shape.height : Shape K V → ℕ
  | .leaf => 0
  | .node _ _ left _ _ right => 1 + max left.height right.height

theorem Shape.Balanced.height_le (balanced : t.Balanced c n) :
    t.height ≤ 2 * n + 1 ∧ (c = .black → t.height ≤ 2 * n) := by
  induction balanced with
  | leaf => exact ⟨Nat.zero_le _, fun _ => le_refl _⟩
  | red left right ihl ihr =>
    have left := ihl.2 rfl
    have right := ihr.2 rfl
    simp only [Shape.height]
    exact ⟨by omega, fun black => absurd black (by decide)⟩
  | black left right ihl ihr =>
    simp only [Shape.height]
    exact ⟨by omega, fun _ => by omega⟩

theorem Shape.Balanced.size_ge (balanced : t.Balanced c n) : 2 ^ n ≤ t.inorder.length + 1 := by
  induction balanced with
  | leaf => exact le_refl _
  | red left right ihl ihr =>
    simp only [inorder, length_append, length_cons]
    omega
  | black left right ihl ihr =>
    simp only [inorder, length_append, length_cons, pow_succ]
    omega

/-- The tree around the hole is balanced, once the hole has a subtree of the color and the height. -/
inductive PathBalanced : List (Frame K V) → Color → ℕ → Prop
  | root {n : ℕ} : PathBalanced [] .black n
  | red {d : Direction} {i n : ℕ} {k : K} {v : V} {s : Shape K V} {path : List (Frame K V)} :
      s.Balanced .black n → PathBalanced path .red n → PathBalanced (⟨d, i, .red, k, v, s⟩ :: path) .black n
  | black {d : Direction} {i n : ℕ} {c c' : Color} {k : K} {v : V} {s : Shape K V} {path : List (Frame K V)} :
      s.Balanced c' n → PathBalanced path .black (n + 1) → PathBalanced (⟨d, i, .black, k, v, s⟩ :: path) c n

theorem PathBalanced.fill (around : PathBalanced path c n) (balanced : t.Balanced c n) :
    ∃ m, (plug path t).Balanced .black m := by
  induction around generalizing t with
  | root => exact ⟨_, balanced⟩
  | red sibling around ih => exact ih (.make_red balanced sibling)
  | black sibling around ih => exact ih (.make_black balanced sibling)

theorem Shape.Balanced.zoom (balanced : (plug path t).Balanced .black m) :
    ∃ c n, PathBalanced path c n ∧ t.Balanced c n := by
  induction path generalizing t with
  | nil => exact ⟨_, _, .root, balanced⟩
  | cons f path ih =>
    obtain ⟨c, n, around, inside⟩ := ih balanced
    obtain ⟨d, i, color, k, v, s⟩ := f
    cases color with
    | red =>
      obtain ⟨rfl, plus, minus⟩ := inside.of_make_red
      exact ⟨_, _, .red minus around, plus⟩
    | black =>
      obtain ⟨rfl, n, ca, cb, rfl, plus, minus⟩ := inside.of_make_black
      exact ⟨_, _, .black minus around, plus⟩

theorem PathBalanced.weaken (around : PathBalanced path .red n) (c : Color) : PathBalanced path c n := by
  cases around with
  | black sibling around => exact .black sibling around

theorem PathBalanced.toBlack (around : PathBalanced path c n) : PathBalanced path .black n := by
  cases c with
  | red => exact around.weaken .black
  | black => exact around

def before : List (Frame K V) → List (ℕ × K × V)
  | [] => []
  | f :: path =>
    if f.direction = .left then before path else before path ++ f.sibling.inorder ++ [(f.id, f.key, f.datum)]

def after : List (Frame K V) → List (ℕ × K × V)
  | [] => []
  | f :: path =>
    if f.direction = .left then (f.id, f.key, f.datum) :: (f.sibling.inorder ++ after path) else after path

@[simp] theorem before_left : before (⟨.left, i, c, k, v, a⟩ :: path) = before path := if_pos rfl

@[simp] theorem before_right :
    before (⟨.right, i, c, k, v, a⟩ :: path) = before path ++ a.inorder ++ [(i, k, v)] := if_neg (by simp)

@[simp] theorem after_left :
    after (⟨.left, i, c, k, v, a⟩ :: path) = (i, k, v) :: (a.inorder ++ after path) := if_pos rfl

@[simp] theorem after_right : after (⟨.right, i, c, k, v, a⟩ :: path) = after path := if_neg (by simp)

theorem inorder_plug (path : List (Frame K V)) (t : Shape K V) :
    (plug path t).inorder = before path ++ t.inorder ++ after path := by
  induction path generalizing t with
  | nil => simp [plug, before, after]
  | cons f path ih =>
    unfold plug before after
    rw [ih, Frame.fill, inorder_make]
    cases f.direction <;> simp

theorem inorder_plug_congr (same : t.inorder = t'.inorder) : (plug path t).inorder = (plug path t').inorder := by
  rw [inorder_plug, inorder_plug, same]

theorem inorder_node {i : ℕ} {c : Color} {l r : Shape K V} {k : K} {v : V} :
    (plug path (.node i c l k v r)).inorder = (before path ++ l.inorder) ++ (i, k, v) :: (r.inorder ++ after path) := by
  rw [inorder_plug, inorder]
  simp

theorem exists_place {i : ℕ} {k : K} {v : V} {pre post : List (ℕ × K × V)}
    (order : t.inorder = pre ++ (i, k, v) :: post) (path : List (Frame K V)) :
    ∃ path' c l r, plug path t = plug path' (.node i c l k v r) ∧ before path' ++ l.inorder = before path ++ pre ∧
      r.inorder ++ after path' = post ++ after path := by
  induction t generalizing path pre post with
  | leaf => simp [inorder] at order
  | node j c l k' v' r ihl ihr =>
    rw [inorder, append_eq_append_iff] at order
    rcases order with ⟨mid, rfl, rest⟩ | ⟨mid, parts, rest⟩
    · cases mid with
      | nil =>
        obtain ⟨same, rfl⟩ := cons.inj rest
        cases same
        exact ⟨path, c, l, r, rfl, by rw [append_nil], rfl⟩
      | cons e mid =>
        obtain ⟨first, others⟩ := cons.inj rest
        subst first
        obtain ⟨path', c', l', r', same, left, right⟩ := ihr others (⟨.right, j, c, k', v', l⟩ :: path)
        refine ⟨path', c', l', r', same, left.trans ?_, right⟩
        simp
    · cases mid with
      | nil =>
        obtain ⟨same, rfl⟩ := cons.inj rest
        cases same
        rw [append_nil] at parts
        subst parts
        exact ⟨path, c, l, r, rfl, rfl, rfl⟩
      | cons e mid =>
        obtain ⟨first, others⟩ := cons.inj rest
        subst first others
        obtain ⟨path', c', l', r', same, left, right⟩ := ihl parts (⟨.left, j, c, k', v', r⟩ :: path)
        refine ⟨path', c', l', r', same, left, right.trans ?_⟩
        simp

variable {K V : Type} {tree : Tree K V} {d : Direction} {i x y g n m : ℕ} {c : Color} {k kx ky kg : K} {v vx vy vg : V}
  {f : Frame K V} {path : List (Frame K V)} {t a b p q r s : Shape K V}

theorem Represents.isRed (laid : Represents tree (plug path t)) :
    tree.isRed t.root = .ok (decide (t.color = .red)) := by
  rcases t.eq_make .left with rfl | ⟨i, c, a, k, v, b, rfl⟩
  · rfl
  · rw [root_make, Tree.isRed, laid.node, ok_bind, color_make]
    simp only [Option.some.injEq]
    rfl

theorem Represents.isBlack (laid : Represents tree (plug path t)) :
    tree.isBlack t.root = .ok (decide (t.color = .black)) := by
  rcases t.eq_make .left with rfl | ⟨i, c, a, k, v, b, rfl⟩
  · rfl
  · rw [root_make, Tree.isBlack, laid.node, ok_bind, color_make]
    simp only [Option.some.injEq]
    rfl

theorem plug_turn : plug (⟨d, i, c, k, v, b⟩ :: path) a = plug (⟨d.negate, i, c, k, v, a⟩ :: path) b := by
  unfold plug Frame.fill
  rw [make_negate]

theorem Represents.apart (laid : Represents tree (plug (f :: path) t)) (root : t.root = some x) :
    f.sibling.root ≠ some x := by
  rcases t.eq_make .left with rfl | ⟨i, c, a, k, v, b, rfl⟩
  · cases root
  · obtain rfl := Option.some.inj root
    have holds := represents_make.mp laid
    unfold pathCells at holds
    have sibling := holds.arrange (show _ = {(i, .make .left (upOf (f :: path)) c a.root b.root k v)} +
      (f.sibling.cells (some f.id) + (a.cells (some i) + b.cells (some i) +
        {(f.id, .make f.direction (upOf path) f.color (some i) f.sibling.root f.key f.datum)} +
        pathCells path (some f.id))) by ac_rfl)
    exact sibling.root_ne

theorem side_eq {up l r : Option ℕ} (different : l ≠ r) :
    Direction.ofLeft (l = (Node.make d up c l r k v).left) = d := by
  cases d with
  | left => simp [Direction.ofLeft]
  | right => simp [Direction.ofLeft, Node.make, different]

theorem length_le_card {child : Option ℕ} : path.length ≤ Multiset.card (pathCells path child) := by
  induction path generalizing child with
  | nil => exact Nat.zero_le _
  | cons f path ih =>
    have rest := @ih (some f.id)
    unfold pathCells
    rw [Multiset.card_add, Multiset.card_add, Multiset.card_singleton, length_cons]
    omega

theorem Represents.length_lt (laid : Represents tree (plug path t)) : path.length < tree.fuel := by
  have counted := (represents_plug.mp laid).owns.card_le
  rw [Multiset.card_add] at counted
  have long := @length_le_card K V path t.root
  unfold Tree.fuel
  omega

theorem inorder_rotate {cx cy cx' cy' : Color} :
    (Shape.make d y cy' (.make d x cx' p kx vx q) ky vy r).inorder =
      (Shape.make d x cx p kx vx (.make d y cy q ky vy r)).inorder := by
  cases d <;> simp [Shape.make, inorder]

theorem Represents.insertCase1 {d' : Direction} {u : ℕ} {ku : K} {vu : V}
    (laid : Represents tree (plug (⟨d', u, .red, ku, vu, s⟩ :: ⟨d, g, .black, kg, vg, r⟩ :: path) t))
    (uncle : r.Balanced .red n) : ∃ tree', insertCase1 tree (some u) r.root = .ok (tree', some g) ∧
    Represents tree' (plug path (.make d g .red (.make d' u .black t ku vu s) kg vg r.blacken)) := by
  obtain ⟨w, p, kw, vw, q, rfl, -, -⟩ := uncle.exists_red .left
  unfold RbTrees.insertCase1
  have parent : Represents tree (plug (⟨d, g, .black, kg, vg, .make .left w .red p kw vw q⟩ :: path)
    (.make d' u .red t ku vu s)) := laid
  obtain ⟨tree1, ran, parent⟩ := parent.setColor .black
  rw [plug_turn] at parent
  rw [ran, ok_bind, root_make]
  obtain ⟨tree2, ran, parent⟩ := parent.setColor .black
  rw [← plug_turn] at parent
  rw [ran, ok_bind, parent.node, ok_bind, up_make, upOf]
  have grandparent : Represents tree2 (plug path
    (.make d g .black (.make d' u .black t ku vu s) kg vg (.make .left w .black p kw vw q))) := parent
  obtain ⟨tree3, ran, grandparent⟩ := grandparent.setColor .red
  have parent : Represents tree3 (plug (⟨d, g, .red, kg, vg, .make .left w .black p kw vw q⟩ :: path)
    (.make d' u .black t ku vu s)) := grandparent
  rw [ran, ok_bind, parent.node, ok_bind]
  exact ⟨tree3, rfl, grandparent⟩

theorem Represents.insertCase3
    (laid : Represents tree (plug (⟨d, y, .red, ky, vy, r⟩ :: ⟨d, g, c, kg, vg, s⟩ :: path) (.make d x .red p kx vx q))) :
    ∃ tree', insertCase3 tree (some x) d = .ok tree' ∧
      Represents tree' (plug path (.make d y .black (.make d x .red p kx vx q) ky vy (.make d g .red r kg vg s))) := by
  unfold RbTrees.insertCase3
  dsimp only
  rw [laid.node, ok_bind, up_make, upOf]
  have parent : Represents tree (plug (⟨d, g, c, kg, vg, s⟩ :: path) (.make d y .red (.make d x .red p kx vx q) ky vy r)) :=
    laid
  obtain ⟨tree1, ran, parent⟩ := parent.setColor .black
  rw [ran, ok_bind, parent.node, ok_bind, up_make, upOf]
  have grandparent : Represents tree1 (plug path
    (.make d g c (.make d y .black (.make d x .red p kx vx q) ky vy r) kg vg s)) := parent
  obtain ⟨tree2, ran, grandparent⟩ := grandparent.setColor .red
  have parent : Represents tree2 (plug (⟨d, g, .red, kg, vg, s⟩ :: path)
    (.make d y .black (.make d x .red p kx vx q) ky vy r)) := grandparent
  rw [ran, ok_bind, parent.node, ok_bind]
  exact grandparent.rotateMinus

theorem Represents.insertCase2 {d' : Direction} {u : ℕ} {ku : K} {vu : V}
    (laid : Represents tree (plug (⟨d', u, .red, ku, vu, s⟩ :: path) t))
    (balanced : t.Balanced .red n) (sibling : s.Balanced .black n) :
    ∃ tree' y ky vy r x p kx vx q, insertCase2 tree t.root (some u) d = .ok (tree', some x) ∧
      Represents tree' (plug (⟨d, y, .red, ky, vy, r⟩ :: path) (.make d x .red p kx vx q)) ∧
      p.Balanced .black n ∧ q.Balanced .black n ∧ r.Balanced .black n ∧
      (Shape.make d y .red (.make d x .red p kx vx q) ky vy r).inorder =
        (Shape.make d' u .red t ku vu s).inorder := by
  obtain ⟨x, p, kx, vx, q, rfl, plus, minus⟩ := balanced.exists_red d
  have apart := laid.apart root_make
  unfold RbTrees.insertCase2
  rw [laid.frame, ok_bind, root_make]
  by_cases aligned : d' = d
  · subst aligned
    rw [getLinkMinus_make, if_neg (apart.symm)]
    exact ⟨tree, u, ku, vu, s, x, p, kx, vx, q, rfl, laid, plus, minus, sibling, rfl⟩
  · rw [Direction.eq_negate aligned] at laid ⊢
    have parent : Represents tree (plug path (.make d.negate u .red (.make d x .red p kx vx q) ku vu s)) := laid
    rw [make_negate] at parent
    obtain ⟨tree', ran, parent⟩ := parent.rotatePlus
    rw [node_make_negate, getLinkMinus_make, if_pos rfl, ran]
    refine ⟨tree', x, kx, vx, q, u, s, ku, vu, p, rfl, parent, sibling, plus, minus, ?_⟩
    rw [make_negate]
    exact inorder_rotate

/-- A tree that is balanced once its root is black. -/
structure Settles (tree : Tree K V) (nodes : List (ℕ × K × V)) (t : Shape K V) : Prop where
  laid : Represents tree t
  balanced : ∃ m, t.blacken.Balanced .black m
  inorder : t.inorder = nodes

theorem settles_of_balanced (laid : Represents tree t) (balanced : t.Balanced .black m) : Settles tree t.inorder t :=
  ⟨laid, ⟨m, balanced.blacken_eq.symm ▸ balanced⟩, rfl⟩

theorem PathBalanced.exists_black (around : PathBalanced path .red n) : ∃ d g kg vg s cs rest, path =
    ⟨d, g, .black, kg, vg, s⟩ :: rest ∧ s.Balanced cs n ∧ PathBalanced rest .black (n + 1) := by
  cases around with
  | black sibling around => exact ⟨_, _, _, _, _, _, _, rfl, sibling, around⟩

theorem insertFixupLoop_settles {fuel : ℕ} (laid : Represents tree (plug path t)) (balanced : t.Balanced .red n)
    (around : PathBalanced path c n) (enough : path.length < fuel) :
    ∃ tree' t', insertFixupLoop fuel tree t.root = .ok tree' ∧ Settles tree' (plug path t).inorder t' := by
  induction fuel generalizing tree path t c n with
  | zero => exact absurd enough (Nat.not_lt_zero _)
  | succ fuel ih =>
    obtain ⟨x, a, k, v, b, rfl, plus, minus⟩ := balanced.exists_red .left
    unfold insertFixupLoop
    dsimp only
    rw [root_make, laid.node, ok_bind, up_make]
    cases around with
    | root =>
      -- the red node is the root
      exact ⟨tree, _, rfl, laid, balanced.blacken, rfl⟩
    | @black d u _ _ _ ku vu s path sibling around =>
      obtain ⟨m, full⟩ := (PathBalanced.black sibling around).fill balanced
      have parent : Represents tree (plug path (.make d u .black (.make .left x .red a k v b) ku vu s)) := laid
      have color := parent.isRed
      rw [root_make, color_shape] at color
      rw [upOf, color]
      exact ⟨tree, _, rfl, settles_of_balanced laid full⟩
    | @red d u _ ku vu s path sibling around =>
      obtain ⟨dg, g, kg, vg, r, cr, path, rfl, uncle, around⟩ := around.exists_black
      have parent : Represents tree (plug (⟨dg, g, .black, kg, vg, r⟩ :: path)
        (.make d u .red (.make .left x .red a k v b) ku vu s)) := laid
      have color := parent.isRed
      have up := laid.frame
      have up' := parent.frame
      have apart : some u ≠ r.root := (parent.apart root_make).symm
      have turned := parent
      rw [plug_turn] at turned
      have uncle_color := turned.isRed
      rw [root_make, color_shape] at color
      rw [root_make] at up'
      rw [upOf, color, ok_bind, if_pos (by decide), up, ok_bind, up_make, upOf, up', ok_bind, side_eq apart, ok_bind,
        getLinkMinus_make, uncle_color, ok_bind, uncle.color_eq]
      cases cr with
      | red =>
        -- case 1: the fault moves to the node above the parent
        obtain ⟨tree', ran, laid⟩ := laid.insertCase1 uncle
        rw [ran]
        have fault : (Shape.make dg g .red (.make d u .black (.make .left x .red a k v b) ku vu s) kg vg
          r.blacken).Balanced .red (_ + 1) := .make_red (.make_black balanced sibling) uncle.blacken_red
        obtain ⟨tree', t', ran, settles⟩ := ih laid fault around (by simp only [length_cons] at enough; omega)
        rw [root_make] at ran
        refine ⟨tree', t', ran, settles.laid, settles.balanced, settles.inorder.trans ?_⟩
        exact inorder_plug_congr (by simp [Frame.fill, inorder_make, inorder_blacken])
      | black =>
        obtain ⟨tree1, y, ky, vy, q', z, p, kz, vz, q, ran, laid, left, right, outer, order⟩ :=
          laid.insertCase2 (d := dg) balanced sibling
        rw [root_make] at ran
        rw [ran]
        obtain ⟨tree2, ran, laid⟩ := laid.insertCase3
        obtain ⟨m, full⟩ := around.fill (.make_black (.make_red left right)
          (.make_red outer uncle))
        refine ⟨tree2, _, ran, laid, (settles_of_balanced laid full).balanced, inorder_plug_congr ?_⟩
        calc (Shape.make dg y .black (.make dg z .red p kz vz q) ky vy (.make dg g .red q' kg vg r)).inorder
          _ = (Shape.make dg g .black (.make dg y .red (.make dg z .red p kz vz q) ky vy q') kg vg r).inorder :=
            inorder_rotate.symm
          _ = _ := inorder_make_congr order

theorem Represents.blackenRoot (laid : Represents tree t) (nonempty : t.inorder ≠ []) :
    ∃ tree', tree.setNode tree.root (·.setColor .black) = .ok tree' ∧ Represents tree' t.blacken := by
  rcases t.eq_make .left with rfl | ⟨i, c, a, k, v, b, rfl⟩
  · exact absurd rfl nonempty
  · rw [laid.root]
    exact @Represents.setColor K V tree .left i c k v [] a b laid .black

structure Rebuilt (tree : Tree K V) (nodes : List (ℕ × K × V)) (t : Shape K V) : Prop where
  laid : Represents tree t
  balanced : ∃ m, t.Balanced .black m
  inorder : t.inorder = nodes

theorem Represents.insertFixup (laid : Represents tree (plug path t)) (balanced : t.Balanced .red n)
    (around : PathBalanced path c n) :
    ∃ tree' t', insertFixup tree t.root = .ok tree' ∧ Rebuilt tree' (plug path t).inorder t' := by
  obtain ⟨tree1, t1, ran, laid1, balanced1, order⟩ := insertFixupLoop_settles laid balanced around laid.length_lt
  have nonempty : t1.inorder ≠ [] := by
    obtain ⟨x, a, k, v, b, rfl, -, -⟩ := balanced.exists_red .left
    rw [order, inorder_plug, inorder_make]
    simp
  obtain ⟨tree2, ran', laid2⟩ := laid1.blackenRoot nonempty
  unfold RbTrees.insertFixup
  rw [ran]
  exact ⟨tree2, _, ran', laid2, balanced1, inorder_blacken.trans order⟩

end MitScheme.Runtime.RbTrees
