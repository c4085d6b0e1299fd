import Mathlib.Data.Nat.Notation
import Mathlib.Order.Defs.LinearOrder

/-!
The node records that a tree links by `left`, `right` and `up`, and the rotations, which are
written once for both directions.
-/

namespace MitScheme.Runtime.RbTrees

inductive Color where
  | red
  | black
  deriving DecidableEq

inductive Direction where
  | left
  | right
  deriving DecidableEq

inductive Error where
  | wrongType
  | badRangeArgument
  | wrongNumberOfArguments
  | outOfFuel
  deriving DecidableEq

structure Node (K V : Type) where
  key : K
  datum : V
  up : Option ℕ
  left : Option ℕ
  right : Option ℕ
  color : Option Color

structure Tree (K V : Type) where
  root : Option ℕ
  nodes : List (Node K V)

variable {K V : Type}

namespace Node

def setKey (key : K) (p : Node K V) : Node K V := { p with key }

def setDatum (datum : V) (p : Node K V) : Node K V := { p with datum }

def setUp (up : Option ℕ) (p : Node K V) : Node K V := { p with up }

def setLeft (left : Option ℕ) (p : Node K V) : Node K V := { p with left }

def setRight (right : Option ℕ) (p : Node K V) : Node K V := { p with right }

def setColor (color : Color) (p : Node K V) : Node K V := { p with color := some color }

end Node

/-- `b->d`. -/
def Direction.ofLeft (left : Bool) : Direction := if left then .left else .right

/-- `-d`. -/
def Direction.negate (d : Direction) : Direction := if d = .left then .right else .left

/-- `get-link+`. -/
def Node.getLinkPlus (p : Node K V) (d : Direction) : Option ℕ := if d = .left then p.left else p.right

/-- `set-link+!`. -/
def Node.setLinkPlus (d : Direction) (l : Option ℕ) (p : Node K V) : Node K V :=
  if d = .left then p.setLeft l else p.setRight l

/-- `get-link-`. -/
def Node.getLinkMinus (p : Node K V) (d : Direction) : Option ℕ := if d = .right then p.left else p.right

/-- `set-link-!`. -/
def Node.setLinkMinus (d : Direction) (l : Option ℕ) (p : Node K V) : Node K V :=
  if d = .right then p.setLeft l else p.setRight l

def Tree.makeNode (tree : Tree K V) (key : K) (datum : V) : Tree K V × Option ℕ :=
  ({ tree with nodes := tree.nodes ++ [⟨key, datum, none, none, none, none⟩] }, some tree.nodes.length)

/-- The record that a field is read of: the accessors refuse `#f`. -/
def Tree.node (tree : Tree K V) : Option ℕ → Except Error (Node K V)
  | none => .error .wrongType
  | some i => tree.nodes[i]?.elim (.error .wrongType) .ok

/-- An update of one record: the modifiers refuse `#f`. -/
def Tree.setNode (tree : Tree K V) (x : Option ℕ) (set : Node K V → Node K V) : Except Error (Tree K V) :=
  x.elim (.error .wrongType) fun i => do
    let p ← tree.node x
    .ok { tree with nodes := tree.nodes.set i (set p) }

def Tree.setRoot (tree : Tree K V) (root : Option ℕ) : Tree K V := { tree with root }

/-- `(and x (eq? 'red (node-color x)))`. -/
def Tree.isRed (tree : Tree K V) (x : Option ℕ) : Except Error Bool :=
  if x.isNone then pure false else do
    let p ← tree.node x
    pure (decide (p.color = some .red))

/-- `(or (not x) (eq? 'black (node-color x)))`. -/
def Tree.isBlack (tree : Tree K V) (x : Option ℕ) : Except Error Bool :=
  if x.isNone then pure true else do
    let p ← tree.node x
    pure (decide (p.color = some .black))

/-- `(if x (set-node-up! x u))`. -/
def adopt (tree : Tree K V) (x u : Option ℕ) : Except Error (Tree K V) :=
  if x.isSome then tree.setNode x (·.setUp u) else pure tree

/-- The link of the parent `u`, or the root, that referred to `x` refers to `y`. -/
def relink (tree : Tree K V) (u x y : Option ℕ) (d : Direction) : Except Error (Tree K V) :=
  if u.isNone then pure (tree.setRoot y) else do
    let p ← tree.node u
    if x = p.getLinkPlus d then tree.setNode u (·.setLinkPlus d y) else tree.setNode u (·.setLinkMinus d y)

/-- `rotate+!`. -/
def rotatePlus (tree : Tree K V) (x : Option ℕ) (d : Direction) : Except Error (Tree K V) := do
  let y := (← tree.node x).getLinkMinus d
  let beta := (← tree.node y).getLinkPlus d
  let tree ← tree.setNode x (·.setLinkMinus d beta)
  let tree ← adopt tree beta x
  let u := (← tree.node x).up
  let tree ← tree.setNode y (·.setUp u)
  let tree ← relink tree u x y d
  let tree ← tree.setNode y (·.setLinkPlus d x)
  tree.setNode x (·.setUp y)

/-- `rotate-!`. -/
def rotateMinus (tree : Tree K V) (x : Option ℕ) (d : Direction) : Except Error (Tree K V) :=
  rotatePlus tree x d.negate

end MitScheme.Runtime.RbTrees
