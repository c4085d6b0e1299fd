import MitScheme.Runtime.RbTree.Node

/-!
Insertion and deletion with their fix-ups, search, and iteration by the `up` links. The loops of
the source run on fuel; a tree gives each loop one unit for every node that it has allocated.
-/

namespace MitScheme.Runtime.RbTrees

variable {K V : Type}

def Tree.fuel (tree : Tree K V) : ℕ := tree.nodes.length + 1

/-- Case 1 of `insert-fixup!`: the tree and the node that the loop goes on with. -/
def insertCase1 (tree : Tree K V) (u y : Option ℕ) : Except Error (Tree K V × Option ℕ) := do
  let tree ← tree.setNode u (·.setColor .black)
  let tree ← tree.setNode y (·.setColor .black)
  let p ← tree.node u
  let tree ← tree.setNode p.up (·.setColor .red)
  let p ← tree.node u
  pure (tree, p.up)

/-- Case 2 of `insert-fixup!`: the tree and the node that case 3 is about. -/
def insertCase2 (tree : Tree K V) (x u : Option ℕ) (d : Direction) : Except Error (Tree K V × Option ℕ) := do
  if x = (← tree.node u).getLinkMinus d then
    let tree ← rotatePlus tree u d
    pure (tree, u)
  else pure (tree, x)

/-- Case 3 of `insert-fixup!`. -/
def insertCase3 (tree : Tree K V) (x : Option ℕ) (d : Direction) : Except Error (Tree K V) := do
  let u := (← tree.node x).up
  let tree ← tree.setNode u (·.setColor .black)
  let g := (← tree.node u).up
  let tree ← tree.setNode g (·.setColor .red)
  let g := (← tree.node u).up
  rotateMinus tree g d

def insertFixupLoop : ℕ → Tree K V → Option ℕ → Except Error (Tree K V)
  | 0, _, _ => .error .outOfFuel
  | fuel + 1, tree, x => do
    let u := (← tree.node x).up
    if ← tree.isRed u then
      let g := (← tree.node u).up
      let d := Direction.ofLeft (u = (← tree.node g).left)
      let y := (← tree.node g).getLinkMinus d
      if ← tree.isRed y then
        let (tree, x) ← insertCase1 tree u y
        insertFixupLoop fuel tree x
      else
        let (tree, x) ← insertCase2 tree x u d
        insertCase3 tree x d
    else pure tree

def insertFixup (tree : Tree K V) (x : Option ℕ) : Except Error (Tree K V) := do
  let tree ← insertFixupLoop tree.fuel tree x
  tree.setNode tree.root (·.setColor .black)

/-- The link of `rb-tree/insert!` to the new node. -/
def linkBelow (tree : Tree K V) (z y : Option ℕ) (d : Option Direction) : Except Error (Tree K V) :=
  if y.isNone then pure (tree.setRoot z)
  else if d = some .left then tree.setNode y (·.setLeft z)
  else tree.setNode y (·.setRight z)

/-- The new node of `rb-tree/insert!`, below `y`. -/
def attach (tree : Tree K V) (key : K) (datum : V) (y : Option ℕ) (d : Option Direction) :
    Except Error (Tree K V) := do
  let (tree, z) := tree.makeNode key datum
  let tree ← tree.setNode z (·.setUp y)
  let tree ← linkBelow tree z y d
  let tree ← tree.setNode z (·.setColor .red)
  insertFixup tree z

section
variable [LinearOrder K]

def insertLoop (tree : Tree K V) (key : K) (datum : V) :
    ℕ → Option ℕ → Option ℕ → Option Direction → Except Error (Tree K V)
  | 0, _, _, _ => .error .outOfFuel
  | fuel + 1, x, y, d =>
    if x.isNone then attach tree key datum y d else do
      let p ← tree.node x
      if key = p.key then tree.setNode x (·.setDatum datum)
      else if key < p.key then insertLoop tree key datum fuel p.left x (some .left)
      else insertLoop tree key datum fuel p.right x (some .right)

def rbTreeInsert (tree : Tree K V) (key : K) (datum : V) : Except Error (Tree K V) :=
  insertLoop tree key datum tree.fuel tree.root none none

def findLoop (tree : Tree K V) (key : K) : ℕ → Option ℕ → Except Error (Option ℕ)
  | 0, _ => .error .outOfFuel
  | fuel + 1, x =>
    if x.isNone then pure none else do
      let p ← tree.node x
      if key = p.key then pure x
      else if key < p.key then findLoop tree key fuel p.left
      else findLoop tree key fuel p.right

def findNode (tree : Tree K V) (key : K) : Except Error (Option ℕ) := findLoop tree key tree.fuel tree.root

end

def descendLoop (tree : Tree K V) (d : Direction) : ℕ → Option ℕ → Except Error (Option ℕ)
  | 0, _ => .error .outOfFuel
  | fuel + 1, x => do
    let next := (← tree.node x).getLinkPlus d
    if next.isSome then descendLoop tree d fuel next else pure x

def ascendLoop (tree : Tree K V) (d : Direction) : ℕ → Option ℕ → Except Error (Option ℕ)
  | 0, _ => .error .outOfFuel
  | fuel + 1, x => do
    let y := (← tree.node x).up
    if y.isSome then
      let p ← tree.node y
      if x = p.getLinkPlus d then ascendLoop tree d fuel y else pure y
    else pure y

def extremeNode (tree : Tree K V) (d : Direction) : Except Error (Option ℕ) :=
  if tree.root.isSome then descendLoop tree d tree.fuel tree.root else pure none

def stepNode (tree : Tree K V) (d : Direction) (x : Option ℕ) : Except Error (Option ℕ) := do
  let p ← tree.node x
  if (p.getLinkPlus d).isSome then descendLoop tree d.negate tree.fuel (p.getLinkPlus d)
  else ascendLoop tree d tree.fuel x

def minNode (tree : Tree K V) : Except Error (Option ℕ) := extremeNode tree .left

def maxNode (tree : Tree K V) : Except Error (Option ℕ) := extremeNode tree .right

def nextNode (tree : Tree K V) (x : Option ℕ) : Except Error (Option ℕ) := stepNode tree .right x

def prevNode (tree : Tree K V) (x : Option ℕ) : Except Error (Option ℕ) := stepNode tree .left x

/-- Case 1 of `delete-fixup!`: the tree and the sibling that the other cases are about. -/
def deleteCase1 (tree : Tree K V) (u : Option ℕ) (d : Direction) : Except Error (Tree K V × Option ℕ) := do
  let w := (← tree.node u).getLinkMinus d
  if (← tree.node w).color = some .red then
    let tree ← tree.setNode w (·.setColor .black)
    let tree ← tree.setNode u (·.setColor .red)
    let tree ← rotatePlus tree u d
    let p ← tree.node u
    pure (tree, p.getLinkMinus d)
  else pure (tree, w)

def deleteCase4 (tree : Tree K V) (u w : Option ℕ) (d : Direction) : Except Error (Tree K V) := do
  let p ← tree.node u
  let tree ← tree.setNode w ({ · with color := p.color })
  let tree ← tree.setNode u (·.setColor .black)
  let q ← tree.node w
  let tree ← tree.setNode (q.getLinkMinus d) (·.setColor .black)
  let tree ← rotatePlus tree u d
  tree.setNode tree.root (·.setColor .black)

/-- Case 3 of `delete-fixup!`, which goes on with case 4. -/
def deleteCase3 (tree : Tree K V) (u w nPlus : Option ℕ) (d : Direction) : Except Error (Tree K V) := do
  let tree ← tree.setNode nPlus (·.setColor .black)
  let tree ← tree.setNode w (·.setColor .red)
  let tree ← rotateMinus tree w d
  let p ← tree.node u
  deleteCase4 tree u (p.getLinkMinus d) d

/-- The cases 2 to 4 of `delete-fixup!`, for the loop that case 2 goes on with. -/
def deleteCases (loop : Tree K V → Option ℕ → Option ℕ → Except Error (Tree K V)) (tree : Tree K V)
    (u w : Option ℕ) (d : Direction) : Except Error (Tree K V) := do
  let q ← tree.node w
  if ← tree.isRed (q.getLinkMinus d) then deleteCase4 tree u w d
  else if ← tree.isBlack (q.getLinkPlus d) then
    -- case 2
    let tree ← tree.setNode w (·.setColor .red)
    let p ← tree.node u
    loop tree u p.up
  else deleteCase3 tree u w (q.getLinkPlus d) d

def deleteFixupLoop : ℕ → Tree K V → Option ℕ → Option ℕ → Except Error (Tree K V)
  | 0, _, _, _ => .error .outOfFuel
  | fuel + 1, tree, x, u => do
    let red ← tree.isRed x
    if u.isNone || red then
      if x.isSome then tree.setNode x (·.setColor .black) else pure tree
    else
      let p ← tree.node u
      let d := Direction.ofLeft (x = p.left)
      let (tree, w) ← deleteCase1 tree u d
      deleteCases (deleteFixupLoop fuel) tree u w d

def deleteFixup (tree : Tree K V) (x u : Option ℕ) : Except Error (Tree K V) :=
  deleteFixupLoop tree.fuel tree x u

/-- A node of two children takes the contents of the next node, which is removed instead. -/
def takeNext (tree : Tree K V) (z : Option ℕ) : Except Error (Tree K V × Option ℕ) := do
  let p ← tree.node z
  if p.left.isSome && p.right.isSome then
    let y ← nextNode tree z
    let q ← tree.node y
    let tree ← tree.setNode z (·.setKey q.key)
    let q ← tree.node y
    let tree ← tree.setNode z (·.setDatum q.datum)
    pure (tree, y)
  else pure (tree, z)

def unlink (tree : Tree K V) (z : Option ℕ) : Except Error (Tree K V) := do
  let p ← tree.node z
  let x := p.left.or p.right
  let u := p.up
  let tree ← adopt tree x u
  let tree ← relink tree u z x .left
  let p ← tree.node z
  if p.color = some .black then deleteFixup tree x u else pure tree

def deleteNode (tree : Tree K V) (z : Option ℕ) : Except Error (Tree K V) := do
  let (tree, z) ← takeNext tree z
  unlink tree z

section
variable [LinearOrder K]

def deleteLoop (tree : Tree K V) (key : K) : ℕ → Option ℕ → Except Error (Tree K V × Bool)
  | 0, _ => .error .outOfFuel
  | fuel + 1, x =>
    if x.isNone then pure (tree, false) else do
      let p ← tree.node x
      if key = p.key then
        let tree ← deleteNode tree x
        pure (tree, true)
      else if key < p.key then deleteLoop tree key fuel p.left
      else deleteLoop tree key fuel p.right

def rbTreeDelete (tree : Tree K V) (key : K) : Except Error (Tree K V × Bool) :=
  deleteLoop tree key tree.fuel tree.root

def rbTreeLookup (tree : Tree K V) (key : K) (default : V) : Except Error V := do
  let node ← findNode tree key
  if node.isSome then
    let p ← tree.node node
    pure p.datum
  else pure default

def rbTreeContains (tree : Tree K V) (key : K) : Except Error Bool := do
  let node ← findNode tree key
  pure node.isSome

def applySucceed (succeed : Option (V → V)) (datum : V) : V := succeed.elim datum (· datum)

inductive Argument (K V : Type) where
  | fail (fail : Option (Unit → V))
  | key (key : K)
  | caller (caller : String)

/-- `apply-fail`, a procedure of three parameters. -/
def applyFail : List (Argument K V) → Except Error V
  | [.fail none, .key _, .caller _] => .error .badRangeArgument
  | [.fail (some fail), .key _, .caller _] => .ok (fail ())
  | _ => .error .wrongNumberOfArguments

def rbTreeRef (tree : Tree K V) (key : K) (fail : Option (Unit → V)) (succeed : Option (V → V)) : Except Error V := do
  let node ← findNode tree key
  if node.isSome then
    let p ← tree.node node
    pure (applySucceed succeed p.datum)
  else applyFail [.fail fail, .key key, .caller "rb-tree/ref"]

def rbTreeIntern (tree : Tree K V) (key : K) (fail : Unit → V) : Except Error (Tree K V × V) := do
  let node ← findNode tree key
  if node.isSome then
    let p ← tree.node node
    pure (tree, p.datum)
  else
    let tree ← rbTreeInsert tree key (fail ())
    pure (tree, fail ())

/-- `rb-tree/update!`, which calls `apply-fail` without the key. -/
def rbTreeUpdate (tree : Tree K V) (key : K) (updater : V → V) (fail : Option (Unit → V)) (succeed : Option (V → V)) :
    Except Error (Tree K V) := do
  let node ← findNode tree key
  if node.isSome then
    let p ← tree.node node
    tree.setNode node (·.setDatum (updater (applySucceed succeed p.datum)))
  else
    let datum ← applyFail (K := K) [.fail fail, .caller "rb-tree/update!"]
    rbTreeInsert tree key (updater datum)

end

def rbTreeClear (tree : Tree K V) : Tree K V := tree.setRoot none

section
variable {A : Type}

def foldLoop (tree : Tree K V) (d : Direction) (kons : K → V → A → A) : ℕ → Option ℕ → A → Except Error A
  | 0, _, _ => .error .outOfFuel
  | fuel + 1, node, acc =>
    if node.isNone then pure acc else do
      let p ← tree.node node
      let next ← stepNode tree d node
      foldLoop tree d kons fuel next (kons p.key p.datum acc)

def rbTreeFoldRight (kons : K → V → A → A) (knil : A) (tree : Tree K V) : Except Error A := do
  let node ← maxNode tree
  foldLoop tree .left kons tree.fuel node knil

end

/-- `rb-tree->alist`. -/
def rbTreeToAlist (tree : Tree K V) : Except Error (List (K × V)) :=
  rbTreeFoldRight (fun key datum acc => (key, datum) :: acc) [] tree

def rbTreeKeyList (tree : Tree K V) : Except Error (List K) :=
  rbTreeFoldRight (fun key _ acc => key :: acc) [] tree

def rbTreeDatumList (tree : Tree K V) : Except Error (List V) :=
  rbTreeFoldRight (fun _ datum acc => datum :: acc) [] tree

def mapLoop (procedure : K → V → V) : ℕ → Tree K V → Option ℕ → Except Error (Tree K V)
  | 0, _, _ => .error .outOfFuel
  | fuel + 1, tree, node =>
    if node.isNone then pure tree else do
      let p ← tree.node node
      let tree ← tree.setNode node (·.setDatum (procedure p.key p.datum))
      let next ← nextNode tree node
      mapLoop procedure fuel tree next

def rbTreeMap (procedure : K → V → V) (tree : Tree K V) : Except Error (Tree K V) := do
  let node ← minNode tree
  mapLoop procedure tree.fuel tree node

/-- `node-pair`. -/
def Node.pair (p : Node K V) : K × V := (p.key, p.datum)

/-- `rb-tree/min-pair` and `rb-tree/max-pair`, by the direction of the end. -/
def extremePair (tree : Tree K V) (d : Direction) : Except Error (Option (K × V)) := do
  let node ← extremeNode tree d
  if node.isSome then
    let p ← tree.node node
    pure (some p.pair)
  else pure none

/-- `rb-tree/delete-min-pair!` and `rb-tree/delete-max-pair!`. -/
def deleteExtremePair (tree : Tree K V) (d : Direction) : Except Error (Tree K V × Option (K × V)) := do
  let node ← extremeNode tree d
  if node.isSome then
    let p ← tree.node node
    let tree ← deleteNode tree node
    pure (tree, some p.pair)
  else pure (tree, none)

/-- `rb-tree/min`: the operations on the key, on the datum and on the pair read the same node. -/
def rbTreeMin (tree : Tree K V) (default : K) : Except Error K :=
  (fun pair => pair.elim default Prod.fst) <$> extremePair tree .left

def rbTreeMinDatum (tree : Tree K V) (default : V) : Except Error V :=
  (fun pair => pair.elim default Prod.snd) <$> extremePair tree .left

def rbTreeMinPair (tree : Tree K V) : Except Error (Option (K × V)) := extremePair tree .left

def rbTreeMax (tree : Tree K V) (default : K) : Except Error K :=
  (fun pair => pair.elim default Prod.fst) <$> extremePair tree .right

def rbTreeMaxDatum (tree : Tree K V) (default : V) : Except Error V :=
  (fun pair => pair.elim default Prod.snd) <$> extremePair tree .right

def rbTreeMaxPair (tree : Tree K V) : Except Error (Option (K × V)) := extremePair tree .right

def rbTreeDeleteMin (tree : Tree K V) (default : K) : Except Error (Tree K V × K) :=
  (fun (tree, pair) => (tree, pair.elim default Prod.fst)) <$> deleteExtremePair tree .left

def rbTreeDeleteMinDatum (tree : Tree K V) (default : V) : Except Error (Tree K V × V) :=
  (fun (tree, pair) => (tree, pair.elim default Prod.snd)) <$> deleteExtremePair tree .left

def rbTreeDeleteMinPair (tree : Tree K V) : Except Error (Tree K V × Option (K × V)) := deleteExtremePair tree .left

def rbTreeDeleteMax (tree : Tree K V) (default : K) : Except Error (Tree K V × K) :=
  (fun (tree, pair) => (tree, pair.elim default Prod.fst)) <$> deleteExtremePair tree .right

def rbTreeDeleteMaxDatum (tree : Tree K V) (default : V) : Except Error (Tree K V × V) :=
  (fun (tree, pair) => (tree, pair.elim default Prod.snd)) <$> deleteExtremePair tree .right

def rbTreeDeleteMaxPair (tree : Tree K V) : Except Error (Tree K V × Option (K × V)) := deleteExtremePair tree .right

/-- `rb-tree/height`. -/
def heightLoop (tree : Tree K V) : ℕ → Option ℕ → Except Error ℕ
  | 0, _ => .error .outOfFuel
  | fuel + 1, node =>
    if node.isNone then pure 0 else do
      let p ← tree.node node
      let left ← heightLoop tree fuel p.left
      let right ← heightLoop tree fuel p.right
      pure (1 + max left right)

def rbTreeHeight (tree : Tree K V) : Except Error ℕ := heightLoop tree tree.fuel tree.root

/-- `rb-tree/size`. -/
def sizeLoop (tree : Tree K V) : ℕ → Option ℕ → Except Error ℕ
  | 0, _ => .error .outOfFuel
  | fuel + 1, node =>
    if node.isNone then pure 0 else do
      let p ← tree.node node
      let left ← sizeLoop tree fuel p.left
      let right ← sizeLoop tree fuel p.right
      pure (1 + left + right)

def rbTreeSize (tree : Tree K V) : Except Error ℕ := sizeLoop tree tree.fuel tree.root

/-- The record of a tree, which has the procedure `key=?`, by its identity. -/
structure RbTree (K V : Type) where
  keyEq : ℕ
  tree : Tree K V

def makeRbTree (keyEq : ℕ) : RbTree K V := ⟨keyEq, none, []⟩

section
variable [DecidableEq K]

def equalLoop (x y : Tree K V) (datumEq : V → V → Bool) : ℕ → Option ℕ → Option ℕ → Except Error Bool
  | 0, _, _ => .error .outOfFuel
  | fuel + 1, nx, ny =>
    if nx.isNone then pure ny.isNone
    else if ny.isNone then pure false else do
      let p ← x.node nx
      let q ← y.node ny
      if p.key = q.key ∧ datumEq p.datum q.datum then
        let nx ← nextNode x nx
        let ny ← nextNode y ny
        equalLoop x y datumEq fuel nx ny
      else pure false

def rbTreeEqual (x y : RbTree K V) (datumEq : V → V → Bool) : Except Error Bool :=
  if x.keyEq = y.keyEq then do
    let nx ← minNode x.tree
    let ny ← minNode y.tree
    equalLoop x.tree y.tree datumEq x.tree.fuel nx ny
  else pure false

end

end MitScheme.Runtime.RbTrees
