import Mathlib.Data.Nat.Notation

/-!
The state spaces of `wind.scm`: points with links towards the root, which a translation moves. Thunks may do anything
that a program can do, so that what waits for them is a stack of frames.
-/

namespace MitScheme.Runtime.StateSpaces

variable {θ : Type}

/-- What the `to-nearer` and `from-nearer` fields hold: false, the space (in the first field of a root), or a thunk. -/
inductive Field (θ : Type) where
  | nothing
  | space (space : ℕ)
  | thunk (thunk : θ)
deriving DecidableEq, Repr

/-- Where a point was made, which no procedure reads: its parent, with the thunks to enter and to leave the point. -/
structure Origin (θ : Type) where
  parent : ℕ
  before : θ
  after : θ
deriving DecidableEq, Repr

structure StatePoint (θ : Type) where
  nearerPoint : Option ℕ
  toNearer : Field θ
  fromNearer : Field θ
  space : ℕ
  origin : Option (Origin θ)
deriving DecidableEq, Repr

/-- The points and the spaces by their addresses; a space is its nearest point. -/
structure Store (θ : Type) where
  points : ℕ → StatePoint θ
  size : ℕ
  nearestPoint : ℕ → ℕ
  spaces : ℕ

def emptyStore : Store θ := ⟨fun _ => ⟨none, .nothing, .nothing, 0, none⟩, 0, fun _ => 0, 0⟩

namespace Store

def nearer (store : Store θ) (point : ℕ) : Option ℕ := (store.points point).nearerPoint

def setPoint (store : Store θ) (point : ℕ) (value : StatePoint θ) : Store θ :=
  { store with points := fun p => if p = point then value else store.points p }

def setNearestPoint (store : Store θ) (space point : ℕ) : Store θ :=
  { store with nearestPoint := fun s => if s = space then point else store.nearestPoint s }

def makeStateSpace (store : Store θ) : Store θ :=
  { store.setPoint store.size ⟨none, .space store.spaces, .nothing, store.spaces, none⟩ with
    size := store.size + 1
    nearestPoint := fun s => if s = store.spaces then store.size else store.nearestPoint s
    spaces := store.spaces + 1 }

/-- A new point becomes the root of the space, in the middle of `%execute-at-new-state-point`. -/
def addPoint (store : Store θ) (space oldRoot : ℕ) (before after : θ) : Store θ :=
  let made := store.setPoint store.size ⟨none, .space space, .nothing, space, some ⟨oldRoot, before, after⟩⟩
  let linked := made.setPoint oldRoot { made.points oldRoot with
    nearerPoint := some store.size, toNearer := .thunk before, fromNearer := .thunk after }
  { linked.setNearestPoint space store.size with size := store.size + 1 }

/-- The root moves to the new one, in the middle of `%%translate-to-state-point`. -/
def moveRoot (store : Store θ) (space oldRoot newRoot : ℕ) : Store θ :=
  let toNearer := (store.points newRoot).toNearer
  let fromNearer := (store.points newRoot).fromNearer
  let turned := store.setPoint oldRoot { store.points oldRoot with
    nearerPoint := some newRoot, toNearer := fromNearer, fromNearer := toNearer }
  let moved := turned.setPoint newRoot { turned.points newRoot with
    nearerPoint := none, toNearer := .space space, fromNearer := .nothing }
  moved.setNearestPoint space newRoot

def findNearest (store : Store θ) : (fuel point : ℕ) → (chain : List ℕ) → Option (ℕ × List ℕ)
  | 0, _, _ => none
  | fuel + 1, point, chain =>
    match store.nearer point with
    | some nearerPoint => store.findNearest fuel nearerPoint (point :: chain)
    | none => some (point, chain)

end Store

inductive Frame (θ : Type) where
  | caller
  | before (space oldRoot : ℕ) (enter leave : θ)
  | install (space oldRoot : ℕ) (enter leave : θ)
  | during (oldRoot : ℕ)
  | traverse (chain : List ℕ) (requested : ℕ)
deriving DecidableEq, Repr

inductive Entry (θ : Type) where
  | ran (thunk : θ)
  | translated (requested nearest : ℕ)
deriving DecidableEq, Repr

/-- A program that runs, with the stack that waits for it, the stacks that it captured, and what happened. -/
structure System (θ : Type) where
  store : Store θ
  stack : List (Frame θ)
  captured : List (List (Frame θ))
  log : List (Entry θ)

def start : System θ := ⟨emptyStore, [], [], []⟩

def finish (s : System θ) (stack : List (Frame θ)) : Option (System θ) :=
  match stack with
  | .caller :: rest => some { s with stack := rest }
  | .install space oldRoot before after :: rest =>
    some { s with store := s.store.addPoint space oldRoot before after, stack := .during oldRoot :: rest }
  | _ => none

/-- `traverse-chain`: the root moves to the first point of the chain, and a thunk is called. -/
def traverseChain (s : System θ) (oldRoot : ℕ) (chain : List ℕ) (requested : ℕ) (stack : List (Frame θ)) :
    Option (System θ) :=
  match (s.store.points oldRoot).toNearer with
  | .space space =>
    match chain with
    | [] => finish { s with log := s.log ++ [.translated requested (s.store.nearestPoint space)] } stack
    | newRoot :: _ =>
      match (s.store.points newRoot).fromNearer with
      | .thunk fromNearer =>
        some { s with store := s.store.moveRoot space oldRoot newRoot, stack := .traverse chain requested :: stack,
                      log := s.log ++ [.ran fromNearer] }
      | _ => none
  | _ => none

def findNearestThen (s : System θ) (point : ℕ) (chain : List ℕ) (requested : ℕ) (stack : List (Frame θ)) :
    Option (System θ) :=
  (s.store.findNearest (s.store.size + 1) point chain).bind fun found =>
    traverseChain s found.1 found.2 requested stack

def translateToStatePoint (s : System θ) (point : ℕ) (stack : List (Frame θ)) : Option (System θ) :=
  findNearestThen s point [] point stack

/-- `find-root`, when the thunk of the first point of the chain has returned. -/
def findRoot (s : System θ) (requested : ℕ) (stack : List (Frame θ)) : (chain : List ℕ) → Option (System θ)
  | [] => none
  | point :: rest =>
    match s.store.nearer point with
    | none => traverseChain s point rest requested stack
    | some nearerPoint =>
      if rest.head? = some nearerPoint then findRoot s requested stack rest
      else findNearestThen s nearerPoint (point :: rest) requested stack

/-- The rest of `%execute-at-new-state-point` when the thunk to enter has returned. -/
def entered (s : System θ) (space oldRoot : ℕ) (before after : θ) (rest : List (Frame θ)) : Option (System θ) :=
  if oldRoot = s.store.nearestPoint space then finish s (.install space oldRoot before after :: rest)
  else translateToStatePoint s oldRoot (.install space oldRoot before after :: rest)

/-- A program makes a space, enters a new point, translates to a point, returns from its thunk, captures what waits for
it, or escapes to what was captured. -/
inductive Event (θ : Type) where
  | makeSpace
  | execute (space : ℕ) (before after : θ)
  | translate (point : ℕ)
  | returns
  | capture
  | escape (stack : ℕ)
deriving DecidableEq, Repr

def step (s : System θ) : Event θ → Option (System θ)
  | .makeSpace => some { s with store := s.store.makeStateSpace }
  | .execute space before after =>
    if space < s.store.spaces then
      some { s with stack := .before space (s.store.nearestPoint space) before after :: .caller :: s.stack,
                    log := s.log ++ [.ran before] }
    else none
  | .translate point =>
    if point < s.store.size then translateToStatePoint s point (.caller :: s.stack) else none
  | .returns =>
    match s.stack with
    | .before space oldRoot before after :: rest => entered s space oldRoot before after rest
    | .during oldRoot :: rest => translateToStatePoint s oldRoot rest
    | .traverse chain requested :: rest => findRoot s requested rest chain
    | _ => none
  | .capture => some { s with captured := s.captured ++ [s.stack] }
  | .escape stack => s.captured[stack]?.map fun stack => { s with stack := stack }

end MitScheme.Runtime.StateSpaces
