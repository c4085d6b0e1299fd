import MitScheme.Runtime.CharSet.CaseMapping

/-!
The instructions of `regexp-nfa.scm`, the graph of nodes to which they are linked, and the interpreter
that follows all the states of the graph at once.
-/

namespace MitScheme.Runtime.Regexp

open CharSets

inductive Error where
  | illFormed
  | wrongType
  | badRange
  | wrongArity
  | unknownNode
  | unfinished
deriving DecidableEq, Repr

inductive Key where
  | number (n : ℕ)
  | name (symbol : String)
deriving DecidableEq, Repr

structure Group where
  key : Key
  start : ℕ
  stop : ℕ
deriving DecidableEq, Repr

/-- `<ctx>` of the interpreter; two contexts are the same object when their identities are. There are no
groups when nothing is captured. -/
structure Context where
  identity : ℕ
  index : ℕ
  gcbs : List ℕ
  stack : List ℕ
  groups : Option (List Group)

def chaseGcbs (index : ℕ) (gcbs : List ℕ) : List ℕ := gcbs.dropWhile (· < index)

def initialContext (index : ℕ) (gcbs : List ℕ) (capture : Bool) : Context :=
  { identity := 0, index, gcbs := chaseGcbs index gcbs, stack := [], groups := if capture then some [] else none }

/-- `++index` -/
def Context.advance (identity : ℕ) (ctx : Context) : Context :=
  { ctx with identity, index := ctx.index + 1, gcbs := chaseGcbs (ctx.index + 1) ctx.gcbs }

def startGroup (identity : ℕ) (ctx : Context) : Context :=
  if ctx.groups.isSome then { ctx with identity, stack := ctx.index :: ctx.stack } else ctx

/-- `end-group`; the groups that are open are properly nested. -/
def endGroup (key : Key) (identity : ℕ) (ctx : Context) : Context :=
  match ctx.groups, ctx.stack with
  | some groups, start :: stack => { ctx with identity, stack, groups := some (⟨key, start, ctx.index⟩ :: groups) }
  | _, _ => ctx

inductive Answer where
  | boolean (value : Bool)
  | procedure (predicate : Character → Bool)

def Answer.isTrue : Answer → Bool
  | .boolean value => value
  | .procedure _ => true

inductive NodeType where
  | charZeroWidth (test : Option Character → Option Character → Bool)
  | fullZeroWidth (test : ℕ → List Character → ℕ → ℕ → Context → Bool)
  | ctxOnly (procedure : ℕ → Context → Context)
  | match (test : Character → Answer)
  | fork
  | terminal
  | fail

structure Node where
  type : NodeType
  next : List ℕ

def makeNode (type : NodeType) (next : List ℕ) (nodes : List Node) : ℕ × List Node :=
  (nodes.length, nodes ++ [⟨type, next⟩])

def cyclicForkNode (getNodes : ℕ → List Node → List ℕ × List Node) (nodes : List Node) : ℕ × List Node :=
  let fork := makeNode .fork [] nodes
  let linked := getNodes fork.1 fork.2
  (fork.1, linked.2.set fork.1 ⟨.fork, linked.1⟩)

abbrev Insn := ℕ → List Node → ℕ × List Node

def normalInsn (type : NodeType) : Insn := fun next => makeNode type [next]

def nullInsn : Insn := fun next nodes => (next, nodes)

def failInsn : Insn := fun _ => makeNode .fail []

def insnStringStart : Insn := normalInsn (.charZeroWidth fun _ prevChar => prevChar.isNone)

def insnStringEnd : Insn := normalInsn (.charZeroWidth fun nextChar _ => nextChar.isNone)

/-- `matches?` -/
def inside (charSet : CharSet) (char : Option Character) : Bool := char.any (charSetContains charSet)

def insnStartBoundary (charSet : CharSet) : Insn :=
  normalInsn (.charZeroWidth fun nextChar prevChar => inside charSet nextChar && !inside charSet prevChar)

def insnEndBoundary (charSet : CharSet) : Insn :=
  normalInsn (.charZeroWidth fun nextChar prevChar => !inside charSet nextChar && inside charSet prevChar)

def insnNonBoundary (charSet : CharSet) : Insn :=
  normalInsn (.charZeroWidth fun nextChar prevChar =>
    if inside charSet nextChar then inside charSet prevChar else !inside charSet prevChar)

def insnBog : Insn :=
  normalInsn (.fullZeroWidth fun index _ _ stop ctx => decide (index < stop) && decide (ctx.gcbs.head? = some index))

def insnEog : Insn :=
  normalInsn (.fullZeroWidth fun index _ start _ ctx => decide (start < index) && decide (ctx.gcbs.head? = some index))

def insnSeq : List Insn → Insn
  | [] => nullInsn
  | [insn] => insn
  | insns => fun next nodes => insns.foldr (fun insn linked => insn linked.1 linked.2) (next, nodes)

def linkAll (next : ℕ) : List Insn → List Node → List ℕ × List Node
  | [], nodes => ([], nodes)
  | insn :: insns, nodes =>
    let first := insn next nodes
    let others := linkAll next insns first.2
    (first.1 :: others.1, others.2)

def insnAlt : List Insn → Insn
  | [] => failInsn
  | [insn] => insn
  | insns => fun next nodes =>
    let linked := linkAll next insns nodes
    makeNode .fork linked.1 linked.2

/-- `insn:?` -/
def insnOptional (insn : Insn) : Insn := insnAlt [insn, nullInsn]

/-- `insn:??` -/
def insnNonGreedyOptional (insn : Insn) : Insn := insnAlt [nullInsn, insn]

/-- `insn:*` -/
def insnStar (insn : Insn) : Insn := fun next =>
  cyclicForkNode fun node nodes =>
    let linked := insn node nodes
    ([linked.1, next], linked.2)

/-- `insn:*?` -/
def insnNonGreedyStar (insn : Insn) : Insn := fun next =>
  cyclicForkNode fun node nodes =>
    let linked := insn node nodes
    ([next, linked.1], linked.2)

/-- `insn:=` -/
def insnExactly (n : ℕ) (insn : Insn) : Insn := insnSeq (List.replicate n insn)

/-- `insn:>=` -/
def insnAtLeast (n : ℕ) (insn : Insn) : Insn := insnSeq [insnExactly n insn, insnStar insn]

/-- `insn:**` -/
def insnRepeated (n m : ℕ) (insn : Insn) : Insn :=
  insnSeq (insnExactly n insn :: List.replicate (m - n) (insnOptional insn))

/-- `insn:**?` -/
def insnNonGreedyRepeated (n m : ℕ) (insn : Insn) : Insn :=
  insnSeq (insnExactly n insn :: List.replicate (m - n) (insnNonGreedyOptional insn))

def insnGroup (key : Key) (insn : Insn) : Insn :=
  insnSeq [normalInsn (.ctxOnly startGroup), insn, normalInsn (.ctxOnly (endGroup key))]

structure Matcher where
  initialNode : ℕ
  nodes : List Node
  needGcb : Bool

/-- The end of `compile-matcher`. -/
def linkMatcher (insn : Insn) (needGcb : Bool) : Matcher :=
  let terminal := makeNode .terminal [] []
  let initial := insn terminal.1 terminal.2
  { initialNode := initial.1, nodes := initial.2, needGcb }

structure State where
  node : ℕ
  ctx : Context

section
variable (nodes : List Node) (string : List Character) (start stop : ℕ) (matchAll : Bool)

def nodeAt (index : ℕ) : Node := nodes.getD index ⟨.fail, []⟩

def terminalState (state : State) : Bool :=
  match (nodeAt nodes state.node).type with
  | .terminal => true
  | _ => false

def nextStates (node : Node) (ctx : Context) : List State := node.next.map fun next => ⟨next, ctx⟩

def followEpsilons (nextChar : Option Character) (index : ℕ) (prevChar : Option Character) :
    (fuel : ℕ) → (inputs outputs : List State) → (seen : List (ℕ × ℕ)) → (fresh : ℕ) → Except Error (List State × ℕ)
  | 0, _, _, _, _ => .error .unfinished
  | _ + 1, [], outputs, _, fresh => .ok (outputs.reverse, fresh)
  | fuel + 1, state :: inputs, outputs, seen, fresh =>
    if (state.node, state.ctx.identity) ∈ seen then followEpsilons nextChar index prevChar fuel inputs outputs seen fresh
    else
      let seen := (state.node, state.ctx.identity) :: seen
      let node := nodeAt nodes state.node
      match node.type with
      | .fork =>
        followEpsilons nextChar index prevChar fuel (nextStates node state.ctx ++ inputs) outputs seen fresh
      | .charZeroWidth test =>
        if test nextChar prevChar then
          followEpsilons nextChar index prevChar fuel (nextStates node state.ctx ++ inputs) outputs seen fresh
        else followEpsilons nextChar index prevChar fuel inputs outputs seen fresh
      | .fullZeroWidth test =>
        if test index string start stop state.ctx then
          followEpsilons nextChar index prevChar fuel (nextStates node state.ctx ++ inputs) outputs seen fresh
        else followEpsilons nextChar index prevChar fuel inputs outputs seen fresh
      | .ctxOnly procedure =>
        followEpsilons nextChar index prevChar fuel (nextStates node (procedure fresh state.ctx) ++ inputs) outputs seen
          (fresh + 1)
      | .terminal =>
        if matchAll && nextChar.isSome then followEpsilons nextChar index prevChar fuel inputs outputs seen fresh
        else .ok ((state :: outputs).reverse, fresh)
      | .fail => followEpsilons nextChar index prevChar fuel inputs outputs seen fresh
      | .match _ => followEpsilons nextChar index prevChar fuel inputs (state :: outputs) seen fresh

def followMatchers (nextChar : Option Character) :
    (inputs outputs : List State) → (fresh : ℕ) → Except Error (List State × ℕ)
  | [], outputs, fresh => .ok (outputs.reverse, fresh)
  | state :: inputs, outputs, fresh =>
    let node := nodeAt nodes state.node
    match node.type with
    | .match test =>
      match nextChar with
      | some char =>
        if (test char).isTrue then
          followMatchers nextChar inputs (nextStates node (state.ctx.advance fresh) ++ outputs) (fresh + 1)
        else followMatchers nextChar inputs outputs fresh
      | none => followMatchers nextChar inputs outputs fresh
    | .fail => followMatchers nextChar inputs outputs fresh
    | .terminal => .ok ((state :: outputs).reverse, fresh)
    | _ => .error .unknownNode

def matchNodes : (fuel : ℕ) → (states : List State) → (index : ℕ) → (prevChar : Option Character) → (fresh : ℕ) →
    Except Error (Option State)
  | 0, _, _, _, _ => .error .unfinished
  | fuel + 1, states, index, prevChar, fresh => do
    let nextChar := if index < stop then string[index]? else none
    let followed ← followEpsilons nodes string start stop matchAll nextChar index prevChar fuel states [] [] fresh
    match followed.1 with
    | [] => .ok none
    | first :: _ =>
      if terminalState nodes first then .ok (some first)
      else do
        let matched ← followMatchers nodes nextChar followed.1 [] followed.2
        match nextChar with
        | some char => matchNodes fuel matched.1 (index + 1) (some char) matched.2
        | none => do
          let final ← followEpsilons nodes string start stop matchAll nextChar index prevChar fuel matched.1 [] [] matched.2
          .ok (final.1.getLast?.filter (terminalState nodes))

end

/-- `run-matcher`, with the procedure `grapheme-cluster-breaks` that it calls. -/
def runMatcher (graphemeClusterBreaks : List Character → ℕ → ℕ → List ℕ) (matcher : Matcher) (matchAll capture : Bool)
    (index : ℕ) (string : List Character) (start stop fuel : ℕ) : Except Error (Option (List Group)) := do
  let gcbs := if matcher.needGcb then graphemeClusterBreaks string start stop else []
  let initial : State := ⟨matcher.initialNode, initialContext index gcbs capture⟩
  let prevChar := if start < index ∧ index ≤ stop then string[index - 1]? else none
  let final ← matchNodes matcher.nodes string start stop matchAll fuel [initial] index prevChar 1
  .ok (final.map fun state => ⟨.number 0, index, state.ctx.index⟩ :: (state.ctx.groups.getD []).reverse)

end MitScheme.Runtime.Regexp
