import MitScheme.Sf.Analysis
import MitScheme.Sf.Evaluation
import Mathlib.Data.Finset.Basic

namespace MitScheme.Sf

open Expression

namespace Expression

mutual

def freeVariables : Expression → Finset Variable
  | access environment _ => freeVariables environment
  | assignment target value => insert target (freeVariables value)
  | combination operator operands => freeVariables operator ∪ freeVariablesAll operands
  | conditional predicate consequent alternative =>
    freeVariables predicate ∪ (if alwaysFalse predicate then ∅ else freeVariables consequent) ∪
      (if neverFalse predicate then ∅ else freeVariables alternative)
  | constant _ | quotation _ | theEnvironment => ∅
  | declaration _ expression => freeVariables expression
  | delay expression => freeVariables expression
  | disjunction predicate alternative =>
    freeVariables predicate ∪ if neverFalse predicate then ∅ else freeVariables alternative
  | openBlock actions => freeVariablesActions actions \ (actions.filterMap Prod.fst).toFinset
  | procedure _ required optional rest body =>
    freeVariables body \ (required ++ optional ++ rest.toList).toFinset
  | reference name => {name}
  | sequence actions => freeVariablesAll actions
termination_by structural e => e

def freeVariablesAll : List Expression → Finset Variable
  | [] => ∅
  | e :: es => freeVariables e ∪ freeVariablesAll es
termination_by structural es => es

def freeVariablesActions : List (Option Variable × Expression) → Finset Variable
  | [] => ∅
  | (_, e) :: actions => freeVariables e ∪ freeVariablesActions actions
termination_by structural actions => actions

end

mutual

def collectActions : Expression → List Expression
  | sequence actions => collectAll actions
  | e => [e]
termination_by structural e => e

def collectAll : List Expression → List Expression
  | [] => []
  | e :: es => collectActions e ++ collectAll es
termination_by structural es => es

end

def constantValue : Expression → Option Value
  | constant value => some value
  | _ => none

def isOpenBlock : Expression → Bool
  | openBlock _ => true
  | _ => false

end Expression

def constantFoldingOperators : List Primitive :=
  [.multiply, .add, .subtract, .divide, .decrement, .increment, .isCell, .isEq, .equalFixnum, .flonumEqual, .flonumGreater,
    .flonumLess, .flonumNegative, .flonumPositive, .flonumZero, .greaterThanFixnum, .indexFixnum, .lessThanFixnum,
    .negativeFixnum, .isNegative, .not, .isNull, .objectType, .isObjectType, .isPair, .positiveFixnum, .isPositive,
    .zeroFixnum, .isZero]

/-- The last action stays, and of the others those that may have effects. -/
def filterActions (actions : List Expression) : List Expression :=
  actions.foldr (fun action filtered =>
    if effectFree action then if filtered.isEmpty then [action] else filtered else action :: filtered) []

def sequenceMake (actions : List Expression) : Expression :=
  match filterActions (collectAll actions) with
  | [] => constant .unspecific
  | [action] => action
  | filtered => sequence filtered

/-- The value of a call that can be computed beforehand: no error is signalled. -/
def foldConstant (m : Machine) (p : Primitive) (operands : List Expression) : Option Value :=
  if p ∈ constantFoldingOperators then (operands.mapM constantValue).bind (m.answer p) else none

def pcall (m : Machine) (p : Primitive) (operands : List Expression) : Expression :=
  match foldConstant m p operands with
  | some value => constant value
  | none => combination (constant (.primitive p)) operands

def reducibleOperator (integrated : Variable → Bool) (safe : Bool) (optional : List Variable) (rest : Option Variable) : Bool :=
  safe && optional.all integrated && rest.all integrated

/-- The parameters that the body refers to with their operands, and the operands that are evaluated for their effect, in
the reverse order. -/
def partitionOperands (integrated : Variable → Bool) (free : Finset Variable) (rest : Option Variable) :
    List Variable → List Expression → List Expression → Option (List Variable × List Expression × List Expression)
  | [], operands, unreferenced =>
    if rest.isSome || operands.isEmpty then
      some ([], [], if operands.isEmpty || rest.any integrated then unreferenced else operands ++ unreferenced)
    else none
  | _ :: _, [], _ => none
  | parameter :: parameters, operand :: operands, unreferenced =>
    if parameter ∈ free then do
      let (kept, keptOperands, others) ← partitionOperands integrated free rest parameters operands unreferenced
      pure (parameter :: kept, operand :: keptOperands, others)
    else if integrated parameter then partitionOperands integrated free rest parameters operands unreferenced
    else partitionOperands integrated free rest parameters operands (operand :: unreferenced)

/-- `none` is the error that the arguments do not match. -/
def combinationMake (m : Machine) (integrated : Variable → Bool) (operator : Expression) (operands : List Expression) :
    Option Expression :=
  match operator with
  | .constant (.primitive p) => some (pcall m p operands)
  | .procedure safe required optional rest body =>
    if reducibleOperator integrated safe optional rest then do
      let (kept, keptOperands, others) ←
        partitionOperands integrated body.freeVariables rest (required ++ optional) operands []
      let result :=
        if kept ≠ [] || body.isOpenBlock then combination (procedure safe kept [] none body) keptOperands else body
      pure (if others.isEmpty then result else sequenceMake (others ++ [result]))
    else some (combination operator operands)
  | operator => some (combination operator operands)

end MitScheme.Sf
