import MitScheme.Library.Outcomes
import MitScheme.Sf.Expressions
import Mathlib.Data.Int.Bitwise

/-!
What an evaluation has done is its history: the assignments, the definitions and the calls of procedures other than the
known ones. Whatever lies outside the expression is a world: the order of the operands, the other procedures, the other
variables, and the addresses of objects.
-/

namespace MitScheme.Sf

open Library (Outcome Evaluation)
open Library.Evaluation (ofOption consult fail inSomeOrder)

/-- A variable in one activation of its block, known by the length of the history at its beginning, or in the environment
outside. -/
structure Location where
  name : Variable
  since : Option ℕ
  deriving DecidableEq

inductive Event where
  | assign (location : Location) (value : Value)
  | define (location : Location) (value : Value)
  | call (procedure : Value) (operands : List Value)
  deriving DecidableEq

abbrev History := List Event

/-- An unassigned variable, such as an optional one without an argument, has no value. -/
structure Binding where
  initial : Option Value
  since : ℕ

abbrev Env := Variable → Option Binding

inductive Reply where
  | returns (value : Value) (events : List Event)
  | fails (events : List Event)
  | diverges

/-- The part of a world that does not depend on the history. -/
structure Machine where
  sameAddress : Value → Value → Bool
  /-- What a boolean predicate says of objects other than exact numbers, if it does not signal an error. -/
  predicate : Primitive → List Value → Option Bool
  /-- What a primitive returns for objects other than exact numbers and pairs. -/
  arithmetic : Primitive → List Value → Option Value
  /-- A power whose exponent is not an integer. -/
  power : Value → Value → Option Value

structure World extends Machine where
  pick : History → ℕ → ℕ
  call : Value → List Value → History → Reply
  /-- A variable of the environment outside: unbound, unassigned, or with a value. -/
  global : Variable → Option (Option Value)
  access : Value → ℕ → History → Option Value
  quotation : Expression → Value
  identity : Expression → Env → History → ℕ
  /-- Which of the primitives with effects leave a trace in the history. -/
  records : Primitive → Bool

/-- The bits of the path are executed from the least significant one on; the most significant one ends them. -/
def followPath : ℕ → ℕ → Value → Option Value
  | 0, _, object => some object
  | fuel + 1, path, object =>
    if path ≤ 1 then some object
    else (if path % 2 = 1 then object.car? else object.cdr?).bind (followPath fuel (path / 2))

def generalCarCdr (object : Value) (path : ℕ) : Option Value := followPath path path object

def eqv (m n : ℤ) : ℤ := Int.lnot (Int.xor m n)

def shiftLeft (n shift : ℤ) : Option ℤ := if 0 ≤ shift then some (n * 2 ^ shift.toNat) else none

def shiftRight (n shift : ℤ) : Option ℤ :=
  if 0 ≤ shift then some (if Value.isFixnum shift then n / 2 ^ shift.toNat else 0) else none

namespace Machine

variable (m : Machine)

def isEq (v v' : Value) : Bool :=
  if v.immediate || v'.immediate then v = v' else m.sameAddress v v'

def fixnumTest (relation : ℤ → ℤ → Bool) (v v' : Value) : Option Bool := do
  let x ← v.fixnum?
  let y ← v'.fixnum?
  pure (relation x y)

/-- The answers of the predicates; `none` is an error. -/
def test (p : Primitive) (vs : List Value) : Option Bool :=
  match p, vs with
  | .not, [v] => some (v = .boolean false)
  | .isEq, [v, v'] => some (m.isEq v v')
  | .isObjectType, [code, v] => code.typeCode?.map (v.typeCode = ·)
  | .isNull, [v] => some (v = .null)
  | .isPair, [v] => some (v.typeCode = 0x01)
  | .isChar, [v] => some (v.typeCode = 0x02)
  | .isFlonum, [v] => some (v.typeCode = 0x06)
  | .isVector, [v] => some (v.typeCode = 0x0A)
  | .isFixnum, [v] => some (v.typeCode = 0x1A)
  | .isString, [v] => some (v.typeCode = 0x1B || v.typeCode = 0x1E)
  | .isBitString, [v] => some (v.typeCode = 0x2F)
  | .isCell, [v] => some (v.typeCode = 0x36)
  | .isRecord, [v] => some (v.typeCode = 0x3E)
  | .equal, [.number x, .number y] => some (x = y)
  | .less, [.number x, .number y] => some (x < y)
  | .greater, [.number x, .number y] => some (y < x)
  | .isZero, [.number x] => some (x = 0)
  | .isPositive, [.number x] => some (0 < x)
  | .isNegative, [.number x] => some (x < 0)
  | .equalFixnum, [v, v'] => fixnumTest (· = ·) v v'
  | .lessThanFixnum, [v, v'] => fixnumTest (· < ·) v v'
  | .greaterThanFixnum, [v, v'] => fixnumTest (· > ·) v v'
  | p, vs => m.predicate p vs

/-- An operation on integers, which signals an error on the other exact numbers. -/
def bitwise (p : Primitive) (f : ℤ → ℤ → Option ℤ) (v v' : Value) : Option Value :=
  match v, v' with
  | .number _, .number _ => do
    let x ← v.integer?
    let y ← v'.integer?
    let r ← f x y
    pure (.number r)
  | v, v' => m.arithmetic p [v, v']

def compute (p : Primitive) (vs : List Value) : Option Value :=
  match p, vs with
  | .objectType, [v] => some (.number v.typeCode)
  | .add, [.number x, .number y] => some (.number (x + y))
  | .subtract, [.number x, .number y] => some (.number (x - y))
  | .multiply, [.number x, .number y] => some (.number (x * y))
  | .divide, [.number x, .number y] => if y = 0 then none else some (.number (x / y))
  | .increment, [.number x] => some (.number (x + 1))
  | .decrement, [.number x] => some (.number (x - 1))
  | .bitwiseAnd, [v, v'] => m.bitwise p (fun x y => some (x.land y)) v v'
  | .bitwiseXor, [v, v'] => m.bitwise p (fun x y => some (x.xor y)) v v'
  | .bitwiseIor, [v, v'] => m.bitwise p (fun x y => some (x.lor y)) v v'
  | .bitwiseEqv, [v, v'] => m.bitwise p (fun x y => some (eqv x y)) v v'
  | .bitwiseAndc1, [v, v'] => m.bitwise p (fun x y => some (y.ldiff x)) v v'
  | .bitwiseAndc2, [v, v'] => m.bitwise p (fun x y => some (x.ldiff y)) v v'
  | .shiftLeft, [v, v'] => m.bitwise p shiftLeft v v'
  | .shiftRight, [v, v'] => m.bitwise p shiftRight v v'
  | .cons, [v, v'] => some (.pair v v')
  | .car, [v] => v.car?
  | .cdr, [v] => v.cdr?
  | .generalCarCdr, [v, path] =>
    path.integer?.bind fun n => if 0 ≤ n ∧ n < 2 ^ 64 then generalCarCdr v n.toNat else none
  | p, vs => m.arithmetic p vs

def answer (p : Primitive) (vs : List Value) : Option Value :=
  if procedureArityValid p vs.length then
    if p ∈ primitiveBooleanPredicates then (m.test p vs).map .boolean else m.compute p vs
  else none

end Machine

namespace World

variable (w : World)

def unknownCall (f : Value) (vs : List Value) : Evaluation History Value := fun h =>
  match w.call f vs h with
  | .returns v events => .value v (h ++ .call f vs :: events)
  | .fails events => .error (h ++ .call f vs :: events)
  | .diverges => .diverges

def note (event : Event) : Evaluation History Unit := fun h => .value () (h ++ [event])

def trace (p : Primitive) (vs : List Value) : Evaluation History Unit :=
  if p ∉ effectFreePrimitives ∧ w.records p then note (.call (.primitive p) vs) else pure ()

def applyPrimitive (p : Primitive) (vs : List Value) : Evaluation History Value := do
  w.trace p vs
  match p, vs with
  | .apply, [f, arguments] => match arguments.toList with
    | some vs => w.unknownCall f vs
    | none => fail
  | .other number, vs => w.unknownCall (.primitive (.other number)) vs
  | p, vs => ofOption (w.answer p vs)

def applyProcedure : List Value → Evaluation History Value
  | [] => fail
  | .primitive p :: vs => w.applyPrimitive p vs
  | f :: vs => w.unknownCall f vs

def location (env : Env) (name : Variable) : Location := ⟨name, (env name).map Binding.since⟩

def Event.gives (location : Location) : Event → Option Value
  | .assign l v | .define l v => if l = location then some v else none
  | .call .. => none

def sinceBound (env : Env) (name : Variable) (h : History) : History :=
  match env name with
  | some binding => h.drop binding.since
  | none => h

def lookup (env : Env) (name : Variable) (h : History) : Option (Option Value) :=
  match (sinceBound env name h).reverse.findSome? (Event.gives (location env name)) with
  | some v => some (some v)
  | none => match env name with
    | some binding => some binding.initial
    | none => w.global name

def assign (env : Env) (name : Variable) (v : Value) : Evaluation History Value := fun h =>
  match w.lookup env name h with
  | some old => .value (old.getD .unspecific) (h ++ [.assign (location env name) v])
  | none => .error h

def bind (env : Env) (name : Variable) (initial : Option Value) (h : History) : Env :=
  Function.update env name (some ⟨initial, h.length⟩)

def bindOptional (env : Env) (h : History) : List Variable → List Value → Env × List Value
  | [], vs => (env, vs)
  | name :: names, [] => bindOptional (bind env name none h) h names []
  | name :: names, v :: vs => bindOptional (bind env name (some v) h) h names vs

def bindRest (env : Env) (h : History) : Option Variable → List Value → Option Env
  | some name, vs => some (bind env name (some (.ofList vs)) h)
  | none, [] => some env
  | none, _ :: _ => none

def bindParameters (optional : List Variable) (rest : Option Variable) (h : History) :
    Env → List Variable → List Value → Option Env
  | env, [], vs => bindRest (bindOptional env h optional vs).1 h rest (bindOptional env h optional vs).2
  | _, _ :: _, [] => none
  | env, name :: names, v :: vs => bindParameters optional rest h (bind env name (some v) h) names vs

def now : Evaluation History History := fun h => .value h h

mutual

def evaluate : Expression → Env → Evaluation History Value
  | .access environment name, env => do
    let e ← evaluate environment env
    consult (w.access e name)
  | .assignment target value, env => do
    let v ← evaluate value env
    w.assign env target v
  | .combination operator operands, env =>
    match operator with
    | .procedure _ required optional rest body => do
      let vs ← inSomeOrder w.pick operands.length (evaluations operands env)
      let h ← now
      let inner ← ofOption (bindParameters optional rest h env required vs)
      evaluate body inner
    | .constant f => do
      let vs ← inSomeOrder w.pick operands.length (evaluations operands env)
      w.applyProcedure (f :: vs)
    | operator => do
      let vs ← inSomeOrder w.pick (operands.length + 1) (evaluate operator env :: evaluations operands env)
      w.applyProcedure vs
  | .conditional predicate consequent alternative, env => do
    let v ← evaluate predicate env
    if v = .boolean false then evaluate alternative env else evaluate consequent env
  | .constant value, _ => pure value
  | .declaration _ expression, env => evaluate expression env
  | .delay expression, env => do
    let h ← now
    pure (.object 0x13 (w.identity (.delay expression) env h))
  | .disjunction predicate alternative, env => do
    let v ← evaluate predicate env
    if v = .boolean false then evaluate alternative env else pure v
  | .openBlock actions, env => do
    let h ← now
    evaluateActions actions ((actions.filterMap Prod.fst).foldl (fun env name => bind env name none h) env)
  | .procedure safe required optional rest body, env => do
    let h ← now
    pure (.object 0x0F (w.identity (.procedure safe required optional rest body) env h))
  | .quotation expression, _ => pure (w.quotation expression)
  | .reference name, env => consult fun h => (w.lookup env name h).join
  | .sequence actions, env => evaluateSequence actions env
  | .theEnvironment, env => do
    let h ← now
    pure (.object 0x12 (w.identity .theEnvironment env h))
termination_by structural e => e

def evaluations : List Expression → Env → List (Evaluation History Value)
  | [], _ => []
  | e :: es, env => evaluate e env :: evaluations es env
termination_by structural es => es

def evaluateSequence : List Expression → Env → Evaluation History Value
  | [], _ => fail
  | [e], env => evaluate e env
  | e :: es, env => do
    let _ ← evaluate e env
    evaluateSequence es env
termination_by structural es => es

def evaluateActions : List (Option Variable × Expression) → Env → Evaluation History Value
  | [], _ => fail
  | (none, e) :: actions, env => do
    let v ← evaluate e env
    if actions.isEmpty then pure v else evaluateActions actions env
  | (some name, e) :: actions, env => do
    let v ← evaluate e env
    note (.define (location env name) v)
    if actions.isEmpty then pure (.object 0x1D name) else evaluateActions actions env
termination_by structural actions => actions

end

end World

end MitScheme.Sf
