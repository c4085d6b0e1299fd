import MitScheme.Sf.Construction
import Mathlib.Algebra.Field.Rat

/-!
Each expander takes the operands of a call of a runtime procedure, and returns another expression, or nothing where it leaves
the call alone or signals an error. The operations on the operands of a call are those of the runtime system.
-/

namespace MitScheme.Sf

open Expression

/-- A selector goes through these operations, the outermost first. -/
inductive Selector where
  | caar | cadr | cdar | cddr
  | caaar | caadr | cadar | caddr | cdaar | cdadr | cddar | cdddr
  | caaaar | caaadr | caadar | caaddr | cadaar | cadadr | caddar | cadddr
  | cdaaar | cdaadr | cdadar | cdaddr | cddaar | cddadr | cdddar | cddddr
  | first | second | third | fourth | fifth | sixth | seventh | eighth
  deriving DecidableEq

inductive Operation where
  | car | cdr
  deriving DecidableEq

def Operation.perform : Operation → Value → Option Value
  | car => Value.car?
  | cdr => Value.cdr?

def Operation.bit : Operation → ℕ
  | car => 1
  | cdr => 0

namespace Selector

def encoding : Selector → ℕ
  | caar => 0b111 | cadr => 0b110 | cdar => 0b101 | cddr => 0b100
  | caaar => 0b1111 | caadr => 0b1110 | cadar => 0b1101 | caddr => 0b1100
  | cdaar => 0b1011 | cdadr => 0b1010 | cddar => 0b1001 | cdddr => 0b1000
  | caaaar => 0b11111 | caaadr => 0b11110 | caadar => 0b11101 | caaddr => 0b11100
  | cadaar => 0b11011 | cadadr => 0b11010 | caddar => 0b11001 | cadddr => 0b11000
  | cdaaar => 0b10111 | cdaadr => 0b10110 | cdadar => 0b10101 | cdaddr => 0b10100
  | cddaar => 0b10011 | cddadr => 0b10010 | cdddar => 0b10001 | cddddr => 0b10000
  | first => 0b11 | second => 0b110 | third => 0b1100 | fourth => 0b11000
  | fifth => 0b110000 | sixth => 0b1100000 | seventh => 0b11000000 | eighth => 0b110000000

def operations : Selector → List Operation
  | caar => [.car, .car] | cadr => [.car, .cdr] | cdar => [.cdr, .car] | cddr => [.cdr, .cdr]
  | caaar => [.car, .car, .car] | caadr => [.car, .car, .cdr] | cadar => [.car, .cdr, .car]
  | caddr => [.car, .cdr, .cdr] | cdaar => [.cdr, .car, .car] | cdadr => [.cdr, .car, .cdr]
  | cddar => [.cdr, .cdr, .car] | cdddr => [.cdr, .cdr, .cdr]
  | caaaar => [.car, .car, .car, .car] | caaadr => [.car, .car, .car, .cdr] | caadar => [.car, .car, .cdr, .car]
  | caaddr => [.car, .car, .cdr, .cdr] | cadaar => [.car, .cdr, .car, .car] | cadadr => [.car, .cdr, .car, .cdr]
  | caddar => [.car, .cdr, .cdr, .car] | cadddr => [.car, .cdr, .cdr, .cdr]
  | cdaaar => [.cdr, .car, .car, .car] | cdaadr => [.cdr, .car, .car, .cdr] | cdadar => [.cdr, .car, .cdr, .car]
  | cdaddr => [.cdr, .car, .cdr, .cdr] | cddaar => [.cdr, .cdr, .car, .car] | cddadr => [.cdr, .cdr, .car, .cdr]
  | cdddar => [.cdr, .cdr, .cdr, .car] | cddddr => [.cdr, .cdr, .cdr, .cdr]
  | first => [.car] | second => [.car, .cdr] | third => [.car, .cdr, .cdr] | fourth => [.car, .cdr, .cdr, .cdr]
  | fifth => .car :: List.replicate 4 .cdr | sixth => .car :: List.replicate 5 .cdr
  | seventh => .car :: List.replicate 6 .cdr | eighth => .car :: List.replicate 7 .cdr

end Selector

def typePredicates : List Primitive :=
  [.isRecord, .isBitString, .isCell, .isChar, .isFixnum, .isFlonum, .isNull, .isPair, .isVector]

/-- The procedures whose calls are expanded. -/
inductive Integration where
  | add | multiply | subtract | divide | equal | less | greater
  | bitwiseAnd | bitwiseXor | bitwiseIor | bitwiseEqv | bitwiseAndc1 | arithmeticShift | expt
  | fxEqual | fxLess | fxGreater | fxLessOrEqual | fxGreaterOrEqual
  | apply | consStar | list | car | cdr | selector (s : Selector)
  | isEq | not
  | isWeakPair | isExactInteger | isExactRational | isComplex | isSymbol | isInternedSymbol | isUninternedSymbol
  | primitive (p : { p : Primitive // p ∈ typePredicates })
  deriving DecidableEq

def constantEq (e : Expression) (constant : Value) : Bool := e.constantValue = some constant

/-- Bits from the least significant one on; the outermost operation comes first in the list. -/
def decodeLoop : ℕ → ℕ → List Operation → List Operation
  | 0, _, result => result
  | fuel + 1, code, result =>
    if code = 1 then result else decodeLoop fuel (code / 2) ((if code % 2 = 0 then .cdr else .car) :: result)

def decodeGeneralCarCdr (code : Value) : Option (List Operation) :=
  code.fixnum?.bind fun n => if 0 < n then some (decodeLoop n.toNat n.toNat []) else none

def encodeOperations (operations : List Operation) : ℕ :=
  operations.foldl (fun answer operation => answer * 2 + operation.bit) 1

def encodeGeneralCarCdr (operations : List Operation) : Option ℕ :=
  if Value.isFixnum (encodeOperations operations) then some (encodeOperations operations) else none

section Expanders

variable (m : Machine)

def makeOperandBinding (name : Variable) (operand : Expression) (makeBody : Expression → Expression) : Option Expression :=
  combinationMake m (fun _ => false) (procedure true [name] [] none (makeBody (reference name))) [operand]

def pairwiseTest (binaryPredicate ifLeftZero ifRightZero : Primitive) : List Expression → Option Expression
  | [x, y] =>
    some (if constantEq x (.number 0) then pcall m ifLeftZero [y]
      else if constantEq y (.number 0) then pcall m ifRightZero [x]
      else pcall m binaryPredicate [x, y])
  | _ => none

def fxCompare (prim : Primitive) : List Expression → Option Expression
  | [a, b] => some (pcall m prim [a, b])
  | [a, b, c] => some (conditional (pcall m prim [a, b]) (pcall m prim [a, c]) (constant (.boolean false)))
  | [a, b, c, d] =>
    some (conditional (pcall m prim [a, b])
      (conditional (pcall m prim [b, c]) (pcall m prim [c, d]) (constant (.boolean false)))
      (constant (.boolean false)))
  | _ => none

def fxnotCompare (prim : Primitive) : List Expression → Option Expression
  | [a, b] => some (pcall m .not [pcall m prim [a, b]])
  | [a, b, c] =>
    some (conditional (pcall m prim [a, b]) (constant (.boolean false)) (pcall m .not [pcall m prim [a, c]]))
  | [a, b, c, d] =>
    some (conditional (pcall m prim [a, b]) (constant (.boolean false))
      (conditional (pcall m prim [b, c]) (constant (.boolean false)) (pcall m .not [pcall m prim [c, d]])))
  | _ => none

def accumulationLoop (makeBinary : Expression → Expression → Expression) : Expression → List Expression → Expression
  | first, [] => first
  | first, next :: rest => makeBinary first (accumulationLoop makeBinary next rest)

/-- The operands are expressions, so that none of them is the identity itself. -/
def rightAccumulation (identity : Value) (makeBinary : Expression → Expression → Expression) :
    List Expression → Option Expression
  | [] => some (constant identity)
  | first :: rest => if rest.length + 1 < 5 then some (accumulationLoop makeBinary first rest) else none

def makeSum (x y : Expression) : Expression :=
  if constantEq x (.number 1) then pcall m .increment [y]
  else if constantEq y (.number 1) then pcall m .increment [x]
  else pcall m .add [x, y]

def rightAccumulationInverse (identity : Value) (inverseExpansion : List Expression → Option Expression)
    (makeBinary : Expression → Expression → Expression) : List Expression → Option Expression
  | [] => none
  | [y] => if constantEq y identity then some (constant identity) else none
  | x :: rest => (inverseExpansion rest).map fun inverse =>
    if constantEq inverse identity then x else makeBinary x inverse

def makeDifference (x y : Expression) : Expression :=
  if constantEq y (.number 1) then pcall m .decrement [x] else pcall m .subtract [x, y]

def bitwiseAndc1Expansion : List Expression → Option Expression
  | [x, y] => some (pcall m .bitwiseAndc2 [y, x])
  | _ => none

def arithmeticShiftExpansion : List Expression → Option Expression
  | [x, s] => do
    let .number shift ← s.constantValue | none
    some (if shift < 0 then pcall m .shiftRight [x, constant (.number (-shift))] else pcall m .shiftLeft [x, s])
  | _ => none

def exptExpansion (name : Variable) : List Expression → Option Expression
  | [x, e] =>
    if constantEq e (.number 1) then some x
    else if constantEq e (.number 2) then makeOperandBinding m name x fun operand => pcall m .multiply [operand, operand]
    else if constantEq e (.number 3) then makeOperandBinding m name x fun operand =>
      pcall m .multiply [operand, pcall m .multiply [operand, operand]]
    else if constantEq e (.number 4) then makeOperandBinding m name x fun operand =>
      pcall m .multiply [pcall m .multiply [operand, operand], pcall m .multiply [operand, operand]]
    else none
  | _ => none

def consStarExpansion : List Expression → Option Expression
  | [] => none
  | [e] => some e
  | e :: rest => (consStarExpansion rest).map fun tail => pcall m .cons [e, tail]

def listExpansion : List Expression → Expression
  | [] => constant .null
  | e :: rest => pcall m .cons [e, listExpansion rest]

def applyExpansion : List Expression → Option Expression
  | [f, arguments] => some (pcall m .apply [f, arguments])
  | f :: argument :: rest => (consStarExpansion m (argument :: rest)).map fun arguments => pcall m .apply [f, arguments]
  | _ => none

/-- The operand of the call goes through the operation, which is put before those that it has already gone through. -/
def selectorExpansion (p : Primitive) (operation : Operation) (afterCar afterCdr : ℕ) :
    List Expression → Option Expression
  | [combination (constant (.primitive .car)) [x]] => some (pcall m .generalCarCdr [x, constant (.number afterCar)])
  | [combination (constant (.primitive .cdr)) [x]] => some (pcall m .generalCarCdr [x, constant (.number afterCdr)])
  | [combination (constant (.primitive .generalCarCdr)) [x, constant path]] => do
    let operations ← decodeGeneralCarCdr path
    let code ← encodeGeneralCarCdr (operation :: operations)
    some (pcall m .generalCarCdr [x, constant (.number code)])
  | [e] => some (pcall m p [e])
  | _ => none

def generalCarCdrExpansion (encoding : ℕ) : List Expression → Option Expression
  | [e] => some (pcall m .generalCarCdr [e, constant (.number encoding)])
  | _ => none

def eqExpansion : List Expression → Option Expression
  | [x, y] =>
    some (if x.alwaysFalse then sequenceMake [x, pcall m .not [y]]
      else if y.alwaysFalse then sequenceMake [y, pcall m .not [x]]
      else pcall m .isEq [x, y])
  | _ => none

def notExpansion : List Expression → Option Expression
  | [x] =>
    some (if x.alwaysFalse then sequenceMake [x, constant (.boolean true)]
      else if x.neverFalse then sequenceMake [x, constant (.boolean false)]
      else pcall m .not [x])
  | _ => none

def makeTypeTest (type : ℕ) (operand : Expression) : Expression := pcall m .isObjectType [constant (.number type), operand]

def typeTestExpansion (type : ℕ) : List Expression → Option Expression
  | [e] => some (makeTypeTest m type e)
  | _ => none

def makeDisjunction : Expression → List Expression → Expression
  | clause, [] => clause
  | clause, next :: clauses => disjunction clause (makeDisjunction next clauses)

def typesTestExpansion (name : Variable) (type : ℕ) (types : List ℕ) : List Expression → Option Expression
  | [e] => makeOperandBinding m name e fun operand =>
    makeDisjunction (makeTypeTest m type operand) (types.map fun type => makeTypeTest m type operand)
  | _ => none

def primitiveExpansion (p : Primitive) (operands : List Expression) : Option Expression :=
  if procedureArityValid p operands.length then some (pcall m p operands) else none

def addExpansion : List Expression → Option Expression := rightAccumulation (.number 0) (makeSum m)

def multiplyExpansion : List Expression → Option Expression :=
  rightAccumulation (.number 1) fun x y => pcall m .multiply [x, y]

def expand (name : Variable) : Integration → List Expression → Option Expression
  | .add => addExpansion m
  | .multiply => multiplyExpansion m
  | .subtract => rightAccumulationInverse (.number 0) (addExpansion m) (makeDifference m)
  | .divide => rightAccumulationInverse (.number 1) (multiplyExpansion m) fun x y => pcall m .divide [x, y]
  | .equal => pairwiseTest m .equal .isZero .isZero
  | .less => pairwiseTest m .less .isPositive .isNegative
  | .greater => pairwiseTest m .greater .isNegative .isPositive
  | .bitwiseAnd => rightAccumulation (.number (-1)) fun x y => pcall m .bitwiseAnd [x, y]
  | .bitwiseXor => rightAccumulation (.number 0) fun x y => pcall m .bitwiseXor [x, y]
  | .bitwiseIor => rightAccumulation (.number 0) fun x y => pcall m .bitwiseIor [x, y]
  | .bitwiseEqv => rightAccumulation (.number (-1)) fun x y => pcall m .bitwiseEqv [x, y]
  | .bitwiseAndc1 => bitwiseAndc1Expansion m
  | .arithmeticShift => arithmeticShiftExpansion m
  | .expt => exptExpansion m name
  | .fxEqual => fxCompare m .isEq
  | .fxLess => fxCompare m .lessThanFixnum
  | .fxGreater => fxCompare m .greaterThanFixnum
  | .fxLessOrEqual => fxnotCompare m .greaterThanFixnum
  | .fxGreaterOrEqual => fxnotCompare m .lessThanFixnum
  | .apply => applyExpansion m
  | .consStar => consStarExpansion m
  | .list => fun operands => some (listExpansion m operands)
  | .car => selectorExpansion m .car .car 0b111 0b110
  | .cdr => selectorExpansion m .cdr .cdr 0b101 0b100
  | .selector s => generalCarCdrExpansion m s.encoding
  | .isEq => eqExpansion m
  | .not => notExpansion m
  | .isWeakPair => typeTestExpansion m 0x37
  | .isExactInteger => typesTestExpansion m name 0x1A [0x0E]
  | .isExactRational => typesTestExpansion m name 0x1A [0x0E, 0x3A]
  | .isComplex => typesTestExpansion m name 0x1A [0x0E, 0x3A, 0x06, 0x3C]
  | .isSymbol => typesTestExpansion m name 0x1D [0x05]
  | .isInternedSymbol => typeTestExpansion m 0x1D
  | .isUninternedSymbol => typeTestExpansion m 0x05
  | .primitive p => primitiveExpansion m p.val

end Expanders

open Library (Outcome Evaluation)
open Library.Evaluation (ofOption fail)

namespace Machine

variable (m : Machine)

def isNumber (v : Value) : Bool := v.typeCode ∈ [0x1A, 0x0E, 0x3A, 0x06, 0x3C]

def reduce (f : Value → Value → Option Value) (initial : Value) : List Value → Option Value
  | [] => some initial
  | v :: vs => vs.foldlM (fun acc elem => f elem acc) v

def commutative (p : Primitive) (identity : Value) : List Value → Option Value
  | [] => some identity
  | [z] => if isNumber z then some z else none
  | zs => reduce (fun x y => m.answer p [x, y]) identity zs

def nonCommutative (p combine : Primitive) (identity : Value) (invert : ℚ → Option ℚ) : List Value → Option Value
  | [] => none
  | [.number q] => (invert q).map .number
  | [_] => none
  | z :: zs => (reduce (fun x y => m.answer combine [x, y]) identity zs).bind fun y => m.answer p [z, y]

def associative (p : Primitive) (identity : Value) : List Value → Option Value
  | [] => some identity
  | x :: integers => integers.foldlM (fun r y => m.answer p [r, y]) x

/-- Each with the next, as long as the answer is `#t`. -/
def compareLoop (binary : Value → Value → Option Bool) : Value → List Value → Option Bool
  | _, [] => some true
  | x, y :: rest => do if ← binary x y then compareLoop binary y rest else some false

def reduceComparator (p : Primitive) : List Value → Option Bool
  | [] => some true
  | [z] => if isNumber z then some true else none
  | x :: rest => compareLoop (fun x y => m.test p [x, y]) x rest

def fixnumComparator (p : Primitive) (negated : Bool) : List Value → Option Bool
  | [] | [_] => none
  | n :: rest => compareLoop (fun n m' => (m.test p [n, m']).map fun b => b != negated) n rest

def arithmeticShift : List Value → Option Value
  | [x, .number shift] =>
    if shift < 0 then m.answer .shiftRight [x, .number (0 - shift)] else m.answer .shiftLeft [x, .number shift]
  | _ => none

def expt : List Value → Option Value
  | [.number b, .number e] =>
    if e.den = 1 then
      if 0 ≤ e.num then some (.number (b ^ e.num.toNat))
      else if b = 0 then none else some (.number (b⁻¹ ^ (-e.num).toNat))
    else m.power (.number b) (.number e)
  | [b, e] => m.power b e
  | _ => none

def consStar : List Value → Option Value
  | [] => none
  | [v] => some v
  | v :: vs => (consStar vs).map (.pair v)

def performAll (operations : List Operation) (v : Value) : Option Value :=
  operations.foldr (fun operation result => result.bind operation.perform) (some v)

def onOne (f : Value → Option Value) : List Value → Option Value
  | [v] => f v
  | _ => none

def hasType (types : List ℕ) (v : Value) : Option Value := some (.boolean (v.typeCode ∈ types))

def procedure : Integration → List Value → Option Value
  | .add => m.commutative .add (.number 0)
  | .multiply => m.commutative .multiply (.number 1)
  | .subtract => m.nonCommutative .subtract .add (.number 0) fun q => some (-q)
  | .divide => m.nonCommutative .divide .multiply (.number 1) fun q => if q = 0 then none else some q⁻¹
  | .equal => fun vs => (m.reduceComparator .equal vs).map .boolean
  | .less => fun vs => (m.reduceComparator .less vs).map .boolean
  | .greater => fun vs => (m.reduceComparator .greater vs).map .boolean
  | .bitwiseAnd => m.associative .bitwiseAnd (.number (-1))
  | .bitwiseXor => m.associative .bitwiseXor (.number 0)
  | .bitwiseIor => m.associative .bitwiseIor (.number 0)
  | .bitwiseEqv => m.associative .bitwiseEqv (.number (-1))
  | .bitwiseAndc1 => m.answer .bitwiseAndc1
  | .arithmeticShift => m.arithmeticShift
  | .expt => m.expt
  | .fxEqual => fun vs => (m.fixnumComparator .equalFixnum false vs).map .boolean
  | .fxLess => fun vs => (m.fixnumComparator .lessThanFixnum false vs).map .boolean
  | .fxGreater => fun vs => (m.fixnumComparator .greaterThanFixnum false vs).map .boolean
  | .fxLessOrEqual => fun vs => (m.fixnumComparator .greaterThanFixnum true vs).map .boolean
  | .fxGreaterOrEqual => fun vs => (m.fixnumComparator .lessThanFixnum true vs).map .boolean
  | .apply => fun _ => none
  | .consStar => consStar
  | .list => fun vs => some (.ofList vs)
  | .car => onOne Value.car?
  | .cdr => onOne Value.cdr?
  | .selector s => onOne (performAll s.operations)
  | .isEq => m.answer .isEq
  | .not => m.answer .not
  | .isWeakPair => onOne (hasType [0x37])
  | .isExactInteger => onOne (hasType [0x1A, 0x0E])
  | .isExactRational => onOne (hasType [0x3A, 0x1A, 0x0E])
  | .isComplex => onOne (hasType [0x3C, 0x06, 0x3A, 0x1A, 0x0E])
  | .isSymbol => onOne (hasType [0x1D, 0x05])
  | .isInternedSymbol => onOne (hasType [0x1D])
  | .isUninternedSymbol => onOne (hasType [0x05])
  | .primitive p => m.answer p.val

end Machine

namespace World

variable (w : World)

/-- Calls the first operand with the others, the last of which is a list. -/
def applyList : List Value → Evaluation History Value
  | [] => fail
  | [f] => w.unknownCall f []
  | f :: vs => match (Machine.consStar vs).bind Value.toList with
    | some vs => w.unknownCall f vs
    | none => fail

def callProcedure (op : Integration) (vs : List Value) : Evaluation History Value :=
  if op = .apply then w.applyList vs else ofOption (w.procedure op vs)

/-- The calls of known primitives are not told apart from the calls of the runtime procedures that they stand for. -/
def unrecorded : World := { w with records := fun _ => false }

end World

def Integration.Accepts : Integration → Value → Prop
  | .add | .multiply | .subtract | .divide | .equal | .less | .greater | .bitwiseAnd | .bitwiseXor | .bitwiseIor
  | .bitwiseEqv | .bitwiseAndc1 | .arithmeticShift | .expt => fun v => ∃ q, v = .number q
  | .fxEqual | .fxLess | .fxGreater | .fxLessOrEqual | .fxGreaterOrEqual => fun v => v.fixnum?.isSome
  | _ => fun _ => True

def Integration.isFixnumComparison : Integration → Bool
  | .fxEqual | .fxLess | .fxGreater | .fxLessOrEqual | .fxGreaterOrEqual => true
  | _ => false

end MitScheme.Sf
