import Mathlib.Algebra.Order.Ring.Int
import Mathlib.Data.Rat.Defs

/-!
The objects that constants hold, the primitives that the optimizer knows, and the kinds of expressions.
-/

namespace MitScheme.Sf

/-- The primitives in the tables of the optimizer, or that its expansions call. -/
inductive Primitive where
  | isRecord | less | equal | greater | isBitString | isCell | isChar | isEq | equalFixnum | isFixnum
  | flonumEqual | flonumGreater | flonumLess | flonumNegative | flonumPositive | flonumZero | isFlonum
  | greaterThanFixnum | indexFixnum | integerEqual | integerGreater | integerLess | integerNegative | integerPositive
  | integerZero | lessThanFixnum | negativeFixnum | isNegative | not | isNull | isObjectType | isPair | positiveFixnum
  | isPositive | isString | isVector | zeroFixnum | isZero
  | objectType
  | add | subtract | multiply | divide | increment | decrement
  | bitwiseAnd | bitwiseXor | bitwiseIor | bitwiseEqv | bitwiseAndc1 | bitwiseAndc2 | shiftLeft | shiftRight
  | apply | cons | car | cdr | generalCarCdr
  | other (number : ℕ)
  deriving DecidableEq, Repr

/-- An exact number is a fixnum, a bignum or a ratnum according to its value; the other objects are told apart by an
identity. -/
inductive Value where
  | boolean (b : Bool)
  | null
  | number (q : ℚ)
  | pair (car cdr : Value)
  | primitive (p : Primitive)
  | object (type identity : ℕ)
  deriving DecidableEq

namespace Value

def isFixnum (n : ℤ) : Bool := -2 ^ 57 ≤ n && n < 2 ^ 57

def typeCode : Value → ℕ
  | boolean false => 0x00
  | boolean true => 0x08
  | null => 0x08
  | number q => if q.den = 1 then if isFixnum q.num then 0x1A else 0x0E else 0x3A
  | pair .. => 0x01
  | primitive _ => 0x18
  | object type _ => type

def car? : Value → Option Value
  | pair car _ => some car
  | _ => none

def cdr? : Value → Option Value
  | pair _ cdr => some cdr
  | _ => none

def toList : Value → Option (List Value)
  | null => some []
  | pair car cdr => cdr.toList.map (car :: ·)
  | _ => none

def ofList (values : List Value) : Value := values.foldr pair null

/-- Whether the object is in the object word itself, so that `eq?` compares its value. -/
def immediate : Value → Bool
  | number q => q.den = 1 && isFixnum q.num
  | pair .. => false
  | object .. => false
  | _ => true

def unspecific : Value := object 0x08 1

def integer? : Value → Option ℤ
  | number q => if q.den = 1 then some q.num else none
  | _ => none

def fixnum? (v : Value) : Option ℤ := v.integer?.filter isFixnum

def typeCode? (v : Value) : Option ℕ :=
  v.integer?.bind fun n => if 0 ≤ n ∧ n < 64 then some n.toNat else none

end Value

abbrev Variable := ℕ

/-- The values of an open block stand at the places of their value markers, with the variables that they define. -/
inductive Expression where
  | access (environment : Expression) (name : ℕ)
  | assignment (target : Variable) (value : Expression)
  | combination (operator : Expression) (operands : List Expression)
  | conditional (predicate consequent alternative : Expression)
  | constant (value : Value)
  | declaration (declarations : ℕ) (expression : Expression)
  | delay (expression : Expression)
  | disjunction (predicate alternative : Expression)
  | openBlock (actions : List (Option Variable × Expression))
  | procedure (safe : Bool) (required optional : List Variable) (rest : Option Variable) (body : Expression)
  | quotation (expression : Expression)
  | reference (name : Variable)
  | sequence (actions : List Expression)
  | theEnvironment

def primitiveBooleanPredicates : List Primitive :=
  [.isRecord, .less, .equal, .greater, .isBitString, .isCell, .isChar, .isEq, .equalFixnum, .isFixnum, .flonumEqual,
    .flonumGreater, .flonumLess, .flonumNegative, .flonumPositive, .flonumZero, .isFlonum, .greaterThanFixnum, .indexFixnum,
    .integerEqual, .integerGreater, .integerLess, .integerNegative, .integerPositive, .integerZero, .lessThanFixnum,
    .negativeFixnum, .isNegative, .not, .isNull, .isObjectType, .isPair, .positiveFixnum, .isPositive, .isString, .isVector,
    .zeroFixnum, .isZero]

/-- Primitives that check their arguments are taken to have a side effect. -/
def effectFreePrimitives : List Primitive :=
  [.isRecord, .isBitString, .isCell, .isChar, .isEq, .isFixnum, .isFlonum, .not, .isNull, .objectType, .isObjectType,
    .isPair, .isString, .isVector]

def Primitive.arity : Primitive → Option ℕ
  | .less | .equal | .greater | .isEq | .equalFixnum | .flonumEqual | .flonumGreater | .flonumLess | .greaterThanFixnum
  | .integerEqual | .integerGreater | .integerLess | .lessThanFixnum | .isObjectType => some 2
  | .add | .subtract | .multiply | .divide | .bitwiseAnd | .bitwiseXor | .bitwiseIor | .bitwiseEqv | .bitwiseAndc1 | .bitwiseAndc2
  | .shiftLeft | .shiftRight | .apply | .cons | .generalCarCdr => some 2
  | .other _ => none
  | _ => some 1

def procedureArityValid (p : Primitive) (count : ℕ) : Bool := p.arity.all (· = count)

/-- A call of a primitive from a table, with the right number of operands. -/
def callTo (primitives : List Primitive) : Expression → Bool
  | .combination (.constant (.primitive p)) operands => p ∈ primitives && procedureArityValid p operands.length
  | _ => false

def callToBooleanPredicate : Expression → Bool := callTo primitiveBooleanPredicates

def callToEffectFreePrimitive : Expression → Bool := callTo effectFreePrimitives

end MitScheme.Sf
