import Mathlib.RingTheory.Coprime.Lemmas
import Mathlib.Tactic.LinearCombination
import MitScheme.Runtime.Division

/-!
An exact rational is an integer or a ratnum. The operations cancel common factors before they
multiply, so that the results need no further reduction.
-/

namespace MitScheme.Runtime.Rationals

open Division (quotient remainder)

/-- An exact rational as an object. -/
inductive Rational where
  | integer (n : ℤ)
  | ratnum (numerator denominator : ℤ)
deriving DecidableEq, Repr

inductive Failure where
  | divideByZero (operator : String) (operands : List Rational)
  /-- A loop of the model used up its fuel. -/
  | unfinished
deriving DecidableEq, Repr

def intGcd (n m : ℤ) : ℤ :=
  if m ≠ 0 then intGcd m (remainder n m) else if n < 0 then -n else n
termination_by m.natAbs
decreasing_by
  rename_i nonzero
  rw [remainder, Int.natAbs_tmod]
  exact Nat.mod_lt _ (Int.natAbs_pos.mpr nonzero)

def intExptLoop (b : ℤ) (e : ℕ) (answer : ℤ) : ℤ :=
  let half := e / 2
  let next := if e % 2 = 0 then answer else answer * b
  if half ≤ 1 then next * (b * b) else intExptLoop (b * b) half next
termination_by e
decreasing_by omega

/-- `int:expt`, with an exponent that is not negative, and for a power of 2 one below 2^64, which `integer-shift-left`
wants. -/
def intExpt (b : ℤ) (e : ℕ) : ℤ :=
  if 0 < e then
    if e = 1 ∨ b = 0 ∨ b = 1 then b
    else if b = 2 then (1 : ℤ) <<< e
    else intExptLoop b e 1
  else 1

def intFloor (n d : ℤ) : ℤ :=
  let q := quotient n d
  if remainder n d = 0 ∨ (if n < 0 then d < 0 else ¬d < 0) then q else q - 1

namespace Rational

def makeRational (n d : ℤ) : Rational := if n = 0 ∨ d = 1 then .integer n else .ratnum n d

/-- `rat:=`. -/
def equal : Rational → Rational → Bool
  | .ratnum u u', .ratnum v v' => u = v && u' = v'
  | .integer u, .integer v => u = v
  | _, _ => false

/-- `rat:<`. -/
def less : Rational → Rational → Bool
  | .ratnum u u', .ratnum v v' => u * v' < v * u'
  | .ratnum u u', .integer v => u < v * u'
  | .integer u, .ratnum v v' => u * v' < v
  | .integer u, .integer v => u < v

/-- `rat:negative?`. -/
def isNegative : Rational → Bool
  | .ratnum v _ => v < 0
  | .integer v => v < 0

/-- `rat:positive?`. -/
def isPositive : Rational → Bool
  | .ratnum v _ => 0 < v
  | .integer v => 0 < v

def binaryOperator {α : Type} (x y : Rational) (intInt : ℤ → ℤ → α) (intRat ratInt : ℤ → ℤ → ℤ → α)
    (ratRat : ℤ → ℤ → ℤ → ℤ → α) : α :=
  match x, y with
  | .ratnum u u', .ratnum v v' => ratRat u u' v v'
  | .ratnum u u', .integer v => ratInt u u' v
  | .integer u, .ratnum v v' => intRat u v v'
  | .integer u, .integer v => intInt u v

/-- What `define-addition-operator` defines. -/
def additionOperator (op : ℤ → ℤ → ℤ) (x y : Rational) : Rational :=
  binaryOperator x y
    (fun u v => .integer (op u v))
    (fun u v v' => makeRational (op (u * v') v) v')
    (fun u u' v => makeRational (op u (v * u')) u')
    (fun u u' v v' =>
      let d1 := intGcd u' v'
      if d1 = 1 then makeRational (op (u * v') (v * u')) (u' * v')
      else
        let share := quotient u' d1
        let t := op (u * quotient v' d1) (v * share)
        if t = 0 then .integer 0
        else
          let d2 := intGcd t d1
          makeRational (quotient t d2) (share * quotient v' d2))

/-- `rat:+`. -/
def add : Rational → Rational → Rational := additionOperator (· + ·)

/-- `rat:-`. -/
def subtract : Rational → Rational → Rational := additionOperator (· - ·)

/-- `rat:1+`. -/
def increment : Rational → Rational
  | .ratnum v v' => .ratnum (v + v') v'
  | .integer v => .integer (v + 1)

def negate : Rational → Rational
  | .ratnum v v' => .ratnum (-v) v'
  | .integer v => .integer (-v)

/-- `rat:*`. -/
def multiply (x y : Rational) : Rational :=
  binaryOperator x y
    (fun u v => .integer (u * v))
    (fun u v v' =>
      let d := intGcd u v'
      makeRational (quotient u d * v) (quotient v' d))
    (fun u u' v =>
      let d := intGcd v u'
      makeRational (u * quotient v d) (quotient u' d))
    (fun u u' v v' =>
      let d1 := intGcd u v'
      let d2 := intGcd v u'
      makeRational (quotient u d1 * quotient v d2) (quotient u' d2 * quotient v' d1))

def square : Rational → Rational
  | .ratnum n d => .ratnum (n * n) (d * d)
  | .integer n => .integer (n * n)

def signCorrection {α : Type} (u v : ℤ) (k : ℤ → ℤ → α) : α := if v < 0 then k (-u) (-v) else k u v

/-- `rat:/`. -/
def divide (x y : Rational) : Except Failure Rational :=
  binaryOperator x y
    (fun u v =>
      if v = 0 then .error (.divideByZero "/" [x, y])
      else signCorrection u v fun u v =>
        let d := intGcd u v
        .ok (makeRational (quotient u d) (quotient v d)))
    (fun u v v' =>
      signCorrection u v fun u v =>
        let d := intGcd u v
        .ok (makeRational (quotient u d * v') (quotient v d)))
    (fun u u' v =>
      if v = 0 then .error (.divideByZero "/" [x, y])
      else signCorrection u v fun u v =>
        let d := intGcd u v
        .ok (makeRational (quotient u d) (u' * quotient v d)))
    (fun u u' v v' =>
      let d1 := intGcd u v
      let d2 := if v < 0 then -intGcd v' u' else intGcd v' u'
      .ok (makeRational (quotient u d1 * quotient v' d2) (quotient u' d2 * quotient v d1)))

def invert : Rational → Except Failure Rational
  | .ratnum v v' =>
    if 0 < v then .ok (makeRational v' v)
    else if v < 0 then .ok (makeRational (-v') (-v))
    else .error (.divideByZero "/" [.integer 1, .ratnum v v'])
  | .integer v =>
    if 0 < v then .ok (makeRational 1 v)
    else if v < 0 then .ok (makeRational (-1) (-v))
    else .error (.divideByZero "/" [.integer 1, .integer v])

def numerator : Rational → ℤ
  | .ratnum n _ => n
  | .integer n => n

def denominator : Rational → ℤ
  | .ratnum _ d => d
  | .integer _ => 1

def floor : Rational → ℤ
  | .ratnum n d => intFloor n d
  | .integer n => n

def exptLoop (b : Rational) (e : ℕ) (answer : Rational) : Rational :=
  let half := e / 2
  let next := if e % 2 = 0 then answer else multiply answer b
  if half ≤ 1 then multiply next (multiply b b) else exptLoop (multiply b b) half next
termination_by e
decreasing_by omega

def exactMethod (b : Rational) (e : ℕ) : Rational := if e = 1 then b else exptLoop b e (.integer 1)

/-- `rat:expt`. -/
def expt (b : Rational) (e : ℤ) : Except Failure Rational :=
  match b with
  | .integer n =>
    if e < 0 then invert (.integer (intExpt n (-e).toNat)) else .ok (.integer (intExpt n e.toNat))
  | .ratnum _ _ =>
    if e < 0 then invert (exactMethod b (-e).toNat)
    else if 0 < e then .ok (exactMethod b e.toNat)
    else .ok (.integer 1)

def value : Rational → ℚ
  | .ratnum n d => n / d
  | .integer n => n

def Canonical : Rational → Prop
  | .ratnum n d => 2 ≤ d ∧ IsCoprime n d
  | .integer _ => True

def Represents (x : Rational) (q : ℚ) : Prop := x.Canonical ∧ x.value = q

end Rational

end MitScheme.Runtime.Rationals
