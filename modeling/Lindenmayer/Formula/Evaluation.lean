import Lindenmayer.Formula.Parsing
import Lindenmayer.Value

/-!
# The value of a formula

Integers are computed exactly and refused where they leave 64 bits. A quotient of integers is an
integer if the division is exact, and otherwise a real; as soon as one operand is a real, both are
taken as reals. No division by zero and no infinite result is passed on. Errors name the expression
`source` that is computed.
-/

namespace Lindenmayer

namespace Number

def ofInt (source : Text) (n : Int) : Except EvaluationError Number :=
  match int64? n with
  | some n => .ok (.integer n)
  | none => .error (.overflow source)

def ofReal (source : Text) (r : Float) : Except EvaluationError Number :=
  if r.isFinite then .ok (.real r) else .error (.notFinite source)

/-- The number as a real. An integer too great to be exactly a real is refused. -/
def promote (source : Text) : Number → Except EvaluationError Float
  | real r => .ok r
  | integer n =>
      match exactReal? n with
      | some r => .ok r
      | none => .error (.overflow source)

end Number

namespace Operator

/-- The quotient of two integers: an integer if the division is exact, and else a real. -/
def divideIntegers (source : Text) (a b : Int64) : Except EvaluationError Number :=
  if b.toInt = 0 then
    .error (.divisionByZero source)
  else if a.toInt.tmod b.toInt = 0 then
    Number.ofInt source (a.toInt.tdiv b.toInt)
  else do
    let left ← Number.promote source (.integer a)
    let right ← Number.promote source (.integer b)
    Number.ofReal source (left / right)

def applyIntegers (source : Text) (operator : Operator) (a b : Int64) :
    Except EvaluationError Number :=
  match operator with
  | add => Number.ofInt source (a.toInt + b.toInt)
  | sub => Number.ofInt source (a.toInt - b.toInt)
  | mul => Number.ofInt source (a.toInt * b.toInt)
  | div => divideIntegers source a b

def applyReals (source : Text) (operator : Operator) (a b : Float) :
    Except EvaluationError Number :=
  match operator with
  | add => Number.ofReal source (a + b)
  | sub => Number.ofReal source (a - b)
  | mul => Number.ofReal source (a * b)
  | div => if b == 0.0 then .error (.divisionByZero source) else Number.ofReal source (a / b)

def apply (source : Text) (operator : Operator) (a b : Number) : Except EvaluationError Number :=
  match a, b with
  | .integer a, .integer b => operator.applyIntegers source a b
  | a, b => do
      let left ← a.promote source
      let right ← b.promote source
      operator.applyReals source left right

/-- The operation on two values. The first text among them is refused. -/
def applyValues (source : Text) (operator : Operator) (a b : Value) :
    Except EvaluationError Number :=
  match a, b with
  | .text literal, _ => .error (.nonNumericLiteral literal source)
  | _, .text literal => .error (.nonNumericLiteral literal source)
  | .number a, .number b => operator.apply source a b

end Operator

def Sign.apply (source : Text) (sign : Sign) (n : Number) : Except EvaluationError Number :=
  match sign, n with
  | plus, n => .ok n
  | minus, .integer n => Number.ofInt source (-n.toInt)
  | minus, .real r => .ok (.real (-r))

namespace Formula

/-- The value of a formula, operands from left to right before their operation. -/
def eval (source : Text) : Formula → Except EvaluationError Number
  | number n => .ok n
  | name t => .error (.nonNumericLiteral t source)
  | signed sign operand => do
      let n ← eval source operand
      sign.apply source n
  | binary left operator right => do
      let a ← eval source left
      let b ← eval source right
      operator.apply source a b

end Formula

/-- Computes an expression without calls and bound parameters. Its value is finite. -/
def compute (source : Text) : Except Error Number := do
  let formula ← (Formula.ofText source).mapError .parse
  let n ← (formula.eval source).mapError .evaluation
  match n with
  | .integer n => .ok (.integer n)
  | .real r => (Number.ofReal source r).mapError .evaluation

end Lindenmayer
