import Lindenmayer.Number

/-!
# Formulas

A formula is the tree of an arithmetic expression: numbers, names, signs and the four operations.
Calls and bound parameters are gone from an expression before it is read as a formula, so a name in
a formula has no value.
-/

namespace Lindenmayer

inductive Operator where
  | add
  | sub
  | mul
  | div
  deriving DecidableEq, Repr

inductive Sign where
  | minus
  | plus
  deriving DecidableEq, Repr

inductive Formula where
  | number (number : Number)
  | name (name : Text)
  | signed (sign : Sign) (operand : Formula)
  | binary (left : Formula) (operator : Operator) (right : Formula)
  deriving DecidableEq

namespace Operator

def ofChar? : Char → Option Operator
  | '+' => some add
  | '-' => some sub
  | '*' => some mul
  | '/' => some div
  | _ => none

def toChar : Operator → Char
  | add => '+'
  | sub => '-'
  | mul => '*'
  | div => '/'

/-- Addition and subtraction are written like signs. -/
def sign? : Operator → Option Sign
  | add => some .plus
  | sub => some .minus
  | mul => none
  | div => none

/-- Multiplication and division bind tighter than addition and subtraction. -/
def isMultiplicative : Operator → Bool
  | add => false
  | sub => false
  | mul => true
  | div => true

@[simp] theorem ofChar?_toChar (operator : Operator) : ofChar? operator.toChar = some operator := by
  cases operator <;> rfl

end Operator

end Lindenmayer
