import Lindenmayer.Number

/-!
# Values

What the arithmetic computes and what capabilities take and give: a number or a text.
-/

namespace Lindenmayer

inductive Value where
  | number (number : Number)
  | text (text : Text)
  deriving DecidableEq

namespace Value

def display : Value → Text
  | number n => n.text
  | text t => t

/-- The value as a real. An integer counts if it is exactly a real. -/
def asReal : Value → Except EvaluationError Float
  | number (.real r) => .ok r
  | number (.integer n) =>
      match exactReal? n with
      | some r => .ok r
      | none =>
          .error (.invalidArgument
            (integerText n.toInt ++ " cannot be represented exactly as a real".toList))
  | text t => .error (.invalidArgument ("expected a number, found '".toList ++ t ++ ['\'']))

/-- The value as an integer. A real counts if it is whole. -/
def asInteger : Value → Except EvaluationError Int64
  | number (.integer n) => .ok n
  | number (.real r) => exactInteger r
  | text t => .error (.invalidArgument ("expected an integer, found '".toList ++ t ++ ['\'']))

/-- Integers come before reals, and numbers before texts; texts are ordered by code points. -/
def order : Value → Value → Ordering
  | number a, number b => a.order b
  | number _, text _ => .lt
  | text _, number _ => .gt
  | text a, text b => List.compareLex compare a b

end Value

end Lindenmayer
