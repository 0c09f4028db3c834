import Lindenmayer.Decimal.Numeral
import Lindenmayer.Decimal.Writing
import Lindenmayer.Error

/-!
# Numbers

A number is a 64-bit integer or a real. This module reads numbers from texts, writes them, converts
between the two kinds where nothing is lost, and orders them.
-/

namespace Lindenmayer

inductive Number where
  | integer (n : Int64)
  | real (r : Float)
  deriving DecidableEq

def int64? (n : Int) : Option Int64 :=
  if Int64.minValue.toInt ≤ n ∧ n ≤ Int64.maxValue.toInt then some (Int64.ofInt n) else none

theorem toInt_of_int64? {n : Int} {m : Int64} (h : int64? n = some m) : m.toInt = n := by
  obtain ⟨hrange, hm⟩ := Option.ite_none_right_eq_some.mp h
  cases hm
  rw [Int64.toInt_minValue, Int64.toInt_maxValue] at hrange
  exact Int64.toInt_ofInt_of_le hrange.1 (by omega)

/-! ## Reading -/

def readInteger? (text : Text) : Option Int64 :=
  let signed := Numeral.takeSign text
  if signed.2 = [] ∨ ¬signed.2.all Char.isDigit then
    none
  else
    let magnitude : Int := digitsValue signed.2
    int64? (if signed.1 then -magnitude else magnitude)

/-- Reads a real without a sign: a numeral, or in letters of any case an infinity or no number. -/
def readMagnitude? (text : Text) : Option Float :=
  let word := text.map Char.toLower
  if word = "inf".toList ∨ word = "infinity".toList then
    some infinity
  else if word = "nan".toList then
    some notANumber
  else
    (Numeral.ofText? text).map Numeral.toReal

def readReal? (text : Text) : Option Float :=
  let signed := Numeral.takeSign text
  (readMagnitude? signed.2).map fun magnitude => if signed.1 then -magnitude else magnitude

namespace Number

/-- Reads a finite number, as an integer if possible and else as a real. Blanks around it carry no
meaning. -/
def ofText? (text : Text) : Option Number :=
  let text := text.trim
  match readInteger? text with
  | some n => some (.integer n)
  | none => ((readReal? text).filter Float.isFinite).map .real

def text : Number → Text
  | integer n => integerText n.toInt
  | real r => realText r

end Number

/-! ## Conversion -/

/-- The greatest integer such that it and all below it down to zero are reals: one less than the
53rd power of two. -/
def maxSafeInteger : Nat := 9007199254740991

def exactReal? (n : Int64) : Option Float :=
  if n.toInt.natAbs ≤ maxSafeInteger then some (Float.ofInt n.toInt) else none

def wholePart? (r : Float) : Option Int :=
  match r.toModel.unpack with
  | .notANumber => none
  | .infinity _ => none
  | .zero _ => some 0
  | .finite sign mantissa exponent _ =>
      if 0 ≤ exponent then
        some (sign.apply (mantissa * Nat.pow 2 exponent.toNat))
      else if mantissa % Nat.pow 2 (-exponent).toNat = 0 then
        some (sign.apply (mantissa / Nat.pow 2 (-exponent).toNat))
      else
        none

/-- The 64-bit integer equal to a real. A real that is not finite, too large or fractional has none,
and is reported as the first of these that holds. -/
def exactInteger (r : Float) : Except EvaluationError Int64 :=
  if ¬r.isFinite then
    refuse "cannot convert non-finite value " " to an integer"
  else if r < -9223372036854775808.0 ∨ 9223372036854775808.0 ≤ r then
    refuse "" " is out of integer range"
  else
    match (wholePart? r).bind int64? with
    | some n => .ok n
    | none => refuse "" " is fractional where an integer is required"
where
  refuse (before after : String) : Except EvaluationError Int64 :=
    .error (.invalidArgument (before.toList ++ realText r ++ after.toList))

/-! ## Order -/

/-- The order of the reals, in which the two zeros are equal and everything that is no number is
equal and above all numbers. -/
def compareReals (a b : Float) : Ordering :=
  if a.isNaN then
    if b.isNaN then .eq else .gt
  else if b.isNaN then
    .lt
  else if a < b then
    .lt
  else if b < a then
    .gt
  else
    .eq

/-- Integers come before reals, whatever their values. -/
def Number.order : Number → Number → Ordering
  | .integer a, .integer b => compare a.toInt b.toInt
  | .integer _, .real _ => .lt
  | .real _, .integer _ => .gt
  | .real a, .real b => compareReals a b

end Lindenmayer
