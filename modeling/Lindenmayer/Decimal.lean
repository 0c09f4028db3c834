import Lindenmayer.Text

/-!
# Decimals and reals

A decimal is an integer times a power of ten. Reals are binary doubles; `Decimal.toReal` is the
double nearest to a decimal, `Decimal.exact` the decimal equal to a double, and `Decimal.shortest`
the one with the fewest digits among the decimals that read back as a given double.
-/

namespace Lindenmayer

/-- The number `digits * 10 ^ exponent`. -/
structure Decimal where
  digits : Nat
  exponent : Int
  deriving DecidableEq, Repr

def infinity : Float := 1.0 / 0.0

def notANumber : Float := 0.0 / 0.0

namespace Decimal

/-- The exponent from which on every decimal but zero is above the finite reals. -/
def hugeExponent : Int := 310

/-- The real nearest to a decimal, of two equally near ones the even one. -/
def toReal (decimal : Decimal) : Float :=
  if decimal.digits = 0 then
    0.0
  else if hugeExponent ≤ decimal.exponent then
    infinity
  else if 0 ≤ decimal.exponent then
    Float.ofScientific (decimal.digits * Nat.pow 10 decimal.exponent.toNat) false 0
  else
    Float.ofScientific decimal.digits true (-decimal.exponent).toNat

/-- The decimal equal to `mantissa * 2 ^ exponent`. A negative power of two is a negative power of
ten times a power of five. -/
def exact (mantissa : Nat) (exponent : Int) : Decimal :=
  if 0 ≤ exponent then
    ⟨mantissa * Nat.pow 2 exponent.toNat, 0⟩
  else
    ⟨mantissa * Nat.pow 5 (-exponent).toNat, exponent⟩

def digitCount (n : Nat) : Nat := (Nat.toDigits 10 n).length

/-! ## Rounding -/

/-- How a half is rounded: whether it goes up, given the integer below it. -/
abbrev TieRule := Nat → Bool

def TieRule.up : TieRule := fun _ => true

def TieRule.even : TieRule := fun lower => lower % 2 = 1

def roundDiv (tie : TieRule) (n d : Nat) : Nat :=
  let lower := n / d
  let twice := 2 * (n % d)
  if d < twice ∨ (twice = d ∧ tie lower) then lower + 1 else lower

/-! ## The fewest digits -/

/-- The decimals next to `decimal`, below and above, with `drop` digits less. The upper one is a
power of ten with a single digit if its last digit carries all the way. -/
def neighbours (decimal : Decimal) (drop : Nat) : Decimal × Decimal :=
  let lower := decimal.digits / Nat.pow 10 drop
  let exponent := decimal.exponent + drop
  let kept := digitCount lower
  (⟨lower, exponent⟩,
    if lower + 1 = Nat.pow 10 kept then ⟨1, exponent + kept⟩ else ⟨lower + 1, exponent⟩)

/-- Of the two neighbours with `drop` digits less, the nearer one that reads back as `real`. -/
def readBack? (tie : TieRule) (real : Float) (decimal : Decimal) (drop : Nat) : Option Decimal :=
  let (lower, upper) := decimal.neighbours drop
  let upperIsNearer := roundDiv tie decimal.digits (Nat.pow 10 drop) = lower.digits + 1
  if lower.toReal = real then
    if upper.toReal = real ∧ upperIsNearer then some upper else some lower
  else
    if upper.toReal = real then some upper else none

/-- Of the decimals with the fewest digits that read back as `real`, the one nearest to it.
`decimal` is the exact value of `real`, which is positive and finite. -/
def shortest (tie : TieRule) (real : Float) (decimal : Decimal) : Decimal :=
  ((List.range (digitCount decimal.digits)).reverse.findSome? (decimal.readBack? tie real)).getD
    decimal

end Decimal

end Lindenmayer
