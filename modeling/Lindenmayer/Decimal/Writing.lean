import Lindenmayer.Decimal

/-!
# Writing decimals and reals

A decimal is written by placing its digits around a point, or with an exponent. What a real looks
like is decided by a `RealStyle`: how a tie between two shortest decimals is broken, which
magnitudes are written without an exponent, and what follows a whole number.
-/

namespace Lindenmayer

namespace Decimal

def digitText (decimal : Decimal) : Text := Nat.toDigits 10 decimal.digits

def leadingExponent (decimal : Decimal) : Int :=
  decimal.exponent + digitCount decimal.digits - 1

/-- The decimal with its digits around the point, padded with zeros on either side. -/
def positional (decimal : Decimal) : Text :=
  let digits := decimal.digitText
  if 0 ≤ decimal.exponent then
    digits ++ List.replicate decimal.exponent.toNat '0'
  else
    let places := (-decimal.exponent).toNat
    if places < digits.length then
      digits.take (digits.length - places) ++ '.' :: digits.drop (digits.length - places)
    else
      '0' :: '.' :: List.replicate (places - digits.length) '0' ++ digits

/-- The decimal with its point after the first digit and a signed exponent. -/
def scientific (decimal : Decimal) : Text :=
  let fraction := decimal.digitText.drop 1
  let exponent := decimal.leadingExponent
  decimal.digitText.take 1 ++ (if fraction = [] then [] else '.' :: fraction) ++
    'e' :: (if exponent < 0 then '-' else '+') :: Nat.toDigits 10 exponent.natAbs

/-- The decimal rounded to a number of places after the point, a half to the even neighbour. -/
def fixed (places : Nat) (decimal : Decimal) : Text :=
  let shift := decimal.exponent + places
  let scaled :=
    if 0 ≤ shift then
      decimal.digits * Nat.pow 10 shift.toNat
    else
      roundDiv .even decimal.digits (Nat.pow 10 (-shift).toNat)
  positional ⟨scaled, -places⟩

end Decimal

/-! ## Reals -/

open Float.Model (UnpackedFloat)

def signText : UnpackedFloat.Sign → Text
  | .positive => []
  | .negative => ['-']

structure RealStyle where
  /-- How a tie between two decimals with the fewest digits is broken. -/
  tie : Decimal.TieRule
  /-- Whether reals whose first digit has this power of ten are written without an exponent. -/
  positional : Int → Bool
  /-- What follows a whole number. -/
  wholeSuffix : Text

namespace RealStyle

/-- Reals in parameters have no exponent and no point where they are whole. -/
def parameter : RealStyle := ⟨.up, fun _ => true, []⟩

/-- Reals in JSON are written without an exponent from `1e-5` up to `1e16`, and keep a point. -/
def json : RealStyle := ⟨.even, fun exponent => -5 ≤ exponent && exponent < 16, ['.', '0']⟩

def magnitude (style : RealStyle) (decimal : Decimal) : Text :=
  if style.positional decimal.leadingExponent then
    decimal.positional ++ if 0 ≤ decimal.exponent then style.wholeSuffix else []
  else
    decimal.scientific

/-- A real with as few digits as read back, unless it is infinite or no number. -/
def finite? (style : RealStyle) (real : Float) : Option Text :=
  match real.toModel.unpack with
  | .notANumber => none
  | .infinity _ => none
  | .zero sign => some (signText sign ++ '0' :: style.wholeSuffix)
  | .finite sign mantissa exponent _ =>
      some (signText sign ++
        style.magnitude ((Decimal.exact mantissa exponent).shortest style.tie real.abs))

end RealStyle

def nonFiniteText (real : Float) : Text :=
  match real.toModel.unpack with
  | .infinity sign => signText sign ++ "inf".toList
  | _ => "NaN".toList

def realText (real : Float) : Text :=
  (RealStyle.parameter.finite? real).getD (nonFiniteText real)

/-- A real with a fixed number of places after the point. The sign of zero is kept. -/
def fixedText (places : Nat) (real : Float) : Text :=
  match real.toModel.unpack with
  | .zero sign => signText sign ++ Decimal.fixed places ⟨0, 0⟩
  | .finite sign mantissa exponent _ =>
      signText sign ++ (Decimal.exact mantissa exponent).fixed places
  | _ => nonFiniteText real

def integerText (n : Int) : Text :=
  if n < 0 then '-' :: Nat.toDigits 10 n.natAbs else Nat.toDigits 10 n.natAbs

end Lindenmayer
