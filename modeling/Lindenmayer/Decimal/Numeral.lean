import Lindenmayer.Decimal

/-!
# Numerals

A numeral is an unsigned decimal as it is written: digits, a point with digits on at least one side
of it, and an exponent, of which the point and the exponent may be absent. `Numeral.scan?` reads the
longest numeral at the start of a text. An exponent without digits is not part of a numeral.
-/

namespace Lindenmayer

def digitsValue (digits : Text) : Nat := Nat.ofDigitChars 10 digits 0

/-- The unsigned 64-bit number that a text of digits, at least one, denotes. -/
def uint64OfDigits? (text : Text) : Option UInt64 :=
  if text ≠ [] ∧ text.all Char.isDigit ∧ digitsValue text < UInt64.size then
    some (UInt64.ofNat (digitsValue text))
  else
    none

structure Numeral where
  /-- The digits before the point. -/
  whole : Text
  /-- The digits after the point, if there is a point. -/
  fraction : Option Text
  /-- The exponent and whether it is negative, if there is an exponent. -/
  exponent : Option (Bool × Text)
  deriving DecidableEq, Repr

namespace Numeral

def isPlain (numeral : Numeral) : Bool :=
  numeral.fraction.isNone && numeral.exponent.isNone

def scale (numeral : Numeral) : Int :=
  match numeral.exponent with
  | none => 0
  | some (false, digits) => digitsValue digits
  | some (true, digits) => -digitsValue digits

def value (numeral : Numeral) : Decimal :=
  let fraction := numeral.fraction.getD []
  ⟨digitsValue (numeral.whole ++ fraction), numeral.scale - fraction.length⟩

def toReal (numeral : Numeral) : Float := numeral.value.toReal

/-! ## Reading -/

/-- Reads a sign, if there is one; the answer says whether it is a minus. -/
def takeSign : Text → Bool × Text
  | '-' :: text => (true, text)
  | '+' :: text => (false, text)
  | text => (false, text)

def takeFraction : Text → Option Text × Text
  | '.' :: text => (some (text.takeWhile Char.isDigit), text.dropWhile Char.isDigit)
  | text => (none, text)

/-- Reads an exponent: a letter, an optional sign, and at least one digit. -/
def takeExponent (text : Text) : Option (Bool × Text) × Text :=
  match text with
  | [] => (none, [])
  | c :: rest =>
      let signed := takeSign rest
      if (c = 'e' ∨ c = 'E') ∧ signed.2.head?.any Char.isDigit then
        (some (signed.1, signed.2.takeWhile Char.isDigit), signed.2.dropWhile Char.isDigit)
      else
        (none, text)

def scan? (text : Text) : Option (Numeral × Text) :=
  let whole := text.takeWhile Char.isDigit
  let fraction := takeFraction (text.dropWhile Char.isDigit)
  let exponent := takeExponent fraction.2
  if whole = [] ∧ fraction.1.getD [] = [] then
    none
  else
    some (⟨whole, fraction.1, exponent.1⟩, exponent.2)

def ofText? (text : Text) : Option Numeral :=
  match scan? text with
  | some (numeral, []) => some numeral
  | _ => none

theorem length_takeSign_le (text : Text) : (takeSign text).2.length ≤ text.length := by
  fun_cases takeSign text with
  | case1 => exact Nat.le_succ _
  | case2 => exact Nat.le_succ _
  | case3 => exact Nat.le_refl _

theorem length_takeFraction_le (text : Text) : (takeFraction text).2.length ≤ text.length := by
  fun_cases takeFraction text with
  | case1 => exact Nat.le_trans (List.dropWhile_suffix _).length_le (Nat.le_succ _)
  | case2 => exact Nat.le_refl _

/-- A point with its digits is not empty. -/
theorem length_takeFraction_lt {text digits : Text} (h : (takeFraction text).1 = some digits) :
    (takeFraction text).2.length < text.length := by
  revert h
  fun_cases takeFraction text with
  | case1 => exact fun _ => Nat.lt_succ_of_le (List.dropWhile_suffix _).length_le
  | case2 => exact nofun

theorem length_takeExponent_le (text : Text) : (takeExponent text).2.length ≤ text.length := by
  fun_cases takeExponent text with
  | case1 => exact Nat.le_refl _
  | case2 c rest signed =>
      have hdrop : (signed.2.dropWhile Char.isDigit).length ≤ signed.2.length :=
        (List.dropWhile_suffix _).length_le
      have hsign : signed.2.length ≤ rest.length := length_takeSign_le rest
      simp only [List.length_cons]
      omega
  | case3 => exact Nat.le_refl _

/-- A numeral is not empty. -/
theorem length_of_scan? {text rest : Text} {numeral : Numeral}
    (h : scan? text = some (numeral, rest)) : rest.length < text.length := by
  obtain ⟨hdigits, hpair⟩ := Option.ite_none_left_eq_some.mp h
  obtain ⟨-, rfl⟩ := Prod.mk.inj (Option.some.inj hpair)
  have hexponent := length_takeExponent_le (takeFraction (text.dropWhile Char.isDigit)).2
  have hfraction := length_takeFraction_le (text.dropWhile Char.isDigit)
  have hsum := congrArg List.length
    (List.takeWhile_append_dropWhile (p := Char.isDigit) (l := text))
  rw [List.length_append] at hsum
  cases hwhole : text.takeWhile Char.isDigit with
  | cons c digits =>
      rw [hwhole, List.length_cons] at hsum
      omega
  | nil =>
      cases hpoint : (takeFraction (text.dropWhile Char.isDigit)).1 with
      | none => simp [hwhole, hpoint] at hdigits
      | some digits =>
          have hlt := length_takeFraction_lt hpoint
          omega

end Numeral

end Lindenmayer
