import Lindenmayer.Number
import Lindenmayer.Proofs.Text.Balance
import Lindenmayer.Proofs.Text.Class

/-!
# The characters of numbers

Numbers are written with digits and letters, a sign and a point. None of these separates or groups
parameters, so every number can stand in a parameter list as it is written.
-/

namespace Lindenmayer

def isNumberChar (c : Char) : Bool := isIdentifierChar c || c = '-' || c = '.'

theorem isNumberChar_of_isDigit {c : Char} (h : c.isDigit = true) : isNumberChar c = true := by
  simp [isNumberChar, isIdentifierChar_of_isDigit h]

theorem not_isBlankChar_of_isNumberChar {c : Char} (h : isNumberChar c = true) :
    isBlankChar c = false := by
  simp only [isNumberChar, Bool.or_eq_true, decide_eq_true_eq] at h
  rcases h with (h | rfl) | rfl
  · exact not_isBlankChar_of_isIdentifierChar h
  · decide
  · decide

/-- The text is a number as far as its characters go. -/
structure Text.InNumberChars (text : Text) : Prop where
  ne_nil : text ≠ []
  all : ∀ c ∈ text, isNumberChar c = true

namespace Text.InNumberChars

variable {text : Text}

theorem not_mem (h : InNumberChars text) {c : Char} (hc : isNumberChar c = false) : c ∉ text := by
  intro hmem
  rw [h.all c hmem] at hc
  cases hc

theorem isBare (h : InNumberChars text) : IsBare text where
  notBlank := by
    obtain ⟨c, rest, rfl⟩ := List.exists_cons_of_ne_nil h.ne_nil
    rw [isBlank, List.all_cons, not_isBlankChar_of_isNumberChar (h.all c List.mem_cons_self),
      Bool.false_and]
  noOpenParen := h.not_mem (by decide)
  noCloseParen := h.not_mem (by decide)
  noComma := h.not_mem (by decide)

theorem of_all (hne : text ≠ []) (hall : text.all isNumberChar = true) : InNumberChars text :=
  ⟨hne, List.all_eq_true.mp hall⟩

theorem append {rest : Text} (h : InNumberChars text) (hrest : ∀ c ∈ rest, isNumberChar c = true) :
    InNumberChars (text ++ rest) where
  ne_nil := List.append_ne_nil_of_left_ne_nil h.ne_nil rest
  all := List.forall_mem_append.mpr ⟨h.all, hrest⟩

theorem prepend {before : Text} (h : InNumberChars text)
    (hbefore : ∀ c ∈ before, isNumberChar c = true) : InNumberChars (before ++ text) where
  ne_nil := List.append_ne_nil_of_right_ne_nil before h.ne_nil
  all := List.forall_mem_append.mpr ⟨hbefore, h.all⟩

theorem toDigits (n : Nat) : InNumberChars (Nat.toDigits 10 n) where
  ne_nil := Nat.toDigits_ne_nil
  all := by
    intro c hmem
    exact isNumberChar_of_isDigit (Nat.isDigit_of_mem_toDigits (by decide) (Nat.le_refl 10) hmem)

end Text.InNumberChars

open Text

/-! ## Decimals and reals -/

theorem inNumberChars_positional (decimal : Decimal) : InNumberChars decimal.positional := by
  have hdigits : InNumberChars decimal.digitText := .toDigits decimal.digits
  have hzeros n : ∀ c ∈ List.replicate n '0', isNumberChar c = true := by
    intro c hmem
    rw [List.eq_of_mem_replicate hmem]
    decide
  fun_cases Decimal.positional decimal with
  | case1 => exact hdigits.append (hzeros _)
  | case2 =>
      have hpoint : InNumberChars ['.'] := .of_all (by decide) (by decide)
      refine (hpoint.append fun c hmem => ?_).prepend fun c hmem => ?_
      · exact hdigits.all c (List.mem_of_mem_drop hmem)
      · exact hdigits.all c (List.mem_of_mem_take hmem)
  | case3 =>
      refine hdigits.prepend ?_
      exact List.forall_mem_cons.mpr
        ⟨by decide, List.forall_mem_cons.mpr ⟨by decide, hzeros _⟩⟩

/-- In parameters no real has an exponent or a point behind all its digits. -/
theorem magnitude_parameter (decimal : Decimal) :
    RealStyle.parameter.magnitude decimal = decimal.positional := by
  have hpositional : RealStyle.parameter.positional decimal.leadingExponent = true := rfl
  have hsuffix : RealStyle.parameter.wholeSuffix = [] := rfl
  rw [RealStyle.magnitude, if_pos hpositional, hsuffix, ite_self, List.append_nil]

theorem isNumberChar_of_mem_signText {sign : Float.Model.UnpackedFloat.Sign} :
    ∀ c ∈ signText sign, isNumberChar c = true := by
  refine List.all_eq_true.mp ?_
  cases sign with
  | positive => decide
  | negative => decide

theorem inNumberChars_nonFiniteText (r : Float) : InNumberChars (nonFiniteText r) := by
  fun_cases nonFiniteText r with
  | case1 =>
      have hinf : InNumberChars "inf".toList := .of_all (by decide) (by decide)
      exact hinf.prepend isNumberChar_of_mem_signText
  | case2 => exact .of_all (by decide) (by decide)

theorem inNumberChars_realText (r : Float) : InNumberChars (realText r) := by
  unfold realText RealStyle.finite?
  cases r.toModel.unpack with
  | notANumber => exact inNumberChars_nonFiniteText r
  | infinity sign => exact inNumberChars_nonFiniteText r
  | zero sign =>
      have hzero : InNumberChars ['0'] := .of_all (by decide) (by decide)
      exact hzero.prepend isNumberChar_of_mem_signText
  | finite sign mantissa exponent hpos =>
      rw [Option.getD_some, magnitude_parameter]
      exact (inNumberChars_positional _).prepend isNumberChar_of_mem_signText

/-! ## Numbers -/

theorem inNumberChars_integerText (n : Int) : InNumberChars (integerText n) := by
  fun_cases integerText n with
  | case1 =>
      have hsign : ∀ c ∈ ['-'], isNumberChar c = true := List.all_eq_true.mp (by decide)
      exact (InNumberChars.toDigits n.natAbs).prepend hsign
  | case2 => exact .toDigits n.natAbs

theorem Number.inNumberChars_text (n : Number) : InNumberChars n.text := by
  cases n with
  | integer n => exact inNumberChars_integerText n.toInt
  | real r => exact inNumberChars_realText r

/-- A number is written so that it can stand in a parameter list. -/
theorem Number.isParameter_text (n : Number) : IsParameter n.text :=
  n.inNumberChars_text.isBare.isParameter

end Lindenmayer
