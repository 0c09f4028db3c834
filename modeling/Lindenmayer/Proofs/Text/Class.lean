import Lindenmayer.Formula.Lexeme

/-!
# Character classes as ranges of code points
-/

namespace Lindenmayer

theorem isDigit_iff {c : Char} : c.isDigit = true ↔ 48 ≤ c.toNat ∧ c.toNat ≤ 57 :=
  Char.isDigit_iff_toNat

theorem all_isDigit_toDigits (n : Nat) : (Nat.toDigits 10 n).all Char.isDigit = true :=
  List.all_eq_true.mpr fun _ hc => Nat.isDigit_of_mem_toDigits (by decide) (Nat.le_refl 10) hc

theorem isAlpha_iff {c : Char} :
    c.isAlpha = true ↔ (65 ≤ c.toNat ∧ c.toNat ≤ 90) ∨ (97 ≤ c.toNat ∧ c.toNat ≤ 122) := by
  change (decide (c.val ≥ 65 ∧ c.val ≤ 90) || (decide (c.val ≥ 97) && decide (c.val ≤ 122))) =
    true ↔ _
  simp [UInt32.le_iff_toNat_le]

theorem isNameStart_iff {c : Char} :
    isNameStart c = true ↔ c.isAlpha = true ∨ c.toNat = 95 := by
  simp only [isNameStart, Bool.or_eq_true, decide_eq_true_eq]
  exact or_congr_right Char.toNat_inj.symm

theorem isIdentifierChar_iff {c : Char} :
    isIdentifierChar c = true ↔ c.isDigit = true ∨ isNameStart c = true := by
  simp only [isIdentifierChar, isNameStart, Char.isAlphanum, Bool.or_eq_true, decide_eq_true_eq]
  rw [or_comm (a := c.isAlpha = true), or_assoc]

theorem isIdentifierChar_of_isDigit {c : Char} (h : c.isDigit = true) :
    isIdentifierChar c = true :=
  isIdentifierChar_iff.mpr (Or.inl h)

theorem isIdentifierChar_of_isNameStart {c : Char} (h : isNameStart c = true) :
    isIdentifierChar c = true :=
  isIdentifierChar_iff.mpr (Or.inr h)

theorem not_isNameStart_of_isDigit {c : Char} (h : c.isDigit = true) : isNameStart c = false := by
  rw [Bool.eq_false_iff, ne_eq, isNameStart_iff, isAlpha_iff]
  rw [isDigit_iff] at h
  omega

theorem isBlankChar_of_isLayoutChar {c : Char} (h : isLayoutChar c = true) :
    isBlankChar c = true := by
  simp only [isLayoutChar, Bool.or_eq_true, decide_eq_true_eq] at h
  rcases h with (((rfl | rfl) | rfl) | rfl) | rfl <;> decide

/-- No blank can be part of a name or a numeral. -/
theorem not_isBlankChar_of_isIdentifierChar {c : Char} (h : isIdentifierChar c = true) :
    isBlankChar c = false := by
  rw [isIdentifierChar_iff, isNameStart_iff, isAlpha_iff, isDigit_iff] at h
  simp only [isBlankChar, blankRanges, List.any_eq_false, Bool.and_eq_true, decide_eq_true_eq,
    List.mem_cons, List.not_mem_nil, or_false]
  rintro range (rfl | rfl | rfl | rfl | rfl | rfl | rfl | rfl | rfl | rfl) <;> simp only <;> omega

theorem not_isIdentifierChar_of_isBlankChar {c : Char} (h : isBlankChar c = true) :
    isIdentifierChar c = false := by
  cases hc : isIdentifierChar c with
  | false => rfl
  | true =>
      rw [not_isBlankChar_of_isIdentifierChar hc] at h
      cases h

end Lindenmayer
