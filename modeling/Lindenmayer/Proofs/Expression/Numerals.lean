import Lindenmayer.Proofs.Expression.Atoms

/-!
# Numbers as expressions

A text that is read as a number is also an expression: a numeral, with a sign in front of it or
without. To compute it gives the number that it is read as, with one exception. The digits of the
least integer exceed all integers, so as an expression it is the negative of a real.
-/

namespace Lindenmayer

/-! ## Numbers of signed numerals -/

section Signed

variable {negative : Bool} {sign written : Text} {numeral : Numeral}

/-- A numeral that is no integer with its sign is none without. -/
theorem toNumber_of_readInteger? (hsign : Numeral.SignText negative sign)
    (hwritten : numeral.Written written) (hread : readInteger? (sign ++ written) = none) :
    numeral.toNumber = .real numeral.toReal := by
  rw [readInteger?_of_written hsign hwritten] at hread
  rw [Numeral.toNumber]
  by_cases hplain : numeral.isPlain = true
  · rw [if_pos hplain, int64?_eq_none_iff, Int64.toInt_minValue, Int64.toInt_maxValue] at hread
    have hvalue := natAbs_signedValue negative numeral.whole
    have hdigits : int64? (digitsValue numeral.whole) = none := by
      rw [int64?_eq_none_iff, Int64.toInt_minValue, Int64.toInt_maxValue]
      omega
    rw [if_pos hplain, hdigits]
  · rw [if_neg hplain]

def signOf (negative : Bool) : Sign := if negative then .minus else .plus

theorem exists_operand_of_written (hsign : Numeral.SignText negative sign)
    (hwritten : numeral.Written written) :
    ∃ operand : Derivation .unary, Laid (sign ++ written) operand.lexemes ∧
      ∀ source, operand.meaning.eval source = (signOf negative).apply source numeral.toNumber := by
  have hlaid : Laid written [.number numeral.toNumber] := .of_lexeme (.number hwritten)
  cases hsign with
  | none => exact ⟨.primary (.number numeral.toNumber), hlaid, fun _ => rfl⟩
  | plus =>
      exact ⟨.signed .plus (.primary (.number numeral.toNumber)),
        .lexeme (.operator .add) trivial hlaid, fun _ => rfl⟩
  | minus =>
      exact ⟨.signed .minus (.primary (.number numeral.toNumber)),
        .lexeme (.operator .sub) trivial hlaid, fun _ => rfl⟩

/-- The digits of the least integer are no integer without their sign, but a real. -/
theorem toNumber_of_least (hplain : numeral.isPlain = true)
    (hleast : signedValue negative numeral.whole = Int64.minValue.toInt) :
    negative = true ∧ numeral.toNumber = .real 9223372036854775808.0 := by
  obtain ⟨whole, fraction, exponent⟩ := numeral
  rw [Numeral.isPlain, Bool.and_eq_true, Option.isNone_iff_eq_none,
    Option.isNone_iff_eq_none] at hplain
  obtain ⟨rfl, rfl⟩ := hplain
  rw [Int64.toInt_minValue] at hleast
  have hdigits : digitsValue whole = 9223372036854775808 := by
    rw [← natAbs_signedValue negative whole, hleast]
    rfl
  constructor
  · by_contra hpositive
    rw [signedValue, if_neg hpositive] at hleast
    omega
  · simp only [Numeral.toNumber, Numeral.isPlain, Option.isNone_none, Bool.and_self, if_true,
      hdigits, Numeral.toReal, Numeral.value, Numeral.scale, Option.getD_none, List.append_nil]
    with_unfolding_all rfl

theorem apply_toNumber_of_integer (hsign : Numeral.SignText negative sign)
    (hwritten : numeral.Written written) {n : Int64}
    (hread : readInteger? (sign ++ written) = some n) (source : Text) :
    (signOf negative).apply source numeral.toNumber =
      .ok (if n = Int64.minValue then .real (-9223372036854775808.0) else .integer n) := by
  rw [readInteger?_of_written hsign hwritten] at hread
  obtain ⟨hplain, hvalue⟩ := Option.ite_none_right_eq_some.mp hread
  rw [int64?_eq_some_iff] at hvalue
  by_cases hleast : n = Int64.minValue
  · rw [hleast] at hvalue
    obtain ⟨rfl, hnumber⟩ := toNumber_of_least hplain hvalue.symm
    rw [if_pos hleast, hnumber]
    rfl
  · rw [if_neg hleast]
    rw [← Int64.toInt_inj, Int64.toInt_minValue] at hleast
    have hlower := n.minValue_le_toInt
    have hupper := n.toInt_le
    have hmagnitude := natAbs_signedValue negative numeral.whole
    rw [Int64.toInt_minValue] at hlower
    rw [Int64.toInt_maxValue] at hupper
    cases hdigits : int64? (digitsValue numeral.whole) with
    | none =>
        rw [int64?_eq_none_iff, Int64.toInt_minValue, Int64.toInt_maxValue] at hdigits
        omega
    | some m =>
        have hnumber : numeral.toNumber = .integer m := by
          rw [Numeral.toNumber, if_pos hplain, hdigits]
        rw [int64?_eq_some_iff] at hdigits
        rw [signedValue, ← hdigits] at hvalue
        rw [hnumber]
        cases negative with
        | true =>
            have hnegated : n.toInt = -m.toInt := hvalue
            change Number.ofInt source (-m.toInt) = _
            rw [Number.ofInt, int64?_eq_some_iff.mpr hnegated]
        | false =>
            rw [Int64.toInt_inj.mp hvalue]
            rfl

end Signed

/-! ## Computing what is read as a number -/

/-- A text that is read as a number is computed as that number. Only the least integer is computed
as a real. -/
theorem compute_trim_number {text : Text} {n : Number} (hread : Number.ofText? text = some n) :
    compute text.trim =
      .ok (if n = .integer Int64.minValue then .real (-9223372036854775808.0) else n) := by
  obtain ⟨negative, sign, written, numeral, hsign, hwritten, htext⟩ := Number.exists_written hread
  obtain ⟨operand, hlaid, heval⟩ := exists_operand_of_written hsign hwritten
  simp only [Number.ofText?, htext] at hread
  rw [htext]
  cases hinteger : readInteger? (sign ++ written) with
  | some m =>
      rw [hinteger] at hread
      cases hread
      simp only [Number.integer.injEq]
      refine compute_of_operand hlaid
        ((heval _).trans (apply_toNumber_of_integer hsign hwritten hinteger _)) ?_
      split
      · decide
      · rfl
  | none =>
      rw [hinteger, readReal?_of_written hsign hwritten] at hread
      obtain ⟨real, hreal, rfl⟩ := Option.map_eq_some_iff.mp hread
      obtain ⟨hreal, hfinite⟩ := Option.filter_eq_some_iff.mp hreal
      cases hreal
      rw [if_neg Number.noConfusion]
      refine compute_of_operand hlaid ((heval _).trans ?_) hfinite
      rw [toNumber_of_readInteger? hsign hwritten hinteger]
      cases negative with
      | true => rfl
      | false => rfl

/-- The greatest integer is computed as it is read, the least one is not. -/
theorem compute_trim_greatest :
    Number.ofText? " 9223372036854775807 ".toList = some (.integer Int64.maxValue) ∧
      compute "9223372036854775807".toList = .ok (.integer Int64.maxValue) := by
  have hread : Number.ofText? " 9223372036854775807 ".toList =
      some (.integer Int64.maxValue) := by
    with_unfolding_all rfl
  refine ⟨hread, ?_⟩
  have hcompute := compute_trim_number hread
  rw [if_neg (by decide)] at hcompute
  exact hcompute

theorem not_compute_trim_least :
    ¬∀ (text : Text) (n : Number), Number.ofText? text = some n →
      compute text.trim = .ok n := by
  intro h
  have hread : Number.ofText? "-9223372036854775808".toList = some (.integer Int64.minValue) := by
    with_unfolding_all rfl
  exact absurd (h _ _ hread) (by with_unfolding_all decide)

end Lindenmayer
