import Lindenmayer.Number
import Lindenmayer.Proofs.Decimal.Numeral
import Lindenmayer.Proofs.Decimal.Writing
import Lindenmayer.Proofs.Real.Finiteness
import Lindenmayer.Proofs.Real.ReadBack
import Lindenmayer.Proofs.Text.Trim

/-!
# Numbers and their texts

A number is read from a numeral with a sign in front of it or without. Every finite number is
written in this form, so it can be read again from its text.
-/

namespace Lindenmayer

/-! ## Numbers of written numerals -/

theorem int64?_eq_some_iff {n : Int} {m : Int64} : int64? n = some m ↔ m.toInt = n := by
  constructor
  · exact toInt_of_int64?
  · rintro rfl
    rw [int64?, if_pos ⟨m.minValue_le_toInt, m.toInt_le⟩, Int64.ofInt_toInt]

theorem int64?_eq_none_iff {n : Int} :
    int64? n = none ↔ n < Int64.minValue.toInt ∨ Int64.maxValue.toInt < n := by
  rw [int64?, ite_eq_right_iff]
  simp only [reduceCtorEq, imp_false]
  omega

def signedValue (negative : Bool) (digits : Text) : Int :=
  if negative then -(digitsValue digits) else digitsValue digits

theorem natAbs_signedValue (negative : Bool) (digits : Text) :
    (signedValue negative digits).natAbs = digitsValue digits := by
  cases negative with
  | true => exact (Int.natAbs_neg _).trans (Int.natAbs_natCast _)
  | false => exact Int.natAbs_natCast _

section

variable {negative : Bool} {sign written : Text} {numeral : Numeral}

theorem readMagnitude?_of_written (hwritten : numeral.Written written) :
    readMagnitude? written = some numeral.toReal := by
  obtain ⟨c, rest, rfl, hhead⟩ := hwritten.exists_head
  -- The words for the infinities and for no number begin with a letter.
  have hlower : c.toLower ≠ 'i' ∧ c.toLower ≠ 'n' := by
    rcases hhead with hdigit | rfl
    · rw [isDigit_iff] at hdigit
      have hsame : c.toLower = c := by
        refine dif_neg fun hupper => ?_
        have hletter : 65 ≤ c.toNat := hupper.1
        omega
      rw [hsame]
      constructor
      · rintro rfl
        revert hdigit
        decide
      · rintro rfl
        revert hdigit
        decide
    · decide
  have hword {word : Text} (hletter : word.head? = some 'i' ∨ word.head? = some 'n') :
      (c :: rest).map Char.toLower ≠ word := by
    rintro rfl
    rcases hletter with hi | hn
    · exact hlower.1 (Option.some.inj hi)
    · exact hlower.2 (Option.some.inj hn)
  simp only [readMagnitude?, hwritten.ofText?, Option.map_some]
  rw [if_neg (not_or.mpr ⟨hword (.inl rfl), hword (.inl rfl)⟩), if_neg (hword (.inr rfl))]

theorem readReal?_of_written (hsign : Numeral.SignText negative sign)
    (hwritten : numeral.Written written) :
    readReal? (sign ++ written) =
      some (if negative then -numeral.toReal else numeral.toReal) := by
  simp only [readReal?, hwritten.takeSign_append hsign, readMagnitude?_of_written hwritten,
    Option.map_some]

theorem readInteger?_of_written (hsign : Numeral.SignText negative sign)
    (hwritten : numeral.Written written) :
    readInteger? (sign ++ written) =
      if numeral.isPlain then int64? (signedValue negative numeral.whole) else none := by
  have hne : written ≠ [] := by
    obtain ⟨c, rest, rfl, -⟩ := hwritten.exists_head
    exact List.cons_ne_nil c rest
  simp only [readInteger?, hwritten.takeSign_append hsign]
  by_cases hdigits : written.all Char.isDigit = true
  · have hnumeral : numeral = ⟨written, none, none⟩ :=
      hwritten.eq (Numeral.written_digits hne hdigits)
    rw [if_neg (not_or.mpr ⟨hne, not_not.mpr hdigits⟩), hnumeral]
    rfl
  · have hplain : ¬numeral.isPlain = true := by
      intro hplain
      rw [hwritten.eq_whole_of_isPlain hplain] at hdigits
      exact hdigits hwritten.whole
    rw [if_pos (Or.inr hdigits), if_neg hplain]

end

theorem readMagnitude?_cases {text : Text} {magnitude : Float}
    (hread : readMagnitude? text = some magnitude) :
    (magnitude.isFinite = false ∧ (-magnitude).isFinite = false) ∨
      ∃ numeral : Numeral, numeral.Written text := by
  revert hread
  fun_cases readMagnitude? text with
  | case1 =>
      rintro ⟨⟩
      left
      decide
  | case2 =>
      rintro ⟨⟩
      left
      decide
  | case3 =>
      intro hread
      obtain ⟨numeral, hnumeral, -⟩ := Option.map_eq_some_iff.mp hread
      exact Or.inr ⟨numeral, Numeral.written_of_ofText? hnumeral⟩

/-- A text that is read as a number is a numeral, with a sign in front of it or without. -/
theorem Number.exists_written {text : Text} {number : Number} (hread : ofText? text = some number) :
    ∃ (negative : Bool) (sign written : Text) (numeral : Numeral),
      Numeral.SignText negative sign ∧ numeral.Written written ∧ text.trim = sign ++ written := by
  obtain ⟨sign, hsign, htext⟩ := Numeral.signText_of_takeSign text.trim
  have hnumeral : ∃ numeral : Numeral, numeral.Written (Numeral.takeSign text.trim).2 := by
    cases hinteger : readInteger? text.trim with
    | some n =>
        obtain ⟨hdigits, -⟩ := Option.ite_none_left_eq_some.mp hinteger
        rw [not_or, Decidable.not_not] at hdigits
        exact ⟨_, Numeral.written_digits hdigits.1 hdigits.2⟩
    | none =>
        simp only [ofText?, hinteger] at hread
        obtain ⟨real, hfinite, -⟩ := Option.map_eq_some_iff.mp hread
        obtain ⟨hreal, hfinite⟩ := Option.filter_eq_some_iff.mp hfinite
        obtain ⟨magnitude, hmagnitude, rfl⟩ := Option.map_eq_some_iff.mp hreal
        rcases readMagnitude?_cases hmagnitude with ⟨hplain, hnegated⟩ | hnumeral
        · cases hsigned : (Numeral.takeSign text.trim).1 with
          | true =>
              rw [hsigned, if_pos rfl, hnegated] at hfinite
              cases hfinite
          | false =>
              rw [hsigned, if_neg Bool.false_ne_true, hplain] at hfinite
              cases hfinite
        · exact hnumeral
  obtain ⟨numeral, hwritten⟩ := hnumeral
  exact ⟨_, sign, _, numeral, hsign, hwritten, htext⟩

def Number.isFinite : Number → Bool
  | integer _ => true
  | real r => r.isFinite

/-! ## Written decimals -/

/-- A decimal is no other real with its zeros written out. -/
theorem toReal_scaled {digits places : Nat}
    (hfinite : (Decimal.toReal ⟨digits, places⟩).isFinite = true) :
    Decimal.toReal ⟨digits * 10 ^ places, 0⟩ = Decimal.toReal ⟨digits, places⟩ := by
  by_cases hdigits : digits = 0
  · rw [hdigits, Nat.zero_mul]
    rfl
  · have hscaled : digits * 10 ^ places ≠ 0 :=
      Nat.mul_ne_zero hdigits (Nat.pow_pos (by decide)).ne'
    have hhuge : ¬Decimal.hugeExponent ≤ (places : Int) := by
      intro hhuge
      simp only [Decimal.toReal, if_neg hdigits, if_pos hhuge] at hfinite
      exact absurd hfinite (by decide)
    rw [toReal_whole hscaled]
    simp only [Decimal.toReal, if_neg hdigits, if_neg hhuge, Int.natCast_nonneg, if_true,
      Int.toNat_natCast]
    rfl

theorem all_isDigit_replicate (n : Nat) : (List.replicate n '0').all Char.isDigit = true := by
  refine List.all_eq_true.mpr fun c hmem => ?_
  rw [List.eq_of_mem_replicate hmem]
  rfl

section

variable {digits places : Nat}

/-- Digits with zeros behind them. -/
theorem exists_written_whole (hfinite : (Decimal.toReal ⟨digits, places⟩).isFinite = true) :
    ∃ numeral : Numeral,
      numeral.Written (Nat.toDigits 10 digits ++ List.replicate places '0') ∧
        numeral.toReal = Decimal.toReal ⟨digits, places⟩ := by
  have hvalue : digitsValue (Nat.toDigits 10 digits ++ List.replicate places '0') =
      digits * 10 ^ places := by
    rw [digitsValue, Nat.ofDigitChars_append, Nat.ofDigitChars_replicate_zero,
      Nat.ofDigitChars_ten_toDigits, Nat.mul_comm]
  have hne : Nat.toDigits 10 digits ++ List.replicate places '0' ≠ [] :=
    List.append_ne_nil_of_left_ne_nil Nat.toDigits_ne_nil _
  refine ⟨_, Numeral.written_digits hne ?_, ?_⟩
  · rw [List.all_append, all_isDigit_toDigits, all_isDigit_replicate]
    rfl
  · rw [← toReal_scaled hfinite, ← hvalue]
    simp [Numeral.toReal, Numeral.value, Numeral.scale]

/-- Digits with a point among them. -/
theorem exists_written_pointed (hplaces : places < (Nat.toDigits 10 digits).length) :
    ∃ numeral : Numeral,
      numeral.Written
          ((Nat.toDigits 10 digits).take ((Nat.toDigits 10 digits).length - places) ++
            '.' :: (Nat.toDigits 10 digits).drop ((Nat.toDigits 10 digits).length - places)) ∧
        numeral.toReal = Decimal.toReal ⟨digits, -places⟩ := by
  have hall := List.all_eq_true.mp (all_isDigit_toDigits digits)
  have hvalue : digitsValue (Nat.toDigits 10 digits) = digits := Nat.ofDigitChars_ten_toDigits
  have hlength : ((Nat.toDigits 10 digits).drop ((Nat.toDigits 10 digits).length - places)).length =
      places := by
    rw [List.length_drop]
    omega
  refine ⟨⟨(Nat.toDigits 10 digits).take ((Nat.toDigits 10 digits).length - places),
    some ((Nat.toDigits 10 digits).drop ((Nat.toDigits 10 digits).length - places)), none⟩,
    ⟨?_, ?_, ?_, [], .none, by simp [Numeral.fractionText]⟩, ?_⟩
  · exact List.all_eq_true.mpr fun c hmem => hall c (List.mem_of_mem_take hmem)
  · rintro _ ⟨rfl⟩
    exact List.all_eq_true.mpr fun c hmem => hall c (List.mem_of_mem_drop hmem)
  · rintro ⟨hnil, -⟩
    have hnone := congrArg List.length hnil
    rw [List.length_take, List.length_nil] at hnone
    omega
  · simp [Numeral.toReal, Numeral.value, Numeral.scale, hlength, hvalue]

/-- Digits after a point, with zeros in front of them. -/
theorem exists_written_padded (hplaces : (Nat.toDigits 10 digits).length ≤ places) :
    ∃ numeral : Numeral,
      numeral.Written ('0' :: '.' ::
          (List.replicate (places - (Nat.toDigits 10 digits).length) '0' ++
            Nat.toDigits 10 digits)) ∧
        numeral.toReal = Decimal.toReal ⟨digits, -places⟩ := by
  generalize hzeros : places - (Nat.toDigits 10 digits).length = zeros
  have hvalue : digitsValue ('0' :: (List.replicate zeros '0' ++ Nat.toDigits 10 digits)) =
      digits := by
    change Nat.ofDigitChars 10 (List.replicate zeros '0' ++ Nat.toDigits 10 digits) 0 = digits
    rw [Nat.ofDigitChars_append, Nat.ofDigitChars_replicate_zero, Nat.mul_zero,
      Nat.ofDigitChars_ten_toDigits]
  have hlength : zeros + (Nat.toDigits 10 digits).length = places := by omega
  refine ⟨⟨['0'], some (List.replicate zeros '0' ++ Nat.toDigits 10 digits), none⟩,
    ⟨rfl, ?_, by simp, [], .none, by simp [Numeral.fractionText]⟩, ?_⟩
  · rintro _ ⟨rfl⟩
    rw [List.all_append, all_isDigit_replicate, all_isDigit_toDigits]
    rfl
  · simp [Numeral.toReal, Numeral.value, Numeral.scale, ← hlength, hvalue]

end

/-- A decimal without an exponent is the written form of a numeral for the same real. -/
theorem exists_written_positional {decimal : Decimal} (hfinite : decimal.toReal.isFinite = true) :
    ∃ numeral : Numeral, numeral.Written decimal.positional ∧
      numeral.toReal = decimal.toReal := by
  obtain ⟨digits, exponent⟩ := decimal
  by_cases hexponent : 0 ≤ exponent
  · obtain ⟨places, rfl⟩ := Int.eq_ofNat_of_zero_le hexponent
    simp only [Decimal.positional, Decimal.digitText, hexponent, if_true, Int.toNat_natCast]
    exact exists_written_whole hfinite
  · obtain ⟨places, rfl⟩ : ∃ places : Nat, exponent = -places := ⟨exponent.natAbs, by omega⟩
    by_cases hplaces : places < (Nat.toDigits 10 digits).length
    · simp only [Decimal.positional, Decimal.digitText, hexponent, if_false, neg_neg,
        Int.toNat_natCast, hplaces, if_true]
      exact exists_written_pointed hplaces
    · simp only [Decimal.positional, Decimal.digitText, hexponent, if_false, neg_neg,
        Int.toNat_natCast, hplaces]
      exact exists_written_padded (not_lt.mp hplaces)

/-! ## Written numbers -/

def isMinus : Float.Model.UnpackedFloat.Sign → Bool
  | .positive => false
  | .negative => true

theorem signText_isMinus (sign : Float.Model.UnpackedFloat.Sign) :
    Numeral.SignText (isMinus sign) (signText sign) := by
  cases sign with
  | positive => exact .none
  | negative => exact .minus

/-- A finite real is written as a numeral for a finite real, with or without a minus. -/
theorem exists_written_realText {r : Float} (hfinite : r.isFinite = true) :
    ∃ (negative : Bool) (sign written : Text) (numeral : Numeral),
      Numeral.SignText negative sign ∧ numeral.Written written ∧
        numeral.toReal.isFinite = true ∧ realText r = sign ++ written := by
  have hunpack : r.toModel.unpack.isFinite = true := hfinite
  cases hreal : r.toModel.unpack with
  | notANumber =>
      rw [hreal] at hunpack
      cases hunpack
  | infinity sign =>
      rw [hreal] at hunpack
      cases hunpack
  | zero sign =>
      refine ⟨isMinus sign, _, ['0'], ⟨['0'], none, none⟩, signText_isMinus sign,
        Numeral.written_digits (by decide) rfl, by with_unfolding_all rfl, ?_⟩
      rw [realText, RealStyle.finite?, hreal]
      rfl
  | finite sign mantissa exponent hpos =>
      have hback := toReal_shortest_exact RealStyle.parameter.tie hreal
      have habs : r.abs.isFinite = true := by
        change r.abs.toModel.unpack.isFinite = true
        rw [unpack_abs, hreal]
        rfl
      rw [← hback] at habs
      obtain ⟨numeral, hwritten, hnumeral⟩ := exists_written_positional habs
      refine ⟨isMinus sign, _, _, numeral, signText_isMinus sign, hwritten, ?_, ?_⟩
      · rw [hnumeral]
        exact habs
      · rw [realText, RealStyle.finite?, hreal]
        simp only [Option.getD_some, magnitude_parameter]

theorem exists_written_integerText (n : Int) :
    ∃ (negative : Bool) (sign : Text),
      Numeral.SignText negative sign ∧ signedValue negative (Nat.toDigits 10 n.natAbs) = n ∧
        integerText n = sign ++ Nat.toDigits 10 n.natAbs := by
  have hvalue : digitsValue (Nat.toDigits 10 n.natAbs) = n.natAbs := Nat.ofDigitChars_ten_toDigits
  fun_cases integerText n with
  | case1 hnegative =>
      refine ⟨true, ['-'], .minus, ?_, rfl⟩
      rw [signedValue, if_pos rfl, hvalue]
      omega
  | case2 hpositive =>
      refine ⟨false, [], .none, ?_, rfl⟩
      rw [signedValue, if_neg Bool.false_ne_true, hvalue]
      omega

/-- Nothing around the text of a number is trimmed. -/
theorem Number.trim_text (n : Number) : n.text.trim = n.text :=
  Text.trim_of_forall_not_blank fun c hmem =>
    not_isBlankChar_of_isNumberChar (n.inNumberChars_text.all c hmem)

/-- An integer is read from its text. -/
theorem Number.ofText?_integerText (n : Int64) :
    Number.ofText? (integerText n.toInt) = some (.integer n) := by
  obtain ⟨negative, sign, hsign, hvalue, htext⟩ := exists_written_integerText n.toInt
  have hwritten := Numeral.written_digits Nat.toDigits_ne_nil (all_isDigit_toDigits n.toInt.natAbs)
  have hread : readInteger? (integerText n.toInt) = some n := by
    rw [htext, readInteger?_of_written hsign hwritten]
    exact int64?_eq_some_iff.mpr hvalue.symm
  have htrim : (integerText n.toInt).trim = integerText n.toInt := (Number.integer n).trim_text
  simp only [Number.ofText?, htrim, hread]

/-- A finite real is read from its text, as an integer if it is one. -/
theorem Number.isSome_ofText?_realText {r : Float} (hfinite : r.isFinite = true) :
    (Number.ofText? (realText r)).isSome = true := by
  obtain ⟨negative, sign, written, numeral, hsign, hwritten, hnumeral, htext⟩ :=
    exists_written_realText hfinite
  have htrim : (realText r).trim = realText r := (Number.real r).trim_text
  have hread : (readReal? (realText r)).filter Float.isFinite =
      some (if negative then -numeral.toReal else numeral.toReal) := by
    rw [htext, readReal?_of_written hsign hwritten, Option.filter_some, if_pos]
    cases negative with
    | true => exact (isFinite_neg _).trans hnumeral
    | false => exact hnumeral
  simp only [Number.ofText?, htrim, hread]
  cases readInteger? (realText r) with
  | none => rfl
  | some n => rfl

/-- The words for what is not finite are read as no number. -/
theorem Number.ofText?_nonFinite {r : Float} (hinfinite : r.isFinite = false) :
    Number.ofText? (realText r) = none := by
  have hunpack : r.toModel.unpack.isFinite = false := hinfinite
  cases hreal : r.toModel.unpack with
  | notANumber =>
      have htext : realText r = "NaN".toList := by
        rw [realText, RealStyle.finite?, hreal, Option.getD_none, nonFiniteText, hreal]
      rw [htext]
      decide
  | infinity sign =>
      have htext : realText r = signText sign ++ "inf".toList := by
        rw [realText, RealStyle.finite?, hreal, Option.getD_none, nonFiniteText, hreal]
      rw [htext]
      cases sign with
      | positive => decide
      | negative => decide
  | zero sign =>
      rw [hreal] at hunpack
      cases hunpack
  | finite sign mantissa exponent hpos =>
      rw [hreal] at hunpack
      cases hunpack

/-- A number can be read from its text if it is finite, and only then. -/
theorem Number.isSome_ofText?_text (n : Number) :
    (Number.ofText? n.text).isSome = n.isFinite := by
  cases n with
  | integer n =>
      rw [text, ofText?_integerText]
      rfl
  | real r =>
      cases hfinite : r.isFinite with
      | true =>
          rw [text, isSome_ofText?_realText hfinite]
          exact hfinite.symm
      | false =>
          rw [text, ofText?_nonFinite hfinite]
          exact hfinite.symm

end Lindenmayer
