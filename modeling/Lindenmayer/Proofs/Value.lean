import Lindenmayer.Host
import Lindenmayer.Proofs.Number
import Lindenmayer.Proofs.Real.Magnitude

/-!
# Reals carried in texts

A real is carried between generations, and to capabilities, in its text. A whole real is read again
as an integer where its digits fit 64 bits, and an integer counts as a real where its magnitude is
safe. Between the two bounds, from the 53rd to the 63rd power of two, a real is lost on the way.
-/

namespace Lindenmayer

open Float.Model (UnpackedFloat)
open Float.Model.UnpackedFloat

/-! ## Equal reals -/

theorem beq_of_unpack {a b : Float} {sign : UnpackedFloat.Sign} {mantissa : Nat} {exponent : Int}
    {hpos : 0 < mantissa} (ha : a.toModel.unpack = .finite sign mantissa exponent hpos)
    (hb : b.toModel.unpack = .finite sign mantissa exponent hpos) : (a == b) = true := by
  change a.toModel.unpack.beq b.toModel.unpack = true
  rw [ha, hb]
  cases sign with
  | positive =>
      change (some ((compare exponent exponent).then (compare mantissa mantissa)) ==
        some .eq) = true
      simp
  | negative =>
      change (some ((compare exponent exponent).then (compare mantissa mantissa)).swap ==
        some .eq) = true
      simp

def withSign (negative : Bool) (magnitude : Float) : Float :=
  if negative then -magnitude else magnitude

theorem withSign_abs_beq {r : Float} {sign : UnpackedFloat.Sign} {mantissa : Nat} {exponent : Int}
    {hpos : 0 < mantissa} (hreal : r.toModel.unpack = .finite sign mantissa exponent hpos) :
    (withSign (isMinus sign) r.abs == r) = true := by
  refine beq_of_unpack ?_ hreal
  cases sign with
  | positive =>
      change r.abs.toModel.unpack = _
      rw [unpack_abs, hreal]
      rfl
  | negative =>
      change (-r.abs).toModel.unpack = _
      rw [unpack_neg, unpack_abs, hreal]
      rfl

/-- A natural number with a sign is converted like its digits. -/
theorem ofInt_signed {negative : Bool} {n : Nat} (hpos : n ≠ 0) :
    Float.ofInt (if negative then -(n : Int) else n) =
      withSign negative (Decimal.toReal ⟨n, 0⟩) := by
  rw [toReal_whole hpos]
  cases negative with
  | false => rfl
  | true =>
      obtain ⟨k, rfl⟩ := Nat.exists_eq_succ_of_ne_zero hpos
      rfl

/-! ## Texts of reals -/

/-- With the fewest digits a whole number is still written without a fraction. -/
theorem exponent_shortest_nonneg (tie : Decimal.TieRule) (real : Float) {decimal : Decimal}
    (h : 0 ≤ decimal.exponent) : 0 ≤ (decimal.shortest tie real).exponent := by
  rw [Decimal.shortest]
  cases hfound : (List.range _).reverse.findSome? (decimal.readBack? tie real) with
  | none => exact h
  | some found =>
      obtain ⟨drop, -, hdrop⟩ := List.exists_of_findSome?_eq_some hfound
      have hlower : 0 ≤ (decimal.neighbours drop).1.exponent := by
        change 0 ≤ decimal.exponent + drop
        omega
      have hupper : 0 ≤ (decimal.neighbours drop).2.exponent := by
        simp only [Decimal.neighbours, apply_ite Decimal.exponent]
        omega
      rcases (readBack?_eq_some hdrop).1 with rfl | rfl
      · exact hlower
      · exact hupper

theorem isPlain_of_written_positional {decimal : Decimal} {numeral : Numeral}
    (hwritten : numeral.Written decimal.positional) (hexponent : 0 ≤ decimal.exponent) :
    numeral.isPlain = true := by
  have hdigits : decimal.positional.all Char.isDigit = true := by
    simp only [Decimal.positional, if_pos hexponent, List.all_append, Decimal.digitText,
      all_isDigit_toDigits, all_isDigit_replicate, Bool.and_self]
  have hne : decimal.positional ≠ [] := by
    obtain ⟨c, rest, htext, -⟩ := hwritten.exists_head
    rw [htext]
    exact List.cons_ne_nil c rest
  rw [hwritten.eq (Numeral.written_digits hne hdigits)]
  rfl

theorem toReal_of_isPlain {numeral : Numeral} (hplain : numeral.isPlain = true) :
    numeral.toReal = Decimal.toReal ⟨digitsValue numeral.whole, 0⟩ := by
  obtain ⟨whole, fraction, exponent⟩ := numeral
  rw [Numeral.isPlain, Bool.and_eq_true, Option.isNone_iff_eq_none,
    Option.isNone_iff_eq_none] at hplain
  obtain ⟨rfl, rfl⟩ := hplain
  simp [Numeral.toReal, Numeral.value, Numeral.scale]

section

variable {r : Float} {sign : UnpackedFloat.Sign} {mantissa : Nat} {exponent : Int}
  {hpos : 0 < mantissa} (hreal : r.toModel.unpack = .finite sign mantissa exponent hpos)
include hreal

theorem realText_finite :
    realText r = signText sign ++
      ((Decimal.exact mantissa exponent).shortest RealStyle.parameter.tie r.abs).positional := by
  rw [realText, RealStyle.finite?, hreal]
  simp only [Option.getD_some, magnitude_parameter]

/-- What is read from the text of a real: the integer that its digits stand for, where it is written
with digits only and they fit 64 bits, and else the real. -/
theorem ofText?_realText :
    ∃ numeral : Numeral,
      numeral.Written
          ((Decimal.exact mantissa exponent).shortest RealStyle.parameter.tie r.abs).positional ∧
        numeral.toReal = r.abs ∧
        Number.ofText? (realText r) = some
          (match if numeral.isPlain then int64? (signedValue (isMinus sign) numeral.whole) else none
            with
          | some n => .integer n
          | none => .real (withSign (isMinus sign) r.abs)) := by
  have hback := toReal_shortest_exact RealStyle.parameter.tie hreal
  have hfinite : r.abs.isFinite = true := by
    change r.abs.toModel.unpack.isFinite = true
    rw [unpack_abs, hreal]
    rfl
  obtain ⟨numeral, hwritten, hvalue⟩ := exists_written_positional (hback.symm ▸ hfinite)
  rw [hback] at hvalue
  refine ⟨numeral, hwritten, hvalue, ?_⟩
  have htrim : (realText r).trim = realText r := (Number.real r).trim_text
  have hsigned : (withSign (isMinus sign) r.abs).isFinite = true := by
    cases isMinus sign with
    | true => exact (isFinite_neg _).trans hfinite
    | false => exact hfinite
  have hinteger := readInteger?_of_written (signText_isMinus sign) hwritten
  have hread : (readReal? (realText r)).filter Float.isFinite =
      some (withSign (isMinus sign) r.abs) := by
    rw [realText_finite hreal, readReal?_of_written (signText_isMinus sign) hwritten, hvalue]
    exact (Option.filter_some ..).trans (if_pos hsigned)
  rw [← realText_finite hreal] at hinteger
  simp only [Number.ofText?, htrim, hinteger, hread]
  cases (if numeral.isPlain then int64? (signedValue (isMinus sign) numeral.whole) else none) with
  | some n => rfl
  | none => rfl

end

/-! ## Coerced texts of reals -/

theorem coerce_number {text : Text} {n : Number} (hread : Number.ofText? text = some n) :
    ParamKind.number.coerce text = .ok (.number n) := by
  simp only [ParamKind.coerce, hread]

/-- A number with 16 digits and three zeros is the shortest text of the 63rd power of two. -/
theorem shortest_two_pow_63 :
    (Decimal.exact (2 ^ 52) 11).shortest RealStyle.parameter.tie
      (positiveReal (2 ^ 52) 11 (by decide)) = ⟨9223372036854776, 3⟩ := by
  decide +kernel

section

variable {r : Float} {sign : UnpackedFloat.Sign} {mantissa : Nat} {exponent : Int}
  {hpos : 0 < mantissa} (hreal : r.toModel.unpack = .finite sign mantissa exponent hpos)
  {numeral : Numeral}
  (hwritten : numeral.Written
    ((Decimal.exact mantissa exponent).shortest RealStyle.parameter.tie r.abs).positional)
  (hvalue : numeral.toReal = r.abs)
include hreal hvalue

theorem unpack_digitsValue (hplain : numeral.isPlain = true) :
    (Decimal.toReal ⟨digitsValue numeral.whole, 0⟩).toModel.unpack =
      .finite .positive mantissa exponent hpos := by
  rw [← toReal_of_isPlain hplain, hvalue, unpack_abs, hreal]
  rfl

include hwritten

/-- A real from the 63rd power of two on is written with digits that do not fit 64 bits. -/
theorem int64?_signedValue_of_large (hplain : numeral.isPlain = true) (hlarge : 11 ≤ exponent) :
    int64? (signedValue (isMinus sign) numeral.whole) = none := by
  have hunpack := unpack_digitsValue hreal hvalue hplain
  have hdigits : 2 ^ 63 < digitsValue numeral.whole := by
    by_contra hle
    rcases exponent_of_le_two_pow_63 hunpack (not_lt.mp hle) with hsmall | ⟨rfl, rfl⟩
    · omega
    · have habs : r.abs = positiveReal (2 ^ 52) 11 (by decide) := by
        change (⟨.pack r.toModel.unpack.abs⟩ : Float) = _
        rw [hreal]
        rfl
      rw [habs, shortest_two_pow_63] at hwritten
      have htext := hwritten.eq_whole_of_isPlain hplain
      rw [← htext] at hle
      exact hle (by decide)
  have hmagnitude := natAbs_signedValue (isMinus sign) numeral.whole
  rw [int64?_eq_none_iff, Int64.toInt_minValue, Int64.toInt_maxValue]
  omega

end

theorem unpack_two_pow_53 : (9007199254740992.0 : Float).toModel.unpack =
    .finite .positive (2 ^ 52) 1 (by decide) := by
  rfl

theorem unpack_two_pow_63 : (9223372036854775808.0 : Float).toModel.unpack =
    .finite .positive (2 ^ 52) 11 (by decide) := by
  rfl

/-- The reals between the integers that count as reals and those beyond 64 bits, by exponent. -/
theorem inGap_iff {r : Float} {sign : UnpackedFloat.Sign} {mantissa : Nat} {exponent : Int}
    {hpos : 0 < mantissa} (hreal : r.toModel.unpack = .finite sign mantissa exponent hpos) :
    (9007199254740992.0 ≤ r.abs ∧ r.abs < 9223372036854775808.0) ↔
      1 ≤ exponent ∧ exponent < 11 := by
  have habs : r.abs.toModel.unpack = .finite .positive mantissa exponent hpos := by
    rw [unpack_abs, hreal]
    rfl
  rw [two_pow_le_iff habs unpack_two_pow_53 (by decide),
    lt_two_pow_iff habs unpack_two_pow_63 (by decide)]

theorem not_le_abs_zero {r : Float} {sign : UnpackedFloat.Sign}
    (hreal : r.toModel.unpack = .zero sign) : ¬9007199254740992.0 ≤ r.abs := by
  change ¬decide ((9007199254740992.0 : Float).toModel.unpack.le r.abs.toModel.unpack = true) = true
  rw [decide_eq_true_eq, unpack_two_pow_53, unpack_abs, hreal]
  exact Bool.false_ne_true

theorem ofText?_zero (sign : UnpackedFloat.Sign) :
    Number.ofText? (signText sign ++ ['0']) = some (.integer 0) := by
  cases sign with
  | positive => decide
  | negative => decide

/-- An integer that is safe and has the digits of a real counts as this real. -/
theorem exactReal?_of_safe {n : Int64} {negative : Bool} {digits : Nat} (hpos : digits ≠ 0)
    (hsafe : digits < 2 ^ 53) (hn : n.toInt = if negative then -(digits : Int) else digits) :
    exactReal? n = some (withSign negative (Decimal.toReal ⟨digits, 0⟩)) := by
  have hmagnitude : n.toInt.natAbs ≤ maxSafeInteger := by
    change n.toInt.natAbs ≤ 9007199254740991
    rw [hn, apply_ite Int.natAbs, Int.natAbs_neg, ite_self, Int.natAbs_natCast]
    omega
  rw [exactReal?, if_pos hmagnitude, hn, ofInt_signed hpos]

theorem exactReal?_of_large {n : Int64} (hlarge : 2 ^ 53 ≤ n.toInt.natAbs) :
    exactReal? n = none := by
  refine if_neg ?_
  change ¬n.toInt.natAbs ≤ 9007199254740991
  omega

section

variable {r : Float} {sign : UnpackedFloat.Sign} {mantissa : Nat} {exponent : Int}
  {hpos : 0 < mantissa} (hreal : r.toModel.unpack = .finite sign mantissa exponent hpos)
include hreal

/-- In the gap a real is whole, and its digits fit 64 bits but are not safe. -/
theorem ofText?_realText_inGap (hgap : 1 ≤ exponent ∧ exponent < 11) :
    ∃ n, Number.ofText? (realText r) = some (.integer n) ∧ exactReal? n = none := by
  obtain ⟨numeral, hwritten, hvalue, hread⟩ := ofText?_realText hreal
  have hwhole : 0 ≤ (Decimal.exact mantissa exponent).exponent := by
    rw [Decimal.exact, if_pos (by omega)]
  have hplain := isPlain_of_written_positional hwritten (exponent_shortest_nonneg _ _ hwhole)
  have hdigits := unpack_digitsValue hreal hvalue hplain
  have hlower := mt (lt_two_pow_53_iff hdigits).mp (by omega)
  have hupper := lt_two_pow_63 hdigits (by omega)
  rw [if_pos hplain] at hread
  cases hinteger : int64? (signedValue (isMinus sign) numeral.whole) with
  | none =>
      rw [int64?_eq_none_iff, Int64.toInt_minValue, Int64.toInt_maxValue] at hinteger
      have hmagnitude := natAbs_signedValue (isMinus sign) numeral.whole
      omega
  | some n =>
      rw [hinteger] at hread
      refine ⟨n, hread, exactReal?_of_large ?_⟩
      rw [int64?_eq_some_iff.mp hinteger, natAbs_signedValue]
      exact not_lt.mp hlower

/-- Outside the gap a real is read as itself or as an integer that is safe. -/
theorem ofText?_realText_outside (hgap : ¬(1 ≤ exponent ∧ exponent < 11)) :
    ∃ n, Number.ofText? (realText r) = some n ∧
      (Value.number n).asReal = .ok (withSign (isMinus sign) r.abs) := by
  obtain ⟨numeral, hwritten, hvalue, hread⟩ := ofText?_realText hreal
  refine ⟨_, hread, ?_⟩
  cases hinteger : (if numeral.isPlain then int64? (signedValue (isMinus sign) numeral.whole)
    else none) with
  | none => rfl
  | some n =>
      obtain ⟨hplain, hinteger⟩ := Option.ite_none_right_eq_some.mp hinteger
      have hsmall : exponent ≤ 0 := by
        by_contra hpositive
        rw [int64?_signedValue_of_large hreal hwritten hvalue hplain (by omega)] at hinteger
        cases hinteger
      have hdigits := unpack_digitsValue hreal hvalue hplain
      have hsafe := (lt_two_pow_53_iff hdigits).mpr hsmall
      have hsome := exactReal?_of_safe (digits_ne_zero hdigits) hsafe
        (int64?_eq_some_iff.mp hinteger)
      rw [← toReal_of_isPlain hplain, hvalue] at hsome
      simp only [Value.asReal, hsome]

end

/-- A finite real that is carried in its text is taken as an equal real again, except from the 53rd
up to the 63rd power of two: there its text is read as an integer that does not count as a real. -/
theorem asReal_coerce_display {r : Float} (hfinite : r.isFinite = true) :
    ∃ value, ParamKind.number.coerce (Value.number (.real r)).display = .ok value ∧
      if 9007199254740992.0 ≤ r.abs ∧ r.abs < 9223372036854775808.0 then
        ∃ n, value = .number (.integer n) ∧
          value.asReal = .error (.invalidArgument
            (integerText n.toInt ++ " cannot be represented exactly as a real".toList))
      else
        ∃ s, value.asReal = .ok s ∧ (s == r) = true := by
  have hunpack : r.toModel.unpack.isFinite = true := hfinite
  cases hreal : r.toModel.unpack with
  | notANumber =>
      rw [hreal] at hunpack
      cases hunpack
  | infinity sign =>
      rw [hreal] at hunpack
      cases hunpack
  | zero sign =>
      have htext : realText r = signText sign ++ ['0'] := by
        rw [realText, RealStyle.finite?, hreal]
        rfl
      have hread : Number.ofText? (realText r) = some (.integer 0) :=
        htext ▸ ofText?_zero sign
      refine ⟨_, coerce_number hread, ?_⟩
      rw [if_neg fun hgap => not_le_abs_zero hreal hgap.1]
      refine ⟨0.0, rfl, ?_⟩
      change (UnpackedFloat.zero .positive).beq r.toModel.unpack = true
      rw [hreal]
      rfl
  | finite sign mantissa exponent hpos =>
      by_cases hgap : 1 ≤ exponent ∧ exponent < 11
      · obtain ⟨n, hread, hnone⟩ := ofText?_realText_inGap hreal hgap
        refine ⟨_, coerce_number hread, ?_⟩
        rw [if_pos ((inGap_iff hreal).mpr hgap)]
        exact ⟨n, rfl, by simp only [Value.asReal, hnone]⟩
      · obtain ⟨n, hread, hasReal⟩ := ofText?_realText_outside hreal hgap
        refine ⟨_, coerce_number hread, ?_⟩
        rw [if_neg (mt (inGap_iff hreal).mp hgap)]
        exact ⟨_, hasReal, withSign_abs_beq hreal⟩

/-- The last real that comes back, and the first that does not. -/
theorem asReal_coerce_display_edge :
    (9007199254740991.0 : Float).isFinite = true ∧ (9007199254740992.0 : Float).isFinite = true ∧
      (∃ value s,
        ParamKind.number.coerce (Value.number (.real 9007199254740991.0)).display = .ok value ∧
          value.asReal = .ok s ∧ (s == 9007199254740991.0) = true) ∧
      ∃ n, ParamKind.number.coerce (Value.number (.real 9007199254740992.0)).display =
          .ok (.number (.integer n)) ∧
        (Value.number (.integer n)).asReal = .error (.invalidArgument
          (integerText n.toInt ++ " cannot be represented exactly as a real".toList)) := by
  refine ⟨by decide, by decide, ?_, ?_⟩
  · obtain ⟨value, hvalue, hreal⟩ :=
      asReal_coerce_display (r := 9007199254740991.0) (by decide)
    rw [if_neg (by with_unfolding_all decide)] at hreal
    obtain ⟨s, hs, hsame⟩ := hreal
    exact ⟨value, s, hvalue, hs, hsame⟩
  · obtain ⟨value, hvalue, hreal⟩ :=
      asReal_coerce_display (r := 9007199254740992.0) (by decide)
    rw [if_pos (by with_unfolding_all decide)] at hreal
    obtain ⟨n, rfl, herror⟩ := hreal
    exact ⟨n, hvalue, herror⟩

theorem not_asReal_coerce_display :
    ¬∀ r : Float, r.isFinite = true →
      ∃ value s, ParamKind.number.coerce (Value.number (.real r)).display = .ok value ∧
        value.asReal = .ok s ∧ (s == r) = true := by
  intro h
  obtain ⟨value, s, hvalue, hreal, -⟩ := h 9007199254740992.0 (by decide)
  have hread : Number.ofText? (realText 9007199254740992.0) =
      some (.integer 9007199254740992) := by
    with_unfolding_all rfl
  have hnone : exactReal? 9007199254740992 = none := by with_unfolding_all rfl
  rw [Value.display, Number.text, coerce_number hread] at hvalue
  cases hvalue
  simp only [Value.asReal, hnone, reduceCtorEq] at hreal

end Lindenmayer
