import Lindenmayer.Proofs.Real.Rounding

/-!
# Reals read back

The decimal equal to a finite real is read back as this real. The reader takes its operands from a
table where the digits and the power of ten are small, and else computes with exact numbers. Either
way it comes down to one product or quotient that needs no rounding. So among the decimals that
read back there is always one with the fewest digits.
-/

namespace Lindenmayer

open Float.Model (UnpackedFloat)
open Float.Model.UnpackedFloat

/-! ## Operands -/

def positiveReal (mantissa : Nat) (exponent : Int) (hpos : 0 < mantissa) : Float :=
  ⟨.pack (.finite .positive mantissa exponent hpos)⟩

/-- A natural number below the 53rd power of two, in canonical form. -/
theorem canonicalParts_nat {n : Nat} (hpos : 0 < n) (hlt : n < 2 ^ 53) :
    CanonicalParts (n * 2 ^ (52 - n.log2)) (-(52 - n.log2 : Nat)) := by
  have hlog : n.log2 ≤ 52 := Nat.le_of_lt_succ ((Nat.log2_lt hpos.ne').mpr hlt)
  have hlogs : (n * 2 ^ (52 - n.log2)).log2 = 52 := by
    rw [log2_mul_two_pow hpos.ne', Nat.add_sub_cancel' hlog]
  have hne : n * 2 ^ (52 - n.log2) ≠ 0 := Nat.mul_ne_zero hpos.ne' (Nat.two_pow_pos _).ne'
  refine ⟨(Nat.log2_lt hne).mp (by omega), by omega, by omega, .inl ?_⟩
  exact (Nat.le_log2 hne).mp hlogs.ge

theorem ofNat_exact {n : Nat} (hpos : 0 < n) (hlt : n < 2 ^ 53)
    (hscaled : 0 < n * 2 ^ (52 - n.log2)) :
    UnpackedFloat.ofNat .binary64 n =
      .finite .positive (n * 2 ^ (52 - n.log2)) (-(52 - n.log2 : Nat)) hscaled := by
  have hparts := canonicalParts_nat hpos hlt
  have hround := roundWithAccuracy_exact .positive hparts hscaled 0
  have hgreater : compare (n : Int) 0 = .gt := compare_gt_iff_gt.mpr (by omega)
  have htarget : Float.Model.Format.binary64.targetExponent (Float.Model.totalExponent n 0) =
      -(52 - n.log2 : Nat) := by
    have hlog : n.log2 ≤ 52 := Nat.le_of_lt_succ ((Nat.log2_lt hpos.ne').mpr hlt)
    rw [targetExponent_eq, Float.Model.totalExponent]
    omega
  simp only [UnpackedFloat.ofNat, UnpackedFloat.ofInt, UnpackedFloat.normalize, hgreater,
    Int.toNat_natCast, UnpackedFloat.round, htarget, decreaseExponent, Nat.shiftLeft_eq, zero_sub,
    neg_neg]
  simpa using hround

theorem unpack_toFloat {n : Nat} (hpos : 0 < n) (hlt : n < 2 ^ 53) :
    ∃ hscaled, n.toUInt64.toFloat.toModel.unpack =
      .finite .positive (n * 2 ^ (52 - n.log2)) (-(52 - n.log2 : Nat)) hscaled := by
  have hscaled : 0 < n * 2 ^ (52 - n.log2) := Nat.mul_pos hpos (Nat.two_pow_pos _)
  have hcanonical : Canonical (.finite .positive (n * 2 ^ (52 - n.log2)) (-(52 - n.log2 : Nat))
      hscaled) := canonicalParts_nat hpos hlt
  have hvalue : n.toUInt64.toNat = n := Nat.mod_eq_of_lt (by omega)
  refine ⟨hscaled, ?_⟩
  change (Float.Model.pack (UnpackedFloat.ofNat .binary64 n.toUInt64.toNat)).unpack = _
  rw [hvalue, ofNat_exact hpos hlt hscaled, unpack_pack hcanonical]

def isNatural (x : UnpackedFloat) (n : Nat) : Bool :=
  match x with
  | .finite .positive mantissa exponent _ =>
      mantissa * 2 ^ exponent.toNat = n * 2 ^ (-exponent).toNat
  | _ => false

theorem exists_of_isNatural {x : UnpackedFloat} {n : Nat} (h : isNatural x n = true) :
    ∃ mantissa exponent hpos, x = .finite .positive mantissa exponent hpos ∧
      mantissa * 2 ^ exponent.toNat = n * 2 ^ (-exponent).toNat := by
  match x with
  | .finite .positive mantissa exponent hpos =>
      exact ⟨mantissa, exponent, hpos, rfl, of_decide_eq_true h⟩

/-- The table of the powers of ten holds what it says. -/
theorem isNatural_powerOfTen :
    ∀ k : Fin 23, isNatural Float.exactlyRepresentablePowersOfTen[k].toModel.unpack (10 ^ k.val) =
      true := by
  decide +kernel

theorem exists_powerOfTen {k : Nat} (h : k < Float.exactlyRepresentablePowersOfTen.size) :
    ∃ mantissa exponent hpos,
      Float.exactlyRepresentablePowersOfTen[k].toModel.unpack =
          .finite .positive mantissa exponent hpos ∧
        mantissa * 2 ^ exponent.toNat = 10 ^ k * 2 ^ (-exponent).toNat :=
  exists_of_isNatural (isNatural_powerOfTen ⟨k, h⟩)

theorem unpack_one :
    (getElem Float.exactlyRepresentablePowersOfTen 0 (by decide)).toModel.unpack =
      .finite .positive (2 ^ 52) (-52) (by decide) := by
  rfl

/-! ## Reading -/

theorem mul_eq_positiveReal {a b : Float} {m₁ m₂ mantissa shift : Nat} {e₁ e₂ exponent : Int}
    {h₁ : 0 < m₁} {h₂ : 0 < m₂} (ha : a.toModel.unpack = .finite .positive m₁ e₁ h₁)
    (hb : b.toModel.unpack = .finite .positive m₂ e₂ h₂)
    (h : CanonicalParts mantissa exponent) (hpos : 0 < mantissa)
    (hmantissa : m₁ * m₂ = mantissa * 2 ^ shift) (hexponent : e₁ + e₂ + shift = exponent) :
    a * b = positiveReal mantissa exponent hpos := by
  change (⟨.pack (UnpackedFloat.mul .binary64 a.toModel.unpack b.toModel.unpack)⟩ : Float) = _
  rw [ha, hb, mul_exact .positive .positive h₁ h₂ h hpos hmantissa hexponent]
  rfl

theorem div_eq_positiveReal {a b : Float} {m₁ m₂ mantissa p q : Nat} {e₁ e₂ exponent : Int}
    {h₁ : 0 < m₁} {h₂ : 0 < m₂} (ha : a.toModel.unpack = .finite .positive m₁ e₁ h₁)
    (hb : b.toModel.unpack = .finite .positive m₂ e₂ h₂)
    (h : CanonicalParts mantissa exponent) (hpos : 0 < mantissa)
    (hmantissa : m₁ * 2 ^ p = mantissa * m₂ * 2 ^ q) (hexponent : e₁ - e₂ - exponent = p - q) :
    a / b = positiveReal mantissa exponent hpos := by
  change (⟨.pack (UnpackedFloat.div .binary64 a.toModel.unpack b.toModel.unpack)⟩ : Float) = _
  rw [ha, hb, div_exact .positive .positive h₁ h₂ h hpos hmantissa hexponent]
  rfl

theorem toReal_whole {digits : Nat} (hdigits : digits ≠ 0) :
    Decimal.toReal ⟨digits, 0⟩ = Float.ofScientific digits false 0 := by
  have hone : digits * Nat.pow 10 0 = digits := Nat.mul_one digits
  simp only [Decimal.toReal, if_neg hdigits, le_refl, if_true, Int.toNat_zero, hone]
  rfl

theorem toReal_fraction {digits : Nat} {exponent : Int} (hdigits : digits ≠ 0)
    (hexponent : exponent < 0) :
    Decimal.toReal ⟨digits, exponent⟩ = Float.ofScientific digits true (-exponent).toNat := by
  have hhuge : ¬Decimal.hugeExponent ≤ exponent := by
    change ¬310 ≤ exponent
    omega
  simp only [Decimal.toReal, if_neg hdigits, if_neg hhuge, if_neg (not_le.mpr hexponent)]

section

variable {mantissa : Nat} {exponent : Int} (h : CanonicalParts mantissa exponent)
  (hpos : 0 < mantissa)
include h

theorem ofScientific_mul (hexponent : 0 ≤ exponent) :
    Float.ofScientific (mantissa * 2 ^ exponent.toNat) false 0 =
      positiveReal mantissa exponent hpos := by
  have hdigits : 0 < mantissa * 2 ^ exponent.toNat := Nat.mul_pos hpos (Nat.two_pow_pos _)
  rw [Float.ofScientific]
  by_cases hsmall : mantissa * 2 ^ exponent.toNat < 2 ^ 53 ∧ 0 ≤ 22
  · obtain ⟨hscaled, hunpack⟩ := unpack_toFloat hdigits hsmall.1
    generalize 52 - (mantissa * 2 ^ exponent.toNat).log2 = up at hscaled hunpack
    have hmantissa : mantissa * 2 ^ exponent.toNat * 2 ^ up * 2 ^ 52 =
        mantissa * 2 ^ (exponent.toNat + up + 52) := by
      ring
    rw [dif_pos hsmall, if_neg Bool.false_ne_true]
    exact mul_eq_positiveReal hunpack unpack_one h hpos hmantissa (by omega)
  · have hmantissa : (mantissa * 2 ^ exponent.toNat) <<< 53 * 10 ^ 0 =
        mantissa * 2 ^ (exponent.toNat + 53) := by
      rw [Nat.shiftLeft_eq]
      ring
    have hexact : UnpackedFloat.ofScientific .binary64 (mantissa * 2 ^ exponent.toNat) 0 =
        .finite .positive mantissa exponent hpos := by
      rw [UnpackedFloat.ofScientific, dif_neg hdigits.ne', if_neg (by decide), if_neg ?_,
        if_pos le_rfl]
      · refine mul_exact .positive .positive _ _ h hpos hmantissa ?_
        change -53 + 0 + ((exponent.toNat + 53 : Nat) : Int) = exponent
        omega
      · change ¬(0 : Int) < -(2048 + _)
        omega
    rw [dif_neg hsmall]
    exact congrArg (fun x => (⟨.pack x⟩ : Float)) hexact

theorem ofScientific_div (hexponent : exponent < 0) :
    Float.ofScientific (mantissa * 5 ^ (-exponent).toNat) true (-exponent).toNat =
      positiveReal mantissa exponent hpos := by
  have hdigits : 0 < mantissa * 5 ^ (-exponent).toNat :=
    Nat.mul_pos hpos (Nat.pow_pos (by decide))
  have hleast := h.least_le
  generalize hplaces : (-exponent).toNat = places at hdigits
  have hten : 10 ^ places = 5 ^ places * 2 ^ places := by rw [← Nat.mul_pow]
  rw [Float.ofScientific]
  by_cases hsmall : mantissa * 5 ^ places < 2 ^ 53 ∧ places ≤ 22
  · obtain ⟨hscaled, hunpack⟩ := unpack_toFloat hdigits hsmall.1
    generalize 52 - (mantissa * 5 ^ places).log2 = up at hscaled hunpack
    obtain ⟨m₂, e₂, h₂, hpower, hvalue⟩ := exists_powerOfTen (Nat.lt_succ_of_le hsmall.2)
    have hmantissa : mantissa * 5 ^ places * 2 ^ up * 2 ^ (places + (-e₂).toNat) =
        mantissa * m₂ * 2 ^ (up + e₂.toNat) :=
      calc mantissa * 5 ^ places * 2 ^ up * 2 ^ (places + (-e₂).toNat)
          = mantissa * (5 ^ places * 2 ^ places * 2 ^ (-e₂).toNat) * 2 ^ up := by ring
        _ = mantissa * (m₂ * 2 ^ e₂.toNat) * 2 ^ up := by rw [hvalue, hten]
        _ = mantissa * m₂ * 2 ^ (up + e₂.toNat) := by ring
    rw [dif_pos hsmall, if_pos rfl]
    exact div_eq_positiveReal hunpack hpower h hpos hmantissa (by omega)
  · have hnegative : Int.negOfNat places = -(places : Int) := Int.negOfNat_eq
    have hmantissa : mantissa * 5 ^ places * 2 ^ places =
        mantissa * 10 ^ (-(-(places : Int))).toNat * 2 ^ 0 := by
      rw [neg_neg, Int.toNat_natCast, hten]
      ring
    have hexact : UnpackedFloat.ofScientific .binary64 (mantissa * 5 ^ places) (-places) =
        .finite .positive mantissa exponent hpos := by
      rw [UnpackedFloat.ofScientific, dif_neg hdigits.ne', if_neg ?_, if_neg ?_, if_neg (by omega)]
      · exact div_exact .positive .positive _ _ h hpos hmantissa (by omega)
      · change ¬-(places : Int) < -(2048 + _)
        omega
      · change ¬(2048 : Int) < -places
        omega
    rw [dif_neg hsmall, if_pos rfl, hnegative]
    exact congrArg (fun x => (⟨.pack x⟩ : Float)) hexact

/-- The decimal equal to a real is read back as this real. -/
theorem toReal_exact :
    (Decimal.exact mantissa exponent).toReal = positiveReal mantissa exponent hpos := by
  rw [Decimal.exact]
  by_cases hexponent : 0 ≤ exponent
  · rw [if_pos hexponent]
    have hdigits : 0 < mantissa * 2 ^ exponent.toNat := Nat.mul_pos hpos (Nat.two_pow_pos _)
    exact (toReal_whole hdigits.ne').trans (ofScientific_mul h hpos hexponent)
  · rw [if_neg hexponent]
    have hnegative : exponent < 0 := by omega
    have hdigits : 0 < mantissa * 5 ^ (-exponent).toNat :=
      Nat.mul_pos hpos (Nat.pow_pos (by decide))
    exact (toReal_fraction hdigits.ne' hnegative).trans (ofScientific_div h hpos hnegative)

end

/-! ## The fewest digits -/

/-- One of the neighbours is found, and it reads back. -/
theorem readBack?_eq_some {tie : Decimal.TieRule} {real : Float} {decimal found : Decimal}
    {drop : Nat} (h : decimal.readBack? tie real drop = some found) :
    (found = (decimal.neighbours drop).1 ∨ found = (decimal.neighbours drop).2) ∧
      found.toReal = real := by
  revert h
  fun_cases Decimal.readBack? tie real decimal drop with
  | case1 lower upper heq _ hlower hupper =>
      rintro ⟨⟩
      exact ⟨.inr (congrArg Prod.snd heq).symm, hupper.1⟩
  | case2 lower upper heq _ hlower =>
      rintro ⟨⟩
      exact ⟨.inl (congrArg Prod.fst heq).symm, hlower⟩
  | case3 lower upper heq _ hupper =>
      rintro ⟨⟩
      exact ⟨.inr (congrArg Prod.snd heq).symm, hupper⟩
  | case4 => exact nofun

/-- With the fewest digits it is still the same real. -/
theorem toReal_shortest (tie : Decimal.TieRule) {real : Float} {decimal : Decimal}
    (h : decimal.toReal = real) : (decimal.shortest tie real).toReal = real := by
  rw [Decimal.shortest]
  cases hfound : (List.range _).reverse.findSome? (decimal.readBack? tie real) with
  | none => exact h
  | some found =>
      obtain ⟨drop, -, hdrop⟩ := List.exists_of_findSome?_eq_some hfound
      exact (readBack?_eq_some hdrop).2

theorem toReal_shortest_exact (tie : Decimal.TieRule) {real : Float}
    {sign : UnpackedFloat.Sign} {mantissa : Nat} {exponent : Int} {hpos : 0 < mantissa}
    (hreal : real.toModel.unpack = .finite sign mantissa exponent hpos) :
    ((Decimal.exact mantissa exponent).shortest tie real.abs).toReal = real.abs := by
  have hparts : Canonical real.toModel.unpack := canonical_unpack _
  rw [hreal] at hparts
  have habs : real.abs = positiveReal mantissa exponent hpos := by
    change (⟨.pack real.toModel.unpack.abs⟩ : Float) = _
    rw [hreal]
    rfl
  exact toReal_shortest tie ((toReal_exact hparts hpos).trans habs.symm)

end Lindenmayer
