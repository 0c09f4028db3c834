import Lindenmayer.Proofs.Real.ReadBack

/-!
# The magnitude of whole reals

Reals are compared by exponent and mantissa. Rounding keeps the first bit of a number in its place,
unless all bits that are kept carry; then the result is the next power of two. So the exponent of
the real nearest to a natural number tells between which powers of two the number lies.
-/

namespace Lindenmayer

open Float.Model (Format UnpackedFloat totalExponent)
open Float.Model.UnpackedFloat

/-! ## Rounding long mantissas -/

theorem mantissa_shiftRight (mantissa shift : Nat) :
    (ExtendedMantissa.ofMantissaAndAccuracy mantissa .exact >>> shift).mantissa =
      mantissa / 2 ^ shift := by
  change (Nat.repeat ExtendedMantissa.shiftRightOne shift ⟨mantissa, false, false⟩).mantissa = _
  induction shift with
  | zero => exact (Nat.div_one mantissa).symm
  | succ shift ih =>
      rw [Nat.repeat, Nat.pow_succ, ← Nat.div_div_eq_div_mul, ← ih]
      rfl

/-- Rounding adds at most one. -/
theorem roundedMantissa_cases (extended : ExtendedMantissa) :
    extended.roundedMantissa = extended.mantissa ∨
      extended.roundedMantissa = extended.mantissa + 1 := by
  obtain ⟨mantissa, roundBit, stickyBit⟩ := extended
  cases roundBit with
  | false =>
      cases stickyBit with
      | false => exact .inl rfl
      | true => exact .inl rfl
  | true =>
      cases stickyBit with
      | false =>
          change mantissa + mantissa % 2 = mantissa ∨ mantissa + mantissa % 2 = mantissa + 1
          omega
      | true => exact .inr rfl

section

variable {n : Nat} {exponent : Int} (hlong : 52 ≤ n.log2)
include hlong

/-- The part of a long number that is kept has 53 bits. -/
theorem kept_bounds :
    2 ^ 52 ≤ n / 2 ^ (n.log2 - 52) ∧ n / 2 ^ (n.log2 - 52) < 2 ^ 53 := by
  have hne : n ≠ 0 := by
    rintro rfl
    exact absurd hlong (by decide)
  have hlower : 2 ^ 52 * 2 ^ (n.log2 - 52) ≤ n := by
    rw [← Nat.pow_add, Nat.add_sub_cancel' hlong]
    exact Nat.log2_self_le hne
  have hupper : n < 2 ^ 53 * 2 ^ (n.log2 - 52) := by
    have hexponents : n.log2 + 1 = 53 + (n.log2 - 52) := by omega
    rw [← Nat.pow_add, ← hexponents]
    exact Nat.lt_log2_self
  exact ⟨(Nat.le_div_iff_mul_le (Nat.two_pow_pos _)).mpr hlower,
    (Nat.div_lt_iff_lt_mul (Nat.two_pow_pos _)).mpr hupper⟩

theorem shiftToTargetExponent_long (hnormal : -1074 ≤ exponent + (n.log2 - 52 : Nat)) :
    shiftToTargetExponent Format.binary64 n exponent .exact =
      (ExtendedMantissa.ofMantissaAndAccuracy n .exact >>> (n.log2 - 52),
        exponent + (n.log2 - 52 : Nat)) := by
  have htarget : Format.binary64.targetExponent (totalExponent n exponent) =
      exponent + (n.log2 - 52 : Nat) := by
    rw [targetExponent_eq, totalExponent]
    omega
  rw [shiftToTargetExponent, htarget, shiftToExponent]
  simp only [add_sub_cancel_left, Int.toNat_natCast]

/-- A long number keeps its first 53 bits, rounded. If they carry, a power of two is left. -/
theorem roundWithAccuracy_long (sign : UnpackedFloat.Sign)
    (hnormal : -1074 ≤ exponent + (n.log2 - 52 : Nat)) :
    ∃ (mantissa : Nat) (shift : Nat) (hpos : 0 < mantissa),
      roundWithAccuracy Format.binary64 sign n exponent .exact =
          .finite sign mantissa (exponent + shift) hpos ∧
        2 ^ 52 ≤ mantissa ∧ mantissa < 2 ^ 53 ∧
        (shift = n.log2 - 52 ∨ (shift = n.log2 - 52 + 1 ∧ mantissa = 2 ^ 52)) := by
  obtain ⟨hlower, hupper⟩ := kept_bounds hlong
  rw [← mantissa_shiftRight] at hlower hupper
  generalize hextended :
    ExtendedMantissa.ofMantissaAndAccuracy n .exact >>> (n.log2 - 52) = extended at hlower hupper
  have hcases := roundedMantissa_cases extended
  generalize hrounded : extended.roundedMantissa = rounded at hcases
  by_cases hcarry : rounded < 2 ^ 53
  · have hpos : 0 < rounded := by omega
    have hlog : rounded.log2 = 52 :=
      Nat.le_antisymm (Nat.le_of_lt_succ ((Nat.log2_lt hpos.ne').mpr hcarry))
        ((Nat.le_log2 hpos.ne').mpr (by omega))
    refine ⟨rounded, n.log2 - 52, hpos, ?_, by omega, hcarry, .inl rfl⟩
    have hagain : shiftToTargetExponent Format.binary64 rounded (exponent + (n.log2 - 52 : Nat))
        .exact = _ :=
      shiftToTargetExponent_long hlog.ge (by omega)
    simp only [roundWithAccuracy, shiftToTargetExponent_long hlong hnormal, hextended, hrounded,
      hagain, mantissa_shiftRight, hlog, Nat.sub_self, Nat.pow_zero, Nat.div_one, Nat.cast_zero,
      add_zero]
    exact dif_neg hpos.ne'
  · have hpower : rounded = 2 ^ 53 := by omega
    have hlog : rounded.log2 = 53 := by rw [hpower, Nat.log2_two_pow]
    refine ⟨2 ^ 52, n.log2 - 52 + 1, by decide, ?_, le_rfl, by decide, .inr ⟨rfl, rfl⟩⟩
    have hagain : shiftToTargetExponent Format.binary64 rounded (exponent + (n.log2 - 52 : Nat))
        .exact = _ :=
      shiftToTargetExponent_long (by omega) (by omega)
    have hhalf : rounded / 2 ^ (53 - 52) = 2 ^ 52 := by
      rw [hpower]
      decide
    simp only [roundWithAccuracy, shiftToTargetExponent_long hlong hnormal, hextended, hrounded,
      hagain, mantissa_shiftRight, hlog, hhalf]
    rw [dif_neg (by decide), Nat.cast_add, ← add_assoc]

end

/-! ## Natural numbers as reals -/

/-- What is too large for the format becomes an infinity. -/
theorem unpack_pack_large (sign : UnpackedFloat.Sign) {mantissa : Nat} {exponent : Int}
    (hlarge : 971 < exponent) (hpos : 0 < mantissa) :
    (Float.Model.pack (.finite sign mantissa exponent hpos)).unpack = .infinity sign := by
  have hfield : (exponent + (Format.binary64.exponentBias : Int) +
      (Format.binary64.mantissaBitsWithoutImplicit : Int)).toNat = (exponent + 1075).toNat :=
    congrArg Int.toNat (Int.add_assoc exponent 1023 52)
  have hrange : 2 ^ Format.binary64.exponentBits ≤ (exponent + 1075).toNat + 1 := by
    change 2048 ≤ _
    omega
  have hpack : UnpackedFloat.pack Format.binary64 (.finite sign mantissa exponent hpos) =
      packedInfinity Format.binary64 sign := by
    simp only [UnpackedFloat.pack, hfield]
    rw [if_pos hrange]
  change unpack Format.binary64 (UnpackedFloat.pack Format.binary64 _) = _
  rw [hpack]
  exact unpack_pack (x := .infinity sign) trivial

section

variable {n : Nat}

theorem exists_unpack_toReal_small (hpos : 0 < n) (hlt : n < 2 ^ 53) :
    ∃ (mantissa : Nat) (exponent : Int) (hmantissa : 0 < mantissa),
      (Decimal.toReal ⟨n, 0⟩).toModel.unpack = .finite .positive mantissa exponent hmantissa ∧
        exponent ≤ 0 := by
  obtain ⟨hscaled, hunpack⟩ := unpack_toFloat hpos hlt
  have hparts := canonicalParts_nat hpos hlt
  refine ⟨_, -(52 - n.log2 : Nat), hscaled, ?_, by omega⟩
  have hreal : Float.ofScientific n false 0 =
      positiveReal (n * 2 ^ (52 - n.log2)) (-(52 - n.log2 : Nat)) hscaled := by
    rw [Float.ofScientific, dif_pos ⟨hlt, by decide⟩, if_neg Bool.false_ne_true]
    have hmantissa : n * 2 ^ (52 - n.log2) * 2 ^ 52 = n * 2 ^ (52 - n.log2) * 2 ^ 52 := rfl
    exact mul_eq_positiveReal hunpack unpack_one hparts hscaled hmantissa (by omega)
  rw [toReal_whole hpos.ne', hreal]
  exact unpack_pack (x := .finite .positive _ _ hscaled) hparts

/-- The exponent of the real nearest to a large number is that of the first bit of the number, or
the next one if the number was rounded up to a power of two. -/
theorem exponent_toReal_large (hlarge : 2 ^ 53 ≤ n) {sign : UnpackedFloat.Sign} {mantissa : Nat}
    {exponent : Int} {hpos : 0 < mantissa}
    (hunpack : (Decimal.toReal ⟨n, 0⟩).toModel.unpack = .finite sign mantissa exponent hpos) :
    exponent + 52 = n.log2 ∨ (exponent + 52 = n.log2 + 1 ∧ mantissa = 2 ^ 52) := by
  have hne : n ≠ 0 := by omega
  have hlog : 53 ≤ n.log2 := (Nat.le_log2 hne).mpr hlarge
  have hshifted : (n * 2 ^ 53).log2 = n.log2 + 53 := log2_mul_two_pow hne 53
  have hnormal : (-1074 : Int) ≤ -53 + ((n * 2 ^ 53).log2 - 52 : Nat) := by omega
  obtain ⟨rounded, shift, hrounded, hround, hlower, hupper, hshift⟩ :=
    roundWithAccuracy_long (by omega) .positive hnormal
  have hproduct : n <<< 53 * 10 ^ 0 = n * 2 ^ 53 := by
    rw [Nat.shiftLeft_eq, Nat.pow_zero, Nat.mul_one]
  have hexact : UnpackedFloat.ofScientific .binary64 n 0 =
      .finite .positive rounded (-53 + shift) hrounded := by
    rw [UnpackedFloat.ofScientific, dif_neg hne, if_neg (by decide), if_neg ?_, if_pos le_rfl,
      ← hround, ← hproduct]
    · rfl
    · change ¬(0 : Int) < -(2048 + _)
      omega
  have hreal : (Decimal.toReal ⟨n, 0⟩).toModel =
      Float.Model.pack (.finite .positive rounded (-53 + shift) hrounded) := by
    rw [toReal_whole hne, Float.ofScientific, dif_neg (by omega), ← hexact]
    rfl
  rw [hreal] at hunpack
  by_cases hgreatest : -53 + (shift : Int) ≤ 971
  · have hparts : CanonicalParts rounded (-53 + shift) :=
      ⟨hupper, by omega, hgreatest, .inl hlower⟩
    rw [unpack_pack (x := .finite .positive _ _ hrounded) hparts] at hunpack
    cases hunpack
    omega
  · rw [unpack_pack_large .positive (by omega) hrounded] at hunpack
    cases hunpack

variable {mantissa : Nat} {exponent : Int} {hpos : 0 < mantissa}
  (hunpack : (Decimal.toReal ⟨n, 0⟩).toModel.unpack = .finite .positive mantissa exponent hpos)
include hunpack

theorem digits_ne_zero : n ≠ 0 := by
  rintro rfl
  have hzero : (Decimal.toReal ⟨0, 0⟩).toModel.unpack = .zero .positive := rfl
  rw [hzero] at hunpack
  cases hunpack

/-- The numbers below the 53rd power of two are those with an exponent that is not positive. -/
theorem lt_two_pow_53_iff : n < 2 ^ 53 ↔ exponent ≤ 0 := by
  constructor
  · intro hlt
    have hne := digits_ne_zero hunpack
    obtain ⟨_, _, _, hsmall, hexponent⟩ := exists_unpack_toReal_small (by omega) hlt
    rw [hunpack] at hsmall
    cases hsmall
    exact hexponent
  · intro hexponent
    by_contra hlarge
    have hne := digits_ne_zero hunpack
    have hlog : 53 ≤ n.log2 := (Nat.le_log2 hne).mpr (not_lt.mp hlarge)
    have hplace := exponent_toReal_large (not_lt.mp hlarge) hunpack
    omega

theorem lt_two_pow_63 (hexponent : exponent ≤ 10) : n < 2 ^ 63 := by
  by_contra hlarge
  have hlog : 63 ≤ n.log2 := (Nat.le_log2 (digits_ne_zero hunpack)).mpr (not_lt.mp hlarge)
  have hplace := exponent_toReal_large (by omega) hunpack
  omega

/-- Up to the 63rd power of two, nothing but that power itself is reached by rounding. -/
theorem exponent_of_le_two_pow_63 (hle : n ≤ 2 ^ 63) :
    exponent ≤ 10 ∨ (exponent = 11 ∧ mantissa = 2 ^ 52) := by
  rcases Nat.lt_or_eq_of_le hle with hlt | rfl
  · by_cases hsmall : n < 2 ^ 53
    · have hexponent := (lt_two_pow_53_iff hunpack).mp hsmall
      omega
    · have hlog : n.log2 < 63 := (Nat.log2_lt (digits_ne_zero hunpack)).mpr hlt
      have hplace := exponent_toReal_large (not_lt.mp hsmall) hunpack
      omega
  · have hpower : (Decimal.toReal ⟨2 ^ 63, 0⟩).toModel.unpack =
        .finite .positive (2 ^ 52) 11 (by decide) := by
      rfl
    rw [hpower] at hunpack
    cases hunpack
    exact .inr ⟨rfl, rfl⟩

end

/-! ## Comparison -/

section

variable {a b : Float} {mantissa : Nat} {exponent power : Int} {hpos : 0 < mantissa}
  (ha : a.toModel.unpack = .finite .positive mantissa exponent hpos)
  (hb : b.toModel.unpack = .finite .positive (2 ^ 52) power (by decide)) (hnormal : -1074 < power)
include ha hb hnormal

/-- A real is compared with a power of two by exponent. -/
theorem lt_two_pow_iff : a < b ↔ exponent < power := by
  have hparts : Canonical a.toModel.unpack := canonical_unpack _
  rw [ha] at hparts
  have hlong := hparts.long_or_least
  change decide (a.toModel.unpack.lt b.toModel.unpack = true) = true ↔ _
  rw [decide_eq_true_eq, ha, hb]
  change (some ((compare exponent power).then (compare mantissa (2 ^ 52))) == some .lt) = true ↔ _
  rw [beq_iff_eq, Option.some.injEq, Ordering.then_eq_lt, Int.compare_eq_lt, Int.compare_eq_eq,
    Nat.compare_eq_lt]
  omega

theorem two_pow_le_iff : b ≤ a ↔ power ≤ exponent := by
  have hparts : Canonical a.toModel.unpack := canonical_unpack _
  rw [ha] at hparts
  have hlong := hparts.long_or_least
  change decide (b.toModel.unpack.le a.toModel.unpack = true) = true ↔ _
  rw [decide_eq_true_eq, ha, hb]
  change ((compare power exponent).then (compare (2 ^ 52) mantissa)).isLE = true ↔ _
  rw [Ordering.isLE_then_iff_or, Int.compare_eq_lt, Int.compare_eq_eq, Nat.isLE_compare]
  omega

end

end Lindenmayer
