import Lindenmayer.Decimal
import Mathlib

/-!
# Reals that need no rounding

A finite real is a mantissa times a power of two, and in canonical form the mantissa is as long as
the format allows. What can be written in canonical form is kept by packing, and a product or a
quotient that can be written so is not rounded.
-/

namespace Lindenmayer

open Float.Model (Format UnpackedFloat totalExponent)
open Float.Model.UnpackedFloat

/-! ## Canonical form -/

/-- The mantissa has 53 bits, or it has less and the exponent is the least one. -/
structure CanonicalParts (mantissa : Nat) (exponent : Int) : Prop where
  mantissa_lt : mantissa < 2 ^ 53
  least_le : -1074 ≤ exponent
  le_greatest : exponent ≤ 971
  long_or_least : 2 ^ 52 ≤ mantissa ∨ exponent = -1074

def Canonical : UnpackedFloat → Prop
  | .finite _ mantissa exponent _ => CanonicalParts mantissa exponent
  | _ => True

theorem targetExponent_eq (total : Int) :
    Format.binary64.targetExponent total = max (total - 53) (-1074) := rfl

namespace CanonicalParts

variable {mantissa : Nat} {exponent : Int} (h : CanonicalParts mantissa exponent)
  (hpos : 0 < mantissa)
include h hpos

theorem log2_le : mantissa.log2 ≤ 52 :=
  Nat.le_of_lt_succ ((Nat.log2_lt hpos.ne').mpr h.mantissa_lt)

/-- Rounding aims at the exponent of what is in canonical form. -/
theorem targetExponent : Format.binary64.targetExponent (totalExponent mantissa exponent) =
    exponent := by
  have hlog := h.log2_le hpos
  have hleast := h.least_le
  rw [targetExponent_eq, totalExponent]
  rcases h.long_or_least with hlong | rfl
  · have hlong : 52 ≤ mantissa.log2 := (Nat.le_log2 hpos.ne').mpr hlong
    omega
  · omega

end CanonicalParts

/-! ## Packing -/

theorem toNat_implicit (mantissa : BitVec 52) :
    (1#1 ++ mantissa).toNat = 2 ^ 52 + mantissa.toNat := by
  rw [BitVec.toNat_append, ← Nat.shiftLeft_add_eq_or_of_lt mantissa.isLt]
  rfl

/-- An unpacked real is in canonical form. -/
theorem canonical_unpack (bits : BitVec Format.binary64.numBits) :
    Canonical (unpack Format.binary64 bits) := by
  have hmantissa : (unpackMantissa bits).toNat < 2 ^ 52 := BitVec.isLt _
  have hexponent : (unpackExponent bits).toNat < 2 ^ 11 := BitVec.isLt _
  have hbias : (Format.binary64.exponentBias : Int) = 1023 := rfl
  dsimp only [unpack]
  by_cases hspecial : unpackExponent bits = -1#(Format.binary64.exponentBits)
  · rw [if_pos hspecial]
    by_cases hinfinite : unpackMantissa bits = 0#(Format.binary64.mantissaBitsWithoutImplicit)
    · rw [if_pos hinfinite]
      trivial
    · rw [if_neg hinfinite]
      trivial
  have hgreatest : (unpackExponent bits).toNat ≠ 2047 :=
    fun h => hspecial (BitVec.eq_of_toNat_eq h)
  rw [if_neg hspecial]
  by_cases hsmall : unpackExponent bits = 0#(Format.binary64.exponentBits)
  · rw [if_pos hsmall]
    by_cases hzero : unpackMantissa bits = 0#(Format.binary64.mantissaBitsWithoutImplicit)
    · rw [dif_pos hzero]
      trivial
    · rw [dif_neg hzero, hsmall]
      exact ⟨by omega, le_rfl, by decide, .inr rfl⟩
  · rw [if_neg hsmall]
    have hleast : (unpackExponent bits).toNat ≠ 0 := fun h => hsmall (BitVec.eq_of_toNat_eq h)
    refine ⟨?_, ?_, ?_, .inl ?_⟩
    · rw [toNat_implicit]
      omega
    · rw [hbias]
      omega
    · rw [hbias]
      omega
    · rw [toNat_implicit]
      omega

theorem unpack_normal (sign : UnpackedFloat.Sign) {field : Nat} (mantissa : BitVec 52)
    (hpos : 0 < field) (hlt : field < 2047) :
    unpack Format.binary64
        (packComponents Format.binary64 sign (BitVec.ofNat 11 field) mantissa) =
      .finite sign (2 ^ 52 + mantissa.toNat) (field - 1075) (by omega) := by
  have hfield : (BitVec.ofNat 11 field).toNat = field := Nat.mod_eq_of_lt (by omega)
  have hfinite : BitVec.ofNat 11 field ≠ -1#11 := by
    intro heq
    have hgreatest : field = 2047 := hfield.symm.trans (congrArg BitVec.toNat heq)
    omega
  have hnormal : BitVec.ofNat 11 field ≠ 0#11 := by
    intro heq
    have hleast : field = 0 := hfield.symm.trans (congrArg BitVec.toNat heq)
    omega
  simp only [unpack, unpackMantissa_packComponents, unpackExponent_packComponents,
    unpackSign_packComponents, UnpackedFloat.Sign.ofBitVec_toBitVec, toNat_implicit, hfield]
  rw [if_neg hfinite, if_neg hnormal]
  rfl

theorem unpack_subnormal (sign : UnpackedFloat.Sign) {mantissa : BitVec 52}
    (hpos : 0 < mantissa.toNat) :
    unpack Format.binary64 (packComponents Format.binary64 sign 0#11 mantissa) =
      .finite sign mantissa.toNat (-1074) hpos := by
  have hmantissa : mantissa ≠ 0#52 := by
    rintro rfl
    exact absurd hpos (by decide)
  simp only [unpack, unpackMantissa_packComponents, unpackExponent_packComponents,
    unpackSign_packComponents, UnpackedFloat.Sign.ofBitVec_toBitVec]
  rw [if_neg (by decide), if_pos trivial, dif_neg hmantissa]
  rfl

theorem unpack_pack_finite (sign : UnpackedFloat.Sign) {mantissa : Nat} {exponent : Int}
    (h : CanonicalParts mantissa exponent) (hpos : 0 < mantissa) :
    unpack Format.binary64
        (UnpackedFloat.pack Format.binary64 (.finite sign mantissa exponent hpos)) =
      .finite sign mantissa exponent hpos := by
  obtain ⟨hmantissa, hleast, hgreatest, hlong⟩ := h
  have hfield : (exponent + (Format.binary64.exponentBias : Int) +
      (Format.binary64.mantissaBitsWithoutImplicit : Int)).toNat = (exponent + 1075).toNat :=
    congrArg Int.toNat (Int.add_assoc exponent 1023 52)
  have hrange : ¬2 ^ Format.binary64.exponentBits ≤ (exponent + 1075).toNat + 1 := by
    change ¬2048 ≤ _
    omega
  simp only [UnpackedFloat.pack, hfield]
  rw [if_neg hrange]
  by_cases hlog : mantissa.log2 + 1 = Format.binary64.mantissaBits
  · rw [if_pos hlog]
    change mantissa.log2 + 1 = 53 at hlog
    have hlower : 2 ^ 52 ≤ mantissa := (Nat.le_log2 hpos.ne').mp (by omega)
    rw [unpack_normal sign _ (by omega) (by omega)]
    simp only [BitVec.toNat_ofNat, finite.injEq, true_and]
    omega
  · rw [if_neg hlog]
    change ¬mantissa.log2 + 1 = 53 at hlog
    have hlogUpper : mantissa.log2 < 53 := (Nat.log2_lt hpos.ne').mpr hmantissa
    have hupper : mantissa < 2 ^ 52 := (Nat.log2_lt hpos.ne').mp (by omega)
    have htrailing : (BitVec.ofNat 52 mantissa).toNat = mantissa := Nat.mod_eq_of_lt hupper
    have hexponent : exponent = -1074 := hlong.resolve_left (by omega)
    rw [unpack_subnormal sign (hpos.trans_eq htrailing.symm)]
    simp only [htrailing, hexponent]

/-- What is in canonical form is packed without a loss. -/
theorem unpack_pack {x : UnpackedFloat} (h : Canonical x) : (Float.Model.pack x).unpack = x := by
  cases x with
  | notANumber => exact unpack_packedNaN
  | infinity sign =>
      change unpack Format.binary64 (packedInfinity Format.binary64 sign) = .infinity sign
      simp [packedInfinity, unpack]
  | zero sign => exact unpack_packedZero
  | finite sign mantissa exponent hpos => exact unpack_pack_finite sign h hpos

theorem Canonical.neg {x : UnpackedFloat} (h : Canonical x) : Canonical x.neg := by
  cases x <;> exact h

theorem Canonical.abs {x : UnpackedFloat} (h : Canonical x) : Canonical x.abs := by
  cases x <;> exact h

theorem unpack_neg (a : Float) : (-a).toModel.unpack = a.toModel.unpack.neg :=
  unpack_pack (canonical_unpack _).neg

theorem unpack_abs (a : Float) : a.abs.toModel.unpack = a.toModel.unpack.abs :=
  unpack_pack (canonical_unpack _).abs

/-! ## Exact rounding -/

theorem shiftRight_exact (mantissa shift : Nat) :
    ExtendedMantissa.ofMantissaAndAccuracy (mantissa * 2 ^ shift) .exact >>> shift =
      ExtendedMantissa.ofMantissaAndAccuracy mantissa .exact := by
  change Nat.repeat ExtendedMantissa.shiftRightOne shift ⟨mantissa * 2 ^ shift, false, false⟩ =
    ⟨mantissa, false, false⟩
  induction shift generalizing mantissa with
  | zero => simp [Nat.repeat]
  | succ shift ih =>
      have hdouble : mantissa * 2 ^ (shift + 1) = mantissa * 2 * 2 ^ shift := by ring
      rw [Nat.repeat, hdouble, ih (mantissa * 2)]
      simp [ExtendedMantissa.shiftRightOne]

theorem log2_mul_two_pow {n : Nat} (hn : n ≠ 0) (shift : Nat) :
    (n * 2 ^ shift).log2 = n.log2 + shift := by
  induction shift with
  | zero => rw [Nat.pow_zero, Nat.mul_one, Nat.add_zero]
  | succ shift ih =>
      have hdouble : n * 2 ^ (shift + 1) = 2 * (n * 2 ^ shift) := by ring
      have hne : n * 2 ^ shift ≠ 0 := Nat.mul_ne_zero hn (Nat.two_pow_pos shift).ne'
      rw [hdouble, Nat.log2_two_mul hne, ih, Nat.add_assoc]

theorem log2_mul_le {n m : Nat} (hn : n ≠ 0) (hm : m ≠ 0) :
    (n * m).log2 ≤ n.log2 + m.log2 + 1 := by
  refine Nat.le_of_lt_succ ((Nat.log2_lt (Nat.mul_ne_zero hn hm)).mpr ?_)
  calc n * m < 2 ^ (n.log2 + 1) * 2 ^ (m.log2 + 1) :=
        Nat.mul_lt_mul_of_lt_of_lt Nat.lt_log2_self Nat.lt_log2_self
    _ = 2 ^ (n.log2 + m.log2 + 1 + 1) := by ring

/-- A number that is already at its target exponent but for a power of two in its mantissa is
shifted there without a loss. -/
theorem shiftToTargetExponent_exact {mantissa : Nat} {exponent : Int}
    (h : CanonicalParts mantissa exponent) (hpos : 0 < mantissa) (shift : Nat) :
    shiftToTargetExponent Format.binary64 (mantissa * 2 ^ shift) (exponent - shift) .exact =
      (.ofMantissaAndAccuracy mantissa .exact, exponent) := by
  have htarget : Format.binary64.targetExponent
      (totalExponent (mantissa * 2 ^ shift) (exponent - shift)) = exponent := by
    refine Eq.trans (congrArg _ ?_) (h.targetExponent hpos)
    rw [totalExponent, totalExponent, log2_mul_two_pow hpos.ne']
    omega
  rw [shiftToTargetExponent, htarget, shiftToExponent]
  simp only [sub_sub_cancel, Int.toNat_natCast, shiftRight_exact, sub_add_cancel]

/-- A multiple of a power of two is rounded to the same number in canonical form. -/
theorem roundWithAccuracy_exact (sign : UnpackedFloat.Sign) {mantissa : Nat} {exponent : Int}
    (h : CanonicalParts mantissa exponent) (hpos : 0 < mantissa) (shift : Nat) :
    roundWithAccuracy Format.binary64 sign (mantissa * 2 ^ shift) (exponent - shift) .exact =
      .finite sign mantissa exponent hpos := by
  have hagain : shiftToTargetExponent Format.binary64 mantissa exponent .exact =
      (.ofMantissaAndAccuracy mantissa .exact, exponent) := by
    simpa using shiftToTargetExponent_exact h hpos 0
  have hrounded : (ExtendedMantissa.ofMantissaAndAccuracy mantissa .exact).roundedMantissa =
      mantissa := rfl
  simp only [roundWithAccuracy, shiftToTargetExponent_exact h hpos shift, hrounded, hagain]
  exact dif_neg hpos.ne'

theorem mul_exact (first second : UnpackedFloat.Sign) {m₁ m₂ mantissa shift : Nat}
    {e₁ e₂ exponent : Int} (h₁ : 0 < m₁) (h₂ : 0 < m₂) (h : CanonicalParts mantissa exponent)
    (hpos : 0 < mantissa) (hmantissa : m₁ * m₂ = mantissa * 2 ^ shift)
    (hexponent : e₁ + e₂ + shift = exponent) :
    UnpackedFloat.mul Format.binary64 (.finite first m₁ e₁ h₁) (.finite second m₂ e₂ h₂) =
      .finite (first * second) mantissa exponent hpos := by
  have hround := roundWithAccuracy_exact (first * second) h hpos shift
  subst hexponent
  rw [← hmantissa, Int.add_sub_cancel] at hround
  exact hround

/-- A quotient that comes out even has an even quotient of mantissas, since the dividend is shifted
far enough. -/
theorem divCore_exact {m₁ m₂ mantissa a b : Nat} {e₁ e₂ exponent : Int}
    (h₁ : 0 < m₁) (h₂ : 0 < m₂) (h : CanonicalParts mantissa exponent) (hpos : 0 < mantissa)
    (hmantissa : m₁ * 2 ^ a = mantissa * m₂ * 2 ^ b) (hexponent : e₁ - e₂ - exponent = a - b) :
    ∃ shift : Nat, divCore Format.binary64 m₁ e₁ m₂ e₂ =
      (mantissa * 2 ^ shift, exponent - shift, .exact) := by
  have hproduct : 0 < mantissa * m₂ := Nat.mul_pos hpos h₂
  have hlogs : m₁.log2 + a = (mantissa * m₂).log2 + b := by
    rw [← log2_mul_two_pow h₁.ne', hmantissa, log2_mul_two_pow hproduct.ne']
  have hlog := log2_mul_le hpos.ne' h₂.ne'
  have hlong := h.log2_le hpos
  have hleast := h.least_le
  generalize htarget : min (e₁ - e₂) (Format.binary64.targetExponent
    (totalExponent m₁ e₁ - totalExponent m₂ e₂)) = target
  have hle : target ≤ exponent := by
    rw [targetExponent_eq, totalExponent, totalExponent] at htarget
    omega
  have hle' : target ≤ e₁ - e₂ := htarget ▸ min_le_left _ _
  refine ⟨(exponent - target).toNat, ?_⟩
  have hshifted : m₁ <<< (e₁ - e₂ - target).toNat =
      mantissa * 2 ^ (exponent - target).toNat * m₂ := by
    rw [Nat.shiftLeft_eq]
    refine Nat.eq_of_mul_eq_mul_right (Nat.two_pow_pos b) ?_
    have hshifts : (e₁ - e₂ - target).toNat + b = a + (exponent - target).toNat := by omega
    calc m₁ * 2 ^ (e₁ - e₂ - target).toNat * 2 ^ b
        = m₁ * 2 ^ ((e₁ - e₂ - target).toNat + b) := by ring
      _ = m₁ * 2 ^ a * 2 ^ (exponent - target).toNat := by rw [hshifts]; ring
      _ = mantissa * 2 ^ (exponent - target).toNat * m₂ * 2 ^ b := by rw [hmantissa]; ring
  simp only [divCore, htarget, hshifted, Nat.mul_div_cancel _ h₂, Nat.mul_mod_left]
  have hback : exponent - ((exponent - target).toNat : Int) = target := by omega
  rw [hback]
  rfl

theorem div_exact (first second : UnpackedFloat.Sign) {m₁ m₂ mantissa a b : Nat}
    {e₁ e₂ exponent : Int} (h₁ : 0 < m₁) (h₂ : 0 < m₂) (h : CanonicalParts mantissa exponent)
    (hpos : 0 < mantissa) (hmantissa : m₁ * 2 ^ a = mantissa * m₂ * 2 ^ b)
    (hexponent : e₁ - e₂ - exponent = a - b) :
    UnpackedFloat.div Format.binary64 (.finite first m₁ e₁ h₁) (.finite second m₂ e₂ h₂) =
      .finite (first / second) mantissa exponent hpos := by
  obtain ⟨shift, hcore⟩ := divCore_exact h₁ h₂ h hpos hmantissa hexponent
  rw [UnpackedFloat.div, hcore]
  exact roundWithAccuracy_exact (first / second) h hpos shift

end Lindenmayer
