import Lindenmayer.Proofs.Real.Rounding

/-!
# Finite reals

An operation on reals with a finite result had finite operands, with one exception: a finite real
divided by an infinite one is zero. So an infinity can be lost in a divisor and nowhere else.
-/

namespace Lindenmayer

open Float.Model (Format UnpackedFloat)

/-! ## Unpacked reals -/

/-- What is infinite or no number stays so when it is packed. -/
theorem isFinite_of_pack {x : UnpackedFloat} (h : (Float.Model.pack x).isFinite = true) :
    x.isFinite = true := by
  rw [Float.Model.isFinite] at h
  cases x with
  | notANumber =>
      have hcanonical : Canonical .notANumber := trivial
      rwa [unpack_pack hcanonical] at h
  | infinity sign =>
      have hcanonical : Canonical (.infinity sign) := trivial
      rwa [unpack_pack hcanonical] at h
  | zero sign => rfl
  | finite sign mantissa exponent hpos => rfl

theorem isFinite_of_unpacked_add {x y : UnpackedFloat}
    (h : (UnpackedFloat.add Format.binary64 x y).isFinite = true) :
    x.isFinite = true ∧ y.isFinite = true := by
  cases x with
  | notANumber => cases h
  | infinity sign =>
      cases y with
      | infinity other => cases sign <;> cases other <;> cases h
      | _ => cases h
  | zero sign => cases y <;> first | exact ⟨rfl, rfl⟩ | cases h
  | finite sign mantissa exponent hpos => cases y <;> first | exact ⟨rfl, rfl⟩ | cases h

theorem isFinite_of_unpacked_sub {x y : UnpackedFloat}
    (h : (UnpackedFloat.sub Format.binary64 x y).isFinite = true) :
    x.isFinite = true ∧ y.isFinite = true := by
  cases x with
  | notANumber => cases h
  | infinity sign =>
      cases y with
      | infinity other => cases sign <;> cases other <;> cases h
      | _ => cases h
  | zero sign => cases y <;> first | exact ⟨rfl, rfl⟩ | cases h
  | finite sign mantissa exponent hpos => cases y <;> first | exact ⟨rfl, rfl⟩ | cases h

theorem isFinite_of_unpacked_mul {x y : UnpackedFloat}
    (h : (UnpackedFloat.mul Format.binary64 x y).isFinite = true) :
    x.isFinite = true ∧ y.isFinite = true := by
  cases x <;> cases y <;> first | exact ⟨rfl, rfl⟩ | cases h

theorem isFinite_of_unpacked_div {x y : UnpackedFloat}
    (h : (UnpackedFloat.div Format.binary64 x y).isFinite = true) : x.isFinite = true := by
  cases x <;> cases y <;> first | rfl | cases h

theorem isFinite_unpacked_neg (x : UnpackedFloat) : x.neg.isFinite = x.isFinite := by
  cases x <;> rfl

/-! ## Reals -/

variable {a b : Float}

theorem isFinite_of_add (h : (a + b).isFinite = true) : a.isFinite = true ∧ b.isFinite = true :=
  isFinite_of_unpacked_add (isFinite_of_pack h)

theorem isFinite_of_sub (h : (a - b).isFinite = true) : a.isFinite = true ∧ b.isFinite = true :=
  isFinite_of_unpacked_sub (isFinite_of_pack h)

theorem isFinite_of_mul (h : (a * b).isFinite = true) : a.isFinite = true ∧ b.isFinite = true :=
  isFinite_of_unpacked_mul (isFinite_of_pack h)

theorem isFinite_of_div (h : (a / b).isFinite = true) : a.isFinite = true :=
  isFinite_of_unpacked_div (isFinite_of_pack h)

@[simp]
theorem isFinite_neg (a : Float) : (-a).isFinite = a.isFinite := by
  change (-a).toModel.unpack.isFinite = a.toModel.unpack.isFinite
  rw [unpack_neg, isFinite_unpacked_neg]

end Lindenmayer
