import Lindenmayer.Formula.Evaluation
import Lindenmayer.Proofs.Outcome

/-!
# Parts of a formula

The parts of a formula in the order in which they are computed: operands from left to right, and
then the operation on them. A formula has a value only if all its parts have one.
-/

namespace Lindenmayer.Formula

/-- The formulas that a formula consists of, itself the last. -/
def parts : Formula → List Formula
  | number n => [number n]
  | name t => [name t]
  | signed sign operand => parts operand ++ [signed sign operand]
  | binary left operator right => parts left ++ parts right ++ [binary left operator right]

theorem forall_mem_parts_signed {P : Formula → Prop} {sign : Sign} {operand : Formula} :
    (∀ part ∈ (signed sign operand).parts, P part) ↔
      (∀ part ∈ operand.parts, P part) ∧ P (signed sign operand) := by
  rw [parts, List.forall_mem_append, List.forall_mem_singleton]

theorem forall_mem_parts_binary {P : Formula → Prop} {left right : Formula} {operator : Operator} :
    (∀ part ∈ (binary left operator right).parts, P part) ↔
      (∀ part ∈ left.parts, P part) ∧ (∀ part ∈ right.parts, P part) ∧
        P (binary left operator right) := by
  rw [parts, List.forall_mem_append, List.forall_mem_append, List.forall_mem_singleton, and_assoc]

theorem mem_parts_self (formula : Formula) : formula ∈ formula.parts := by
  cases formula <;> simp [parts]

theorem eval_signed_eq_ok_iff {source : Text} {sign : Sign} {operand : Formula} {n : Number} :
    (signed sign operand).eval source = .ok n ↔
      ∃ a, operand.eval source = .ok a ∧ sign.apply source a = .ok n :=
  Except.bind_eq_ok_iff

theorem eval_binary_eq_ok_iff {source : Text} {left right : Formula} {operator : Operator}
    {n : Number} :
    (binary left operator right).eval source = .ok n ↔
      ∃ a b, left.eval source = .ok a ∧ right.eval source = .ok b ∧
        operator.apply source a b = .ok n := by
  rw [eval, Except.bind_eq_ok_iff]
  simp only [Except.bind_eq_ok_iff, exists_and_left]

/-- No part of a formula with a value is without one. -/
theorem exists_of_mem_parts {source : Text} {formula : Formula} {n : Number}
    (h : formula.eval source = .ok n) : ∀ part ∈ formula.parts, ∃ a, part.eval source = .ok a := by
  induction formula generalizing n with
  | number m => exact List.forall_mem_singleton.mpr ⟨n, h⟩
  | name t => cases h
  | signed sign operand ih =>
      obtain ⟨a, ha, -⟩ := eval_signed_eq_ok_iff.mp h
      exact forall_mem_parts_signed.mpr ⟨ih ha, n, h⟩
  | binary left operator right ihleft ihright =>
      obtain ⟨a, b, ha, hb, -⟩ := eval_binary_eq_ok_iff.mp h
      exact forall_mem_parts_binary.mpr ⟨ihleft ha, ihright hb, n, h⟩

end Lindenmayer.Formula
