import Lindenmayer.Proofs.Expression.Atoms
import Lindenmayer.Proofs.Formula.Parts
import Lindenmayer.Proofs.Real.Finiteness

/-!
# Finite values

No operation passes on a result that is not finite, so a value that is not finite is that of a
numeral too large for a real, with or without signs. The operation that such a numeral is an operand
of has a finite result only if it divides by it. A finite value of a formula therefore shows that
all its parts have finite values but for numerals that it divides by.
-/

namespace Lindenmayer

namespace Number

variable {source : Text}

theorem isFinite_of_ofInt {n : Int} {m : Number} (h : ofInt source n = .ok m) :
    m.isFinite = true := by
  rw [ofInt] at h
  cases hinteger : int64? n with
  | some integer =>
      rw [hinteger] at h
      cases h
      rfl
  | none =>
      rw [hinteger] at h
      cases h

theorem ofReal_eq_ok_iff {r : Float} {m : Number} :
    ofReal source r = .ok m ↔ r.isFinite = true ∧ m = .real r := by
  rw [ofReal, Except.ite_ok_eq_ok_iff, eq_comm (a := Number.real r)]

theorem isFinite_of_ofReal {r : Float} {m : Number} (h : ofReal source r = .ok m) :
    m.isFinite = true := by
  obtain ⟨hfinite, rfl⟩ := ofReal_eq_ok_iff.mp h
  exact hfinite

theorem isFinite_of_promote {n : Number} {r : Float} (h : n.promote source = .ok r)
    (hfinite : r.isFinite = true) : n.isFinite = true := by
  cases n with
  | integer n => rfl
  | real s =>
      cases h
      exact hfinite

end Number

/-! ## Operations -/

namespace Operator

variable {source : Text} {operator : Operator}

theorem isFinite_of_divideIntegers {a b : Int64} {n : Number}
    (h : divideIntegers source a b = .ok n) : n.isFinite = true := by
  revert h
  fun_cases divideIntegers source a b with
  | case1 => exact nofun
  | case2 => exact Number.isFinite_of_ofInt
  | case3 =>
      intro h
      obtain ⟨left, -, h⟩ := Except.bind_eq_ok_iff.mp h
      obtain ⟨right, -, h⟩ := Except.bind_eq_ok_iff.mp h
      exact Number.isFinite_of_ofReal h

theorem isFinite_of_applyIntegers {a b : Int64} {n : Number}
    (h : operator.applyIntegers source a b = .ok n) : n.isFinite = true := by
  cases operator with
  | add => exact Number.isFinite_of_ofInt h
  | sub => exact Number.isFinite_of_ofInt h
  | mul => exact Number.isFinite_of_ofInt h
  | div => exact isFinite_of_divideIntegers h

/-- The result is finite, and so are the operands, but for a divisor. -/
theorem isFinite_of_applyReals {a b : Float} {n : Number}
    (h : operator.applyReals source a b = .ok n) :
    n.isFinite = true ∧ a.isFinite = true ∧ (operator ≠ .div → b.isFinite = true) := by
  cases operator with
  | add =>
      obtain ⟨hfinite, rfl⟩ := Number.ofReal_eq_ok_iff.mp h
      obtain ⟨ha, hb⟩ := isFinite_of_add hfinite
      exact ⟨hfinite, ha, fun _ => hb⟩
  | sub =>
      obtain ⟨hfinite, rfl⟩ := Number.ofReal_eq_ok_iff.mp h
      obtain ⟨ha, hb⟩ := isFinite_of_sub hfinite
      exact ⟨hfinite, ha, fun _ => hb⟩
  | mul =>
      obtain ⟨hfinite, rfl⟩ := Number.ofReal_eq_ok_iff.mp h
      obtain ⟨ha, hb⟩ := isFinite_of_mul hfinite
      exact ⟨hfinite, ha, fun _ => hb⟩
  | div =>
      change (if b == 0.0 then _ else Number.ofReal source (a / b)) = Except.ok n at h
      by_cases hzero : (b == 0.0) = true
      · rw [if_pos hzero] at h
        cases h
      · rw [if_neg hzero] at h
        obtain ⟨hfinite, rfl⟩ := Number.ofReal_eq_ok_iff.mp h
        exact ⟨hfinite, isFinite_of_div hfinite, fun hdiv => absurd rfl hdiv⟩

/-- Two numbers are computed with as integers or else as reals. -/
theorem apply_cases {a b n : Number} (h : operator.apply source a b = .ok n) :
    (∃ i j, a = .integer i ∧ b = .integer j ∧ operator.applyIntegers source i j = .ok n) ∨
      ∃ left right, a.promote source = .ok left ∧ b.promote source = .ok right ∧
        operator.applyReals source left right = .ok n := by
  have hreals (h : (do
      let left ← a.promote source
      let right ← b.promote source
      operator.applyReals source left right) = .ok n) :
      ∃ left right, a.promote source = .ok left ∧ b.promote source = .ok right ∧
        operator.applyReals source left right = .ok n := by
    obtain ⟨left, hleft, h⟩ := Except.bind_eq_ok_iff.mp h
    obtain ⟨right, hright, h⟩ := Except.bind_eq_ok_iff.mp h
    exact ⟨left, right, hleft, hright, h⟩
  cases a with
  | real r => exact .inr (hreals h)
  | integer i =>
      cases b with
      | real r => exact .inr (hreals h)
      | integer j => exact .inl ⟨i, j, rfl, rfl, h⟩

theorem isFinite_of_apply {a b n : Number} (h : operator.apply source a b = .ok n) :
    n.isFinite = true ∧ a.isFinite = true ∧ (operator ≠ .div → b.isFinite = true) := by
  obtain ⟨i, j, rfl, rfl, h⟩ | ⟨left, right, hleft, hright, h⟩ := apply_cases h
  · exact ⟨isFinite_of_applyIntegers h, rfl, fun _ => rfl⟩
  · obtain ⟨hn, ha, hb⟩ := isFinite_of_applyReals h
    exact ⟨hn, Number.isFinite_of_promote hleft ha,
      fun hdiv => Number.isFinite_of_promote hright (hb hdiv)⟩

end Operator

theorem Sign.isFinite_of_apply {source : Text} {sign : Sign} {a n : Number}
    (h : sign.apply source a = .ok n) : n.isFinite = a.isFinite := by
  cases sign with
  | plus =>
      cases h
      rfl
  | minus =>
      cases a with
      | integer i => exact Number.isFinite_of_ofInt h
      | real r =>
          cases h
          exact isFinite_neg r

/-! ## Formulas -/

namespace Formula

def isSignedNumber : Formula → Bool
  | number _ => true
  | signed _ operand => isSignedNumber operand
  | _ => false

/-- The parts that an operation or the whole formula keeps finite: all but the numbers that it
divides by and their signs. -/
def guardedParts : Formula → List Formula
  | number n => [number n]
  | name t => [name t]
  | signed sign operand => guardedParts operand ++ [signed sign operand]
  | binary left operator right =>
      guardedParts left ++
        (if operator = .div ∧ right.isSignedNumber then [] else guardedParts right) ++
        [binary left operator right]

def HasFiniteValue (source : Text) (part : Formula) : Prop :=
  ∃ n, part.eval source = .ok n ∧ n.isFinite = true

variable {source : Text} {formula : Formula} {n : Number}

/-- Nothing but a number under signs has a value that is not finite. -/
theorem isFinite_of_eval (hsigned : formula.isSignedNumber = false)
    (heval : formula.eval source = .ok n) : n.isFinite = true := by
  induction formula generalizing n with
  | number m => cases hsigned
  | name t => cases heval
  | signed sign operand ih =>
      obtain ⟨a, ha, hn⟩ := eval_signed_eq_ok_iff.mp heval
      rw [Sign.isFinite_of_apply hn]
      exact ih hsigned ha
  | binary left operator right _ _ =>
      obtain ⟨a, b, -, -, hn⟩ := eval_binary_eq_ok_iff.mp heval
      exact (Operator.isFinite_of_apply hn).1

/-- A finite value is that of a formula whose guarded parts all have finite values. -/
theorem hasFiniteValue_of_mem_guardedParts (heval : formula.eval source = .ok n)
    (hfinite : n.isFinite = true) :
    ∀ part ∈ formula.guardedParts, part.HasFiniteValue source := by
  induction formula generalizing n with
  | number m => exact List.forall_mem_singleton.mpr ⟨n, heval, hfinite⟩
  | name t => cases heval
  | signed sign operand ih =>
      obtain ⟨a, ha, hn⟩ := eval_signed_eq_ok_iff.mp heval
      have hguarded := ih ha (Sign.isFinite_of_apply hn ▸ hfinite)
      rw [guardedParts, List.forall_mem_append, List.forall_mem_singleton]
      exact ⟨hguarded, n, heval, hfinite⟩
  | binary left operator right ihleft ihright =>
      obtain ⟨a, b, ha, hb, hn⟩ := eval_binary_eq_ok_iff.mp heval
      obtain ⟨-, hafinite, hbfinite⟩ := Operator.isFinite_of_apply hn
      rw [guardedParts, List.forall_mem_append, List.forall_mem_append, List.forall_mem_singleton]
      refine ⟨⟨ihleft ha hafinite, ?_⟩, n, heval, hfinite⟩
      by_cases hguarded : operator = .div ∧ right.isSignedNumber = true
      · rw [if_pos hguarded]
        exact List.forall_mem_nil _
      · rw [if_neg hguarded]
        refine ihright hb ?_
        by_cases hdiv : operator = .div
        · have hsigned : right.isSignedNumber = false := by
            rw [← Bool.not_eq_true]
            exact fun hsigned => hguarded ⟨hdiv, hsigned⟩
          exact isFinite_of_eval hsigned hb
        · exact hbfinite hdiv

end Formula

/-! ## Computed expressions -/

/-- What is computed is the finite value of the formula that is read. -/
theorem compute_eq_ok_iff {source : Text} {n : Number} :
    compute source = .ok n ↔
      ∃ formula, Formula.ofText source = .ok formula ∧ formula.eval source = .ok n ∧
        n.isFinite = true := by
  simp only [compute, Except.bind_eq_ok_iff, Except.mapError_eq_ok_iff]
  refine exists_congr fun formula => and_congr_right fun _ => ?_
  constructor
  · rintro ⟨m, heval, hn⟩
    cases m with
    | integer i =>
        cases hn
        exact ⟨heval, rfl⟩
    | real r =>
        obtain ⟨hfinite, rfl⟩ := Number.ofReal_eq_ok_iff.mp (Except.mapError_eq_ok_iff.mp hn)
        exact ⟨heval, hfinite⟩
  · rintro ⟨heval, hfinite⟩
    refine ⟨n, heval, ?_⟩
    cases n with
    | integer i => rfl
    | real r => exact Except.mapError_eq_ok_iff.mpr (Number.ofReal_eq_ok_iff.mpr ⟨hfinite, rfl⟩)

/-- All parts of a computed expression have values, and finite ones but for the numerals that it
divides by. -/
theorem hasFiniteValue_of_compute {source : Text} {n : Number} (h : compute source = .ok n) :
    n.isFinite = true ∧ ∃ formula, Formula.ofText source = .ok formula ∧
      (∀ part ∈ formula.parts, ∃ a, part.eval source = .ok a) ∧
        ∀ part ∈ formula.guardedParts, part.HasFiniteValue source := by
  obtain ⟨formula, hread, heval, hfinite⟩ := compute_eq_ok_iff.mp h
  exact ⟨hfinite, formula, hread, Formula.exists_of_mem_parts heval,
    Formula.hasFiniteValue_of_mem_guardedParts heval hfinite⟩

/-- The real divided by is infinite, and it is the only part that is not finite. -/
theorem hasFiniteValue_of_compute_quotient :
    let quotient := Formula.binary (.number (.integer 6)) .div
      (.signed .minus (.number (.real infinity)))
    let formula := Formula.binary (.number (.real 1.5)) .add quotient
    compute "1.5 + 6/-1e400".toList = .ok (.real 1.5) ∧
      Formula.ofText "1.5 + 6/-1e400".toList = .ok formula ∧
        formula.guardedParts =
          [.number (.real 1.5), .number (.integer 6), quotient, formula] ∧
          ∀ part ∈ formula.guardedParts, part.HasFiniteValue "1.5 + 6/-1e400".toList := by
  intro quotient formula
  have hcompute : compute "1.5 + 6/-1e400".toList = .ok (.real 1.5) := by with_unfolding_all rfl
  have hread : Formula.ofText "1.5 + 6/-1e400".toList = .ok formula := by with_unfolding_all rfl
  obtain ⟨-, read, hread', -, hguarded⟩ := hasFiniteValue_of_compute hcompute
  obtain rfl : formula = read := Except.ok.inj (hread.symm.trans hread')
  exact ⟨hcompute, hread, rfl, hguarded⟩

/-- An infinite divisor is lost in the quotient. -/
theorem not_hasFiniteValue_of_compute :
    ¬∀ (source : Text) (n : Number), compute source = .ok n →
      ∃ formula, Formula.ofText source = .ok formula ∧
        ∀ part ∈ formula.parts, part.HasFiniteValue source := by
  intro h
  have hcompute : compute "1/1e400".toList = .ok (.real 0.0) := by with_unfolding_all rfl
  have hread : Formula.ofText "1/1e400".toList =
      .ok (.binary (.number (.integer 1)) .div (.number (.real infinity))) := by
    with_unfolding_all rfl
  obtain ⟨formula, hread', hparts⟩ := h _ _ hcompute
  obtain rfl := Except.ok.inj (hread.symm.trans hread')
  obtain ⟨n, heval, hfinite⟩ := hparts (.number (.real infinity)) (by simp [Formula.parts])
  cases heval
  exact absurd hfinite (by with_unfolding_all decide)

end Lindenmayer
