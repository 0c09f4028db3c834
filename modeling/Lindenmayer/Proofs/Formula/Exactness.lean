import Lindenmayer.Proofs.Formula.Parts
import Lindenmayer.Proofs.Number
import Mathlib.Data.Rat.Cast.Lemmas

/-!
# Exact integers

A formula is compared with its exact value, a rational number. It comes to an integer exactly where
it has no operands but integers and all its parts have exact values that are 64-bit integers. A
division that is not exact gives a real, and no real becomes an integer again.
-/

namespace Lindenmayer

/-! ## Exact values -/

/-- The exact value of a number. What is infinite or no number has none. -/
def Number.exactValue? : Number → Option ℚ
  | integer n => some n.toInt
  | real r =>
      match r.toModel.unpack with
      | .notANumber => none
      | .infinity _ => none
      | .zero _ => some 0
      | .finite sign mantissa exponent _ => some (sign.apply mantissa * 2 ^ exponent)

def Sign.exactly : Sign → ℚ → ℚ
  | minus, a => -a
  | plus, a => a

def Operator.exactly? : Operator → ℚ → ℚ → Option ℚ
  | add, a, b => some (a + b)
  | sub, a, b => some (a - b)
  | mul, a, b => some (a * b)
  | div, a, b => if b = 0 then none else some (a / b)

namespace Formula

def exactValue? : Formula → Option ℚ
  | number n => n.exactValue?
  | name _ => none
  | signed sign operand => operand.exactValue?.map sign.exactly
  | binary left operator right => do
      operator.exactly? (← left.exactValue?) (← right.exactValue?)

/-- The formula has neither names nor reals for its operands. -/
def hasOnlyIntegers : Formula → Bool
  | number (.integer _) => true
  | number (.real _) => false
  | name _ => false
  | signed _ operand => operand.hasOnlyIntegers
  | binary left _ right => left.hasOnlyIntegers && right.hasOnlyIntegers

def FitsInt64 (formula : Formula) : Prop := ∃ n : Int64, formula.exactValue? = some (n.toInt : ℚ)

/-- What the formula is refused for, if its operands are not refused. -/
inductive Offends (source : Text) : Formula → EvaluationError → Prop where
  | zeroDivisor {left right : Formula} :
      right.exactValue? = some 0 → Offends source (binary left .div right) (.divisionByZero source)
  | tooGreat {formula : Formula} {k : ℤ} :
      formula.exactValue? = some (k : ℚ) → int64? k = none →
      Offends source formula (.overflow source)

/-- The formula is refused at the first of its parts that is no 64-bit integer. -/
def RefusedAt (source : Text) (formula : Formula) (error : EvaluationError) : Prop :=
  ∃ before part after, formula.parts = before ++ part :: after ∧
    (∀ earlier ∈ before, earlier.FitsInt64) ∧ part.Offends source error

/-- No exact value of a part of the formula is a fraction. -/
def HasNoFractions (formula : Formula) : Prop :=
  ∀ part ∈ formula.parts, part.exactValue?.all Rat.isInt = true

instance (formula : Formula) : Decidable formula.HasNoFractions :=
  inferInstanceAs (Decidable (∀ part ∈ formula.parts, part.exactValue?.all Rat.isInt = true))

end Formula

/-! ## Operations on integers -/

inductive ExactOutcome (source : Text) : Option ℚ → Except EvaluationError Number → Prop where
  | integer (n : Int64) : ExactOutcome source (some (n.toInt : ℚ)) (.ok (.integer n))
  | tooGreat {k : ℤ} :
      int64? k = none → ExactOutcome source (some (k : ℚ)) (.error (.overflow source))
  | zeroDivisor : ExactOutcome source none (.error (.divisionByZero source))
  | fraction {q : ℚ} {outcome : Except EvaluationError Number} :
      (∀ k : ℤ, q ≠ k) → (∀ n, outcome ≠ .ok (.integer n)) → ExactOutcome source (some q) outcome

variable {source : Text}

/-- Integers are the outcomes of the exact results that are 64-bit integers. -/
theorem ExactOutcome.eq_integer_iff {exact : Option ℚ} {outcome : Except EvaluationError Number}
    (h : ExactOutcome source exact outcome) {n : Int64} :
    outcome = .ok (.integer n) ↔ exact = some (n.toInt : ℚ) := by
  cases h with
  | integer m => simp [Int64.toInt_inj]
  | @tooGreat k hk =>
      simp only [reduceCtorEq, Option.some.injEq, Int.cast_inj, false_iff]
      rintro rfl
      rw [int64?_eq_some_iff.mpr rfl] at hk
      cases hk
  | zeroDivisor => simp
  | fraction hfraction houtcome =>
      simp only [houtcome n, Option.some.injEq, false_iff]
      exact hfraction n.toInt

theorem exactOutcome_ofInt (k : ℤ) :
    ExactOutcome source (some (k : ℚ)) (Number.ofInt source k) := by
  unfold Number.ofInt
  cases hk : int64? k with
  | none => exact .tooGreat hk
  | some n =>
      rw [← int64?_eq_some_iff.mp hk]
      exact .integer n

theorem Number.ofReal_ne_integer (r : Float) (n : Int64) :
    Number.ofReal source r ≠ .ok (.integer n) := by
  unfold Number.ofReal
  split <;> simp

theorem Sign.exactOutcome (sign : Sign) (a : Int64) :
    ExactOutcome source (some (sign.exactly a.toInt)) (sign.apply source (.integer a)) := by
  cases sign with
  | plus => exact .integer a
  | minus =>
      rw [Sign.exactly, ← Int.cast_neg]
      exact exactOutcome_ofInt (-a.toInt)

theorem Operator.exactOutcome_divideIntegers (a b : Int64) :
    ExactOutcome source (div.exactly? a.toInt b.toInt) (divideIntegers source a b) := by
  rw [divideIntegers, exactly?]
  by_cases hzero : b.toInt = 0
  · rw [if_pos hzero, if_pos (by rw [hzero, Int.cast_zero])]
    exact .zeroDivisor
  have hdivisor : (b.toInt : ℚ) ≠ 0 := Int.cast_ne_zero.mpr hzero
  rw [if_neg hzero, if_neg hdivisor]
  by_cases hrest : a.toInt.tmod b.toInt = 0
  · have hquotient : (a.toInt : ℚ) / b.toInt = (a.toInt.tdiv b.toInt : ℤ) := by
      rw [div_eq_iff hdivisor, ← Int.cast_mul, Int.tdiv_mul_cancel (Int.dvd_of_tmod_eq_zero hrest)]
    rw [if_pos hrest, hquotient]
    exact exactOutcome_ofInt _
  · rw [if_neg hrest]
    refine .fraction (fun k hk => hrest ?_) (fun n hinteger => ?_)
    · rw [div_eq_iff hdivisor, ← Int.cast_mul, Int.cast_inj] at hk
      exact Int.tmod_eq_zero_of_dvd ⟨k, by rw [hk, Int.mul_comm]⟩
    · obtain ⟨left, -, h⟩ := Except.bind_eq_ok_iff.mp hinteger
      obtain ⟨right, -, h⟩ := Except.bind_eq_ok_iff.mp h
      exact Number.ofReal_ne_integer _ n h

theorem Operator.exactOutcome (operator : Operator) (a b : Int64) :
    ExactOutcome source (operator.exactly? a.toInt b.toInt)
      (operator.apply source (.integer a) (.integer b)) := by
  cases operator with
  | add =>
      rw [exactly?, ← Int.cast_add]
      exact exactOutcome_ofInt _
  | sub =>
      rw [exactly?, ← Int.cast_sub]
      exact exactOutcome_ofInt _
  | mul =>
      rw [exactly?, ← Int.cast_mul]
      exact exactOutcome_ofInt _
  | div => exact exactOutcome_divideIntegers a b

/-- Only a division by zero has no exact result. -/
theorem Operator.eq_div_of_exactly? {operator : Operator} {a b : ℚ}
    (h : operator.exactly? a b = none) : operator = div ∧ b = 0 := by
  cases operator with
  | add => cases h
  | sub => cases h
  | mul => cases h
  | div =>
      rw [exactly?] at h
      by_cases hzero : b = 0
      · exact ⟨rfl, hzero⟩
      · rw [if_neg hzero] at h
        cases h

/-! ## Operations that give integers -/

/-- A sign does not make an integer of a real. -/
theorem Sign.exists_integer_of_apply {sign : Sign} {a : Number} {n : Int64}
    (h : sign.apply source a = .ok (.integer n)) : ∃ m, a = .integer m := by
  cases a with
  | integer m => exact ⟨m, rfl⟩
  | real r => cases sign <;> cases h

theorem Operator.applyReals_ne_integer (operator : Operator) (a b : Float) (n : Int64) :
    operator.applyReals source a b ≠ .ok (.integer n) := by
  cases operator with
  | add => exact Number.ofReal_ne_integer _ n
  | sub => exact Number.ofReal_ne_integer _ n
  | mul => exact Number.ofReal_ne_integer _ n
  | div =>
      rw [applyReals]
      split
      · simp
      · exact Number.ofReal_ne_integer _ n

/-- No operation makes an integer of a real. -/
theorem Operator.exists_integers_of_apply {operator : Operator} {a b : Number} {n : Int64}
    (h : operator.apply source a b = .ok (.integer n)) :
    ∃ k m, a = .integer k ∧ b = .integer m := by
  have hreals {first second : Except EvaluationError Float} :
      (first >>= fun left => second >>= fun right =>
        operator.applyReals source left right) ≠ .ok (.integer n) := by
    intro hinteger
    obtain ⟨left, -, hinteger⟩ := Except.bind_eq_ok_iff.mp hinteger
    obtain ⟨right, -, hinteger⟩ := Except.bind_eq_ok_iff.mp hinteger
    exact operator.applyReals_ne_integer left right n hinteger
  cases a with
  | integer k =>
      cases b with
      | integer m => exact ⟨k, m, rfl, rfl⟩
      | real r => exact absurd h hreals
  | real r => exact absurd h hreals

/-! ## Formulas -/

namespace Formula

theorem exactValue?_signed {sign : Sign} {operand : Formula} {a : ℚ}
    (h : operand.exactValue? = some a) :
    (signed sign operand).exactValue? = some (sign.exactly a) := by
  rw [exactValue?, h, Option.map_some]

theorem exactValue?_binary {left right : Formula} {operator : Operator} {a b : ℚ}
    (hleft : left.exactValue? = some a) (hright : right.exactValue? = some b) :
    (binary left operator right).exactValue? = operator.exactly? a b := by
  rw [exactValue?, hleft, hright]
  rfl

/-- Where a formula comes to an integer, its parts do, and the integers are their exact values. -/
theorem exact_of_eval {formula : Formula} {n : Int64}
    (h : formula.eval source = .ok (.integer n)) :
    formula.hasOnlyIntegers = true ∧ (∀ part ∈ formula.parts, part.FitsInt64) ∧
      formula.exactValue? = some (n.toInt : ℚ) := by
  induction formula generalizing n with
  | number m =>
      cases h
      exact ⟨rfl, List.forall_mem_singleton.mpr ⟨n, rfl⟩, rfl⟩
  | name t => cases h
  | signed sign operand ih =>
      obtain ⟨a, hoperand, happly⟩ := eval_signed_eq_ok_iff.mp h
      obtain ⟨m, rfl⟩ := Sign.exists_integer_of_apply happly
      obtain ⟨honly, hparts, hexact⟩ := ih hoperand
      have hvalue : (signed sign operand).exactValue? = some (n.toInt : ℚ) := by
        rw [exactValue?_signed hexact]
        exact (sign.exactOutcome m).eq_integer_iff.mp happly
      exact ⟨honly, forall_mem_parts_signed.mpr ⟨hparts, n, hvalue⟩, hvalue⟩
  | binary left operator right ihleft ihright =>
      obtain ⟨a, b, hleft, hright, happly⟩ := eval_binary_eq_ok_iff.mp h
      obtain ⟨k, m, rfl, rfl⟩ := Operator.exists_integers_of_apply happly
      obtain ⟨honlyLeft, hpartsLeft, hexactLeft⟩ := ihleft hleft
      obtain ⟨honlyRight, hpartsRight, hexactRight⟩ := ihright hright
      have hvalue : (binary left operator right).exactValue? = some (n.toInt : ℚ) := by
        rw [exactValue?_binary hexactLeft hexactRight]
        exact (operator.exactOutcome k m).eq_integer_iff.mp happly
      exact ⟨Bool.and_eq_true_iff.mpr ⟨honlyLeft, honlyRight⟩,
        forall_mem_parts_binary.mpr ⟨hpartsLeft, hpartsRight, n, hvalue⟩, hvalue⟩

theorem eval_of_exact {formula : Formula} (honly : formula.hasOnlyIntegers = true)
    (hparts : ∀ part ∈ formula.parts, part.FitsInt64) {n : Int64}
    (hexact : formula.exactValue? = some (n.toInt : ℚ)) :
    formula.eval source = .ok (.integer n) := by
  induction formula generalizing n with
  | number m =>
      cases m with
      | integer m =>
          rw [exactValue?, Number.exactValue?, Option.some.injEq, Int.cast_inj,
            Int64.toInt_inj] at hexact
          rw [hexact, eval]
      | real r => cases honly
  | name t => cases honly
  | signed sign operand ih =>
      rw [forall_mem_parts_signed] at hparts
      obtain ⟨m, hm⟩ := hparts.1 operand operand.mem_parts_self
      rw [exactValue?_signed hm] at hexact
      exact eval_signed_eq_ok_iff.mpr
        ⟨.integer m, ih honly hparts.1 hm, (sign.exactOutcome m).eq_integer_iff.mpr hexact⟩
  | binary left operator right ihleft ihright =>
      rw [forall_mem_parts_binary] at hparts
      rw [hasOnlyIntegers, Bool.and_eq_true] at honly
      obtain ⟨k, hk⟩ := hparts.1 left left.mem_parts_self
      obtain ⟨m, hm⟩ := hparts.2.1 right right.mem_parts_self
      rw [exactValue?_binary hk hm] at hexact
      exact eval_binary_eq_ok_iff.mpr
        ⟨.integer k, .integer m, ihleft honly.1 hparts.1 hk, ihright honly.2 hparts.2.1 hm,
          (operator.exactOutcome k m).eq_integer_iff.mpr hexact⟩

theorem RefusedAt.within {inner outer : Formula} {error : EvaluationError}
    (h : inner.RefusedAt source error) (first last : List Formula)
    (hparts : outer.parts = first ++ inner.parts ++ last)
    (hfirst : ∀ earlier ∈ first, earlier.FitsInt64) : outer.RefusedAt source error := by
  obtain ⟨before, part, after, hinner, hbefore, hoffends⟩ := h
  refine ⟨first ++ before, part, after ++ last, ?_, ?_, hoffends⟩
  · simp [hparts, hinner]
  · exact List.forall_mem_append.mpr ⟨hfirst, hbefore⟩

/-- A formula without fractions, the operands of which are integers, is an integer or refused
itself. -/
theorem integer_or_refused {formula : Formula} {exact : Option ℚ}
    {outcome : Except EvaluationError Number} {first : List Formula}
    (hparts : formula.parts = first ++ [formula]) (hfirst : ∀ earlier ∈ first, earlier.FitsInt64)
    (hexact : formula.exactValue? = exact) (houtcome : ExactOutcome source exact outcome)
    (hwhole : formula.exactValue?.all Rat.isInt = true)
    (hdivisor : exact = none → formula.Offends source (.divisionByZero source)) :
    (∃ n, outcome = .ok (.integer n)) ∨
      ∃ error, outcome = .error error ∧ formula.RefusedAt source error := by
  subst hexact
  cases hvalue : formula.exactValue? with
  | none =>
      have hoffends := hdivisor hvalue
      rw [hvalue] at houtcome
      cases houtcome
      exact .inr ⟨_, rfl, first, formula, [], hparts, hfirst, hoffends⟩
  | some q =>
      rw [hvalue] at houtcome hwhole
      generalize hq : some q = exact at houtcome
      cases houtcome with
      | integer n => exact .inl ⟨n, rfl⟩
      | tooGreat hk =>
          exact .inr ⟨_, rfl, first, formula, [], hparts, hfirst, .tooGreat (hvalue.trans hq) hk⟩
      | zeroDivisor => cases hq
      | fraction hfraction _ =>
          cases hq
          exact absurd (Rat.eq_num_of_isInt hwhole) (hfraction q.num)

/-- Without fractions, integers come to an integer or are refused at the first part that offends. -/
theorem eval_integer_or_refused {formula : Formula} (honly : formula.hasOnlyIntegers = true)
    (hwhole : formula.HasNoFractions) :
    (∃ n, formula.eval source = .ok (.integer n)) ∨
      ∃ error, formula.eval source = .error error ∧ formula.RefusedAt source error := by
  induction formula with
  | number m =>
      cases m with
      | integer m => exact .inl ⟨m, rfl⟩
      | real r => cases honly
  | name t => cases honly
  | signed sign operand ih =>
      rw [HasNoFractions, forall_mem_parts_signed] at hwhole
      rcases ih honly hwhole.1 with ⟨m, hoperand⟩ | ⟨error, hoperand, hrefused⟩
      · obtain ⟨-, hfits, hexact⟩ := exact_of_eval hoperand
        rw [eval, hoperand]
        exact integer_or_refused rfl hfits (exactValue?_signed hexact) (sign.exactOutcome m)
          hwhole.2 (by simp [Sign.exactly])
      · rw [eval, hoperand]
        exact .inr ⟨error, rfl, hrefused.within [] _ rfl (List.forall_mem_nil _)⟩
  | binary left operator right ihleft ihright =>
      rw [HasNoFractions, forall_mem_parts_binary] at hwhole
      rw [hasOnlyIntegers, Bool.and_eq_true] at honly
      rcases ihleft honly.1 hwhole.1 with ⟨k, hleft⟩ | ⟨error, hleft, hrefused⟩
      · obtain ⟨-, hfitsLeft, hexactLeft⟩ := exact_of_eval hleft
        rcases ihright honly.2 hwhole.2.1 with ⟨m, hright⟩ | ⟨error, hright, hrefused⟩
        · obtain ⟨-, hfitsRight, hexactRight⟩ := exact_of_eval hright
          rw [eval, hleft, hright]
          refine integer_or_refused rfl (List.forall_mem_append.mpr ⟨hfitsLeft, hfitsRight⟩)
            (exactValue?_binary hexactLeft hexactRight) (operator.exactOutcome k m) hwhole.2.2
            fun hnone => ?_
          obtain ⟨rfl, hzero⟩ := Operator.eq_div_of_exactly? hnone
          exact .zeroDivisor (hexactRight.trans (congrArg some hzero))
        · rw [eval, hleft, hright]
          exact .inr ⟨error, rfl, hrefused.within _ _ rfl hfitsLeft⟩
      · rw [eval, hleft]
        exact .inr
          ⟨error, rfl, hrefused.within [] _ (List.append_assoc ..) (List.forall_mem_nil _)⟩

/-- A formula comes to an integer exactly where its operands are integers and all its parts have
exact values that are 64-bit integers. Where its operands are integers and no exact value is a
fraction, it fails only at the first part that is no 64-bit integer, by a division by zero or by an
overflow. -/
theorem eval_exactly (source : Text) (formula : Formula) :
    (∀ n : Int64, formula.eval source = .ok (.integer n) ↔
      formula.hasOnlyIntegers = true ∧ (∀ part ∈ formula.parts, part.FitsInt64) ∧
        formula.exactValue? = some (n.toInt : ℚ)) ∧
    (formula.hasOnlyIntegers = true → formula.HasNoFractions →
      ∀ error, formula.eval source = .error error → formula.RefusedAt source error) := by
  refine ⟨fun n => ⟨exact_of_eval, fun ⟨honly, hfits, hexact⟩ => eval_of_exact honly hfits hexact⟩,
    fun honly hwhole error herror => ?_⟩
  rcases eval_integer_or_refused honly hwhole with ⟨n, hinteger⟩ | ⟨other, hother, hrefused⟩
  · rw [hinteger] at herror
    cases herror
  · rw [hother] at herror
    cases herror
    exact hrefused

/-- `-(-9223372036854775807 - 1) + 7 / (3 - 3)`: the negation comes before the division. -/
theorem eval_exactly_least :
    let least := binary (signed .minus (number (.integer 9223372036854775807))) .sub
      (number (.integer 1))
    let undefined := binary (number (.integer 7)) .div
      (binary (number (.integer 3)) .sub (number (.integer 3)))
    let formula := binary (signed .minus least) .add undefined
    formula.eval [] = .error (.overflow []) ∧ formula.RefusedAt [] (.overflow []) := by
  intro least undefined formula
  have heval : formula.eval [] = .error (.overflow []) := by with_unfolding_all rfl
  exact ⟨heval, (eval_exactly [] formula).2 rfl (by with_unfolding_all decide) _ heval⟩

end Formula

end Lindenmayer
