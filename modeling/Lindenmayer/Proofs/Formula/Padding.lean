import Lindenmayer.Proofs.Formula.Finiteness
import Lindenmayer.Proofs.Formula.Splicing

/-!
# Blanks around a formula

Of the blanks, only the layout characters can stand in the text of a formula. Around the text they
carry no meaning, and every other blank makes it unreadable. The value of a formula does not depend
on its text, which is only quoted in errors.
-/

namespace Lindenmayer

/-! ## Blanks in a laid out text -/

/-- All blanks of a laid out text are layout. -/
theorem Laid.isLayoutChar_of_mem {text : Text} {lexemes : List Lexeme} (hlaid : Laid text lexemes)
    {c : Char} (hmem : c ∈ text) (hblank : isBlankChar c = true) : isLayoutChar c = true := by
  induction hlaid with
  | nil => cases hmem
  | layout hlayout _ ih =>
      rcases List.mem_cons.mp hmem with rfl | hmem
      · exact hlayout
      · exact ih hmem
  | lexeme hspelled _ _ ih =>
      rcases List.mem_append.mp hmem with hmem | hmem
      · rw [hspelled.not_isBlankChar hmem] at hblank
        cases hblank
      · exact ih hmem

theorem Laid.of_blanks_append {blanks text : Text} {lexemes : List Lexeme}
    (hlaid : Laid (blanks ++ text) lexemes) (hblanks : blanks.all isBlankChar = true) :
    Laid text lexemes := by
  induction blanks with
  | nil => exact hlaid
  | cons c blanks ih =>
      rw [List.all_cons, Bool.and_eq_true] at hblanks
      exact ih (hlaid.of_cons hblanks.1) hblanks.2

section

variable {before after text : Text} (hbefore : before.all isBlankChar = true)
  (hafter : after.all isBlankChar = true)
include hbefore hafter

theorem laid_pad_iff {lexemes : List Lexeme} :
    Laid (before ++ (text ++ after)) lexemes ↔
      (before ++ after).all isLayoutChar = true ∧ Laid text lexemes := by
  constructor
  · intro hlaid
    refine ⟨List.all_eq_true.mpr fun c hmem => ?_, ?_⟩
    · rcases List.mem_append.mp hmem with hmem | hmem
      · exact hlaid.isLayoutChar_of_mem (by simp [hmem]) (List.all_eq_true.mp hbefore c hmem)
      · exact hlaid.isLayoutChar_of_mem (by simp [hmem]) (List.all_eq_true.mp hafter c hmem)
    · exact (hlaid.of_blanks_append hbefore).of_append hafter
  · rintro ⟨hlayout, hlaid⟩
    rw [List.all_append, Bool.and_eq_true] at hlayout
    have hlast : Laid after [] := by
      have hnil := Laid.nil.layout_append hlayout.2
      rwa [List.append_nil] at hnil
    have hboth := hlaid.append hlast (stops_extendsOperand_of_blanks hafter)
    rw [List.append_nil] at hboth
    exact hboth.layout_append hlayout.1

theorem Formula.ofText_pad {formula : Formula} :
    ofText (before ++ (text ++ after)) = .ok formula ↔
      (before ++ after).all isLayoutChar = true ∧ ofText text = .ok formula := by
  constructor
  · intro hread
    obtain ⟨derivation, hlaid, -, rfl⟩ := exists_laid hread
    obtain ⟨hlayout, hlaid⟩ := (laid_pad_iff hbefore hafter).mp hlaid
    exact ⟨hlayout, ofText_of_laid hlaid⟩
  · rintro ⟨hlayout, hread⟩
    obtain ⟨derivation, hlaid, -, rfl⟩ := exists_laid hread
    exact ofText_of_laid ((laid_pad_iff hbefore hafter).mpr ⟨hlayout, hlaid⟩)

end

/-! ## The text of a formula and its value -/

theorem Except.toOption_eq_some_iff {ε α : Type} {outcome : Except ε α} {a : α} :
    outcome.toOption = some a ↔ outcome = .ok a := by
  cases outcome <;> simp [Except.toOption]

theorem Except.toOption_bind_congr {ε α β : Type} {first other : Except ε α}
    {next otherNext : α → Except ε β} (hfirst : first.toOption = other.toOption)
    (hnext : ∀ a, (next a).toOption = (otherNext a).toOption) :
    (first >>= next).toOption = (other >>= otherNext).toOption := by
  cases first with
  | error error =>
      cases other with
      | error error => rfl
      | ok b => cases hfirst
  | ok a =>
      cases other with
      | error error => cases hfirst
      | ok b =>
          cases hfirst
          exact hnext a

theorem Except.toOption_ite_congr {ε α : Type} {c : Prop} [Decidable c]
    {first other next otherNext : Except ε α} (hfirst : first.toOption = other.toOption)
    (hnext : next.toOption = otherNext.toOption) :
    (if c then first else next).toOption = (if c then other else otherNext).toOption := by
  by_cases h : c
  · rw [if_pos h, if_pos h, hfirst]
  · rw [if_neg h, if_neg h, hnext]

section

variable (source other : Text)

theorem Number.toOption_ofInt (n : Int) :
    (ofInt source n).toOption = (ofInt other n).toOption := by
  unfold ofInt
  cases int64? n <;> rfl

theorem Number.toOption_ofReal (r : Float) :
    (ofReal source r).toOption = (ofReal other r).toOption :=
  Except.toOption_ite_congr rfl rfl

theorem Number.toOption_promote (n : Number) :
    (n.promote source).toOption = (n.promote other).toOption := by
  cases n with
  | real r => rfl
  | integer n =>
      simp only [promote]
      cases exactReal? n <;> rfl

theorem Operator.toOption_divideIntegers (a b : Int64) :
    (divideIntegers source a b).toOption = (divideIntegers other a b).toOption := by
  refine Except.toOption_ite_congr rfl ?_
  refine Except.toOption_ite_congr (Number.toOption_ofInt source other _) ?_
  exact Except.toOption_bind_congr (Number.toOption_promote source other _) fun _ =>
    Except.toOption_bind_congr (Number.toOption_promote source other _) fun _ =>
      Number.toOption_ofReal source other _

theorem Operator.toOption_applyReals (operator : Operator) (a b : Float) :
    (operator.applyReals source a b).toOption = (operator.applyReals other a b).toOption := by
  cases operator with
  | add => exact Number.toOption_ofReal source other _
  | sub => exact Number.toOption_ofReal source other _
  | mul => exact Number.toOption_ofReal source other _
  | div => exact Except.toOption_ite_congr rfl (Number.toOption_ofReal source other _)

theorem Operator.toOption_apply (operator : Operator) (a b : Number) :
    (operator.apply source a b).toOption = (operator.apply other a b).toOption := by
  unfold apply
  split
  · cases operator with
    | add => exact Number.toOption_ofInt source other _
    | sub => exact Number.toOption_ofInt source other _
    | mul => exact Number.toOption_ofInt source other _
    | div => exact toOption_divideIntegers source other _ _
  · exact Except.toOption_bind_congr (Number.toOption_promote source other _) fun _ =>
      Except.toOption_bind_congr (Number.toOption_promote source other _) fun _ =>
        toOption_applyReals source other operator _ _

theorem Sign.toOption_apply (sign : Sign) (n : Number) :
    (sign.apply source n).toOption = (sign.apply other n).toOption := by
  cases sign with
  | plus => rfl
  | minus =>
      cases n with
      | integer n => exact Number.toOption_ofInt source other _
      | real r => rfl

theorem Formula.toOption_eval (formula : Formula) :
    (formula.eval source).toOption = (formula.eval other).toOption := by
  induction formula with
  | number n => rfl
  | name t => rfl
  | signed sign operand ih =>
      exact Except.toOption_bind_congr ih fun n => sign.toOption_apply source other n
  | binary left operator right ihleft ihright =>
      exact Except.toOption_bind_congr ihleft fun a => Except.toOption_bind_congr ihright fun b =>
        operator.toOption_apply source other a b

end

theorem toOption_compute_congr {source other : Text}
    (hread : ∀ formula, Formula.ofText source = .ok formula ↔ Formula.ofText other = .ok formula) :
    (compute source).toOption = (compute other).toOption := by
  have hvalue (formula : Formula) (n : Number) :
      formula.eval source = .ok n ↔ formula.eval other = .ok n := by
    rw [← Except.toOption_eq_some_iff, ← Except.toOption_eq_some_iff,
      formula.toOption_eval source other]
  refine Option.ext fun n => ?_
  rw [Except.toOption_eq_some_iff, Except.toOption_eq_some_iff, compute_eq_ok_iff,
    compute_eq_ok_iff]
  simp only [hread, hvalue]

/-- With blanks around it a formula has its value if they are layout, and none if they are not. -/
theorem toOption_compute_pad {before after : Text} (hbefore : before.all isBlankChar = true)
    (hafter : after.all isBlankChar = true) (text : Text) :
    (compute (before ++ (text ++ after))).toOption =
      if (before ++ after).all isLayoutChar then (compute text).toOption else none := by
  have hread formula : Formula.ofText (before ++ (text ++ after)) = .ok formula ↔ _ :=
    Formula.ofText_pad hbefore hafter
  by_cases hlayout : (before ++ after).all isLayoutChar = true
  · rw [if_pos hlayout]
    exact toOption_compute_congr fun formula => (hread formula).trans (and_iff_right hlayout)
  · rw [if_neg hlayout]
    cases hcompute : compute (before ++ (text ++ after)) with
    | error error => rfl
    | ok n =>
        obtain ⟨formula, hformula, -⟩ := compute_eq_ok_iff.mp hcompute
        exact absurd ((hread formula).mp hformula).1 hlayout

end Lindenmayer
