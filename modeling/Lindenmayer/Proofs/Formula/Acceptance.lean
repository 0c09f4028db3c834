import Lindenmayer.Proofs.Formula.Layout

/-!
# What the reader goes on with

Whether the reader of formulas goes on with a lexeme depends on two things only: whether it has an
operand or wants one, and how many parentheses are open. So one operand is as good as another, and a
sign in front of it makes a difference only where an operand stands before the sign. Whether one
does can be told from the text.
-/

namespace Lindenmayer

/-! ## Postures -/

/-- What decides how the reader can go on. -/
structure Posture where
  /-- Whether an operand has been read last. -/
  operand : Bool
  /-- How many parentheses are open. -/
  depth : Nat
  deriving DecidableEq, Repr

namespace Posture

def start : Posture := ⟨false, 0⟩

def step (posture : Posture) (lexeme : Lexeme) : Option Posture :=
  match posture, lexeme with
  | ⟨false, depth⟩, .number _ => some ⟨true, depth⟩
  | ⟨false, depth⟩, .name _ => some ⟨true, depth⟩
  | ⟨false, depth⟩, .openParen => some ⟨false, depth + 1⟩
  | ⟨false, depth⟩, .operator operator => operator.sign?.map fun _ => ⟨false, depth⟩
  | ⟨false, _⟩, .closeParen => none
  | ⟨true, depth⟩, .operator _ => some ⟨false, depth⟩
  | ⟨true, depth + 1⟩, .closeParen => some ⟨true, depth⟩
  | ⟨true, _⟩, _ => none

def run (posture : Posture) (lexemes : List Lexeme) : Option Posture := lexemes.foldlM step posture

theorem run_cons {posture : Posture} {lexeme : Lexeme} {lexemes : List Lexeme} :
    posture.run (lexeme :: lexemes) = (posture.step lexeme).bind fun next => next.run lexemes :=
  List.foldlM_cons

theorem run_append {posture : Posture} {first second : List Lexeme} :
    posture.run (first ++ second) = (posture.run first).bind fun next => next.run second :=
  List.foldlM_append

end Posture

def Reading.posture : Reading → Posture
  | wanting _ outer => ⟨false, outer.length⟩
  | having _ _ outer => ⟨true, outer.length⟩

/-- The posture is all that decides how the reader goes on. -/
theorem Reading.posture_step (source : Text) (reading : Reading) (lexeme : Lexeme) :
    (reading.step source lexeme).toOption.map posture = reading.posture.step lexeme := by
  cases reading with
  | wanting pending outer =>
      cases lexeme with
      | operator operator =>
          cases hsign : operator.sign? with
          | none => simp [step, Posture.step, posture, hsign, Except.toOption]
          | some sign => simp [step, Posture.step, posture, hsign, Except.toOption]
      | _ => rfl
  | having sum product outer =>
      cases lexeme with
      | operator operator =>
          cases hrank : operator.isMultiplicative with
          | false =>
              rw [step_loose source _ _ _ hrank]
              cases outer <;> rfl
          | true =>
              rw [step_tight source _ _ _ hrank]
              cases outer <;> rfl
      | _ => cases outer <;> rfl

theorem Reading.posture_run (source : Text) (reading : Reading) (lexemes : List Lexeme) :
    (run source reading lexemes).toOption.map posture = reading.posture.run lexemes := by
  induction lexemes generalizing reading with
  | nil => rfl
  | cons lexeme lexemes ih =>
      have hstep := reading.posture_step source lexeme
      rw [run, List.foldlM_cons, Posture.run, List.foldlM_cons, ← hstep]
      cases reading.step source lexeme with
      | error error => rfl
      | ok next => exact ih next

/-- The reader can finish with an operand and no open parenthesis, and only so. -/
theorem Reading.exists_finish_iff (source : Text) (reading : Reading) :
    (∃ formula, reading.finish source = .ok formula) ↔ reading.posture = ⟨true, 0⟩ := by
  cases reading with
  | wanting pending outer => simp [finish, posture]
  | having sum product outer => cases outer <;> simp [finish, posture]

/-- An expression is read if the reader ends up with an operand and no open parenthesis. -/
theorem Formula.isSome_ofLexemes (source : Text) (lexemes : List Lexeme) :
    (∃ formula, Formula.ofLexemes source lexemes = .ok formula) ↔
      Posture.start.run lexemes = some ⟨true, 0⟩ := by
  have hstart : Reading.start.posture = Posture.start := rfl
  rw [← hstart, ← Reading.start.posture_run source lexemes]
  change (∃ formula,
    (Reading.run source .start lexemes >>= Reading.finish source) = .ok formula) ↔ _
  cases Reading.run source .start lexemes with
  | error error => simp [Except.toOption, bind, Except.bind]
  | ok reading =>
      change (∃ formula, reading.finish source = .ok formula) ↔ some reading.posture = _
      rw [reading.exists_finish_iff source, Option.some_inj]

/-! ## Operands for operands -/

def Lexeme.endsOperand : Lexeme → Bool
  | number _ => true
  | name _ => true
  | operator _ => false
  | openParen => false
  | closeParen => true

namespace Posture

theorem step_name (posture : Posture) (n : Number) (name : Text) :
    posture.step (.name name) = posture.step (.number n) := by
  obtain ⟨operand, depth⟩ := posture
  cases operand <;> rfl

/-- A sign in front of an operand changes nothing. -/
theorem run_signed {posture : Posture} (hwants : posture.operand = false) (sign : Sign)
    (lexemes : List Lexeme) :
    posture.run (.operator sign.operator :: lexemes) = posture.run lexemes := by
  obtain ⟨operand, depth⟩ := posture
  cases hwants
  rw [run, List.foldlM_cons]
  cases sign <;> rfl

theorem operand_of_step {posture next : Posture} {lexeme : Lexeme}
    (hstep : posture.step lexeme = some next) : next.operand = lexeme.endsOperand := by
  obtain ⟨operand, depth⟩ := posture
  cases operand with
  | false =>
      cases lexeme with
      | operator operator =>
          obtain ⟨sign, -, rfl⟩ := Option.map_eq_some_iff.mp hstep
          rfl
      | closeParen => cases hstep
      | _ =>
          cases hstep
          rfl
  | true =>
      cases lexeme with
      | operator operator =>
          cases hstep
          rfl
      | closeParen =>
          cases depth with
          | zero => cases hstep
          | succ depth =>
              cases hstep
              rfl
      | _ => cases hstep

theorem operand_of_run {posture next : Posture} {lexemes : List Lexeme}
    (hrun : posture.run lexemes = some next) :
    next.operand = lexemes.foldl (fun _ lexeme => lexeme.endsOperand) posture.operand := by
  induction lexemes generalizing posture with
  | nil =>
      cases hrun
      rfl
  | cons lexeme lexemes ih =>
      rw [run, List.foldlM_cons] at hrun
      obtain ⟨between, hstep, hrest⟩ := Option.bind_eq_some_iff.mp hrun
      rw [ih hrest, operand_of_step hstep]
      rfl

end Posture

/-! ## Operands told from the text -/

def endsOperand (c : Char) : Bool := isIdentifierChar c || c = '.' || c = ')'

/-- Whether an operand ends where the text ends, if `operand` says whether one ends where it
starts. -/
def Text.operandAfter (operand : Bool) (text : Text) : Bool :=
  text.foldl (fun operand c => if isLayoutChar c then operand else endsOperand c) operand

theorem Text.operandAfter_append (operand : Bool) (first second : Text) :
    operandAfter operand (first ++ second) = operandAfter (operandAfter operand first) second :=
  List.foldl_append

theorem Text.operandAfter_last (operand : Bool) (init : Text) {c : Char}
    (hlayout : isLayoutChar c = false) : operandAfter operand (init ++ [c]) = endsOperand c := by
  rw [operandAfter_append, operandAfter, List.foldl_cons, if_neg (by simp [hlayout])]
  rfl

theorem not_isLayoutChar_of_isIdentifierChar {c : Char} (h : isIdentifierChar c = true) :
    isLayoutChar c = false := by
  cases hlayout : isLayoutChar c with
  | false => rfl
  | true =>
      rw [not_isIdentifierChar_of_isBlankChar (isBlankChar_of_isLayoutChar hlayout)] at h
      cases h

/-- A numeral ends with a digit or with its point. -/
theorem Numeral.Written.exists_last {numeral : Numeral} {written : Text}
    (hwritten : numeral.Written written) :
    ∃ init c, written = init ++ [c] ∧ (c.isDigit = true ∨ c = '.') := by
  have hdigits {digits : Text} (hall : digits.all Char.isDigit = true) (hne : digits ≠ []) :
      ∃ init c, digits = init ++ [c] ∧ (c.isDigit = true ∨ c = '.') :=
    ⟨digits.dropLast, digits.getLast hne, (List.dropLast_append_getLast hne).symm,
      .inl (List.all_eq_true.mp hall _ (List.getLast_mem hne))⟩
  obtain ⟨whole, fraction, mark⟩ := numeral
  obtain ⟨exponent, hexponent, rfl⟩ := hwritten.text_eq
  cases hexponent with
  | @some mark negative sign digits _ _ hall hne =>
      obtain ⟨init, c, rfl, hc⟩ := hdigits hall hne
      exact ⟨whole ++ (fractionText fraction ++ mark :: (sign ++ init)), c, by simp, hc⟩
  | none =>
      cases fraction with
      | none =>
          have hne : whole ≠ [] := fun hnil => hwritten.notEmpty ⟨hnil, rfl⟩
          simpa [fractionText] using hdigits hwritten.whole hne
      | some digits =>
          by_cases hne : digits = []
          · exact ⟨whole, '.', by simp [fractionText, hne], .inr rfl⟩
          · obtain ⟨init, c, rfl, hc⟩ := hdigits (hwritten.fraction digits rfl) hne
            exact ⟨whole ++ '.' :: init, c, by simp [fractionText], hc⟩

theorem Lexeme.Spelled.operandAfter {lexeme : Lexeme} {written : Text}
    (hspelled : lexeme.Spelled written) (operand : Bool) :
    Text.operandAfter operand written = lexeme.endsOperand := by
  cases hspelled with
  | number hwritten =>
      obtain ⟨init, c, rfl, hdigit | rfl⟩ := hwritten.exists_last
      · have hidentifier := isIdentifierChar_of_isDigit hdigit
        rw [Text.operandAfter_last operand init (not_isLayoutChar_of_isIdentifierChar hidentifier)]
        simp [Lindenmayer.endsOperand, hidentifier, endsOperand]
      · exact Text.operandAfter_last operand init (by decide)
  | @name c rest hstart hrest =>
      have hlast : isIdentifierChar ((c :: rest).getLast (List.cons_ne_nil c rest)) = true := by
        rcases List.mem_cons.mp (List.getLast_mem (List.cons_ne_nil c rest)) with hlast | hlast
        · rw [hlast]
          exact isIdentifierChar_of_isNameStart hstart
        · exact List.all_eq_true.mp hrest _ hlast
      rw [← List.dropLast_append_getLast (List.cons_ne_nil c rest),
        Text.operandAfter_last operand _ (not_isLayoutChar_of_isIdentifierChar hlast)]
      simp [Lindenmayer.endsOperand, hlast, endsOperand]
  | operator operator => cases operator <;> rfl
  | openParen => rfl
  | closeParen => rfl

/-- The text says of its end what its lexemes say. -/
theorem Laid.operandAfter {text : Text} {lexemes : List Lexeme} (hlaid : Laid text lexemes)
    (operand : Bool) :
    Text.operandAfter operand text =
      lexemes.foldl (fun _ lexeme => lexeme.endsOperand) operand := by
  induction hlaid generalizing operand with
  | nil => rfl
  | @layout c text lexemes hlayout _ ih =>
      rw [← ih, Text.operandAfter, List.foldl_cons, if_pos hlayout]
      rfl
  | @lexeme lexeme written following lexemes hspelled _ _ ih =>
      rw [Text.operandAfter_append, hspelled.operandAfter, List.foldl_append]
      obtain ⟨n, rest, rfl, rfl, hexpand⟩ | hexpand := lexeme.expand_eq_or following
      · rw [hexpand]
        exact ih false
      · rw [hexpand]
        exact ih lexeme.endsOperand

end Lindenmayer
