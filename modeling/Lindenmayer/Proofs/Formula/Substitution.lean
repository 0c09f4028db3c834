import Lindenmayer.Proofs.Formula.Grafting
import Lindenmayer.Proofs.Formula.Layout
import Lindenmayer.Proofs.Number
import Lindenmayer.Proofs.Text.Substitution
import Lindenmayer.Rule

/-!
# Substitution in the text of an expression

Parameters are bound by replacing names in the text of an expression. The text that comes out is
read as the formula with formulas in the place of the names: what is put in does not run into its
neighbours, and as an operand it stays together.
-/

namespace Lindenmayer

/-! ## Replacing the names of a laid out text -/

theorem Lexeme.replace_expand (operands : Text → List Lexeme) {lexeme : Lexeme}
    (hlexeme : ∀ t, lexeme ≠ .name t) (following : Text) :
    (lexeme.expand following).flatMap (replace operands) = lexeme.expand following := by
  rcases lexeme.expand_eq_or following with ⟨n, rest, rfl, -, hexpand⟩ | hexpand
  · rw [hexpand]
    rfl
  · rw [hexpand]
    cases lexeme with
    | number n => rfl
    | name t => exact absurd rfl (hlexeme t)
    | operator operator => rfl
    | openParen => rfl
    | closeParen => rfl

theorem Lexeme.expand_substitute (lexeme : Lexeme) (bindings : List (Text × Text))
    {following : Text} (hfollowing : Text.Stops isIdentifierChar following) :
    lexeme.expand (Text.substitute bindings following) = lexeme.expand following := by
  cases following with
  | nil => rw [Text.substitute_nil]
  | cons c rest =>
      rw [Text.substitute_cons_of_not (Text.stops_cons.mp hfollowing)]
      by_cases hopen : c = '('
      · subst hopen
        cases lexeme <;> rfl
      · rw [expand_cons_of_ne hopen, expand_cons_of_ne hopen]

/-- Substitution lays out the lexemes of the values in the place of the names. -/
theorem Laid.substitute {bindings : List (Text × Text)} {operands : Text → List Lexeme}
    (hformal : ∀ binding ∈ bindings, isFormalName binding.1 = true)
    (hoperands : ∀ t, isName t = true → Laid (Text.lookupRun bindings t) (operands t))
    {text : Text} {lexemes : List Lexeme} (hlaid : Laid text lexemes)
    (hseparated : Separated lexemes) :
    Laid (Text.substitute bindings text) (lexemes.flatMap (Lexeme.replace operands)) := by
  induction hlaid with
  | nil =>
      rw [Text.substitute_nil]
      exact .nil
  | @layout c text lexemes hlayout _ ih =>
      have hc := not_isIdentifierChar_of_isBlankChar (isBlankChar_of_isLayoutChar hlayout)
      rw [Text.substitute_cons_of_not hc]
      exact .layout hlayout (ih hseparated)
  | @lexeme lexeme written following lexemes hspelled hdetached hlaid ih =>
      have ih := ih hseparated.right_of_append
      rw [List.flatMap_append]
      cases hspelled with
      | @number numeral _ hwritten =>
          have hstops : Text.Stops isIdentifierChar following :=
            Text.Stops.mono hdetached fun _ => extendsNumeral_of_isIdentifierChar
          have hnumber t : Lexeme.number numeral.toNumber ≠ .name t := Lexeme.noConfusion
          rw [Text.inert_written hformal hwritten following hstops,
            Lexeme.replace_expand operands hnumber,
            ← Lexeme.expand_substitute _ bindings hstops]
          exact .lexeme (.number hwritten) (Text.stops_substitute hstops hdetached) ih
      | @name c rest hstart hrest =>
          have hrun : (c :: rest).all isIdentifierChar = true := by
            rw [List.all_cons, isIdentifierChar_of_isNameStart hstart, hrest]
            rfl
          have hname : isName (c :: rest) = true := by
            rw [isName, hstart, hrest]
            rfl
          rw [Lexeme.expand_name] at hseparated ⊢
          -- No operand stands behind the name, so nothing runs into what takes its place.
          have hstops : Text.Stops extendsOperand following :=
            hlaid.stops fun next hnext => hseparated.rel_head? hnext rfl
          have hvalue := (hoperands _ hname).append ih (Text.stops_substitute hdetached hstops)
          rw [Text.substitute_run_append (List.cons_ne_nil c rest) hrun hdetached]
          simpa [Lexeme.replace] using hvalue
      | operator operator =>
          have hc : isIdentifierChar operator.toChar = false := by
            cases operator <;> decide
          rw [List.cons_append, List.nil_append, Text.substitute_cons_of_not hc]
          exact .lexeme (.operator operator) trivial ih
      | openParen =>
          rw [List.cons_append, List.nil_append, Text.substitute_cons_of_not (by decide)]
          exact .lexeme .openParen trivial ih
      | closeParen =>
          rw [List.cons_append, List.nil_append, Text.substitute_cons_of_not (by decide)]
          exact .lexeme .closeParen trivial ih

/-! ## Bound values -/

theorem Number.exists_operand {text : Text} {number : Number}
    (hread : ofText? text = some number) :
    ∃ operand : Derivation .unary, Laid text.trim operand.lexemes := by
  obtain ⟨_, _, written, numeral, hsign, hwritten, htext⟩ := exists_written hread
  have hlaid : Laid written [.number numeral.toNumber] := .of_lexeme (.number hwritten)
  rw [htext]
  cases hsign with
  | none => exact ⟨.primary (.number numeral.toNumber), hlaid⟩
  | plus =>
      exact ⟨.signed .plus (.primary (.number numeral.toNumber)),
        .lexeme (.operator .add) trivial hlaid⟩
  | minus =>
      exact ⟨.signed .minus (.primary (.number numeral.toNumber)),
        .lexeme (.operator .sub) trivial hlaid⟩

theorem Laid.of_isName {name : Text} (hname : isName name = true) : Laid name [.name name] := by
  cases name with
  | nil => cases hname
  | cons c rest =>
      rw [isName, Bool.and_eq_true] at hname
      exact .of_lexeme (.name hname.1 hname.2)

/-- An expression is the text of a derivation. -/
theorem Formula.exists_laid {source : Text} {formula : Formula}
    (hread : Formula.ofText source = .ok formula) :
    ∃ derivation : Derivation .additive, Laid source derivation.lexemes ∧
      Separated derivation.lexemes ∧ derivation.formula = formula := by
  obtain ⟨lexemes, hlex, hformula⟩ := Except.bind_eq_ok_iff.mp hread
  have hseparated := separated_of_ofLexemes hformula
  obtain ⟨derivation, rfl, hmeaning⟩ := Formula.exists_derivation hformula
  exact ⟨derivation, laid_of_lexFrom hlex hseparated, hseparated, hmeaning⟩

/-- A bound value is an operand, and stands for what the parameter stands for. -/
theorem exists_operand_boundValue {actual : Text} {formula : Formula}
    (hread : Formula.ofText actual = .ok formula) :
    ∃ operand : Derivation .unary, Laid (boundValue actual) operand.lexemes ∧
      operand.meaning = formula := by
  obtain ⟨derivation, hlaid, -, rfl⟩ := Formula.exists_laid hread
  have htrim := hlaid.trim
  rw [boundValue]
  cases hnumber : Number.ofText? actual.trim with
  | some number =>
      -- The text of a number has one reading, so the derivation of the parameter is the operand.
      obtain ⟨operand, hoperand⟩ := Number.exists_operand hnumber
      rw [Text.trim_trim] at hoperand
      refine ⟨operand, hoperand, ?_⟩
      have hwhole : .ofOperand operand = derivation := by
        apply Derivation.lexemes_injective
        rw [← hoperand.eq_lexemes htrim]
        simp [Derivation.lexemes]
      rw [← hwhole]
      rfl
  | none =>
      refine ⟨.primary (.group derivation), ?_, rfl⟩
      have hclose : Laid [')'] [.closeParen] := .of_lexeme .closeParen
      exact .lexeme .openParen trivial (htrim.append hclose (by simp; decide))

/-! ## Binding formal names -/

/-- A formal name, the expression bound to it, and the formula of that expression. -/
structure Binding where
  formal : Text
  actual : Text
  formula : Formula
  isFormal : isFormalName formal = true
  reads : Formula.ofText actual = .ok formula

namespace Binding

def text (binding : Binding) : Text × Text := (binding.formal, boundValue binding.actual)

/-- The formula in the place of a name: that of its first binding, if there is one. -/
def value (bindings : List Binding) (name : Text) : Formula :=
  match bindings.find? fun binding => name == binding.formal with
  | some binding => binding.formula
  | none => .name name

theorem lookup_text (bindings : List Binding) (name : Text) :
    (bindings.map text).lookup name =
      (bindings.find? fun binding => name == binding.formal).map
        fun binding => boundValue binding.actual := by
  induction bindings with
  | nil => rfl
  | cons binding bindings ih =>
      rw [List.map_cons, text, List.lookup_cons, List.find?_cons]
      cases hname : name == binding.formal with
      | true => rfl
      | false => exact ih

theorem exists_operand (bindings : List Binding) (name : Text) :
    ∃ operand : Derivation .unary, operand.meaning = value bindings name ∧
      (isName name = true → Laid (Text.lookupRun (bindings.map text) name) operand.lexemes) := by
  rw [Text.lookupRun, lookup_text, value]
  cases hfind : bindings.find? fun binding => name == binding.formal with
  | some binding =>
      obtain ⟨operand, hlaid, hmeaning⟩ := exists_operand_boundValue binding.reads
      exact ⟨operand, hmeaning, fun _ => hlaid⟩
  | none => exact ⟨.primary (.name name), rfl, Laid.of_isName⟩

end Binding

/-- Binding names in the text of an expression is substitution in its formula. -/
theorem Formula.ofText_substitute (bindings : List Binding) {source : Text} {formula : Formula}
    (hread : Formula.ofText source = .ok formula) :
    Formula.ofText (Text.substitute (bindings.map Binding.text) source) =
      .ok (formula.substitute (Binding.value bindings)) := by
  have hformal : ∀ binding ∈ bindings.map Binding.text, isFormalName binding.1 = true := by
    intro binding hmem
    obtain ⟨binding, -, rfl⟩ := List.mem_map.mp hmem
    exact binding.isFormal
  choose operands hmeaning hoperands using Binding.exists_operand bindings
  obtain ⟨derivation, hlaid, hseparated, rfl⟩ := Formula.exists_laid hread
  have hlex := (hlaid.substitute hformal hoperands hseparated).lexFrom
    (Text.substitute (bindings.map Binding.text) source)
  rw [← Derivation.lexemes_graft] at hlex
  have hvalue : (fun t => (operands t).meaning) = Binding.value bindings := funext hmeaning
  have hgraft := derivation.meaning_graft operands
  rw [hvalue] at hgraft
  refine Except.bind_eq_ok_iff.mpr ⟨_, hlex, ?_⟩
  rw [← hgraft]
  exact Derivation.ofLexemes_lexemes _ (derivation.graft operands)

/-- A signed number stays an operand as it is, a sum in parentheses. -/
theorem Formula.ofText_substitute_signed_and_sum :
    Formula.ofText "2(x)-y*x".toList =
        .ok (.binary (.binary (.number (.integer 2)) .mul (.name ['x'])) .sub
          (.binary (.name ['y']) .mul (.name ['x']))) ∧
      Formula.ofText "2(-3)-(1+1)*-3".toList =
        .ok (.binary
          (.binary (.number (.integer 2)) .mul (.signed .minus (.number (.integer 3)))) .sub
          (.binary (.binary (.number (.integer 1)) .add (.number (.integer 1))) .mul
            (.signed .minus (.number (.integer 3))))) := by
  have hread : Formula.ofText "2(x)-y*x".toList =
      .ok (.binary (.binary (.number (.integer 2)) .mul (.name ['x'])) .sub
        (.binary (.name ['y']) .mul (.name ['x']))) := by
    with_unfolding_all rfl
  have hvalue := Formula.ofText_substitute
    [⟨['x'], " -3".toList, .signed .minus (.number (.integer 3)), by decide,
        by with_unfolding_all rfl⟩,
      ⟨['y'], "1+1".toList, .binary (.number (.integer 1)) .add (.number (.integer 1)), by decide,
        by with_unfolding_all rfl⟩]
    hread
  refine ⟨hread, ?_⟩
  rw [← show Text.substitute [(['x'], boundValue " -3".toList), (['y'], boundValue "1+1".toList)]
    "2(x)-y*x".toList = "2(-3)-(1+1)*-3".toList by with_unfolding_all rfl]
  exact hvalue

end Lindenmayer
