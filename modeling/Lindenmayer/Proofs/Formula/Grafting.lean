import Lindenmayer.Proofs.Formula.Derivation
import Mathlib.Logic.Basic

/-!
# Grafting

A formula takes other formulas in the place of its names. On derivations the names are leaves, and
what is grafted in their place is an operand: signs in front of a number, a name or a group. A name
is a primary and an operand need not be one, so what was a primary is an operand after grafting.
-/

namespace Lindenmayer

def Formula.substitute (value : Text → Formula) : Formula → Formula
  | number n => number n
  | name t => value t
  | signed sign operand => signed sign (operand.substitute value)
  | binary left operator right =>
      binary (left.substitute value) operator (right.substitute value)

def Lexeme.replace (operands : Text → List Lexeme) : Lexeme → List Lexeme
  | number n => [number n]
  | name t => operands t
  | operator o => [operator o]
  | openParen => [openParen]
  | closeParen => [closeParen]

def Rank.grafted : Rank → Rank
  | phrase kind => .phrase kind
  | rest level => .rest level
  | primary => unary

namespace Derivation

def graft (operands : Text → Derivation .unary) :
    {rank : Rank} → Derivation rank → Derivation rank.grafted
  | _, .chain first rest => .chain (first.graft operands) (rest.graft operands)
  | _, .stop => .stop
  | _, .link operator fits operand rest =>
      .link operator fits (operand.graft operands) (rest.graft operands)
  | _, .signed sign operand => .signed sign (operand.graft operands)
  | _, .primary inner => inner.graft operands
  | _, .number n => .primary (.number n)
  | _, .name t => operands t
  | _, .group inner => .primary (.group (inner.graft operands))

variable (operands : Text → Derivation .unary)

/-- Grafting replaces the names among the lexemes and nothing else. -/
theorem lexemes_graft {rank : Rank} (derivation : Derivation rank) :
    (derivation.graft operands).lexemes =
      derivation.lexemes.flatMap (Lexeme.replace fun t => (operands t).lexemes) := by
  induction derivation with
  | chain first rest ihfirst ihrest =>
      simp only [graft, lexemes, List.flatMap_append]
      exact congrArg₂ (· ++ ·) ihfirst ihrest
  | stop => rfl
  | link operator _ operand rest ihoperand ihrest =>
      have htail := congrArg₂ (· ++ ·) ihoperand ihrest
      simp only [graft, lexemes, List.flatMap_cons, List.flatMap_append]
      exact congrArg (Lexeme.operator operator :: ·) htail
  | signed sign operand ih =>
      exact congrArg (Lexeme.operator sign.operator :: ·) ih
  | primary inner ih => exact ih
  | number n => rfl
  | name t => exact (List.append_nil _).symm
  | group inner ih =>
      simp only [graft, lexemes, List.flatMap_cons, List.flatMap_append]
      exact congrArg (Lexeme.openParen :: ·) (congrArg (· ++ [Lexeme.closeParen]) ih)

end Derivation

/-- How the meaning before grafting and the meaning after it are related. -/
def Rank.Substitutes (value : Text → Formula) :
    (rank : Rank) → rank.Meaning → rank.grafted.Meaning → Prop
  | phrase _, before, after => after = before.substitute value
  | rest _, before, after =>
      ∀ left : Formula, after (left.substitute value) = (before left).substitute value
  | primary, before, after => after = before.substitute value

/-- Grafting on derivations is substitution on formulas. -/
theorem Derivation.meaning_graft (operands : Text → Derivation .unary) {rank : Rank}
    (derivation : Derivation rank) :
    rank.Substitutes (fun t => (operands t).meaning) derivation.meaning
      (derivation.graft operands).meaning := by
  induction derivation with
  | chain first rest ihfirst ihrest =>
      have hrest := ihrest first.meaning
      rw [← ihfirst] at hrest
      exact hrest
  | stop => exact fun left => rfl
  | link operator _ operand rest ihoperand ihrest =>
      intro left
      have hrest := ihrest (.binary left operator operand.meaning)
      rw [Formula.substitute, ← ihoperand] at hrest
      exact hrest
  | signed sign operand ih => exact congrArg (Formula.signed sign) ih
  | primary inner ih => exact ih
  | number n => rfl
  | name t => rfl
  | group inner ih => exact ih

end Lindenmayer
