import Lindenmayer.Text

/-!
# Errors

Everything that can go wrong between a symbol string and the host that acts on it, as causes. A
parse error is found in a text before anything is computed, an evaluation error while a parameter is
computed, a grammar error while a word is grown or replayed. `message` is the wording.
-/

namespace Lindenmayer

/-- What is wrong with the form of a text. `source` is the text that was read. -/
inductive ParseError where
  /-- A parenthesis is never closed, or closes nothing. -/
  | unbalancedParentheses (source : Text)
  /-- A parameter of a list is blank. -/
  | emptyParameter (source : Text)
  /-- A token stands where none of its kind can stand. -/
  | unexpectedToken (token source : Text)
  /-- The text ends where an operand has to follow. -/
  | unexpectedEndOfInput (source : Text)
  /-- A complete expression is followed by something else. -/
  | unexpectedTrailingTokens (token source : Text)
  deriving DecidableEq, Repr

/-- What is wrong with the meaning of a parameter. `source` is the expression computed. -/
inductive EvaluationError where
  | divisionByZero (source : Text)
  /-- An integer result does not fit 64 bits, or an integer operand is no exact real. -/
  | overflow (source : Text)
  /-- A real result is infinite or no number. -/
  | notFinite (source : Text)
  /-- A name or a text stands where a number is needed. -/
  | nonNumericLiteral (literal source : Text)
  /-- A function of the alphabet that the host does not provide. -/
  | unknownFunction (name source : Text)
  | argumentCountMismatch (name : Text) (expected found : Nat)
  | invalidArgument (details : Text)
  deriving DecidableEq, Repr

inductive GrammarError where
  /-- A symbol that is neither a constant nor a variable. -/
  | notAVariable (name : Text)
  /-- A symbol carries another number of arguments than its action takes. -/
  | arityMismatch (name : Text) (expected found : Nat)
  /-- A constant that the host does not understand. -/
  | unknownConstant (constant : Char)
  /-- A constant takes a saved state back where none is saved. -/
  | stackUnderflow (constant : Char)
  /-- A generation, counted from one, is longer than the limit. -/
  | expansionLimit (limit generation length : Nat)
  deriving DecidableEq, Repr

inductive Error where
  | parse (error : ParseError)
  | evaluation (error : EvaluationError)
  | grammar (error : GrammarError)
  deriving DecidableEq, Repr

/-! ## Wording -/

namespace ParseError

def source : ParseError → Text
  | unbalancedParentheses source => source
  | emptyParameter source => source
  | unexpectedToken _ source => source
  | unexpectedEndOfInput source => source
  | unexpectedTrailingTokens _ source => source

def complaint : ParseError → String
  | unbalancedParentheses _ => "Unbalanced parentheses."
  | emptyParameter _ => "Empty parameter in parameter list."
  | unexpectedToken token _ => s!"Unexpected token: {token.toString}."
  | unexpectedEndOfInput _ => "Unexpected end of input."
  | unexpectedTrailingTokens token _ =>
      s!"Extra tokens after expression, starting at {token.toString}."

def message (error : ParseError) : String :=
  s!"Parse error in '{error.source.toString}': {error.complaint}"

end ParseError

namespace EvaluationError

/-- An evaluation error names the expression at fault where there is one. -/
def message : EvaluationError → String
  | divisionByZero source => within source "Division by zero."
  | overflow source => within source "Integer overflow while trying to compute result."
  | notFinite source => within source "Result is not finite."
  | nonNumericLiteral literal source =>
      within source s!"'{literal.toString}' is not a number."
  | unknownFunction name source => within source s!"Unknown function '{name.toString}'."
  | argumentCountMismatch name expected found =>
      let mismatch := s!"expects {expected} argument(s), but {found} were supplied."
      s!"Evaluation error: '{name.toString}' {mismatch}"
  | invalidArgument details => s!"Evaluation error: Invalid argument: {details.toString}."
where
  within (source : Text) (complaint : String) : String :=
    s!"Evaluation error in '{source.toString}': {complaint}"

end EvaluationError

namespace GrammarError

def complaint : GrammarError → String
  | notAVariable name => s!"{name.toString} is not a valid variable."
  | arityMismatch name expected found =>
      s!"'{name.toString}' takes {expected} argument(s), but the token carries {found}."
  | unknownConstant constant => s!"Unknown constant: {constant}."
  | stackUnderflow constant => s!"'{constant}' popped an empty state stack."
  | expansionLimit limit generation length =>
      s!"Generation {generation} produced {length} tokens, exceeding the limit of {limit}."

def message (error : GrammarError) : String :=
  s!"Grammar error: {error.complaint}"

end GrammarError

def Error.message : Error → String
  | .parse error => error.message
  | .evaluation error => error.message
  | .grammar error => error.message

end Lindenmayer
