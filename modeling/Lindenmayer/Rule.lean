import Lindenmayer.Expression
import Lindenmayer.Text.Substitution
import Lindenmayer.Word

/-!
# Rules

A rule replaces a sequence of symbols, its predecessor, by its successor. Predecessors are found by
their names alone. The parameters of a predecessor are formal names; the parameters of a successor
are expressions in which these names stand for the parameters of the symbols that were found.
-/

namespace Lindenmayer

structure Rule where
  predecessor : Word
  successor : Word
  deriving DecidableEq, Repr

/-- A parameter as it is put in the place of a formal name: a number as it is, and anything else in
parentheses, so that it stays together. -/
def boundValue (arg : Text) : Text :=
  let arg := arg.trim
  match Number.ofText? arg with
  | some _ => arg
  | none => '(' :: arg ++ [')']

/-- Binds the formal names of one symbol of a predecessor to the parameters of the symbol found in
its place. Surplus parameters stay unbound. -/
def Symbol.bind (formal actual : Symbol) : Except EvaluationError (List (Text × Text)) :=
  let names := formal.args.getD []
  let args := actual.args.getD []
  if names.length ≤ args.length then
    .ok (names.zipWith (fun name arg => (name.trim, boundValue arg)) args)
  else
    .error (.argumentCountMismatch actual.name names.length args.length)

namespace Rule

/-- A rule applies where the names of its predecessor, which is not empty, begin the word. -/
def matchesAt (rule : Rule) (word : Word) : Bool :=
  !rule.predecessor.isEmpty && word.startsWith rule.predecessor

def bindings (rule : Rule) (found : Word) : Except EvaluationError (List (Text × Text)) :=
  (List.zipWithM Symbol.bind rule.predecessor found).map List.flatten

end Rule

def Scope.instantiateSymbol (scope : Scope σ) (bindings : List (Text × Text)) (symbol : Symbol) :
    Effect σ Symbol :=
  match symbol.args with
  | none => pure symbol
  | some args => do
      let literals ← args.mapM fun arg => scope.evaluate (Text.substitute bindings arg)
      pure ⟨symbol.name, some literals⟩

/-- The symbols that take the place of the symbols `found`. Nothing is bound for a successor without
any parameters. -/
def Scope.instantiate (scope : Scope σ) (rule : Rule) (found : Word) : Effect σ Word :=
  if rule.successor.all fun symbol => symbol.args.isNone then
    pure rule.successor
  else do
    let bindings ← Effect.ofExcept .evaluation (rule.bindings found)
    rule.successor.mapM (scope.instantiateSymbol bindings)

end Lindenmayer
