import Lindenmayer.Text

/-!
# Alphabets

The names and characters that a grammar is written in. Variables and functions are tried in the
order in which they are declared, so of two names one of which begins with the other, the one
declared first is found.
-/

namespace Lindenmayer

structure Alphabet where
  /-- The names of actions, which may carry parameters. -/
  variableNames : List Text
  /-- The names that may be called inside a parameter. -/
  functionNames : List Text
  /-- Single characters that never carry parameters. -/
  constants : List Char
  deriving DecidableEq, Repr

namespace Alphabet

def isVariable (alphabet : Alphabet) (name : Text) : Bool := alphabet.variableNames.contains name

def isFunction (alphabet : Alphabet) (name : Text) : Bool := alphabet.functionNames.contains name

def isConstant (alphabet : Alphabet) (c : Char) : Bool := alphabet.constants.contains c

def constantOf? (alphabet : Alphabet) (name : Text) : Option Char :=
  match name with
  | [c] => if alphabet.isConstant c then some c else none
  | _ => none

theorem constantOf?_eq_some_iff {alphabet : Alphabet} {name : Text} {c : Char} :
    alphabet.constantOf? name = some c ↔ name = [c] ∧ alphabet.isConstant c = true := by
  match name with
  | [] => simp [constantOf?]
  | _ :: _ :: _ => simp [constantOf?]
  | [d] =>
      rw [constantOf?, Option.ite_none_right_eq_some, Option.some.injEq, List.singleton_inj,
        and_comm]
      exact and_congr_right fun h => by rw [h]

end Alphabet

end Lindenmayer
