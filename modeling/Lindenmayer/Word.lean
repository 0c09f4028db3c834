import Lindenmayer.Text

/-!
# Words

A symbol is a name with an optional list of parameters, and a word is a list of symbols. Parameters
are texts: expressions while a grammar is written, and literal values once they have been evaluated.
-/

namespace Lindenmayer

/-- A name with its parameters. Constants, and variables written without parameters, have none; a
list of parameters that a text or a rule produces is not empty. -/
structure Symbol where
  name : Text
  args : Option (List Text)
  deriving DecidableEq, Repr

abbrev Word := List Symbol

namespace Symbol

def bare (name : Text) : Symbol := ⟨name, none⟩

/-- The symbol with these parameters; an empty list counts as no parameters. -/
def withArgs (name : Text) (args : List Text) : Symbol :=
  ⟨name, if args = [] then none else some args⟩

def arity (symbol : Symbol) : Nat := (symbol.args.getD []).length

def text (symbol : Symbol) : Text :=
  match symbol.args with
  | none => symbol.name
  | some args => symbol.name ++ '(' :: Text.join [','] args ++ [')']

end Symbol

namespace Word

def text (word : Word) : Text := word.flatMap Symbol.text

def names (word : Word) : List Text := word.map Symbol.name

def startsWith (word start : Word) : Bool :=
  match start, word with
  | [], _ => true
  | _ :: _, [] => false
  | formal :: start, actual :: word => formal.name = actual.name && startsWith word start

/-- `startsWith` compares the names, and nothing else. -/
theorem startsWith_iff {word start : Word} :
    startsWith word start = true ↔ names start <+: names word := by
  induction start generalizing word with
  | nil => simp [startsWith, names]
  | cons formal start ih =>
      cases word with
      | nil => simp [startsWith, names]
      | cons actual word =>
          simp only [startsWith, Bool.and_eq_true, decide_eq_true_eq, ih, names, List.map_cons,
            List.cons_prefix_cons]

end Word

end Lindenmayer
