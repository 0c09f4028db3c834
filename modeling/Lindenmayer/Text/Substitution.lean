import Lindenmayer.Text

/-!
# Substitution by whole identifier

A run is a maximal stretch of identifier characters in a text. `substitute` replaces the runs that
are bound names by their values, all in one pass: a value that has been put in is not looked at
again.
-/

namespace Lindenmayer.Text

/-- The value of the first binding of `run`; a run without a binding stands for itself. -/
def lookupRun (bindings : List (Text × Text)) (run : Text) : Text :=
  (bindings.lookup run).getD run

/-- Replaces every run that is a bound name by the value of its first binding. -/
def substitute (bindings : List (Text × Text)) (text : Text) : Text :=
  match text with
  | [] => []
  | c :: text =>
      if isIdentifierChar c then
        lookupRun bindings (c :: text.takeWhile isIdentifierChar) ++
          substitute bindings (text.dropWhile isIdentifierChar)
      else
        c :: substitute bindings text
termination_by text.length
decreasing_by
  · have hle := (List.dropWhile_suffix isIdentifierChar (l := text)).length_le
    rw [List.length_cons]
    omega
  · simp

@[simp] theorem substitute_nil (bindings : List (Text × Text)) : substitute bindings [] = [] := by
  rw [substitute]

end Lindenmayer.Text
