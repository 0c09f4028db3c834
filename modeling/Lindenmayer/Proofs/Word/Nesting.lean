import Lindenmayer.Alphabet
import Lindenmayer.Word
import Mathlib.Data.List.Forall2

/-!
# Nesting of brackets

Brackets are the constants of an alphabet that save and restore: an opening bracket goes one level
deeper, and a closing one comes back from it. A word is well nested if it comes back to the level on
which it starts without ever being above it. Which symbols are brackets is seen from their names.
-/

namespace Lindenmayer

@[simp]
theorem Word.names_append (u v : Word) : Word.names (u ++ v) = Word.names u ++ Word.names v :=
  List.map_append

namespace Alphabet

/-- The depth after one symbol, unless a bracket closes what is not open. -/
def deepen? (alphabet : Alphabet) (depth : Nat) (name : Text) : Option Nat :=
  match alphabet.constantOf? name with
  | some '[' => some (depth + 1)
  | some ']' => match depth with
      | 0 => none
      | depth + 1 => some depth
  | _ => some depth

def depth? (alphabet : Alphabet) (depth : Nat) (names : List Text) : Option Nat :=
  names.foldlM alphabet.deepen? depth

/-- Every bracket of the word finds its partner in it. -/
def Nested (alphabet : Alphabet) (word : Word) : Prop := alphabet.depth? 0 word.names = some 0

instance (alphabet : Alphabet) (word : Word) : Decidable (alphabet.Nested word) :=
  inferInstanceAs (Decidable (_ = _))

variable {alphabet : Alphabet}

theorem depth?_append (depth : Nat) (u v : List Text) :
    alphabet.depth? depth (u ++ v) =
      (alphabet.depth? depth u).bind fun reached => alphabet.depth? reached v :=
  List.foldlM_append

theorem deepen?_add {depth reached : Nat} {name : Text}
    (h : alphabet.deepen? depth name = some reached) (below : Nat) :
    alphabet.deepen? (below + depth) name = some (below + reached) := by
  revert h
  fun_cases alphabet.deepen? depth name with
  | case1 depth hopen =>
      rintro ⟨⟩
      simp only [deepen?, hopen, Nat.add_assoc]
  | case2 hclose => exact nofun
  | case3 hclose depth =>
      rintro ⟨⟩
      simp only [deepen?, hclose]
      rfl
  | case4 =>
      rintro ⟨⟩
      simp only [deepen?]

/-- What is already open when a word begins stays open. -/
theorem depth?_add {names : List Text} {depth reached : Nat}
    (h : alphabet.depth? depth names = some reached) (below : Nat) :
    alphabet.depth? (below + depth) names = some (below + reached) := by
  induction names generalizing depth with
  | nil =>
      cases h
      rfl
  | cons name names ih =>
      rw [depth?, List.foldlM_cons] at h ⊢
      obtain ⟨next, hdeepen, hrest⟩ := Option.bind_eq_some_iff.mp h
      rw [deepen?_add hdeepen below]
      exact ih hrest

/-- A well nested word leaves the depth as it is. -/
theorem Nested.depth?_append {word : Word} (hnested : alphabet.Nested word) (depth : Nat)
    (names : List Text) :
    alphabet.depth? depth (word.names ++ names) = alphabet.depth? depth names := by
  have hword : alphabet.depth? (depth + 0) word.names = some (depth + 0) := depth?_add hnested depth
  rw [Nat.add_zero] at hword
  rw [Alphabet.depth?_append, hword]
  rfl

end Alphabet

end Lindenmayer
