import Lindenmayer.Text.Blank

/-!
# Text

Symbol strings, parameters and expressions are texts: lists of characters. This module holds what
the other modules need to know about a text as such: its blanks, its identifier characters, and how
long it is in UTF-8, which is the unit in which places in a text are reported.
-/

namespace Lindenmayer

/-- A text is the list of its characters. -/
abbrev Text := List Char

/-- Identifiers and numerals are made of ASCII letters, ASCII digits and the underscore. -/
def isIdentifierChar (c : Char) : Bool :=
  c.isAlphanum || c = '_'

namespace Text

def toString (text : Text) : String := String.ofList text

def isBlank (text : Text) : Bool := text.all isBlankChar

def trimStart (text : Text) : Text := text.dropWhile isBlankChar

def trimEnd (text : Text) : Text := (text.reverse.dropWhile isBlankChar).reverse

def trim (text : Text) : Text := trimEnd (trimStart text)

abbrev join (separator : Text) (texts : List Text) : Text := separator.intercalate texts

def utf8Length : Text → Nat
  | [] => 0
  | c :: text => c.utf8Size + utf8Length text

/-- What follows the first characters of the text that fill `bytes` bytes of UTF-8. -/
def dropBytes : Nat → Text → Text
  | 0, text => text
  | _ + 1, [] => []
  | bytes, c :: text => dropBytes (bytes - c.utf8Size) text

/-! ## Lemmas -/

theorem length_trimStart_le (text : Text) : (trimStart text).length ≤ text.length :=
  (List.dropWhile_suffix isBlankChar).length_le

theorem length_trimEnd_le (text : Text) : (trimEnd text).length ≤ text.length := by
  rw [trimEnd, List.length_reverse]
  exact Nat.le_trans (length_trimStart_le text.reverse) (Nat.le_of_eq List.length_reverse)

theorem length_trim_le (text : Text) : (trim text).length ≤ text.length :=
  Nat.le_trans (length_trimEnd_le _) (length_trimStart_le text)

@[simp] theorem utf8Length_nil : utf8Length [] = 0 := rfl

@[simp] theorem utf8Length_append (a b : Text) :
    utf8Length (a ++ b) = utf8Length a + utf8Length b := by
  induction a with
  | nil => rw [List.nil_append, utf8Length_nil, Nat.zero_add]
  | cons c a ih => rw [List.cons_append, utf8Length, utf8Length, ih, Nat.add_assoc]

end Text

end Lindenmayer
