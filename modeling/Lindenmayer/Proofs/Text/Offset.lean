import Lindenmayer.Proofs.Text.Balance

/-!
# Places in a text

A place in a text is reported as the number of bytes of UTF-8 in front of it. It is always one where
a character begins or the text ends, so the text can be cut there.
-/

namespace Lindenmayer.Text

def IsCharBoundary (text : Text) (offset : Nat) : Prop :=
  String.Pos.Raw.IsValid text.toString ⟨offset⟩

theorem utf8ByteSize_toString (text : Text) : text.toString.utf8ByteSize = text.utf8Length := by
  induction text with
  | nil => rfl
  | cons c text ih =>
      rw [toString, String.ofList_cons, String.utf8ByteSize_append, String.utf8ByteSize_singleton,
        utf8Length, ← ih]
      rfl

/-- Every cut of a text stands at a place where a character begins or the text ends. -/
theorem isCharBoundary_of_append (before after : Text) :
    IsCharBoundary (before ++ after) before.utf8Length := by
  refine String.Pos.Raw.isValid_iff_exists_append.mpr ⟨before.toString, after.toString, ?_, ?_⟩
  · exact String.ofList_append
  · rw [String.rawEndPos, utf8ByteSize_toString]

theorem utf8Length_cons (c : Char) (text : Text) :
    utf8Length (c :: text) = c.utf8Size + utf8Length text := rfl

theorem utf8Length_pos {text : Text} (hne : text ≠ []) : 0 < text.utf8Length := by
  cases text with
  | nil => exact absurd rfl hne
  | cons c text => exact Nat.add_pos_left (Char.utf8Size_pos c) _

theorem dropBytes_cons {bytes : Nat} (hpos : 0 < bytes) (c : Char) (text : Text) :
    dropBytes bytes (c :: text) = dropBytes (bytes - c.utf8Size) text := by
  cases bytes with
  | zero => cases hpos
  | succ bytes => rw [dropBytes]; simp

theorem dropBytes_append (before after : Text) :
    dropBytes before.utf8Length (before ++ after) = after := by
  induction before with
  | nil => rw [utf8Length_nil, List.nil_append, dropBytes]
  | cons c before ih =>
      rw [List.cons_append, dropBytes_cons (utf8Length_pos (List.cons_ne_nil c before)),
        utf8Length_cons, Nat.add_sub_cancel_left, ih]

/-- The parenthesis that closes a group is found behind what fills the group. -/
theorem matchingParen_append {inner : Text} (hcloses : Closes 0 inner) (before after : Text) :
    matchingParen (before ++ '(' :: (inner ++ ')' :: after)) before.utf8Length =
      .ok (before.utf8Length + 1 + inner.utf8Length) := by
  have hinner : Closes (0 : Nat) inner := hcloses
  rw [matchingParen, dropBytes_append, splitGroup?_openParen, splitGroup?_append hinner,
    Nat.add_assoc]
  rfl

end Lindenmayer.Text
