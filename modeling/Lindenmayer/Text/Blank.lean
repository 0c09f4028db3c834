/-!
# Blank characters

The characters with the Unicode property `White_Space`, as a table of code points. Surrounding
blanks of a text carry no meaning in grammar notation, so trimming is defined from this class.
-/

namespace Lindenmayer

/-- The code points of the property `White_Space`: inclusive ranges in increasing order. -/
def blankRanges : List (Nat × Nat) :=
  [(0x09, 0x0D), (0x20, 0x20), (0x85, 0x85), (0xA0, 0xA0), (0x1680, 0x1680), (0x2000, 0x200A),
    (0x2028, 0x2029), (0x202F, 0x202F), (0x205F, 0x205F), (0x3000, 0x3000)]

/-- A blank is a character of the property `White_Space`. -/
def isBlankChar (c : Char) : Bool :=
  blankRanges.any fun range => range.1 ≤ c.toNat && c.toNat ≤ range.2

theorem not_isBlankChar_openParen : isBlankChar '(' = false := by decide

theorem not_isBlankChar_closeParen : isBlankChar ')' = false := by decide

end Lindenmayer
