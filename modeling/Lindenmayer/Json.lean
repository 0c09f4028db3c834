import Lindenmayer.Text

/-!
# JSON

JSON values and how they are written, on one line or with one member to a line. A number is kept as
it is written, since only its reader knows what it is for. A string may contain surrogates that are
not part of a pair, because an escape can name them; only a string without them is a text.
-/

namespace Lindenmayer

inductive StringUnit where
  | char (c : Char)
  /-- A surrogate without a partner. -/
  | surrogate (unit : UInt16)
  deriving DecidableEq, Repr

/-- A 16-bit unit by itself: a character, unless it is a surrogate. -/
def StringUnit.ofNat (n : Nat) : StringUnit :=
  if 0xD800 ≤ n ∧ n ≤ 0xDFFF then .surrogate (UInt16.ofNat n) else .char (Char.ofNat n)

abbrev JsonString := List StringUnit

inductive Json where
  | null
  | bool (value : Bool)
  | number (literal : Text)
  | string (content : JsonString)
  | array (items : List Json)
  | object (members : List (JsonString × Json))

namespace JsonString

def ofText (text : Text) : JsonString := text.map .char

/-- The text of a string without lone surrogates. -/
def text? (content : JsonString) : Option Text :=
  content.mapM fun
    | .char c => some c
    | .surrogate _ => none

def pairedChar (lead trail : Nat) : Char :=
  Char.ofNat (0x10000 + (lead - 0xD800) * 0x400 + (trail - 0xDC00))

/-- Joins each leading surrogate with the trailing surrogate directly after it. -/
def joinSurrogates : JsonString → JsonString
  | .surrogate lead :: .surrogate trail :: units =>
      if lead < 0xDC00 ∧ 0xDC00 ≤ trail then
        .char (pairedChar lead.toNat trail.toNat) :: joinSurrogates units
      else
        .surrogate lead :: joinSurrogates (.surrogate trail :: units)
  | unit :: units => unit :: joinSurrogates units
  | [] => []

@[simp] theorem text?_ofText (text : Text) : (ofText text).text? = some text := by
  induction text with
  | nil => rfl
  | cons c text ih =>
      simp only [ofText, text?] at ih ⊢
      simp [ih]

def hexEscape (unit : Nat) : Text :=
  let digits := Nat.toDigits 16 unit
  '\\' :: 'u' :: List.replicate (4 - digits.length) '0' ++ digits

/-- One element as it is written inside quotes. Control characters are escaped, by a letter where
there is one. -/
def writeUnit : StringUnit → Text
  | .surrogate unit => hexEscape unit.toNat
  | .char c =>
      if c = '"' then ['\\', '"']
      else if c = '\\' then ['\\', '\\']
      else if c = '\x08' then ['\\', 'b']
      else if c = '\x0c' then ['\\', 'f']
      else if c = '\n' then ['\\', 'n']
      else if c = '\r' then ['\\', 'r']
      else if c = '\t' then ['\\', 't']
      else if c.toNat < 0x20 then hexEscape c.toNat
      else [c]

def write (content : JsonString) : Text := '"' :: content.flatMap writeUnit ++ ['"']

end JsonString

namespace Json

def ofText (text : Text) : Json := string (.ofText text)

def ofMembers (members : List (String × Json)) : Json :=
  object (members.map fun (key, value) => (.ofText key.toList, value))

def ofNat (n : Nat) : Json := number (Nat.toDigits 10 n)

/-! ## On one line -/

mutual

def compact : Json → Text
  | null => "null".toList
  | bool true => "true".toList
  | bool false => "false".toList
  | number literal => literal
  | string content => content.write
  | array items => '[' :: compactItems items ++ [']']
  | object members => '\x7b' :: compactMembers members ++ ['\x7d']

def compactItems : List Json → Text
  | [] => []
  | [item] => item.compact
  | item :: items => item.compact ++ ',' :: compactItems items

def compactMembers : List (JsonString × Json) → Text
  | [] => []
  | [(key, value)] => key.write ++ ':' :: value.compact
  | (key, value) :: members => key.write ++ ':' :: value.compact ++ ',' :: compactMembers members

end

/-! ## One member to a line -/

def newLine (level : Nat) : Text := '\n' :: List.replicate (2 * level) ' '

mutual

/-- The value with its items or members, if it has any, on lines of their own, one level deeper than
the value itself. -/
def prettyAt (level : Nat) : Json → Text
  | null => "null".toList
  | bool true => "true".toList
  | bool false => "false".toList
  | number literal => literal
  | string content => content.write
  | array [] => ['[', ']']
  | array items => '[' :: prettyItems (level + 1) items ++ newLine level ++ [']']
  | object [] => ['\x7b', '\x7d']
  | object members => '\x7b' :: prettyMembers (level + 1) members ++ newLine level ++ ['\x7d']

def prettyItems (level : Nat) : List Json → Text
  | [] => []
  | [item] => newLine level ++ prettyAt level item
  | item :: items => newLine level ++ prettyAt level item ++ ',' :: prettyItems level items

def prettyMembers (level : Nat) : List (JsonString × Json) → Text
  | [] => []
  | [(key, value)] => newLine level ++ key.write ++ ':' :: ' ' :: prettyAt level value
  | (key, value) :: members =>
      newLine level ++ key.write ++ ':' :: ' ' :: prettyAt level value ++
        ',' :: prettyMembers level members

end

def pretty (json : Json) : Text := prettyAt 0 json

end Json

end Lindenmayer
