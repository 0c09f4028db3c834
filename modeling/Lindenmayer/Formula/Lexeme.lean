import Lindenmayer.Formula

/-!
# Lexemes

A lexeme is a smallest unit of an arithmetic expression: a number, a name, an operator or a
parenthesis. `lex` reads an expression as its lexemes. Layout between them carries no meaning, with
one exception: a number that stands directly before an opening parenthesis is multiplied with the
group.
-/

namespace Lindenmayer

inductive Lexeme where
  | number (number : Number)
  | name (name : Text)
  | operator (operator : Operator)
  | openParen
  | closeParen
  deriving DecidableEq

/-- The characters between lexemes: space, tab, carriage return, line feed and form feed. -/
def isLayoutChar (c : Char) : Bool :=
  c = ' ' || c = '\t' || c = '\r' || c = '\n' || c = '\x0c'

def isNameStart (c : Char) : Bool :=
  c.isAlpha || c = '_'

/-- A numeral of digits only is an integer where it fits 64 bits; every other numeral is a real. -/
def Numeral.toNumber (numeral : Numeral) : Number :=
  match if numeral.isPlain then int64? (digitsValue numeral.whole) else none with
  | some n => .integer n
  | none => .real numeral.toReal

namespace Lexeme

def text : Lexeme → Text
  | number n => n.text
  | name t => t
  | operator o => [o.toChar]
  | openParen => ['(']
  | closeParen => [')']

def take? (text : Text) : Option (Lexeme × Text) :=
  match text with
  | [] => none
  | c :: rest =>
      if isNameStart c then
        some (name (c :: rest.takeWhile isIdentifierChar), rest.dropWhile isIdentifierChar)
      else if c = '(' then
        some (openParen, rest)
      else if c = ')' then
        some (closeParen, rest)
      else
        match Operator.ofChar? c with
        | some o => some (operator o, rest)
        | none => (Numeral.scan? text).map fun scanned => (number scanned.1.toNumber, scanned.2)

/-- A lexeme is not empty. -/
theorem length_of_take? {text rest : Text} {lexeme : Lexeme}
    (h : take? text = some (lexeme, rest)) : rest.length < text.length := by
  revert h
  fun_cases take? text with
  | case1 => exact nofun
  | case2 c tail =>
      rintro ⟨⟩
      exact Nat.lt_succ_of_le (List.dropWhile_suffix _).length_le
  | case3 tail =>
      rintro ⟨⟩
      exact Nat.lt_succ_self _
  | case4 tail =>
      rintro ⟨⟩
      exact Nat.lt_succ_self _
  | case5 c tail =>
      rintro ⟨⟩
      exact Nat.lt_succ_self _
  | case6 c tail =>
      intro h
      obtain ⟨scanned, hscan, hpair⟩ := Option.map_eq_some_iff.1 h
      cases hpair
      exact Numeral.length_of_scan? hscan

/-- What a lexeme stands for before the text that follows it: a number directly before an opening
parenthesis is also a multiplication. -/
def expand (lexeme : Lexeme) (following : Text) : List Lexeme :=
  match lexeme, following with
  | number n, '(' :: _ => [number n, operator .mul]
  | lexeme, _ => [lexeme]

end Lexeme

/-- The lexemes of the part `text` of the expression `source`. The first character that starts no
lexeme is refused. -/
def lexFrom (source text : Text) : Except ParseError (List Lexeme) :=
  match text with
  | [] => .ok []
  | c :: rest =>
      if isLayoutChar c then
        lexFrom source rest
      else
        match _htake : Lexeme.take? (c :: rest) with
        | none => .error (.unexpectedToken [c] source)
        | some (lexeme, following) =>
            (lexFrom source following).map (lexeme.expand following ++ ·)
termination_by text.length
decreasing_by
  · simp
  · exact Lexeme.length_of_take? _htake

def lex (source : Text) : Except ParseError (List Lexeme) := lexFrom source source

end Lindenmayer
