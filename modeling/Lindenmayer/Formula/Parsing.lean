import Lindenmayer.Formula.Lexeme

/-!
# Reading formulas

An expression is a sum of products of signed operands; an operand is a number, a name or an
expression in parentheses. Operators of one rank group to the left.

Lexemes are read one by one. Between two of them the reader either waits for an operand or has just
read one, and remembers for every open parenthesis what stands to the left of it and has not yet
found its right operand. A lexeme that cannot follow is refused as soon as it is met.
-/

namespace Lindenmayer

/-- What waits, within one pair of parentheses, for the operand to come. -/
structure Pending where
  /-- The sum so far and the operator after it. -/
  sum : Option (Formula × Operator)
  /-- The product so far and the operator after it. -/
  product : Option (Formula × Operator)
  /-- The signs before the operand, the nearest first. -/
  signs : List Sign
  deriving DecidableEq

namespace Pending

def start : Pending := ⟨none, none, []⟩

/-- The formula of a left operand that may be absent and its right operand. -/
def close (left : Option (Formula × Operator)) (right : Formula) : Formula :=
  match left with
  | none => right
  | some (left, operator) => .binary left operator right

def operand (pending : Pending) (formula : Formula) : Formula :=
  close pending.product (pending.signs.foldl (fun operand sign => .signed sign operand) formula)

end Pending

/-- Where the reader of an expression stands. `outer` holds what waits before each open parenthesis,
the innermost first. -/
inductive Reading where
  /-- An operand or a sign has to follow. -/
  | wanting (pending : Pending) (outer : List Pending)
  /-- An operand has just been read: `product` is the product that ends with it. -/
  | having (sum : Option (Formula × Operator)) (product : Formula) (outer : List Pending)
  deriving DecidableEq

namespace Reading

def start : Reading := wanting .start []

def supply (pending : Pending) (formula : Formula) (outer : List Pending) : Reading :=
  having pending.sum (pending.operand formula) outer

def operate (sum : Option (Formula × Operator)) (product : Formula) (operator : Operator)
    (outer : List Pending) : Reading :=
  if operator.isMultiplicative then
    wanting ⟨sum, some (product, operator), []⟩ outer
  else
    wanting ⟨some (Pending.close sum product, operator), none, []⟩ outer

def step (source : Text) (reading : Reading) (lexeme : Lexeme) : Except ParseError Reading :=
  match reading, lexeme with
  | wanting pending outer, .number number => .ok (supply pending (.number number) outer)
  | wanting pending outer, .name name => .ok (supply pending (.name name) outer)
  | wanting pending outer, .openParen => .ok (wanting .start (pending :: outer))
  | wanting pending outer, .operator operator =>
      match operator.sign? with
      | some sign => .ok (wanting { pending with signs := sign :: pending.signs } outer)
      | none => .error (.unexpectedToken lexeme.text source)
  | wanting _ _, .closeParen => .error (.unexpectedToken lexeme.text source)
  | having sum product outer, .operator operator => .ok (operate sum product operator outer)
  | having sum product (pending :: outer), .closeParen =>
      .ok (supply pending (Pending.close sum product) outer)
  | having _ _ (_ :: _), _ => .error (.unexpectedToken lexeme.text source)
  | having _ _ [], _ => .error (.unexpectedTrailingTokens lexeme.text source)

def finish (source : Text) : Reading → Except ParseError Formula
  | wanting _ _ => .error (.unexpectedEndOfInput source)
  | having _ _ (_ :: _) => .error (.unbalancedParentheses source)
  | having sum product [] => .ok (Pending.close sum product)

end Reading

def Formula.ofLexemes (source : Text) (lexemes : List Lexeme) : Except ParseError Formula := do
  let reading ← lexemes.foldlM (Reading.step source) Reading.start
  reading.finish source

def Formula.ofText (source : Text) : Except ParseError Formula := do
  Formula.ofLexemes source (← lex source)

end Lindenmayer
