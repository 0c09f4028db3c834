import Lindenmayer.Alphabet
import Lindenmayer.Decimal.Numeral
import Lindenmayer.Decimal.Writing
import Lindenmayer.Json.Parsing

/-!
# Grammar descriptions

A grammar description names an alphabet, a start string, rules and how far to grow. It is kept as
JSON: an object with one member for each field, or an array of the fields in the order of
declaration. What is written is read back unchanged.
-/

namespace Lindenmayer

structure Description where
  /-- Variable names, in the order in which they are tried. -/
  variableNames : List Text
  /-- Function names, in the order in which they are tried. -/
  functionNames : List Text
  /-- Constants, each a text of a single character. -/
  constants : List Text
  /-- The start string. -/
  start : Text
  /-- The two sides of each rule. -/
  rules : List (Text × Text)
  /-- How many generations to grow. -/
  iterations : UInt64
  /-- The greatest length that a generation may have. -/
  maxTokens : Option UInt64
  /-- Where random integers come from. -/
  seed : Option UInt64
  deriving DecidableEq, Repr

inductive DescriptionError where
  /-- The file cannot be read. -/
  | unreadable (path reason : String)
  /-- The text is not JSON, or not JSON of a description. -/
  | malformed
  /-- A constant is not a single character. -/
  | invalidConstant (constant : Text)
  deriving DecidableEq, Repr

namespace DescriptionError

def heading : String := "Invalid grammar description: "

def message : DescriptionError → String
  | unreadable path reason => s!"Failed to read grammar file '{path}': {reason}"
  | malformed => heading ++ "not a grammar in JSON"
  | invalidConstant constant =>
      heading ++ s!"constant '{constant.toString}' must be a single character."

end DescriptionError

namespace Description

def constantChar (constant : Text) : Except DescriptionError Char :=
  match constant with
  | [c] => .ok c
  | _ => .error (.invalidConstant constant)

/-- The alphabet described. The first constant that is not a single character is refused. -/
def alphabet (description : Description) : Except DescriptionError Alphabet := do
  let constants ← description.constants.mapM constantChar
  pure ⟨description.variableNames, description.functionNames, constants⟩

/-! ## Writing -/

def listJson (texts : List Text) : Json := .array (texts.map .ofText)

/-- The description as an object. The limit and the seed are members only if they are given. -/
def toJson (description : Description) : Json :=
  .ofMembers
    ([("variables", listJson description.variableNames),
      ("functions", listJson description.functionNames),
      ("constants", listJson description.constants),
      ("axiom", .ofText description.start),
      ("rules", .array (description.rules.map fun (predecessor, successor) =>
        listJson [predecessor, successor])),
      ("iterations", .ofNat description.iterations.toNat)] ++
      (description.maxTokens.map fun limit => ("max_tokens", .ofNat limit.toNat)).toList ++
      (description.seed.map fun seed => ("seed", .ofNat seed.toNat)).toList)

/-! ## Reading -/

def fieldNames : List Text :=
  ["variables".toList, "functions".toList, "constants".toList, "axiom".toList, "rules".toList,
    "iterations".toList, "max_tokens".toList, "seed".toList]

/-- The members of an object by their keys. Every key is a text, and no field is given twice. -/
def fieldsOfMembers? (members : List (JsonString × Json)) : Option (List (Text × Json)) := do
  let fields ← members.mapM fun (key, value) => key.text?.map fun key => (key, value)
  if fieldNames.all fun name => (fields.map (·.1)).count name ≤ 1 then pure fields else none

def fields? : Json → Option (List (Text × Json))
  | .object members => fieldsOfMembers? members
  | .array items => if items.length ≤ fieldNames.length then some (fieldNames.zip items) else none
  | _ => none

def text? : Json → Option Text
  | .string content => content.text?
  | _ => none

def listOf? (read : Json → Option α) : Json → Option (List α)
  | .array items => items.mapM read
  | _ => none

/-- A rule is an array of its two sides. -/
def rule? : Json → Option (Text × Text)
  | .array [predecessor, successor] => do
      let predecessor ← text? predecessor
      let successor ← text? successor
      pure (predecessor, successor)
  | _ => none

/-- An unsigned 64-bit number, written with digits alone. -/
def number? : Json → Option UInt64
  | .number literal => uint64OfDigits? literal
  | _ => none

/-- A number that may be absent, which `null` also says. -/
def optionalNumber? : Json → Option (Option UInt64)
  | .null => some none
  | json => (number? json).map some

def required? (fields : List (Text × Json)) (name : String) (read : Json → Option α) :
    Option α := do
  read (← fields.lookup name.toList)

def optional? (fields : List (Text × Json)) (name : String) (default : α)
    (read : Json → Option α) : Option α :=
  match fields.lookup name.toList with
  | none => some default
  | some json => read json

def ofFields? (fields : List (Text × Json)) : Option Description := do
  let variableNames ← required? fields "variables" (listOf? text?)
  let functionNames ← optional? fields "functions" [] (listOf? text?)
  let constants ← optional? fields "constants" [] (listOf? text?)
  let start ← required? fields "axiom" text?
  let rules ← optional? fields "rules" [] (listOf? rule?)
  let iterations ← optional? fields "iterations" 0 number?
  let maxTokens ← optional? fields "max_tokens" none optionalNumber?
  let seed ← optional? fields "seed" none optionalNumber?
  pure ⟨variableNames, functionNames, constants, start, rules, iterations, maxTokens, seed⟩

/-- Reads a description from JSON text, whose form is checked before its constants. -/
def ofText (text : Text) : Except DescriptionError Description :=
  match (Json.ofText? text).bind fun json => (fields? json).bind ofFields? with
  | none => .error .malformed
  | some description => description.alphabet.map fun _ => description

end Description

end Lindenmayer
