import Lindenmayer.Json

/-!
# Reading JSON

A JSON text is read in two steps: first as a list of tokens, and then, token by token, as one value.
Between two tokens the reader knows what may follow and which arrays and objects are open. Nothing
but strict JSON is read: no comments, no trailing commas, no text behind the value.
-/

namespace Lindenmayer

inductive JsonToken where
  | openBracket
  | closeBracket
  | openBrace
  | closeBrace
  | comma
  | colon
  | null
  | bool (value : Bool)
  | number (literal : Text)
  | string (content : JsonString)
  deriving DecidableEq, Repr

namespace JsonToken

/-! ## Strings -/

def hexDigit? (c : Char) : Option Nat :=
  if c.isDigit then some (c.toNat - '0'.toNat)
  else if 'a' ≤ c ∧ c ≤ 'f' then some (c.toNat - 'a'.toNat + 10)
  else if 'A' ≤ c ∧ c ≤ 'F' then some (c.toNat - 'A'.toNat + 10)
  else none

def hexUnit? (a b c d : Char) : Option Nat := do
  let a ← hexDigit? a
  let b ← hexDigit? b
  let c ← hexDigit? c
  let d ← hexDigit? d
  pure (((a * 16 + b) * 16 + c) * 16 + d)

def escaped? : Char → Option Char
  | '"' => some '"'
  | '\\' => some '\\'
  | '/' => some '/'
  | 'b' => some '\x08'
  | 'f' => some '\x0c'
  | 'n' => some '\n'
  | 'r' => some '\r'
  | 't' => some '\t'
  | _ => none

/-- Reads the rest of a string behind its opening quote, up to its closing quote. Surrogates are not
yet paired. -/
def takeUnits? : Text → Option (JsonString × Text)
  | [] => none
  | '"' :: rest => some ([], rest)
  | '\\' :: 'u' :: a :: b :: c :: d :: rest => do
      let unit ← hexUnit? a b c d
      let (units, rest) ← takeUnits? rest
      pure (.ofNat unit :: units, rest)
  | '\\' :: c :: rest => do
      let c ← escaped? c
      let (units, rest) ← takeUnits? rest
      pure (.char c :: units, rest)
  | c :: rest =>
      if c = '\\' ∨ c.toNat < 0x20 then
        none
      else do
        let (units, rest) ← takeUnits? rest
        pure (.char c :: units, rest)

theorem length_of_takeUnits? {text rest : Text} {units : JsonString}
    (h : takeUnits? text = some (units, rest)) : rest.length < text.length := by
  fun_induction takeUnits? text generalizing units rest with
  | case1 => simp at h
  | case2 rest' =>
      simp only [Option.some.injEq, Prod.mk.injEq] at h
      obtain ⟨-, rfl⟩ := h
      exact Nat.lt_succ_self _
  | case3 a b c d text ih =>
      simp only [Option.bind_eq_bind, Option.bind_eq_some_iff, Option.pure_def, Option.some.injEq,
        Prod.exists, Prod.mk.injEq] at h
      obtain ⟨_, -, _, _, hrest, -, rfl⟩ := h
      have hlt := ih hrest
      simp only [List.length_cons]
      omega
  | case4 c text _ ih =>
      simp only [Option.bind_eq_bind, Option.bind_eq_some_iff, Option.pure_def, Option.some.injEq,
        Prod.exists, Prod.mk.injEq] at h
      obtain ⟨_, -, _, _, hrest, -, rfl⟩ := h
      have hlt := ih hrest
      simp only [List.length_cons]
      omega
  | case5 => simp at h
  | case6 c text _ _ _ _ ih =>
      simp only [Option.bind_eq_bind, Option.bind_eq_some_iff, Option.pure_def, Option.some.injEq,
        Prod.exists, Prod.mk.injEq] at h
      obtain ⟨_, _, hrest, -, rfl⟩ := h
      have hlt := ih hrest
      simp only [List.length_cons]
      omega

/-! ## Numbers -/

def takeDigits? (text : Text) : Option (Text × Text) :=
  if text.head?.any Char.isDigit then
    some (text.takeWhile Char.isDigit, text.dropWhile Char.isDigit)
  else
    none

/-- Reads the digits before the point. They do not start with a zero, unless it is all there is. -/
def takeWhole? (text : Text) : Option (Text × Text) :=
  match text with
  | '0' :: rest => some (['0'], rest)
  | _ => takeDigits? text

def takeMark (marks : List Char) (text : Text) : Text × Text :=
  match text with
  | [] => ([], [])
  | c :: rest => if marks.contains c then ([c], rest) else ([], text)

def takePoint (text : Text) : Text × Text :=
  match text with
  | '.' :: rest =>
      ((takeDigits? rest).map fun digits => ('.' :: digits.1, digits.2)).getD ([], text)
  | _ => ([], text)

def takePower (text : Text) : Text × Text :=
  match text with
  | [] => ([], [])
  | c :: rest =>
      if c = 'e' ∨ c = 'E' then
        let sign := takeMark ['+', '-'] rest
        ((takeDigits? sign.2).map fun digits => (c :: sign.1 ++ digits.1, digits.2)).getD ([], text)
      else
        ([], text)

def takeNumber? (text : Text) : Option (Text × Text) :=
  let sign := takeMark ['-'] text
  (takeWhole? sign.2).map fun whole =>
    let point := takePoint whole.2
    let power := takePower point.2
    (sign.1 ++ whole.1 ++ point.1 ++ power.1, power.2)

theorem eq_of_takeDigits? {text digits rest : Text} (h : takeDigits? text = some (digits, rest)) :
    text = digits ++ rest ∧ digits ≠ [] := by
  obtain ⟨hany, hpair⟩ := Option.ite_none_right_eq_some.mp h
  obtain ⟨rfl, rfl⟩ := Prod.mk.inj (Option.some.inj hpair)
  refine ⟨List.takeWhile_append_dropWhile.symm, ?_⟩
  cases text with
  | nil => simp at hany
  | cons c text =>
      simp only [List.head?_cons, Option.any_some] at hany
      simp [List.takeWhile, hany]

theorem eq_of_takeWhole? {text digits rest : Text} (h : takeWhole? text = some (digits, rest)) :
    text = digits ++ rest ∧ digits ≠ [] := by
  revert h
  fun_cases takeWhole? text with
  | case1 after =>
      rintro ⟨⟩
      exact ⟨rfl, by simp⟩
  | case2 => exact eq_of_takeDigits?

theorem eq_takeMark (marks : List Char) (text : Text) :
    text = (takeMark marks text).1 ++ (takeMark marks text).2 := by
  fun_cases takeMark marks text with
  | case1 => rfl
  | case2 => rfl
  | case3 => rfl

theorem eq_takePoint (text : Text) : text = (takePoint text).1 ++ (takePoint text).2 := by
  fun_cases takePoint text with
  | case1 rest =>
      cases h : takeDigits? rest with
      | none => rfl
      | some found => simp [(eq_of_takeDigits? h).1]
  | case2 => rfl

theorem eq_takePower (text : Text) : text = (takePower text).1 ++ (takePower text).2 := by
  fun_cases takePower text with
  | case1 => rfl
  | case2 c rest _ sign =>
      have hmark := eq_takeMark ['+', '-'] rest
      cases h : takeDigits? sign.2 with
      | none => rfl
      | some found =>
          rw [(eq_of_takeDigits? h).1] at hmark
          simpa using hmark
  | case3 => rfl

/-- A number is read as it is written, and it is not empty. -/
theorem eq_of_takeNumber? {text literal rest : Text} (h : takeNumber? text = some (literal, rest)) :
    text = literal ++ rest ∧ literal ≠ [] := by
  obtain ⟨whole, hwhole, hpair⟩ := Option.map_eq_some_iff.1 h
  simp only [Prod.mk.injEq] at hpair
  obtain ⟨rfl, rfl⟩ := hpair
  obtain ⟨hunsigned, hne⟩ := eq_of_takeWhole? hwhole
  refine ⟨?_, by simp [hne]⟩
  simp only [List.append_assoc]
  rw [← eq_takePower, ← eq_takePoint, ← hunsigned, ← eq_takeMark]

/-! ## Tokens -/

/-- The characters between tokens: space, tab, line feed and carriage return. -/
def isLayoutChar (c : Char) : Bool := c = ' ' || c = '\t' || c = '\n' || c = '\r'

def ofChar? : Char → Option JsonToken
  | '[' => some openBracket
  | ']' => some closeBracket
  | '\x7b' => some openBrace
  | '\x7d' => some closeBrace
  | ',' => some comma
  | ':' => some colon
  | _ => none

def takeWord? (text : Text) : Option (JsonToken × Text) :=
  [("null", null), ("true", bool true), ("false", bool false)].findSome? fun (word, token) =>
    if word.toList <+: text then some (token, text.drop word.length) else none

def take? (c : Char) (text : Text) : Option (JsonToken × Text) :=
  match ofChar? c with
  | some token => some (token, text)
  | none =>
      if c = '"' then
        (takeUnits? text).map fun (units, rest) => (string units.joinSurrogates, rest)
      else if c.isAlpha then
        takeWord? (c :: text)
      else
        (takeNumber? (c :: text)).map fun (literal, rest) => (number literal, rest)

theorem length_of_takeWord? {text rest : Text} {token : JsonToken}
    (h : takeWord? text = some (token, rest)) : rest.length < text.length := by
  obtain ⟨⟨word, found⟩, hmem, hfound⟩ := List.exists_of_findSome?_eq_some h
  obtain ⟨hbegins, hpair⟩ := Option.ite_none_right_eq_some.mp hfound
  obtain ⟨-, rfl⟩ := Prod.mk.inj (Option.some.inj hpair)
  have hle := hbegins.length_le
  rw [List.length_drop, ← String.length_toList]
  have hpos : 0 < word.toList.length := by
    simp only [List.mem_cons, Prod.mk.injEq, List.not_mem_nil, or_false] at hmem
    rcases hmem with ⟨rfl, -⟩ | ⟨rfl, -⟩ | ⟨rfl, -⟩ <;> decide
  omega

/-- A token is not empty. -/
theorem length_of_take? {c : Char} {text rest : Text} {token : JsonToken}
    (h : take? c text = some (token, rest)) : rest.length < (c :: text).length := by
  revert h
  fun_cases take? c text with
  | case1 =>
      rintro ⟨⟩
      exact Nat.lt_succ_self _
  | case2 =>
      intro h
      obtain ⟨⟨units, after⟩, hunits, hpair⟩ := Option.map_eq_some_iff.1 h
      cases hpair
      exact Nat.lt_succ_of_lt (length_of_takeUnits? hunits)
  | case3 => exact length_of_takeWord?
  | case4 =>
      intro h
      obtain ⟨⟨literal, after⟩, hnumber, hpair⟩ := Option.map_eq_some_iff.1 h
      cases hpair
      obtain ⟨htext, hne⟩ := eq_of_takeNumber? hnumber
      have hpos := List.length_pos_iff.2 hne
      rw [htext, List.length_append]
      omega

def ofText? (text : Text) : Option (List JsonToken) :=
  match text with
  | [] => some []
  | c :: text =>
      if isLayoutChar c then
        ofText? text
      else
        match _htake : take? c text with
        | none => none
        | some (token, rest) => (ofText? rest).map (token :: ·)
termination_by text.length
decreasing_by
  · simp
  · exact length_of_take? _htake

end JsonToken

/-! ## Values -/

/-- An array or object that is open: what has been read of it, the last first. -/
inductive JsonFrame where
  | array (items : List Json)
  /-- The value of `key` is to follow. -/
  | object (members : List (JsonString × Json)) (key : JsonString)

/-- Where the reader of a JSON value stands. `outer` holds the arrays and objects that are open, the
innermost first. -/
inductive JsonReading where
  /-- A value has to follow. -/
  | wantsValue (outer : List JsonFrame)
  /-- An array has been opened: an item or its end has to follow. -/
  | wantsItem (outer : List JsonFrame)
  /-- An object has been opened: a key or its end has to follow. -/
  | wantsMember (outer : List JsonFrame)
  /-- A further key of an object has to follow. -/
  | wantsKey (members : List (JsonString × Json)) (outer : List JsonFrame)
  /-- A colon has to follow. -/
  | wantsColon (members : List (JsonString × Json)) (key : JsonString) (outer : List JsonFrame)
  /-- A value has just been read. -/
  | hasValue (value : Json) (outer : List JsonFrame)

namespace JsonReading

def startValue? (outer : List JsonFrame) : JsonToken → Option JsonReading
  | .openBracket => some (wantsItem outer)
  | .openBrace => some (wantsMember outer)
  | .null => some (hasValue .null outer)
  | .bool value => some (hasValue (.bool value) outer)
  | .number literal => some (hasValue (.number literal) outer)
  | .string content => some (hasValue (.string content) outer)
  | _ => none

def step? (reading : JsonReading) (token : JsonToken) : Option JsonReading :=
  match reading, token with
  | wantsValue outer, token => startValue? outer token
  | wantsItem outer, .closeBracket => some (hasValue (.array []) outer)
  | wantsItem outer, token => startValue? (.array [] :: outer) token
  | wantsMember outer, .closeBrace => some (hasValue (.object []) outer)
  | wantsMember outer, .string key => some (wantsColon [] key outer)
  | wantsKey members outer, .string key => some (wantsColon members key outer)
  | wantsColon members key outer, .colon => some (wantsValue (.object members key :: outer))
  | hasValue value (.array items :: outer), .comma =>
      some (wantsValue (.array (value :: items) :: outer))
  | hasValue value (.array items :: outer), .closeBracket =>
      some (hasValue (.array (value :: items).reverse) outer)
  | hasValue value (.object members key :: outer), .comma =>
      some (wantsKey ((key, value) :: members) outer)
  | hasValue value (.object members key :: outer), .closeBrace =>
      some (hasValue (.object ((key, value) :: members).reverse) outer)
  | _, _ => none

def finish? : JsonReading → Option Json
  | hasValue value [] => some value
  | _ => none

end JsonReading

namespace Json

def ofTokens? (tokens : List JsonToken) : Option Json := do
  let reading ← tokens.foldlM JsonReading.step? (.wantsValue [])
  reading.finish?

def ofText? (text : Text) : Option Json := do
  ofTokens? (← JsonToken.ofText? text)

end Json

end Lindenmayer
