import Lindenmayer.Json.Parsing
import Lindenmayer.Proofs.Text.Class
import Lindenmayer.Proofs.Text.Run
import Mathlib.Tactic.SplitIfs

/-!
# Reading back what is written as JSON

A value is plain if its strings are texts and its numbers are naturals. A plain value written on one
line is read back as the same value.

The reader sees tokens only, so strings, numbers and words come first: each is written so that one
token is read from it, and the text behind it is left. What the reader makes of a value then depends
on the arrays and objects that are open around the value. The statement about values is therefore
about all readings that wait for a value, and its induction is on the value.
-/

namespace Lindenmayer

/-! ## Strings -/

namespace JsonString

theorem hexEscape_of_lt : ∀ unit < 0x20, hexEscape unit =
    ['\\', 'u', '0', '0', Nat.digitChar (unit / 16), Nat.digitChar (unit % 16)] := by
  decide

/-- A text has no surrogates to join. -/
theorem joinSurrogates_ofText (text : Text) : (ofText text).joinSurrogates = ofText text := by
  induction text with
  | nil => rfl
  | cons c text ih => exact congrArg (StringUnit.char c :: ·) ih

end JsonString

namespace JsonToken

open JsonString (ofText writeUnit hexEscape)

theorem hexUnit?_of_lt : ∀ unit < 0x20,
    hexUnit? '0' '0' (Nat.digitChar (unit / 16)) (Nat.digitChar (unit % 16)) = some unit := by
  decide

def prepend (c : Char) (found : JsonString × Text) : JsonString × Text :=
  (.char c :: found.1, found.2)

theorem takeUnits?_letter {letter c named : Char} (hc : c = named)
    (hletter : escaped? letter = some named) (text : Text) :
    takeUnits? ('\\' :: letter :: text) = (takeUnits? text).map (prepend c) := by
  rw [takeUnits?, hletter, hc]
  · cases takeUnits? text <;> rfl
  · rintro _ _ _ _ _ rfl
    cases hletter

theorem takeUnits?_hexEscape {unit : Nat} (hunit : unit < 0x20) (text : Text) :
    takeUnits? (hexEscape unit ++ text) = (takeUnits? text).map (prepend (Char.ofNat unit)) := by
  have hchar : StringUnit.ofNat unit = .char (Char.ofNat unit) := if_neg (by omega)
  rw [JsonString.hexEscape_of_lt unit hunit]
  simp only [List.cons_append, List.nil_append, takeUnits?, hexUnit?_of_lt unit hunit]
  cases takeUnits? text with
  | none => rfl
  | some found => exact congrArg (fun unit => some (unit :: found.1, found.2)) hchar

theorem takeUnits?_self {c : Char} (hquote : c ≠ '"') (hbackslash : c ≠ '\\')
    (hcontrol : ¬ c.toNat < 0x20) (text : Text) :
    takeUnits? (c :: text) = (takeUnits? text).map (prepend c) := by
  rw [takeUnits?, if_neg (by simp [hbackslash, hcontrol])]
  · cases takeUnits? text <;> rfl
  · exact hquote
  · exact fun _ _ _ _ _ h _ => hbackslash h
  · exact fun _ _ h _ => hbackslash h

/-- A character is read back from its written form. -/
theorem takeUnits?_writeUnit (c : Char) (text : Text) :
    takeUnits? (writeUnit (.char c) ++ text) = (takeUnits? text).map (prepend c) := by
  simp only [writeUnit]
  split_ifs with hquote hbackslash hbackspace hfeed hline hreturn htab hcontrol
  · exact takeUnits?_letter hquote rfl text
  · exact takeUnits?_letter hbackslash rfl text
  · exact takeUnits?_letter hbackspace rfl text
  · exact takeUnits?_letter hfeed rfl text
  · exact takeUnits?_letter hline rfl text
  · exact takeUnits?_letter hreturn rfl text
  · exact takeUnits?_letter htab rfl text
  · rw [takeUnits?_hexEscape hcontrol, Char.ofNat_toNat]
  · exact takeUnits?_self hquote hbackslash hcontrol text

theorem takeUnits?_write (text rest : Text) :
    takeUnits? ((ofText text).flatMap writeUnit ++ '"' :: rest) = some (ofText text, rest) := by
  induction text with
  | nil => rfl
  | cons c text ih =>
      simp only [ofText, List.map_cons, List.flatMap_cons, List.append_assoc] at ih ⊢
      rw [takeUnits?_writeUnit, ih]
      rfl

/-! ## Numbers -/

def isLiteralChar (c : Char) : Bool := c.isDigit || c = '.' || c = 'e' || c = 'E'

theorem isDigit_digitChar : ∀ d < 10,
    (Nat.digitChar d).isDigit = true ∧ (Nat.digitChar d = '0' → d = 0) := by
  decide

/-- Only zero is written with a zero in front. -/
theorem exists_first_digit (n : Nat) : ∃ c digits,
    Nat.toDigits 10 n = c :: digits ∧ c.isDigit = true ∧ (c = '0' → n = 0) := by
  induction n using Nat.strongRecOn with
  | ind n ih =>
      by_cases hlt : n < 10
      · exact ⟨n.digitChar, [], Nat.toDigits_of_lt_base hlt, isDigit_digitChar n hlt⟩
      · have hsplit := Nat.toDigits_append_toDigits (b := 10) (n := n / 10) (d := n % 10)
          (by decide) (by omega) (by omega)
        rw [Nat.div_add_mod] at hsplit
        obtain ⟨c, digits, hdigits, hc, hzero⟩ := ih (n / 10) (by omega)
        refine ⟨c, digits ++ Nat.toDigits 10 (n % 10), ?_, hc, ?_⟩
        · rw [← hsplit, hdigits, List.cons_append]
        · intro h
          have hdiv := hzero h
          omega

theorem takeWhole?_toDigits (n : Nat) {rest : Text} (hrest : Text.Stops Char.isDigit rest) :
    takeWhole? (Nat.toDigits 10 n ++ rest) = some (Nat.toDigits 10 n, rest) := by
  obtain ⟨c, digits, hdigits, hc, hzero⟩ := exists_first_digit n
  by_cases h : c = '0'
  · rw [hzero h]
    rfl
  · have htake := Text.takeWhile_append_of_stops (all_isDigit_toDigits n) hrest
    have hdrop := Text.dropWhile_append_of_stops (all_isDigit_toDigits n) hrest
    rw [hdigits, List.cons_append] at htake hdrop ⊢
    rw [takeWhole?, takeDigits?, htake, hdrop, List.head?_cons, Option.any_some, if_pos hc]
    exact fun _ heq => h (List.cons.inj heq).1

theorem takePoint_of_stops {text : Text} (h : Text.Stops isLiteralChar text) :
    takePoint text = ([], text) := by
  fun_cases takePoint text with
  | case1 => cases Text.stops_cons.mp h
  | case2 => rfl

theorem takePower_of_stops {text : Text} (h : Text.Stops isLiteralChar text) :
    takePower text = ([], text) := by
  cases text with
  | nil => rfl
  | cons c rest =>
      have hc := Text.stops_cons.mp h
      simp only [isLiteralChar, Bool.or_eq_false_iff, decide_eq_false_iff_not] at hc
      rw [takePower, if_neg (by simp [hc])]

theorem takeNumber?_toDigits (n : Nat) {rest : Text} (hrest : Text.Stops isLiteralChar rest) :
    takeNumber? (Nat.toDigits 10 n ++ rest) = some (Nat.toDigits 10 n, rest) := by
  have hsign : takeMark ['-'] (Nat.toDigits 10 n ++ rest) = ([], Nat.toDigits 10 n ++ rest) := by
    obtain ⟨c, digits, hdigits, hc, -⟩ := exists_first_digit n
    rw [hdigits, List.cons_append, takeMark, if_neg]
    intro hminus
    rw [List.contains_iff_mem, List.mem_singleton] at hminus
    subst hminus
    cases hc
  have hwhole := takeWhole?_toDigits n
    (hrest.mono (q := Char.isDigit) fun c hc => by simp [isLiteralChar, hc])
  simp only [takeNumber?, hsign, hwhole, takePoint_of_stops hrest, takePower_of_stops hrest,
    Option.map_some, List.nil_append, List.append_nil]

/-! ## Tokens -/

/-- No token starts with layout. -/
theorem not_isLayoutChar_of_take? {c : Char} {text rest : Text} {token : JsonToken}
    (h : take? c text = some (token, rest)) : isLayoutChar c = false := by
  cases hc : isLayoutChar c with
  | false => rfl
  | true =>
      simp only [isLayoutChar, Bool.or_eq_true, decide_eq_true_eq] at hc
      rcases hc with ((rfl | rfl) | rfl) | rfl <;> cases h

theorem take?_char {c : Char} {token : JsonToken} (h : ofChar? c = some token) (text : Text) :
    take? c text = some (token, text) := by
  rw [take?, h]

theorem take?_write (text rest : Text) :
    take? '"' ((ofText text).flatMap writeUnit ++ '"' :: rest) =
      some (string (ofText text), rest) := by
  change (takeUnits? _).map (fun found => (string found.1.joinSurrogates, found.2)) = _
  rw [takeUnits?_write, Option.map_some, JsonString.joinSurrogates_ofText]

theorem take?_digit {c : Char} (hc : c.isDigit = true) (text : Text) :
    take? c text = (takeNumber? (c :: text)).map fun found => (number found.1, found.2) := by
  have hchar : ofChar? c = none := by
    unfold ofChar?
    split <;> first | rfl | cases hc
  have hquote : c ≠ '"' := by
    rintro rfl
    cases hc
  have halpha : ¬ c.isAlpha = true := by
    rw [isAlpha_iff]
    rw [isDigit_iff] at hc
    omega
  simp only [take?, hchar, if_neg hquote, if_neg halpha]

end JsonToken

/-! ## Readings -/

namespace JsonReading

open JsonToken (isLiteralChar ofChar? take?)
open JsonString (ofText)

def advance? (reading : JsonReading) (text : Text) : Option JsonReading := do
  (← JsonToken.ofText? text).foldlM step? reading

/-- A text is read by going over it from the start to the end. -/
theorem ofText?_eq_advance? (text : Text) :
    Json.ofText? text = ((wantsValue []).advance? text).bind finish? := by
  simp only [Json.ofText?, Json.ofTokens?, advance?]
  cases JsonToken.ofText? text <;> rfl

variable {reading : JsonReading} {outer : List JsonFrame} {rest : Text}

theorem advance?_token {c : Char} {text : Text} {token : JsonToken}
    (htake : take? c text = some (token, rest)) :
    reading.advance? (c :: text) = (reading.step? token).bind (advance? · rest) := by
  have hlayout := JsonToken.not_isLayoutChar_of_take? htake
  have htokens : JsonToken.ofText? (c :: text) = (JsonToken.ofText? rest).map (token :: ·) := by
    rw [JsonToken.ofText?, if_neg (by simp [hlayout])]
    split
    next hnone => cases htake.symm.trans hnone
    next hsome =>
      cases htake.symm.trans hsome
      rfl
  simp only [advance?, htokens]
  cases JsonToken.ofText? rest with
  | none => cases reading.step? token <;> rfl
  | some tokens => rfl

theorem advance?_char {c : Char} {token : JsonToken} (h : ofChar? c = some token) :
    reading.advance? (c :: rest) = (reading.step? token).bind (advance? · rest) :=
  advance?_token (JsonToken.take?_char h rest)

theorem advance?_write (text : Text) :
    reading.advance? ((ofText text).write ++ rest) =
      (reading.step? (.string (ofText text))).bind (advance? · rest) := by
  rw [JsonString.write, List.cons_append, List.cons_append, List.append_assoc]
  exact advance?_token (JsonToken.take?_write text rest)

theorem advance?_toDigits (n : Nat) (hrest : Text.Stops isLiteralChar rest) :
    reading.advance? (Nat.toDigits 10 n ++ rest) =
      (reading.step? (.number (Nat.toDigits 10 n))).bind (advance? · rest) := by
  obtain ⟨c, digits, hdigits, hc, -⟩ := JsonToken.exists_first_digit n
  have hnumber := JsonToken.takeNumber?_toDigits n hrest
  rw [hdigits, List.cons_append] at hnumber ⊢
  apply advance?_token
  rw [JsonToken.take?_digit hc, hnumber, Option.map_some]

/-- The next token starts a value inside what is open in `outer`, or else ends an array. -/
def Awaits (reading : JsonReading) (outer : List JsonFrame) : Prop :=
  ∀ token, token ≠ .closeBracket → reading.step? token = startValue? outer token

theorem Awaits.advance?_value (hreading : reading.Awaits outer) {c : Char} {text : Text}
    {token : JsonToken} {value : Json} (htake : take? c text = some (token, rest))
    (hvalue : startValue? outer token = some (hasValue value outer)) :
    reading.advance? (c :: text) = (hasValue value outer).advance? rest := by
  have htoken : token ≠ .closeBracket := by
    rintro rfl
    cases hvalue
  rw [advance?_token htake, hreading token htoken, hvalue, Option.bind_some]

theorem awaits_wantsValue (outer : List JsonFrame) : (wantsValue outer).Awaits outer :=
  fun _ _ => rfl

theorem awaits_wantsItem (outer : List JsonFrame) :
    (wantsItem outer).Awaits (.array [] :: outer) := by
  intro token htoken
  cases token with
  | closeBracket => exact absurd rfl htoken
  | _ => rfl

def AwaitsKey (reading : JsonReading) (members : List (JsonString × Json))
    (outer : List JsonFrame) : Prop :=
  ∀ key, reading.step? (.string key) = some (wantsColon members key outer)

theorem awaitsKey_wantsMember (outer : List JsonFrame) : (wantsMember outer).AwaitsKey [] outer :=
  fun _ => rfl

theorem awaitsKey_wantsKey (members : List (JsonString × Json)) (outer : List JsonFrame) :
    (wantsKey members outer).AwaitsKey members outer :=
  fun _ => rfl

end JsonReading

/-! ## Values -/

namespace Json

open JsonReading
open JsonToken (isLiteralChar)

/-- A value whose strings are texts and whose numbers are naturals. -/
inductive Plain : Json → Prop where
  | null : Plain null
  | bool (value : Bool) : Plain (bool value)
  | ofNat (n : Nat) : Plain (ofNat n)
  | ofText (text : Text) : Plain (ofText text)
  | array {items : List Json} (hitems : ∀ item ∈ items, Plain item) : Plain (array items)
  | object {members : List (JsonString × Json)}
      (hkeys : ∀ member ∈ members, ∃ key, member.1 = .ofText key)
      (hvalues : ∀ member ∈ members, Plain member.2) : Plain (object members)

/-- Wherever a value is awaited, this one is read where it is written. -/
def ReadsBack (json : Json) : Prop :=
  ∀ ⦃reading : JsonReading⦄ ⦃outer : List JsonFrame⦄ ⦃rest : Text⦄, reading.Awaits outer →
    Text.Stops isLiteralChar rest →
      reading.advance? (json.compact ++ rest) = (hasValue json outer).advance? rest

theorem compactItems_cons_cons (item next : Json) (items : List Json) :
    compactItems (item :: next :: items) = item.compact ++ ',' :: compactItems (next :: items) :=
  rfl

theorem compactMembers_cons_cons (key : JsonString) (value : Json) (next : JsonString × Json)
    (members : List (JsonString × Json)) :
    compactMembers ((key, value) :: next :: members) =
      key.write ++ ':' :: value.compact ++ ',' :: compactMembers (next :: members) :=
  rfl

section Open

variable {reading : JsonReading} {outer : List JsonFrame} {rest : Text}

/-- The items of an array up to its end, when those in `seen` have been read before them. -/
theorem advance?_compactItems {item : Json} {items seen : List Json} (hitem : ReadsBack item)
    (hitems : ∀ member ∈ items, ReadsBack member)
    (hreading : reading.Awaits (.array seen :: outer)) :
    reading.advance? (compactItems (item :: items) ++ ']' :: rest) =
      (hasValue (array (seen.reverse ++ item :: items)) outer).advance? rest := by
  induction items generalizing item seen reading with
  | nil =>
      rw [compactItems, hitem hreading (Text.stops_cons.mpr rfl), advance?_char rfl]
      simp only [step?, Option.bind_some, List.reverse_cons]
  | cons next items ih =>
      obtain ⟨hnext, hitems⟩ := List.forall_mem_cons.mp hitems
      rw [compactItems_cons_cons, List.append_assoc, List.cons_append,
        hitem hreading (Text.stops_cons.mpr rfl), advance?_char rfl]
      simp only [step?, Option.bind_some]
      rw [ih hnext hitems (awaits_wantsValue _), List.reverse_cons, List.append_assoc,
        List.singleton_append]

theorem advance?_member {key : Text} {value : Json} {seen : List (JsonString × Json)}
    (hvalue : ReadsBack value) (hreading : reading.AwaitsKey seen outer)
    (hrest : Text.Stops isLiteralChar rest) :
    reading.advance? ((JsonString.ofText key).write ++ ':' :: value.compact ++ rest) =
      (hasValue value (.object seen (.ofText key) :: outer)).advance? rest := by
  rw [List.append_assoc, advance?_write, hreading, Option.bind_some, List.cons_append,
    advance?_char rfl]
  exact hvalue (awaits_wantsValue _) hrest

/-- The members of an object up to its end, when those in `seen` have been read before them. -/
theorem advance?_compactMembers {key : Text} {value : Json}
    {members seen : List (JsonString × Json)} (hvalue : ReadsBack value)
    (hkeys : ∀ member ∈ members, ∃ key, member.1 = .ofText key)
    (hvalues : ∀ member ∈ members, ReadsBack member.2) (hreading : reading.AwaitsKey seen outer) :
    reading.advance? (compactMembers ((.ofText key, value) :: members) ++ '\x7d' :: rest) =
      (hasValue (object (seen.reverse ++ (.ofText key, value) :: members)) outer).advance?
        rest := by
  induction members generalizing key value seen reading with
  | nil =>
      rw [compactMembers, advance?_member hvalue hreading (Text.stops_cons.mpr rfl),
        advance?_char rfl]
      simp only [step?, Option.bind_some, List.reverse_cons]
  | cons next members ih =>
      obtain ⟨⟨nextKey, hnextKey⟩, hkeysTail⟩ := List.forall_mem_cons.mp hkeys
      obtain ⟨hnextValue, hvaluesTail⟩ := List.forall_mem_cons.mp hvalues
      obtain ⟨_, nextValue⟩ := next
      subst hnextKey
      rw [compactMembers_cons_cons, List.append_assoc, List.cons_append,
        advance?_member hvalue hreading (Text.stops_cons.mpr rfl), advance?_char rfl]
      simp only [step?, Option.bind_some]
      rw [ih hnextValue hkeysTail hvaluesTail (awaitsKey_wantsKey _ _), List.reverse_cons,
        List.append_assoc, List.singleton_append]

end Open

/-- A plain value is read where it is written. -/
theorem readsBack {json : Json} (hplain : json.Plain) : json.ReadsBack := by
  induction hplain with
  | null =>
      intro reading outer rest hreading _
      change reading.advance? ('n' :: 'u' :: 'l' :: 'l' :: rest) = _
      exact hreading.advance?_value rfl rfl
  | bool value =>
      intro reading outer rest hreading _
      cases value with
      | false =>
          change reading.advance? ('f' :: 'a' :: 'l' :: 's' :: 'e' :: rest) = _
          exact hreading.advance?_value rfl rfl
      | true =>
          change reading.advance? ('t' :: 'r' :: 'u' :: 'e' :: rest) = _
          exact hreading.advance?_value rfl rfl
  | ofNat n =>
      intro reading outer rest hreading hrest
      rw [Json.ofNat, compact, advance?_toDigits n hrest, hreading _ (by simp)]
      rfl
  | ofText text =>
      intro reading outer rest hreading _
      rw [Json.ofText, compact, advance?_write, hreading _ (by simp)]
      rfl
  | @array items _ ih =>
      intro reading outer rest hreading _
      rw [compact, List.cons_append, List.cons_append, List.append_assoc, List.singleton_append,
        advance?_char rfl, hreading _ (by simp)]
      simp only [startValue?, Option.bind_some]
      cases items with
      | nil =>
          rw [compactItems, List.nil_append, advance?_char rfl]
          rfl
      | cons item items =>
          obtain ⟨hitem, hitems⟩ := List.forall_mem_cons.mp ih
          exact advance?_compactItems hitem hitems (awaits_wantsItem _)
  | @object members hkeys _ ih =>
      intro reading outer rest hreading _
      rw [compact, List.cons_append, List.cons_append, List.append_assoc, List.singleton_append,
        advance?_char rfl, hreading _ (by simp)]
      simp only [startValue?, Option.bind_some]
      cases members with
      | nil =>
          rw [compactMembers, List.nil_append, advance?_char rfl]
          rfl
      | cons member members =>
          obtain ⟨⟨key, hkey⟩, hkeysTail⟩ := List.forall_mem_cons.mp hkeys
          obtain ⟨hvalue, hvaluesTail⟩ := List.forall_mem_cons.mp ih
          obtain ⟨_, value⟩ := member
          subst hkey
          exact advance?_compactMembers hvalue hkeysTail hvaluesTail (awaitsKey_wantsMember _)

/-- What is written on one line is read back. -/
theorem ofText?_compact {json : Json} (hplain : json.Plain) : ofText? json.compact = some json := by
  have hread := readsBack hplain (awaits_wantsValue []) (Text.stops_nil _)
  rw [List.append_nil] at hread
  rw [ofText?_eq_advance?, hread]
  simp [advance?, JsonToken.ofText?, finish?]

end Json

end Lindenmayer
