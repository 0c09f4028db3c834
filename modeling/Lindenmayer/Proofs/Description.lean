import Lindenmayer.Description
import Lindenmayer.Proofs.Json
import Lindenmayer.Proofs.Outcome

/-!
# Descriptions kept as JSON

A description is written as a plain JSON value, and each of its fields is read back from the member
that holds it. What is left of the reading is then the check of the constants. So a description is
read back from its own text if its constants are single characters.
-/

namespace Lindenmayer

/-! ## A description is a plain value -/

theorem Json.plain_ofMembers {members : List (String × Json)}
    (hmembers : ∀ member ∈ members, member.2.Plain) : (ofMembers members).Plain := by
  refine .object ?_ ?_
  · rintro _ hmem
    obtain ⟨member, -, rfl⟩ := List.mem_map.mp hmem
    exact ⟨member.1.toList, rfl⟩
  · rintro _ hmem
    obtain ⟨member, hmember, rfl⟩ := List.mem_map.mp hmem
    exact hmembers member hmember

theorem Json.plain_array_map {α : Type} {write : α → Json} (hwrite : ∀ a, (write a).Plain)
    (items : List α) : (array (items.map write)).Plain := by
  refine .array fun _ hmem => ?_
  obtain ⟨a, -, rfl⟩ := List.mem_map.mp hmem
  exact hwrite a

namespace Description

theorem plain_listJson (texts : List Text) : (listJson texts).Plain :=
  Json.plain_array_map .ofText texts

theorem plain_toJson (description : Description) : description.toJson.Plain := by
  refine Json.plain_ofMembers fun member hmem => ?_
  simp only [List.mem_append, List.mem_cons, List.not_mem_nil, or_false, Option.mem_toList,
    Option.map_eq_some_iff] at hmem
  rcases hmem with (((rfl | rfl | rfl | rfl | rfl | rfl) | ⟨limit, -, rfl⟩) | ⟨seed, -, rfl⟩)
  · exact plain_listJson _
  · exact plain_listJson _
  · exact plain_listJson _
  · exact .ofText _
  · exact Json.plain_array_map (fun _ => plain_listJson _) _
  · exact .ofNat _
  · exact .ofNat _
  · exact .ofNat _

/-! ## Values are read back -/

theorem text?_ofText (text : Text) : text? (.ofText text) = some text :=
  JsonString.text?_ofText text

theorem listOf?_map {α : Type} {read : Json → Option α} {write : α → Json}
    (hread : ∀ a, read (write a) = some a) (items : List α) :
    listOf? read (.array (items.map write)) = some items := by
  have hinverse : read ∘ write = fun a => pure a := funext hread
  rw [listOf?, List.mapM_map, hinverse, List.mapM_pure, List.map_id']
  rfl

theorem listOf?_listJson (texts : List Text) : listOf? text? (listJson texts) = some texts :=
  listOf?_map text?_ofText texts

theorem rule?_listJson (rule : Text × Text) : rule? (listJson [rule.1, rule.2]) = some rule := by
  change (text? (.ofText rule.1)).bind (fun predecessor => (text? (.ofText rule.2)).bind
    fun successor => some (predecessor, successor)) = some rule
  rw [text?_ofText, text?_ofText]
  rfl

theorem number?_ofNat (n : UInt64) : number? (.ofNat n.toNat) = some n := by
  have hdigits := all_isDigit_toDigits n.toNat
  have hvalue : digitsValue (Nat.toDigits 10 n.toNat) = n.toNat := Nat.ofDigitChars_ten_toDigits
  change uint64OfDigits? (Nat.toDigits 10 n.toNat) = some n
  rw [uint64OfDigits?, hvalue, if_pos ⟨Nat.toDigits_ne_nil, hdigits, n.toNat_lt_size⟩,
    UInt64.ofNat_toNat]

/-! ## Fields are read back -/

section Fields

variable {fields : List (Text × Json)} {name : String}

theorem required?_of_lookup {α : Type} {read : Json → Option α} {json : Json} {a : α}
    (hlookup : fields.lookup name.toList = some json) (hread : read json = some a) :
    required? fields name read = some a := by
  rw [required?, hlookup]
  exact hread

theorem optional?_of_lookup {α : Type} {default : α} {read : Json → Option α} {json : Json} {a : α}
    (hlookup : fields.lookup name.toList = some json) (hread : read json = some a) :
    optional? fields name default read = some a := by
  rw [optional?, hlookup]
  exact hread

/-- A number that is absent is read back from no field at all. -/
theorem optional?_number {number : Option UInt64}
    (hlookup : fields.lookup name.toList = number.map fun n => .ofNat n.toNat) :
    optional? fields name none optionalNumber? = some number := by
  cases number with
  | none => rw [optional?, hlookup, Option.map_none]
  | some n =>
      refine optional?_of_lookup hlookup ?_
      change (number? (.ofNat n.toNat)).map some = _
      rw [number?_ofNat, Option.map_some]

/-- The members of an object are its fields, if no field is given twice. -/
theorem fields?_ofMembers {members : List (String × Json)}
    (hcount : ∀ name ∈ fieldNames, (members.map (·.1.toList)).count name ≤ 1) :
    fields? (.ofMembers members) =
      some (members.map fun member => (member.1.toList, member.2)) := by
  have hread (member : String × Json) :
      ((JsonString.ofText member.1.toList).text?.map fun key => (key, member.2)) =
        pure (member.1.toList, member.2) := by
    rw [JsonString.text?_ofText]
    rfl
  have hfields : (members.map fun member => (JsonString.ofText member.1.toList, member.2)).mapM
      (fun member => member.1.text?.map fun key => (key, member.2)) =
        some (members.map fun member => (member.1.toList, member.2)) := by
    rw [List.mapM_map]
    exact (congrArg (List.mapM · members) (funext hread)).trans List.mapM_pure
  have hkeys : (members.map fun member => (member.1.toList, member.2)).map (·.1) =
      members.map (·.1.toList) := List.map_map
  refine (congrArg (Option.bind · _) hfields).trans (if_pos ?_)
  rw [hkeys, List.all_eq_true]
  exact fun name hname => decide_eq_true (hcount name hname)

end Fields

structure FieldsOf (description : Description) (fields : List (Text × Json)) : Prop where
  variableNames :
    fields.lookup "variables".toList = some (listJson description.variableNames)
  functionNames :
    fields.lookup "functions".toList = some (listJson description.functionNames)
  constants : fields.lookup "constants".toList = some (listJson description.constants)
  start : fields.lookup "axiom".toList = some (.ofText description.start)
  rules : fields.lookup "rules".toList =
    some (.array (description.rules.map fun rule => listJson [rule.1, rule.2]))
  iterations : fields.lookup "iterations".toList = some (.ofNat description.iterations.toNat)
  maxTokens :
    fields.lookup "max_tokens".toList = description.maxTokens.map fun limit => .ofNat limit.toNat
  seed : fields.lookup "seed".toList = description.seed.map fun seed => .ofNat seed.toNat

theorem exists_fieldsOf (description : Description) :
    ∃ fields, fields? description.toJson = some fields ∧ FieldsOf description fields := by
  obtain ⟨variableNames, functionNames, constants, start, rules, iterations, maxTokens, seed⟩ :=
    description
  refine ⟨_, fields?_ofMembers ?_, ?_⟩
  · cases maxTokens <;> cases seed <;>
      simp only [Option.map, Option.toList, List.map_append, List.map] <;> decide
  · cases maxTokens <;> cases seed <;>
      simp only [Option.map, Option.toList, List.map_append, List.map] <;>
      exact ⟨rfl, rfl, rfl, rfl, rfl, rfl, rfl, rfl⟩

theorem FieldsOf.ofFields? {description : Description} {fields : List (Text × Json)}
    (h : FieldsOf description fields) : ofFields? fields = some description := by
  rw [Description.ofFields?,
    required?_of_lookup h.variableNames (listOf?_listJson _),
    optional?_of_lookup h.functionNames (listOf?_listJson _),
    optional?_of_lookup h.constants (listOf?_listJson _),
    required?_of_lookup h.start (text?_ofText _),
    optional?_of_lookup h.rules (listOf?_map rule?_listJson _),
    optional?_of_lookup h.iterations (number?_ofNat _),
    optional?_number h.maxTokens, optional?_number h.seed]
  rfl

/-! ## The text of a description -/

/-- Of the text of a description only the constants can be refused. -/
theorem ofText_compact (description : Description) :
    ofText description.toJson.compact = description.alphabet.map fun _ => description := by
  obtain ⟨fields, hfields, hvalues⟩ := exists_fieldsOf description
  rw [ofText, Json.ofText?_compact (plain_toJson description), Option.bind_some, hfields,
    Option.bind_some, hvalues.ofFields?]

theorem constantChar_of_length {constant : Text} (h : constant.length = 1) :
    ∃ c, constantChar constant = .ok c := by
  obtain ⟨c, rfl⟩ := List.length_eq_one_iff.mp h
  exact ⟨c, rfl⟩

theorem exists_alphabet {description : Description}
    (hconstants : ∀ constant ∈ description.constants, constant.length = 1) :
    ∃ alphabet, description.alphabet = .ok alphabet := by
  unfold alphabet
  cases hmap : description.constants.mapM constantChar with
  | ok constants => exact ⟨_, rfl⟩
  | error error =>
      obtain ⟨constant, hmem, hrefused⟩ := Except.exists_of_mapM hmap
      obtain ⟨c, hc⟩ := constantChar_of_length (hconstants constant hmem)
      rw [hc] at hrefused
      cases hrefused

/-- A description whose constants are single characters is read back from its text, whatever the
characters of its texts and the numbers are, with a limit and a seed or without. -/
theorem ofText_compact_of_constants (description : Description)
    (hconstants : ∀ constant ∈ description.constants, constant.length = 1) :
    ofText description.toJson.compact = .ok description := by
  obtain ⟨alphabet, halphabet⟩ := exists_alphabet hconstants
  rw [ofText_compact, halphabet]
  rfl

def ornate : Description where
  variableNames := ["F\"\\/".toList, [], "a\nb\tc\x00\x1f\x7f".toList]
  functionNames := ["größe".toList, "𝔉".toList]
  constants := ["\"".toList, "\\".toList, "\x08".toList, "🌱".toList]
  start := "F(\"é\",\\u0041)\r\x0c".toList
  rules := [("F".toList, "\u2028F[+F]\uffff".toList), ([], [])]
  iterations := 18446744073709551615
  maxTokens := some 0
  seed := some 9223372036854775808

theorem ofText_compact_ornate :
    (∀ constant ∈ ornate.constants, constant.length = 1) ∧
      ofText ornate.toJson.compact = .ok ornate :=
  have hconstants : ∀ constant ∈ ornate.constants, constant.length = 1 := by decide
  ⟨hconstants, ofText_compact_of_constants ornate hconstants⟩

end Description

end Lindenmayer
