import Lindenmayer.Proofs.Outcome
import Lindenmayer.Proofs.Text.Balance
import Lindenmayer.Proofs.Text.Trim
import Lindenmayer.Word.Parsing

/-!
# Words and their notation

The notation of a word puts its symbols next to each other, with nothing between them. If no name of
the alphabet begins another one, the notation still shows where each symbol ends, and reading it
gives the word back.
-/

namespace Lindenmayer

theorem Word.text_cons (symbol : Symbol) (rest : Word) :
    Word.text (symbol :: rest) = symbol.text ++ Word.text rest :=
  List.flatMap_cons

namespace Alphabet

/-! ## Clear alphabets -/

def symbolNames (alphabet : Alphabet) : List Text :=
  alphabet.variableNames ++ alphabet.constants.map fun c => [c]

/-- The names of symbols can be told apart, and told from parameter lists and blanks, where they
stand next to each other. -/
structure Clear (alphabet : Alphabet) : Prop where
  notEmpty : ∀ name ∈ alphabet.symbolNames, name ≠ []
  distinct : alphabet.symbolNames.Nodup
  prefixFree : ∀ name ∈ alphabet.symbolNames, ∀ other ∈ alphabet.symbolNames,
    name <+: other → name = other
  noParen : ∀ name ∈ alphabet.symbolNames, name.head? ≠ some '('
  trimmed : ∀ name ∈ alphabet.symbolNames, name.trim = name

instance (alphabet : Alphabet) : Decidable alphabet.Clear :=
  decidable_of_iff
    ((∀ name ∈ alphabet.symbolNames, name ≠ []) ∧ alphabet.symbolNames.Nodup ∧
      (∀ name ∈ alphabet.symbolNames, ∀ other ∈ alphabet.symbolNames,
        name <+: other → name = other) ∧
      (∀ name ∈ alphabet.symbolNames, name.head? ≠ some '(') ∧
        ∀ name ∈ alphabet.symbolNames, name.trim = name)
    ⟨fun h => ⟨h.1, h.2.1, h.2.2.1, h.2.2.2.1, h.2.2.2.2⟩,
      fun h => ⟨h.notEmpty, h.distinct, h.prefixFree, h.noParen, h.trimmed⟩⟩

/-- The symbols that can be written: constants, and variables without parameters or with a list of
parameters that is not empty. -/
inductive Spells (alphabet : Alphabet) : Symbol → Prop where
  | constant {c : Char} : c ∈ alphabet.constants → Spells alphabet (.bare [c])
  | bare {name : Text} : name ∈ alphabet.variableNames → Spells alphabet (.bare name)
  | list {name : Text} {args : List Text} : name ∈ alphabet.variableNames → args ≠ [] →
      (∀ arg ∈ args, Text.IsParameter arg) → Spells alphabet ⟨name, some args⟩

variable {alphabet : Alphabet}

theorem isConstant_iff {c : Char} : alphabet.isConstant c = true ↔ c ∈ alphabet.constants :=
  List.contains_iff_mem

theorem mem_symbolNames_of_variable {name : Text} (hname : name ∈ alphabet.variableNames) :
    name ∈ alphabet.symbolNames :=
  List.mem_append_left _ hname

theorem mem_symbolNames_of_constant {c : Char} (hc : c ∈ alphabet.constants) :
    [c] ∈ alphabet.symbolNames :=
  List.mem_append_right _ (List.mem_map_of_mem hc)

/-- Without parameters, the symbols that can be written are those with a name of the alphabet. -/
theorem spells_bare_iff {name : Text} :
    alphabet.Spells (.bare name) ↔ name ∈ alphabet.symbolNames := by
  constructor
  · intro hspells
    cases hspells with
    | constant hc => exact mem_symbolNames_of_constant hc
    | bare hname => exact mem_symbolNames_of_variable hname
  · intro hname
    rcases List.mem_append.mp hname with hname | hname
    · exact .bare hname
    · obtain ⟨c, hc, rfl⟩ := List.mem_map.mp hname
      exact .constant hc

theorem spells_list_iff {name : Text} {args : List Text} :
    alphabet.Spells ⟨name, some args⟩ ↔
      name ∈ alphabet.variableNames ∧ args ≠ [] ∧ ∀ arg ∈ args, Text.IsParameter arg := by
  constructor
  · intro hspells
    cases hspells with
    | list hname hne hargs => exact ⟨hname, hne, hargs⟩
  · rintro ⟨hname, hne, hargs⟩
    exact .list hname hne hargs

instance (alphabet : Alphabet) : (symbol : Symbol) → Decidable (alphabet.Spells symbol)
  | ⟨_, none⟩ => decidable_of_iff' _ spells_bare_iff
  | ⟨_, some _⟩ => decidable_of_iff' _ spells_list_iff

/-- Only one name begins a text. -/
theorem Clear.eq_of_append (hclear : alphabet.Clear) {name other : Text}
    (hname : name ∈ alphabet.symbolNames) (hother : other ∈ alphabet.symbolNames) {u v : Text}
    (h : name ++ u = other ++ v) : name = other := by
  have hbegins : name <+: other ++ v := h ▸ List.prefix_append name u
  rcases List.prefix_or_prefix_of_prefix hbegins (List.prefix_append other v) with hle | hle
  · exact hclear.prefixFree name hname other hother hle
  · exact (hclear.prefixFree other hother name hname hle).symm

/-- No constant begins a variable. -/
theorem Clear.not_isConstant (hclear : alphabet.Clear) {c : Char} {rest : Text}
    (hname : c :: rest ∈ alphabet.variableNames) : ¬alphabet.isConstant c = true := by
  rw [isConstant_iff]
  intro hc
  have heq : [c] = c :: rest :=
    hclear.eq_of_append (mem_symbolNames_of_constant hc) (mem_symbolNames_of_variable hname)
      (u := rest) (v := []) (by simp)
  have hmem : c :: rest ∈ alphabet.constants.map fun c => [c] :=
    heq ▸ List.mem_map_of_mem hc
  exact (List.nodup_append.mp hclear.distinct).2.2 _ hname _ hmem rfl

/-- No other variable is found where one begins. -/
theorem Clear.takeVariable?_append (hclear : alphabet.Clear) {name : Text}
    (hname : name ∈ alphabet.variableNames) (rest : Text) :
    alphabet.takeVariable? (name ++ rest) = some (name, rest.trimStart) := by
  have hmem := mem_symbolNames_of_variable hname
  cases htake : alphabet.takeVariable? (name ++ rest) with
  | none =>
      have hnone := List.findSome?_eq_none_iff.mp htake name hname
      rw [if_pos ⟨hclear.notEmpty name hmem, List.prefix_append name rest⟩] at hnone
      cases hnone
  | some taken =>
      obtain ⟨found, behind⟩ := taken
      obtain ⟨hfound, -, after, htext, rfl⟩ := takeVariable?_eq_some htake
      obtain rfl := hclear.eq_of_append (mem_symbolNames_of_variable hfound) hmem htext
      rw [List.append_cancel_left htext]

/-! ## Reading what is written -/

theorem readSymbol_of_list {c : Char} {text name inside inner rest : Text} {args : List Text}
    (hc : ¬alphabet.isConstant c = true)
    (htake : alphabet.takeVariable? (c :: text) = some (name, '(' :: inside))
    (hgroup : Text.splitGroup? 1 inside = some (inner, rest))
    (hargs : Text.splitParameters inner = .ok args) :
    alphabet.readSymbol c text = .ok (.withArgs name args, rest.trimStart) := by
  simp only [readSymbol_of_openParen hc htake, hgroup, hargs]
  rfl

theorem readWordFrom_nil : alphabet.readWordFrom [] = .ok [] := by
  rw [readWordFrom]

theorem readWordFrom_cons {c : Char} {text rest : Text} {symbol : Symbol}
    (hsymbol : alphabet.readSymbol c text = .ok (symbol, rest)) :
    alphabet.readWordFrom (c :: text) = (alphabet.readWordFrom rest).map (symbol :: ·) := by
  rw [readWordFrom]
  split
  next found => cases hsymbol.symm.trans found
  next found =>
    cases hsymbol.symm.trans found
    rfl

structure Follows (rest : Text) : Prop where
  stops : Text.Stops isBlankChar rest
  noParen : rest.head? ≠ some '('

/-- A symbol is read where it is written. -/
theorem Clear.readWordFrom_text_append (hclear : alphabet.Clear) {symbol : Symbol}
    (hspells : alphabet.Spells symbol) {rest : Text} (hrest : Follows rest) :
    alphabet.readWordFrom (symbol.text ++ rest) =
      (alphabet.readWordFrom rest).map (symbol :: ·) := by
  have htrim := Text.trimStart_of_stops hrest.stops
  cases hspells with
  | @constant c hc =>
      have hsymbol := readSymbol_of_constant (isConstant_iff.mpr hc) rest
      rw [htrim] at hsymbol
      exact readWordFrom_cons hsymbol
  | @bare name hname =>
      have htake := hclear.takeVariable?_append hname rest
      rw [htrim] at htake
      cases name with
      | nil => exact absurd rfl (hclear.notEmpty [] (mem_symbolNames_of_variable hname))
      | cons c name =>
          exact readWordFrom_cons
            (readSymbol_of_bare (hclear.not_isConstant hname) htake hrest.noParen)
  | @list name args hname hne hargs =>
      -- The parentheses of the parameters balance, so the group ends where it was closed.
      have hcloses : Text.Closes (0 : Nat) (Text.join [','] args) := Text.closes_join hargs
      have hgroup := Text.splitGroup?_append hcloses rest
      have htake := hclear.takeVariable?_append hname
        ('(' :: (Text.join [','] args ++ ')' :: rest))
      rw [Text.trimStart_of_stops (Text.stops_cons.mpr not_isBlankChar_openParen)] at htake
      cases name with
      | nil => exact absurd rfl (hclear.notEmpty [] (mem_symbolNames_of_variable hname))
      | cons c name =>
          have hsymbol := readSymbol_of_list (hclear.not_isConstant hname) htake hgroup
            (Text.splitParameters_join hne hargs)
          rw [htrim, Symbol.withArgs, if_neg hne] at hsymbol
          have htext : Symbol.text ⟨c :: name, some args⟩ ++ rest =
              c :: (name ++ '(' :: (Text.join [','] args ++ ')' :: rest)) := by
            simp [Symbol.text]
          rw [htext]
          exact readWordFrom_cons hsymbol

/-! ## Reading whole words -/

theorem Clear.follows_name (hclear : alphabet.Clear) {name : Text}
    (hname : name ∈ alphabet.symbolNames) : Follows name :=
  ⟨(Text.stops_of_trim_eq_self (hclear.trimmed name hname)).1, hclear.noParen name hname⟩

theorem Clear.stops_reverse_name (hclear : alphabet.Clear) {name : Text}
    (hname : name ∈ alphabet.symbolNames) : Text.Stops isBlankChar name.reverse :=
  (Text.stops_of_trim_eq_self (hclear.trimmed name hname)).2

theorem Follows.append {first rest : Text} (hfirst : Follows first) (hne : first ≠ []) :
    Follows (first ++ rest) := by
  cases first with
  | nil => exact absurd rfl hne
  | cons c first => exact ⟨Text.stops_cons.mpr (Text.stops_cons.mp hfirst.stops), hfirst.noParen⟩

/-- A symbol begins like its name. -/
theorem Clear.follows_text_append (hclear : alphabet.Clear) {symbol : Symbol}
    (hspells : alphabet.Spells symbol) (rest : Text) : Follows (symbol.text ++ rest) := by
  have hbegins name (hname : name ∈ alphabet.symbolNames) (after : Text) :
      Follows (name ++ after) :=
    (hclear.follows_name hname).append (hclear.notEmpty name hname)
  cases hspells with
  | constant hc => exact hbegins _ (mem_symbolNames_of_constant hc) rest
  | bare hname => exact hbegins _ (mem_symbolNames_of_variable hname) rest
  | @list name args hname hne hargs =>
      rw [Symbol.text, List.append_assoc, List.append_assoc]
      exact hbegins name (mem_symbolNames_of_variable hname) _

/-- A symbol ends like its name or with a parenthesis. -/
theorem Clear.stops_reverse_text (hclear : alphabet.Clear) {symbol : Symbol}
    (hspells : alphabet.Spells symbol) : Text.Stops isBlankChar symbol.text.reverse := by
  cases hspells with
  | constant hc => exact hclear.stops_reverse_name (mem_symbolNames_of_constant hc)
  | bare hname => exact hclear.stops_reverse_name (mem_symbolNames_of_variable hname)
  | list hname hne hargs =>
      rw [Symbol.text, List.reverse_append]
      exact Text.stops_cons.mpr not_isBlankChar_closeParen

theorem Clear.follows_wordText (hclear : alphabet.Clear) {word : Word}
    (hspells : ∀ symbol ∈ word, alphabet.Spells symbol) : Follows word.text := by
  cases word with
  | nil => exact ⟨Text.stops_nil _, by simp [Word.text]⟩
  | cons symbol rest =>
      exact hclear.follows_text_append (hspells symbol List.mem_cons_self) (Word.text rest)

theorem Clear.stops_reverse_wordText (hclear : alphabet.Clear) {word : Word}
    (hspells : ∀ symbol ∈ word, alphabet.Spells symbol) :
    Text.Stops isBlankChar word.text.reverse := by
  induction word with
  | nil => exact Text.stops_nil _
  | cons symbol rest ih =>
      rw [Word.text_cons, List.reverse_append]
      exact Text.stops_append
        (ih fun other hmem => hspells other (List.mem_cons_of_mem symbol hmem))
        (hclear.stops_reverse_text (hspells symbol List.mem_cons_self))

theorem Clear.trim_wordText (hclear : alphabet.Clear) {word : Word}
    (hspells : ∀ symbol ∈ word, alphabet.Spells symbol) : Text.trim word.text = word.text :=
  Text.trim_eq_self (hclear.follows_wordText hspells).stops (hclear.stops_reverse_wordText hspells)

/-- The symbols of a word are read one after the other. -/
theorem Clear.readWordFrom_text (hclear : alphabet.Clear) {word : Word}
    (hspells : ∀ symbol ∈ word, alphabet.Spells symbol) :
    alphabet.readWordFrom word.text = .ok word := by
  induction word with
  | nil => exact readWordFrom_nil
  | cons symbol rest ih =>
      have hrest other (hmem : other ∈ rest) := hspells other (List.mem_cons_of_mem symbol hmem)
      rw [Word.text_cons, hclear.readWordFrom_text_append (hspells symbol List.mem_cons_self)
        (hclear.follows_wordText hrest), ih hrest]
      rfl

/-- What is written in a clear alphabet is read back. -/
theorem readWord_text (hclear : alphabet.Clear) {word : Word}
    (hspells : ∀ symbol ∈ word, alphabet.Spells symbol) :
    alphabet.readWord word.text = .ok word := by
  rw [readWord, hclear.trim_wordText hspells, hclear.readWordFrom_text hspells]

def leafy : Alphabet := ⟨["fwd".toList, "leaf".toList], [], ['[', ']', '+']⟩

def groupedWord : Word :=
  [⟨"fwd".toList, some [['1'], " max( 2,(a))*(b) ".toList]⟩, .bare ['['], .bare ['+'],
    .bare "leaf".toList, .bare [']']]

theorem readWord_text_grouped :
    Word.text groupedWord = "fwd(1, max( 2,(a))*(b) )[+leaf]".toList ∧
      leafy.Clear ∧ (∀ symbol ∈ groupedWord, leafy.Spells symbol) ∧
        leafy.readWord groupedWord.text = .ok groupedWord := by
  have hclear : leafy.Clear := by with_unfolding_all decide
  have hspells : ∀ symbol ∈ groupedWord, leafy.Spells symbol := by with_unfolding_all decide
  exact ⟨by with_unfolding_all rfl, hclear, hspells, readWord_text hclear hspells⟩

end Alphabet

end Lindenmayer
