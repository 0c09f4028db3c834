import Lindenmayer.Proofs.Text.Segments
import Lindenmayer.Proofs.Word.Notation

/-!
# What reading makes of a text

Symbols are read off the front of a text, each together with the blanks behind it, until nothing is
left or the rest of the text begins with no symbol of the alphabet. So whatever is read can be
written, up to such a rest, and but for blanks and empty parameter lists nothing of the text is
lost.
-/

namespace Lindenmayer

/-! ## Texts without blanks -/

def Text.withoutBlanks (text : Text) : Text := text.filter fun c => !isBlankChar c

namespace Text

@[simp]
theorem withoutBlanks_append (u v : Text) :
    (u ++ v).withoutBlanks = u.withoutBlanks ++ v.withoutBlanks :=
  List.filter_append u v

theorem withoutBlanks_cons {c : Char} (hc : isBlankChar c = false) (text : Text) :
    withoutBlanks (c :: text) = c :: text.withoutBlanks :=
  List.filter_cons_of_pos (by simp [hc])

@[simp]
theorem withoutBlanks_openParen (text : Text) :
    withoutBlanks ('(' :: text) = '(' :: text.withoutBlanks :=
  withoutBlanks_cons not_isBlankChar_openParen text

@[simp]
theorem withoutBlanks_closeParen (text : Text) :
    withoutBlanks (')' :: text) = ')' :: text.withoutBlanks :=
  withoutBlanks_cons not_isBlankChar_closeParen text

theorem withoutBlanks_of_isBlank {text : Text} (hblank : text.isBlank = true) :
    text.withoutBlanks = [] := by
  rw [withoutBlanks, List.filter_eq_nil_iff]
  intro c hmem
  simp [List.all_eq_true.mp hblank c hmem]

theorem withoutBlanks_trim (text : Text) : text.trim.withoutBlanks = text.withoutBlanks := by
  obtain ⟨before, after, hbefore, hafter, htext⟩ := exists_trim_pad text
  conv_rhs => rw [htext]
  rw [withoutBlanks_append, withoutBlanks_append, withoutBlanks_of_isBlank hbefore,
    withoutBlanks_of_isBlank hafter, List.nil_append, List.append_nil]

/-- A text begins with blanks, if any, and goes on with its trimmed part. -/
theorem exists_trimStart_pad (text : Text) :
    ∃ gap : Text, gap.isBlank = true ∧ text = gap ++ text.trimStart :=
  ⟨text.takeWhile isBlankChar, List.all_takeWhile, List.takeWhile_append_dropWhile.symm⟩

end Text

namespace Alphabet

variable {alphabet : Alphabet}

/-! ## One symbol -/

/-- No symbol of the alphabet begins the text. -/
structure Foreign (alphabet : Alphabet) (text : Text) : Prop where
  noConstant : ∀ c ∈ alphabet.constants, ¬[c] <+: text
  noVariable : ∀ name ∈ alphabet.variableNames, name ≠ [] → ¬name <+: text

/-- What can be read off the front of a text, and the rest that it leaves. -/
inductive Consumes (alphabet : Alphabet) : Text → Symbol → Text → Prop where
  | constant {c : Char} {gap rest : Text} : c ∈ alphabet.constants → gap.isBlank = true →
      Consumes alphabet (c :: (gap ++ rest)) (.bare [c]) rest
  | bare {name gap rest : Text} : name ∈ alphabet.variableNames → gap.isBlank = true →
      Consumes alphabet (name ++ (gap ++ rest)) (.bare name) rest
  | emptyList {name gap inner after rest : Text} : name ∈ alphabet.variableNames →
      gap.isBlank = true → inner.isBlank = true → after.isBlank = true →
        Consumes alphabet (name ++ (gap ++ '(' :: (inner ++ ')' :: (after ++ rest)))) (.bare name)
          rest
  | list {name gap after rest : Text} {args : List Text} : name ∈ alphabet.variableNames →
      gap.isBlank = true → args ≠ [] → (∀ arg ∈ args, Text.IsParameter arg) →
        after.isBlank = true →
          Consumes alphabet
            (name ++ (gap ++ '(' :: (Text.join [','] args ++ ')' :: (after ++ rest))))
            ⟨name, some args⟩ rest
  | foreign {text : Text} : alphabet.Foreign text → Consumes alphabet text (.bare text) []

theorem exists_of_takeVariable? {text name rest : Text}
    (h : alphabet.takeVariable? text = some (name, rest)) :
    name ∈ alphabet.variableNames ∧
      ∃ gap : Text, gap.isBlank = true ∧ text = name ++ (gap ++ rest) := by
  obtain ⟨hname, -, after, rfl, rfl⟩ := takeVariable?_eq_some h
  obtain ⟨gap, hgap, hsplit⟩ := Text.exists_trimStart_pad after
  exact ⟨hname, gap, hgap, congrArg (name ++ ·) hsplit⟩

theorem foreign_of_takeVariable? {c : Char} {text : Text} (hc : alphabet.isConstant c ≠ true)
    (h : alphabet.takeVariable? (c :: text) = none) : alphabet.Foreign (c :: text) where
  noConstant := by
    intro d hd hprefix
    rw [(List.cons_prefix_cons.mp hprefix).1] at hd
    exact hc (isConstant_iff.mpr hd)
  noVariable := by
    intro name hname hne hbegins
    have hnone := List.findSome?_eq_none_iff.mp h name hname
    rw [if_pos ⟨hne, hbegins⟩] at hnone
    cases hnone

/-- A parameter list between parentheses is blank, or it is its parameters between commas. -/
theorem consumes_group {name gap inner after rest : Text} {args : List Text}
    (hname : name ∈ alphabet.variableNames) (hgap : gap.isBlank = true)
    (hafter : after.isBlank = true) (hargs : Text.splitParameters inner = .ok args) :
    alphabet.Consumes (name ++ (gap ++ '(' :: (inner ++ ')' :: (after ++ rest))))
      (.withArgs name args) rest := by
  cases hinner : inner.isBlank with
  | true =>
      rw [Text.splitParameters_of_isBlank hinner] at hargs
      cases hargs
      exact .emptyList hname hgap hinner hafter
  | false =>
      obtain ⟨hne, hjoin⟩ := Text.join_of_splitParameters hinner hargs
      rw [← hjoin, Symbol.withArgs, if_neg hne]
      exact .list hname hgap hne (fun arg => Text.isParameter_of_mem_splitParameters hargs) hafter

theorem consumes_of_readSymbol {c : Char} {text rest : Text} {symbol : Symbol}
    (h : alphabet.readSymbol c text = .ok (symbol, rest)) :
    alphabet.Consumes (c :: text) symbol rest := by
  by_cases hc : alphabet.isConstant c = true
  · rw [readSymbol_of_constant hc] at h
    cases h
    obtain ⟨gap, hgap, htext⟩ := Text.exists_trimStart_pad text
    have hread : alphabet.Consumes (c :: (gap ++ text.trimStart)) (.bare [c]) text.trimStart :=
      .constant (isConstant_iff.mp hc) hgap
    rwa [← htext] at hread
  cases htake : alphabet.takeVariable? (c :: text) with
  | none =>
      rw [readSymbol_of_none hc htake] at h
      cases h
      exact .foreign (foreign_of_takeVariable? hc htake)
  | some taken =>
      obtain ⟨name, after⟩ := taken
      obtain ⟨hname, gap, hgap, htext⟩ := exists_of_takeVariable? htake
      by_cases hparen : after.head? = some '('
      · obtain ⟨inside, rfl⟩ := List.head?_eq_some_iff.mp hparen
        rw [readSymbol_of_openParen hc htake] at h
        cases hgroup : Text.splitGroup? 1 inside with
        | none => simp [hgroup] at h
        | some group =>
            obtain ⟨inner, behind⟩ := group
            rw [hgroup] at h
            obtain ⟨args, hargs, hpair⟩ := Except.map_eq_ok_iff.mp h
            cases hpair
            obtain ⟨after, hafter, hbehind⟩ := Text.exists_trimStart_pad behind
            have hread : alphabet.Consumes
                (name ++ (gap ++ '(' :: (inner ++ ')' :: (after ++ behind.trimStart))))
                (.withArgs name args) behind.trimStart :=
              consumes_group hname hgap hafter hargs
            rwa [← hbehind, ← Text.eq_of_splitGroup? hgroup, ← htext] at hread
      · rw [readSymbol_of_bare hc htake hparen] at h
        cases h
        rw [htext]
        exact .bare hname hgap

namespace Consumes

variable {text rest : Text} {symbol : Symbol}

/-- What is read can be written, or else it is all the rest of the text. -/
theorem spells_or_foreign (hconsumes : alphabet.Consumes text symbol rest) :
    alphabet.Spells symbol ∨ alphabet.Foreign text ∧ symbol = .bare text ∧ rest = [] := by
  cases hconsumes with
  | constant hc => exact Or.inl (.constant hc)
  | bare hname => exact Or.inl (.bare hname)
  | emptyList hname => exact Or.inl (.bare hname)
  | list hname _ hne hargs => exact Or.inl (.list hname hne hargs)
  | foreign hforeign => exact Or.inr ⟨hforeign, rfl, rfl⟩

theorem rest_suffix (hconsumes : alphabet.Consumes text symbol rest) : rest <:+ text := by
  cases hconsumes with
  | @constant c gap => exact ⟨c :: gap, rfl⟩
  | @bare name gap => exact ⟨name ++ gap, by simp⟩
  | @emptyList name gap inner after =>
      exact ⟨name ++ gap ++ '(' :: (inner ++ ')' :: after), by simp⟩
  | @list name gap after _ args =>
      exact ⟨name ++ gap ++ '(' :: (Text.join [','] args ++ ')' :: after), by simp⟩
  | foreign => exact List.nil_suffix

/-- Nothing but blanks and an empty parameter list can be lost with a symbol. -/
theorem withoutBlanks_eq (hconsumes : alphabet.Consumes text symbol rest) :
    text.withoutBlanks = symbol.text.withoutBlanks ++ rest.withoutBlanks ∨
      text.withoutBlanks = symbol.text.withoutBlanks ++ '(' :: ')' :: rest.withoutBlanks := by
  cases hconsumes with
  | constant _ hgap =>
      left
      rw [← List.singleton_append, Text.withoutBlanks_append, Text.withoutBlanks_append,
        Text.withoutBlanks_of_isBlank hgap]
      rfl
  | bare _ hgap =>
      left
      rw [Text.withoutBlanks_append, Text.withoutBlanks_append, Text.withoutBlanks_of_isBlank hgap]
      rfl
  | emptyList _ hgap hinner hafter =>
      right
      simp only [Text.withoutBlanks_append, Text.withoutBlanks_openParen,
        Text.withoutBlanks_closeParen, Text.withoutBlanks_of_isBlank hgap,
        Text.withoutBlanks_of_isBlank hinner, Text.withoutBlanks_of_isBlank hafter,
        List.nil_append]
      rfl
  | list _ hgap _ _ hafter =>
      left
      simp only [Symbol.text, Text.withoutBlanks_append, Text.withoutBlanks_openParen,
        Text.withoutBlanks_closeParen, Text.withoutBlanks_of_isBlank hgap,
        Text.withoutBlanks_of_isBlank hafter, List.nil_append, List.append_assoc,
        List.cons_append]
      rfl
  | foreign =>
      left
      exact (List.append_nil _).symm

end Consumes

/-! ## Whole words -/

/-- The word is read from the text, symbol by symbol, and nothing is left. -/
inductive Reads (alphabet : Alphabet) : Text → Word → Prop where
  | nil : Reads alphabet [] []
  | cons {c : Char} {text rest : Text} {symbol : Symbol} {word : Word} :
      alphabet.Consumes (c :: text) symbol rest → Reads alphabet rest word →
        Reads alphabet (c :: text) (symbol :: word)

theorem reads_of_readWordFrom {text : Text} {word : Word}
    (h : alphabet.readWordFrom text = .ok word) : alphabet.Reads text word := by
  fun_induction readWordFrom alphabet text generalizing word with
  | case1 =>
      cases h
      exact .nil
  | case2 => cases h
  | case3 c text symbol rest hsymbol ih =>
      obtain ⟨others, hothers, rfl⟩ := Except.map_eq_ok_iff.mp h
      exact .cons (consumes_of_readSymbol hsymbol) (ih hothers)

namespace Reads

variable {text : Text} {word : Word}

/-- The symbols that are read can be written, but for the last one, which may be a rest of the text
that no symbol of the alphabet begins. -/
theorem spells_or_last (hreads : alphabet.Reads text word) {before after : Word} {symbol : Symbol}
    (hword : word = before ++ symbol :: after) :
    alphabet.Spells symbol ∨
      after = [] ∧ symbol = .bare symbol.name ∧ alphabet.Foreign symbol.name ∧
        symbol.name <:+ text := by
  induction hreads generalizing before with
  | nil => simp at hword
  | @cons c text rest first word hconsumes hreads ih =>
      cases before with
      | nil =>
          cases hword
          refine hconsumes.spells_or_foreign.imp_right ?_
          rintro ⟨hforeign, rfl, rfl⟩
          cases hreads
          exact ⟨rfl, rfl, hforeign, List.suffix_rfl⟩
      | cons other before =>
          cases hword
          refine (ih rfl).imp_right ?_
          rintro ⟨hlast, hbare, hforeign, hsuffix⟩
          exact ⟨hlast, hbare, hforeign, hsuffix.trans hconsumes.rest_suffix⟩

/-- Without empty parameter lists in the text, only blanks are lost. -/
theorem withoutBlanks_text (hreads : alphabet.Reads text word)
    (hlists : ¬['(', ')'] <:+: text.withoutBlanks) :
    (Word.text word).withoutBlanks = text.withoutBlanks := by
  induction hreads with
  | nil => rfl
  | @cons c text rest symbol word hconsumes hreads ih =>
      rw [Word.text_cons, Text.withoutBlanks_append]
      rcases hconsumes.withoutBlanks_eq with htext | htext
      · rw [htext] at hlists ⊢
        rw [ih fun hrest => hlists (hrest.trans (List.suffix_append _ _).isInfix)]
      · rw [htext] at hlists
        exact absurd ⟨symbol.text.withoutBlanks, rest.withoutBlanks, by simp⟩ hlists

end Reads

/-- Among the symbols that are read, those with a name of the alphabet can be written. -/
theorem spells_of_readWord {text : Text} {word : Word} (h : alphabet.readWord text = .ok word)
    {symbol : Symbol} (hmem : symbol ∈ word) (hname : symbol.name ∈ alphabet.symbolNames) :
    alphabet.Spells symbol := by
  obtain ⟨before, after, hword⟩ := List.append_of_mem hmem
  rcases (reads_of_readWordFrom h).spells_or_last hword with hspells | ⟨-, hbare, -⟩
  · exact hspells
  · rw [hbare]
    exact spells_bare_iff.mpr hname

/-- Whatever text is read, its symbols are constants without parameters and variables, up to a last
one that is a rest of the text which no symbol of the alphabet begins; parameter lists are not empty
and have proper parameters; and blanks apart, the word is written like the text, if that has no
empty parameter list. -/
theorem symbols_of_readWord {text : Text} {word : Word} (h : alphabet.readWord text = .ok word) :
    (∀ before symbol after, word = before ++ symbol :: after →
      (∃ c ∈ alphabet.constants, symbol = .bare [c]) ∨
        symbol.name ∈ alphabet.variableNames ∨
          after = [] ∧ symbol.args = none ∧ alphabet.Foreign symbol.name ∧
            symbol.name <:+ text.trim) ∧
      (∀ symbol ∈ word, ∀ args, symbol.args = some args →
        args ≠ [] ∧ ∀ arg ∈ args, Text.IsParameter arg) ∧
        (¬['(', ')'] <:+: text.withoutBlanks →
          (Word.text word).withoutBlanks = text.withoutBlanks) := by
  have hreads : alphabet.Reads text.trim word := reads_of_readWordFrom h
  refine ⟨fun before symbol after hword => ?_, fun symbol hmem args hargs => ?_, fun hlists => ?_⟩
  · rcases hreads.spells_or_last hword with hspells | ⟨hlast, hbare, hforeign, hsuffix⟩
    · cases hspells with
      | constant hc => exact Or.inl ⟨_, hc, rfl⟩
      | bare hname => exact Or.inr (Or.inl hname)
      | list hname => exact Or.inr (Or.inl hname)
    · refine Or.inr (Or.inr ⟨hlast, ?_, hforeign, hsuffix⟩)
      rw [hbare]
      rfl
  · obtain ⟨before, after, hword⟩ := List.append_of_mem hmem
    rcases hreads.spells_or_last hword with hspells | ⟨-, hbare, -⟩
    · cases hspells with
      | constant => cases hargs
      | bare => cases hargs
      | list _ hne hparameters =>
          cases hargs
          exact ⟨hne, hparameters⟩
    · rw [hbare] at hargs
      cases hargs
  · rw [← Text.withoutBlanks_trim text] at hlists ⊢
    exact hreads.withoutBlanks_text hlists

def looseText : Text := " fwd (1, max( 2,(a))*(b) )[ +leaf ] ? leaf ".toList

/-- What is read from it, up to the rest, and the rest. -/
theorem symbols_of_readWord_loose :
    leafy.readWord looseText = .ok (groupedWord ++ [.bare "? leaf".toList]) ∧
      (leafy.Foreign "? leaf".toList ∧ "? leaf".toList <:+ looseText.trim) ∧
        Text.withoutBlanks (Word.text (groupedWord ++ [.bare "? leaf".toList])) =
          looseText.withoutBlanks := by
  have hread : leafy.readWord looseText = .ok (groupedWord ++ [.bare "? leaf".toList]) := by
    with_unfolding_all rfl
  obtain ⟨hsymbols, -, htext⟩ := symbols_of_readWord hread
  refine ⟨hread, ?_, htext (by with_unfolding_all decide)⟩
  rcases hsymbols groupedWord (.bare "? leaf".toList) [] rfl with ⟨c, -, hc⟩ | hname | hlast
  · cases hc
  · exact absurd hname (by decide)
  · exact hlast.2.2

end Alphabet

end Lindenmayer
