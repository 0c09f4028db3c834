import Lindenmayer.Proofs.Decimal.Numeral
import Lindenmayer.Proofs.Formula.Parsing
import Lindenmayer.Proofs.Text.Trim
import Mathlib.Data.List.Chain

/-!
# Laid out lexemes

The relation behind the lexer: a text is a sequence of written lexemes with layout around them, in
which no lexeme runs on into the text that follows it. The lexer recovers the lexemes of every text
of this form. The texts of expressions have this form, since two operands never stand side by side.
-/

namespace Lindenmayer

namespace Lexeme

inductive Spelled : Lexeme → Text → Prop where
  | number {numeral : Numeral} {written : Text} :
      numeral.Written written → Spelled (.number numeral.toNumber) written
  | name {c : Char} {rest : Text} : isNameStart c = true → rest.all isIdentifierChar = true →
      Spelled (.name (c :: rest)) (c :: rest)
  | operator (operator : Operator) : Spelled (.operator operator) [operator.toChar]
  | openParen : Spelled .openParen ['(']
  | closeParen : Spelled .closeParen [')']

/-- The lexeme does not run on into the text that follows it. -/
def Detached : Lexeme → Text → Prop
  | number _, following => Text.Stops extendsNumeral following
  | name _, following => Text.Stops isIdentifierChar following
  | operator _, _ => True
  | openParen, _ => True
  | closeParen, _ => True

end Lexeme

/-- A text that consists of written lexemes with layout around them. -/
inductive Laid : Text → List Lexeme → Prop where
  | nil : Laid [] []
  | layout {c : Char} {text : Text} {lexemes : List Lexeme} :
      isLayoutChar c = true → Laid text lexemes → Laid (c :: text) lexemes
  | lexeme {lexeme : Lexeme} {written following : Text} {lexemes : List Lexeme} :
      lexeme.Spelled written → lexeme.Detached following → Laid following lexemes →
      Laid (written ++ following) (lexeme.expand following ++ lexemes)

/-! ## Written forms -/

theorem Operator.ofChar?_eq_some_iff {c : Char} {operator : Operator} :
    Operator.ofChar? c = some operator ↔ c = operator.toChar := by
  constructor
  · intro h
    unfold Operator.ofChar? at h
    split at h <;> cases h <;> rfl
  · rintro rfl
    exact Operator.ofChar?_toChar operator

/-- The characters that numerals are written with. -/
theorem Numeral.Written.mem_cases {numeral : Numeral} {written : Text}
    (hwritten : numeral.Written written) {c : Char} (hc : c ∈ written) :
    isIdentifierChar c = true ∨ c = '.' ∨ c = '+' ∨ c = '-' := by
  have hdigits {digits : Text} (hall : digits.all Char.isDigit = true) (hmem : c ∈ digits) :
      isIdentifierChar c = true ∨ c = '.' ∨ c = '+' ∨ c = '-' :=
    .inl (isIdentifierChar_of_isDigit (List.all_eq_true.mp hall c hmem))
  obtain ⟨exponent, hexponent, rfl⟩ := hwritten.text_eq
  rcases List.mem_append.mp hc with hwhole | hc
  · exact hdigits hwritten.whole hwhole
  rcases List.mem_append.mp hc with hfraction | hc
  · cases heq : numeral.fraction with
    | none => simp [heq, fractionText] at hfraction
    | some digits =>
        rw [heq, fractionText, List.mem_cons] at hfraction
        rcases hfraction with rfl | hmem
        · exact .inr (.inl rfl)
        · exact hdigits (hwritten.fraction digits heq) hmem
  · generalize numeral.exponent = written at hexponent
    cases hexponent with
    | none => cases hc
    | some hmark hsign hall _ =>
        rcases List.mem_cons.mp hc with rfl | hc
        · rcases hmark with rfl | rfl <;> exact .inl (by decide)
        rcases List.mem_append.mp hc with hmem | hmem
        · cases hsign <;> simp at hmem <;> simp [hmem]
        · exact hdigits hall hmem

theorem Numeral.Written.not_isBlankChar {numeral : Numeral} {written : Text}
    (hwritten : numeral.Written written) {c : Char} (hc : c ∈ written) : isBlankChar c = false := by
  rcases hwritten.mem_cases hc with hidentifier | rfl | rfl | rfl
  · exact not_isBlankChar_of_isIdentifierChar hidentifier
  all_goals decide

namespace Lexeme

theorem Spelled.not_isBlankChar {lexeme : Lexeme} {written : Text}
    (hspelled : lexeme.Spelled written) {c : Char} (hc : c ∈ written) : isBlankChar c = false := by
  cases hspelled with
  | number hwritten => exact hwritten.not_isBlankChar hc
  | name hstart hrest =>
      rcases List.mem_cons.mp hc with rfl | hmem
      · exact not_isBlankChar_of_isIdentifierChar (isIdentifierChar_of_isNameStart hstart)
      · exact not_isBlankChar_of_isIdentifierChar (List.all_eq_true.mp hrest c hmem)
  | operator operator =>
      obtain rfl := List.mem_singleton.mp hc
      cases operator <;> decide
  | openParen =>
      obtain rfl := List.mem_singleton.mp hc
      decide
  | closeParen =>
      obtain rfl := List.mem_singleton.mp hc
      decide

theorem Spelled.ne_nil {lexeme : Lexeme} {written : Text} (hspelled : lexeme.Spelled written) :
    written ≠ [] := by
  cases hspelled with
  | number hwritten =>
      obtain ⟨c, rest, rfl, -⟩ := hwritten.exists_head
      exact List.cons_ne_nil c rest
  | name _ _ => exact List.cons_ne_nil _ _
  | operator _ => exact List.cons_ne_nil _ _
  | openParen => exact List.cons_ne_nil _ _
  | closeParen => exact List.cons_ne_nil _ _

/-- What begins like a numeral is read as one. -/
theorem take?_numeral {c : Char} (hhead : c.isDigit = true ∨ c = '.') (rest : Text) :
    take? (c :: rest) =
      (Numeral.scan? (c :: rest)).map fun scanned => (number scanned.1.toNumber, scanned.2) := by
  have hclass : isNameStart c = false ∧ c ≠ '(' ∧ c ≠ ')' ∧ Operator.ofChar? c = none := by
    rcases hhead with hdigit | rfl
    · refine ⟨not_isNameStart_of_isDigit hdigit, ?_, ?_, ?_⟩
      · rintro rfl
        cases hdigit
      · rintro rfl
        cases hdigit
      · unfold Operator.ofChar?
        split <;> first | cases hdigit | rfl
    · decide
  obtain ⟨hname, hopen, hclose, hoperator⟩ := hclass
  simp [take?, hname, hopen, hclose, hoperator]

/-- A written lexeme is read again, whatever follows that does not extend it. -/
theorem take?_append {lexeme : Lexeme} {written following : Text}
    (hspelled : lexeme.Spelled written) (hdetached : lexeme.Detached following) :
    take? (written ++ following) = some (lexeme, following) := by
  cases hspelled with
  | @number numeral _ hwritten =>
      obtain ⟨c, rest, rfl, hhead⟩ := hwritten.exists_head
      have hscan := Numeral.scan?_append hwritten hdetached
      rw [List.cons_append] at hscan ⊢
      rw [take?_numeral hhead, hscan]
      rfl
  | name hstart hrest =>
      rw [List.cons_append]
      simp only [take?, hstart, if_true, Text.takeWhile_append_of_stops hrest hdetached,
        Text.dropWhile_append_of_stops hrest hdetached]
  | operator operator => cases operator <;> rfl
  | openParen => rfl
  | closeParen => rfl

theorem spelled_of_take? {text following : Text} {lexeme : Lexeme}
    (h : take? text = some (lexeme, following)) :
    ∃ written, lexeme.Spelled written ∧ text = written ++ following ∧
      ∀ name, lexeme = .name name → Text.Stops isIdentifierChar following := by
  revert h
  fun_cases take? text with
  | case1 => rintro ⟨⟩
  | case2 c rest hstart =>
      rintro ⟨⟩
      refine ⟨_, .name hstart List.all_takeWhile, ?_, fun _ _ => Text.stops_dropWhile _ _⟩
      rw [List.cons_append, List.takeWhile_append_dropWhile]
  | case3 rest =>
      rintro ⟨⟩
      exact ⟨['('], .openParen, rfl, fun _ => Lexeme.noConfusion⟩
  | case4 rest =>
      rintro ⟨⟩
      exact ⟨[')'], .closeParen, rfl, fun _ => Lexeme.noConfusion⟩
  | case5 c rest _ _ _ operator hoperator =>
      rintro ⟨⟩
      obtain rfl := Operator.ofChar?_eq_some_iff.mp hoperator
      exact ⟨_, .operator operator, rfl, fun _ => Lexeme.noConfusion⟩
  | case6 c rest =>
      intro h
      obtain ⟨scanned, hscan, hpair⟩ := Option.map_eq_some_iff.mp h
      cases hpair
      obtain ⟨written, hwritten, htext⟩ := Numeral.written_of_scan? hscan
      exact ⟨written, .number hwritten, htext, fun _ => Lexeme.noConfusion⟩

theorem expand_eq_or (lexeme : Lexeme) (following : Text) :
    (∃ number rest, lexeme = .number number ∧ following = '(' :: rest ∧
      lexeme.expand following = [lexeme, .operator .mul]) ∨ lexeme.expand following = [lexeme] := by
  unfold expand
  split
  · exact Or.inl ⟨_, _, rfl, rfl, rfl⟩
  · exact Or.inr rfl

end Lexeme

/-! ## The lexer -/

theorem lexFrom_layout {c : Char} (hlayout : isLayoutChar c = true) (source text : Text) :
    lexFrom source (c :: text) = lexFrom source text := by
  rw [lexFrom, if_pos hlayout]

theorem lexFrom_lexeme {c : Char} {text following : Text} {lexeme : Lexeme}
    (hlayout : isLayoutChar c = false) (htake : Lexeme.take? (c :: text) = some (lexeme, following))
    (source : Text) :
    lexFrom source (c :: text) = (lexFrom source following).map (lexeme.expand following ++ ·) := by
  rw [lexFrom, if_neg (Bool.eq_false_iff.mp hlayout)]
  split
  next hnone => cases htake.symm.trans hnone
  next hsome =>
    cases htake.symm.trans hsome
    rfl

theorem lexFrom_of_take?_eq_none {c : Char} {text : Text} (hlayout : isLayoutChar c = false)
    (htake : Lexeme.take? (c :: text) = none) (source : Text) :
    lexFrom source (c :: text) = .error (.unexpectedToken [c] source) := by
  rw [lexFrom, if_neg (Bool.eq_false_iff.mp hlayout)]
  split
  next => rfl
  next hsome => cases htake.symm.trans hsome

/-- The lexer recovers the lexemes of a laid out text. -/
theorem Laid.lexFrom {text : Text} {lexemes : List Lexeme} (hlaid : Laid text lexemes)
    (source : Text) : lexFrom source text = .ok lexemes := by
  induction hlaid with
  | nil => rw [Lindenmayer.lexFrom]
  | layout hlayout _ ih => rw [lexFrom_layout hlayout, ih]
  | @lexeme lexeme written following lexemes hspelled hdetached _ ih =>
      have htake := Lexeme.take?_append hspelled hdetached
      cases hwritten : written with
      | nil => exact absurd hwritten hspelled.ne_nil
      | cons c rest =>
          rw [hwritten] at hspelled htake
          have hlayout : isLayoutChar c = false := by
            cases hc : isLayoutChar c with
            | false => rfl
            | true =>
                have hblank := hspelled.not_isBlankChar (List.mem_cons_self)
                rw [isBlankChar_of_isLayoutChar hc] at hblank
                cases hblank
          rw [List.cons_append] at htake ⊢
          rw [lexFrom_lexeme hlayout htake, ih]
          rfl

theorem Laid.eq_lexemes {text : Text} {first second : List Lexeme} (hfirst : Laid text first)
    (hsecond : Laid text second) : first = second := by
  have heq := (hfirst.lexFrom text).symm.trans (hsecond.lexFrom text)
  cases heq
  rfl

/-! ## Putting texts together -/

/-- A character that could belong to an operand before it, or multiply with it. -/
def extendsOperand (c : Char) : Bool :=
  extendsNumeral c || c = '('

theorem extendsOperand_of_extendsNumeral {c : Char} (h : extendsNumeral c = true) :
    extendsOperand c = true := by
  simp [extendsOperand, h]

theorem extendsOperand_of_isIdentifierChar {c : Char} (h : isIdentifierChar c = true) :
    extendsOperand c = true :=
  extendsOperand_of_extendsNumeral (extendsNumeral_of_isIdentifierChar h)

theorem not_extendsOperand_of_isBlankChar {c : Char} (h : isBlankChar c = true) :
    extendsOperand c = false := by
  have hidentifier := not_isIdentifierChar_of_isBlankChar h
  have hpoint : c ≠ '.' := by
    rintro rfl
    exact absurd h (by decide)
  have hopen : c ≠ '(' := by
    rintro rfl
    exact absurd h (by decide)
  simp [extendsOperand, extendsNumeral, hidentifier, hpoint, hopen]

namespace Lexeme

theorem Detached.append {lexeme : Lexeme} {following rest : Text}
    (hdetached : lexeme.Detached following) (hrest : Text.Stops extendsOperand rest) :
    lexeme.Detached (following ++ rest) := by
  cases lexeme with
  | number _ =>
      exact Text.stops_append hdetached
        (hrest.mono fun _ => extendsOperand_of_extendsNumeral)
  | name _ =>
      exact Text.stops_append hdetached
        (hrest.mono fun _ => extendsOperand_of_isIdentifierChar)
  | operator _ => trivial
  | openParen => trivial
  | closeParen => trivial

theorem Detached.cons_append {lexeme : Lexeme} {c : Char} {following : Text}
    (hdetached : lexeme.Detached (c :: following)) (rest : Text) :
    lexeme.Detached (c :: following ++ rest) := by
  cases lexeme with
  | number _ => exact Text.stops_cons.mpr (Text.stops_cons.mp hdetached)
  | name _ => exact Text.stops_cons.mpr (Text.stops_cons.mp hdetached)
  | operator _ => trivial
  | openParen => trivial
  | closeParen => trivial

theorem Detached.nil (lexeme : Lexeme) : lexeme.Detached [] := by
  cases lexeme with
  | number _ => exact Text.stops_nil _
  | name _ => exact Text.stops_nil _
  | operator _ => trivial
  | openParen => trivial
  | closeParen => trivial

theorem Detached.left_of_append {lexeme : Lexeme} {following rest : Text}
    (hdetached : lexeme.Detached (following ++ rest)) : lexeme.Detached following := by
  cases following with
  | nil => exact Detached.nil lexeme
  | cons c following =>
      cases lexeme with
      | number _ => exact Text.stops_cons.mpr (Text.stops_cons.mp hdetached)
      | name _ => exact Text.stops_cons.mpr (Text.stops_cons.mp hdetached)
      | operator _ => trivial
      | openParen => trivial
      | closeParen => trivial

@[simp]
theorem expand_name (t following : Text) : (name t).expand following = [name t] := by
  rcases (name t).expand_eq_or following with ⟨_, _, hnumber, _⟩ | hexpand
  · cases hnumber
  · exact hexpand

@[simp]
theorem expand_nil (lexeme : Lexeme) : lexeme.expand [] = [lexeme] := by
  cases lexeme <;> rfl

theorem expand_of_head? {lexeme : Lexeme} {following : Text}
    (hopen : following.head? ≠ some '(') : lexeme.expand following = [lexeme] := by
  obtain ⟨_, _, -, rfl, -⟩ | hexpand := lexeme.expand_eq_or following
  · exact absurd rfl hopen
  · exact hexpand

theorem expand_cons_of_ne {c : Char} (hc : c ≠ '(') (lexeme : Lexeme) (following : Text) :
    lexeme.expand (c :: following) = [lexeme] :=
  expand_of_head? fun hhead => hc (Option.some.inj hhead)

theorem expand_cons_append (lexeme : Lexeme) (c : Char) (following rest : Text) :
    lexeme.expand (c :: following ++ rest) = lexeme.expand (c :: following) := by
  rw [List.cons_append]
  by_cases hopen : c = '('
  · subst hopen
    cases lexeme <;> rfl
  · rw [expand_cons_of_ne hopen, expand_cons_of_ne hopen]

theorem expand_append (lexeme : Lexeme) (following : Text) {rest : Text}
    (hrest : Text.Stops extendsOperand rest) :
    lexeme.expand (following ++ rest) = lexeme.expand following := by
  cases following with
  | cons c following => exact lexeme.expand_cons_append c following rest
  | nil =>
      rw [List.nil_append, expand_nil]
      cases rest with
      | nil => exact expand_nil lexeme
      | cons c rest =>
          apply expand_cons_of_ne
          rintro rfl
          exact absurd (Text.stops_cons.mp hrest) (by decide)

end Lexeme

/-- Laid out texts can be put together where the second does not extend an operand. -/
theorem Laid.append {first second : Text} {before after : List Lexeme} (hfirst : Laid first before)
    (hsecond : Laid second after) (hstops : Text.Stops extendsOperand second) :
    Laid (first ++ second) (before ++ after) := by
  induction hfirst with
  | nil => exact hsecond
  | layout hlayout _ ih => exact .layout hlayout ih
  | @lexeme lexeme written following lexemes hspelled hdetached _ ih =>
      have hlaid := Laid.lexeme hspelled (hdetached.append hstops) ih
      rw [lexeme.expand_append following hstops] at hlaid
      simpa using hlaid

theorem Laid.of_lexeme {lexeme : Lexeme} {written : Text} (hspelled : lexeme.Spelled written) :
    Laid written [lexeme] := by
  have hlaid := Laid.lexeme hspelled (.nil lexeme) .nil
  simpa using hlaid

/-! ## Blanks around an expression -/

theorem Laid.of_cons {c : Char} {text : Text} {lexemes : List Lexeme}
    (hlaid : Laid (c :: text) lexemes) (hblank : isBlankChar c = true) : Laid text lexemes := by
  generalize hwhole : c :: text = whole at hlaid
  cases hlaid with
  | nil => cases hwhole
  | layout _ hlaid =>
      cases hwhole
      exact hlaid
  | @lexeme lexeme written following lexemes hspelled _ _ =>
      cases hwritten : written with
      | nil => exact absurd hwritten hspelled.ne_nil
      | cons d rest =>
          rw [hwritten] at hwhole hspelled
          cases hwhole
          rw [hspelled.not_isBlankChar List.mem_cons_self] at hblank
          cases hblank

theorem Laid.trimStart {text : Text} {lexemes : List Lexeme} (hlaid : Laid text lexemes) :
    Laid text.trimStart lexemes := by
  rw [Text.trimStart]
  induction text with
  | nil => exact hlaid
  | cons c text ih =>
      cases hblank : isBlankChar c with
      | false => rwa [List.dropWhile_cons_of_neg (by simp [hblank])]
      | true =>
          rw [List.dropWhile_cons_of_pos hblank]
          exact ih (hlaid.of_cons hblank)

theorem stops_extendsOperand_of_blanks {blanks : Text} (hblanks : blanks.all isBlankChar = true) :
    Text.Stops extendsOperand blanks := by
  cases blanks with
  | nil => exact Text.stops_nil _
  | cons c blanks =>
      rw [List.all_cons, Bool.and_eq_true] at hblanks
      exact Text.stops_cons.mpr (not_extendsOperand_of_isBlankChar hblanks.1)

theorem Laid.layout_append {layout text : Text} {lexemes : List Lexeme} (hlaid : Laid text lexemes)
    (hlayout : layout.all isLayoutChar = true) : Laid (layout ++ text) lexemes := by
  induction layout with
  | nil => exact hlaid
  | cons c layout ih =>
      rw [List.all_cons, Bool.and_eq_true] at hlayout
      exact .layout hlayout.1 (ih hlayout.2)

/-- A lexeme in front of a blank ends before it. -/
theorem Lexeme.Spelled.exists_between {lexeme : Lexeme} {written following text rest : Text}
    (hspelled : lexeme.Spelled written)
    (hrest : ∀ c, rest.head? = some c → isBlankChar c = true)
    (heq : text ++ rest = written ++ following) :
    ∃ between, text = written ++ between ∧ following = between ++ rest := by
  rcases List.append_eq_append_iff.mp heq with ⟨overlap, hwritten, hfollowing⟩ | hbetween
  · cases overlap with
    | nil => exact ⟨[], by simp [hwritten], by simp [hfollowing]⟩
    | cons c overlap =>
        have hnot := hspelled.not_isBlankChar (c := c) (by simp [hwritten])
        rw [hrest c (by rw [hfollowing]; rfl)] at hnot
        cases hnot
  · exact hbetween

theorem Laid.of_append {text blanks : Text} {lexemes : List Lexeme}
    (hlaid : Laid (text ++ blanks) lexemes) (hblanks : blanks.all isBlankChar = true) :
    Laid text lexemes := by
  generalize hwhole : text ++ blanks = whole at hlaid
  induction hlaid generalizing text blanks with
  | nil =>
      obtain ⟨rfl, -⟩ := List.append_eq_nil_iff.mp hwhole
      exact .nil
  | layout hlayout _ ih =>
      cases text with
      | cons d text =>
          cases hwhole
          exact .layout hlayout (ih hblanks rfl)
      | nil =>
          rw [List.nil_append] at hwhole
          subst hwhole
          rw [List.all_cons, Bool.and_eq_true] at hblanks
          exact ih hblanks.2 rfl
  | @lexeme lexeme written following lexemes hspelled hdetached _ ih =>
      have hhead (c : Char) (hc : blanks.head? = some c) : isBlankChar c = true :=
        List.all_eq_true.mp hblanks c (List.mem_of_head? hc)
      obtain ⟨between, rfl, rfl⟩ := hspelled.exists_between hhead hwhole
      rw [lexeme.expand_append between (stops_extendsOperand_of_blanks hblanks)]
      exact .lexeme hspelled hdetached.left_of_append (ih hblanks rfl)

/-- The blanks around an expression are layout. -/
theorem Laid.trim {text : Text} {lexemes : List Lexeme} (hlaid : Laid text lexemes) :
    Laid text.trim lexemes := by
  obtain ⟨blanks, hblanks, htext⟩ := Text.exists_trimEnd_append text.trimStart
  have hstart := hlaid.trimStart
  rw [htext] at hstart
  exact hstart.of_append hblanks

/-! ## Separated operands -/

/-- A number or a name: an operand in itself. -/
def Lexeme.isAtom : Lexeme → Bool
  | number _ => true
  | name _ => true
  | operator _ => false
  | openParen => false
  | closeParen => false

theorem Lexeme.detached_of_not_isAtom {lexeme : Lexeme} (hatom : lexeme.isAtom = false)
    (following : Text) : lexeme.Detached following := by
  cases lexeme with
  | number _ => cases hatom
  | name _ => cases hatom
  | operator _ => trivial
  | openParen => trivial
  | closeParen => trivial

theorem Lexeme.expand_of_not_isAtom {lexeme : Lexeme} (hatom : lexeme.isAtom = false)
    (following : Text) : lexeme.expand following = [lexeme] := by
  rcases lexeme.expand_eq_or following with ⟨n, rest, rfl, -, -⟩ | hexpand
  · cases hatom
  · exact hexpand

def Lexeme.continues : Lexeme → Bool
  | number _ => false
  | name _ => false
  | operator _ => true
  | openParen => false
  | closeParen => true

/-- No operand stands directly behind a number or a name. -/
def Separated (lexemes : List Lexeme) : Prop :=
  lexemes.IsChain fun first second => first.isAtom = true → second.continues = true

theorem Reading.continues_of_step {source : Text} {sum : Option (Formula × Operator)}
    {product : Formula} {outer : List Pending} {next : Reading} {lexeme : Lexeme}
    (hstep : step source (.having sum product outer) lexeme = .ok next) :
    lexeme.continues = true := by
  cases lexeme with
  | number n => cases outer <;> cases hstep
  | name t => cases outer <;> cases hstep
  | operator operator => rfl
  | openParen => cases outer <;> cases hstep
  | closeParen => rfl

theorem Reading.having_of_step {source : Text} {reading next : Reading} {lexeme : Lexeme}
    (hatom : lexeme.isAtom = true) (hstep : reading.step source lexeme = .ok next) :
    ∃ sum product outer, next = .having sum product outer := by
  cases reading with
  | having sum product outer =>
      have hcontinues := continues_of_step hstep
      cases lexeme <;> cases hatom <;> cases hcontinues
  | wanting pending outer =>
      cases lexeme with
      | number n =>
          cases hstep
          exact ⟨_, _, _, rfl⟩
      | name t =>
          cases hstep
          exact ⟨_, _, _, rfl⟩
      | operator _ => cases hatom
      | openParen => cases hatom
      | closeParen => cases hatom

theorem Reading.separated_of_run {source : Text} {lexemes : List Lexeme} :
    ∀ {reading final : Reading}, run source reading lexemes = .ok final → Separated lexemes := by
  induction lexemes with
  | nil =>
      intro reading final _
      exact List.IsChain.nil
  | cons first rest ih =>
      intro reading final hrun
      rw [run, List.foldlM_cons, Except.bind_eq_ok_iff] at hrun
      obtain ⟨next, hstep, hrest⟩ := hrun
      refine List.IsChain.cons (ih hrest) ?_
      intro second hsecond hatom
      obtain ⟨sum, product, outer, rfl⟩ := having_of_step hatom hstep
      cases rest with
      | nil => cases hsecond
      | cons head rest =>
          cases hsecond
          rw [List.foldlM_cons, Except.bind_eq_ok_iff] at hrest
          obtain ⟨_, hstep, -⟩ := hrest
          exact continues_of_step hstep

theorem separated_of_ofLexemes {source : Text} {lexemes : List Lexeme} {formula : Formula}
    (h : Formula.ofLexemes source lexemes = .ok formula) : Separated lexemes := by
  obtain ⟨_, hrun, -⟩ := Except.bind_eq_ok_iff.mp h
  exact Reading.separated_of_run hrun

/-- Behind an operand stands nothing that could run into it. -/
theorem Laid.stops {text : Text} {lexemes : List Lexeme} (hlaid : Laid text lexemes)
    (hcontinues : ∀ lexeme, lexemes.head? = some lexeme → lexeme.continues = true) :
    Text.Stops extendsOperand text := by
  cases hlaid with
  | nil => exact Text.stops_nil _
  | layout hlayout _ =>
      rw [Text.stops_cons]
      simp only [isLayoutChar, Bool.or_eq_true, decide_eq_true_eq] at hlayout
      rcases hlayout with (((rfl | rfl) | rfl) | rfl) | rfl <;> decide
  | @lexeme lexeme written following lexemes hspelled _ _ =>
      have hhead : lexeme.continues = true := by
        apply hcontinues
        rcases lexeme.expand_eq_or following with ⟨_, _, _, _, hexpand⟩ | hexpand <;>
          rw [hexpand] <;> rfl
      cases hspelled with
      | number _ => cases hhead
      | name _ _ => cases hhead
      | operator operator =>
          rw [List.cons_append, Text.stops_cons]
          cases operator <;> decide
      | openParen => cases hhead
      | closeParen =>
          rw [List.cons_append, Text.stops_cons]
          decide

/-- The text of separated lexemes is laid out. -/
theorem laid_of_lexFrom {source text : Text} {lexemes : List Lexeme}
    (hlex : lexFrom source text = .ok lexemes) (hseparated : Separated lexemes) :
    Laid text lexemes := by
  fun_induction lexFrom source text generalizing lexemes with
  | case1 =>
      cases hlex
      exact .nil
  | case2 c text hlayout ih => exact .layout hlayout (ih hlex hseparated)
  | case3 => cases hlex
  | case4 c text hlayout lexeme following htake ih =>
      obtain ⟨rest, hrest, rfl⟩ := Except.map_eq_ok_iff.mp hlex
      obtain ⟨written, hspelled, htext, hname⟩ := Lexeme.spelled_of_take? htake
      rw [htext]
      have hlaid : Laid following rest := ih hrest hseparated.right_of_append
      refine .lexeme hspelled ?_ hlaid
      rcases lexeme.expand_eq_or following with ⟨n, inside, rfl, rfl, -⟩ | hexpand
      · simp [Lexeme.Detached]
        decide
      · rw [hexpand] at hseparated
        cases lexeme with
        | number n =>
            refine (hlaid.stops ?_).mono fun c hc => by simp [extendsOperand, hc]
            intro next hnext
            exact hseparated.rel_head? hnext rfl
        | name t => exact hname t rfl
        | operator _ => trivial
        | openParen => trivial
        | closeParen => trivial

/-! ## Cutting texts -/

/-- A text falls apart at layout. -/
theorem Laid.exists_of_layout {c : Char} (hlayout : isLayoutChar c = true) {first second : Text}
    {lexemes : List Lexeme} (hlaid : Laid (first ++ c :: second) lexemes) :
    ∃ before after, Laid first before ∧ Laid second after ∧ lexemes = before ++ after := by
  generalize hwhole : first ++ c :: second = whole at hlaid
  have hblank := isBlankChar_of_isLayoutChar hlayout
  induction hlaid generalizing first with
  | nil => cases (List.append_eq_nil_iff.mp hwhole).2
  | @layout d text lexemes hd hlaid ih =>
      cases first with
      | nil =>
          cases hwhole
          exact ⟨[], lexemes, .nil, hlaid, rfl⟩
      | cons d first =>
          cases hwhole
          obtain ⟨before, after, hbefore, hafter, rfl⟩ := ih rfl
          exact ⟨before, after, .layout hd hbefore, hafter, rfl⟩
  | @lexeme lexeme written following lexemes hspelled hdetached _ ih =>
      obtain ⟨between, rfl, rfl⟩ := hspelled.exists_between (by rintro d ⟨rfl⟩; exact hblank) hwhole
      obtain ⟨before, after, hbefore, hafter, rfl⟩ := ih rfl
      have hstops : Text.Stops extendsOperand (c :: second) :=
        Text.stops_cons.mpr (not_extendsOperand_of_isBlankChar hblank)
      rw [lexeme.expand_append between hstops, ← List.append_assoc]
      exact ⟨_, after, .lexeme hspelled hdetached.left_of_append hbefore, hafter, rfl⟩

/-- A blank text has no lexemes. -/
theorem Laid.eq_nil_of_isBlank {text : Text} {lexemes : List Lexeme} (hlaid : Laid text lexemes)
    (hblank : text.isBlank = true) : lexemes = [] := by
  induction hlaid with
  | nil => rfl
  | layout _ _ ih =>
      rw [Text.isBlank, List.all_cons, Bool.and_eq_true] at hblank
      exact ih hblank.2
  | @lexeme lexeme written following lexemes hspelled _ _ _ =>
      cases hwritten : written with
      | nil => exact absurd hwritten hspelled.ne_nil
      | cons c rest =>
          rw [hwritten] at hspelled hblank
          have hnot := hspelled.not_isBlankChar List.mem_cons_self
          rw [Text.isBlank, List.cons_append, List.all_cons, hnot] at hblank
          cases hblank

/-- Laid out texts can be put together where the first does not end with a number or a name. -/
theorem Laid.append_of_last {first second : Text} {before after : List Lexeme}
    (hfirst : Laid first before) (hsecond : Laid second after)
    (hlast : ∀ lexeme, before.getLast? = some lexeme → lexeme.isAtom = false) :
    Laid (first ++ second) (before ++ after) := by
  induction hfirst with
  | nil => exact hsecond
  | layout hlayout _ ih => exact .layout hlayout (ih hlast)
  | @lexeme lexeme written following lexemes hspelled hdetached hlaid ih =>
      rw [List.append_assoc, List.append_assoc]
      cases following with
      | nil =>
          -- The lexeme is the last one, so nothing that comes next can be a part of it.
          cases hlaid.eq_lexemes .nil
          have hatom := hlast lexeme (by simp)
          rw [Lexeme.expand_nil, ← Lexeme.expand_of_not_isAtom hatom second]
          exact .lexeme hspelled (Lexeme.detached_of_not_isAtom hatom second) hsecond
      | cons c following =>
          have hrest := ih fun last hmem => hlast last (by simp [hmem])
          rw [← lexeme.expand_cons_append c following second]
          exact .lexeme hspelled (hdetached.cons_append second) hrest

end Lindenmayer
