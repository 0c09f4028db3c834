import Lindenmayer.Proofs.Formula.Substitution

/-!
# Substitution piece by piece

The lexer cuts an expression into pieces: the characters between lexemes, and the lexemes as they
are written. Substitution finds its names in the same text by runs of characters. In an expression
it replaces the pieces that are bound names and leaves the other pieces alone, but for the exponent
of a numeral without digits behind its point.
-/

namespace Lindenmayer

/-! ## Pieces -/

/-- A part of an expression as the lexer cuts it. -/
inductive Piece where
  /-- A character between lexemes. -/
  | layout (c : Char)
  /-- A lexeme as it is written. -/
  | lexeme (lexeme : Lexeme) (written : Text)
  deriving DecidableEq

namespace Piece

def text : Piece → Text
  | layout c => [c]
  | lexeme _ written => written

/-- The lexemes that the pieces stand for, each in front of the text of the pieces behind it. -/
def lexemes : List Piece → List Lexeme
  | [] => []
  | layout _ :: pieces => lexemes pieces
  | lexeme first _ :: pieces => first.expand (pieces.flatMap text) ++ lexemes pieces

/-- The text of a piece. If the piece is a bound name, the first value bound to it. -/
def renamed (bindings : List (Text × Text)) : Piece → Text
  | lexeme (.name name) _ => Text.lookupRun bindings name
  | piece => piece.text

def substituted (bindings : List (Text × Text)) : Piece → Text
  | lexeme (.number _) written => Text.substituteNumeral bindings written
  | piece => piece.renamed bindings

theorem substituted_of_isFormalName {bindings : List (Text × Text)}
    (hformal : ∀ binding ∈ bindings, isFormalName binding.1 = true) (piece : Piece) :
    piece.substituted bindings = piece.renamed bindings := by
  cases piece with
  | layout c => rfl
  | lexeme lexeme written =>
      cases lexeme with
      | number n => exact Text.substituteNumeral_of_isFormalName hformal written
      | name t => rfl
      | operator operator => rfl
      | openParen => rfl
      | closeParen => rfl

end Piece

/-- The pieces of a text, if every character outside of layout begins a lexeme or is part of one. -/
def pieces? (text : Text) : Option (List Piece) :=
  match text with
  | [] => some []
  | c :: rest =>
      if isLayoutChar c then
        (pieces? rest).map (.layout c :: ·)
      else
        match _htake : Lexeme.take? (c :: rest) with
        | none => none
        | some (lexeme, following) =>
            (pieces? following).map
              (.lexeme lexeme ((c :: rest).take ((c :: rest).length - following.length)) :: ·)
termination_by text.length
decreasing_by
  · simp
  · exact Lexeme.length_of_take? _htake

theorem take_length_sub_length (written following : Text) :
    (written ++ following).take ((written ++ following).length - following.length) = written := by
  rw [List.length_append, Nat.add_sub_cancel_right, List.take_left]

/-- Nothing of a text is lost between its pieces. -/
theorem flatMap_text_of_pieces? {text : Text} {pieces : List Piece}
    (h : pieces? text = some pieces) : pieces.flatMap Piece.text = text := by
  fun_induction pieces? text generalizing pieces with
  | case1 =>
      cases h
      rfl
  | case2 c rest _ ih =>
      obtain ⟨others, hothers, rfl⟩ := Option.map_eq_some_iff.mp h
      rw [List.flatMap_cons, ih hothers]
      rfl
  | case3 => cases h
  | case4 c rest _ lexeme following htake ih =>
      obtain ⟨others, hothers, rfl⟩ := Option.map_eq_some_iff.mp h
      obtain ⟨written, -, htext, -⟩ := Lexeme.spelled_of_take? htake
      rw [List.flatMap_cons, ih hothers, htext, take_length_sub_length]
      rfl

/-- The lexer reads the lexemes of the pieces, and fails where there are none. -/
theorem toOption_lexFrom (source text : Text) :
    (lexFrom source text).toOption = (pieces? text).map Piece.lexemes := by
  fun_induction pieces? text with
  | case1 =>
      rw [lexFrom]
      rfl
  | case2 c rest hlayout ih =>
      rw [lexFrom_layout hlayout, ih, Option.map_map]
      rfl
  | case3 c rest hlayout htake =>
      rw [lexFrom_of_take?_eq_none (Bool.eq_false_iff.mpr hlayout) htake]
      rfl
  | case4 c rest hlayout lexeme following htake ih =>
      rw [lexFrom_lexeme (Bool.eq_false_iff.mpr hlayout) htake]
      cases hpieces : pieces? following with
      | none =>
          rw [hpieces] at ih
          cases hlex : lexFrom source following with
          | error error => rfl
          | ok lexemes =>
              rw [hlex] at ih
              cases ih
      | some pieces =>
          rw [hpieces] at ih
          cases hlex : lexFrom source following with
          | error error =>
              rw [hlex] at ih
              cases ih
          | ok lexemes =>
              rw [hlex] at ih
              cases ih
              simp only [Option.map_some, Piece.lexemes, flatMap_text_of_pieces? hpieces]
              rfl

theorem pieces?_lexeme {lexeme : Lexeme} {written following : Text}
    (hspelled : lexeme.Spelled written) (hdetached : lexeme.Detached following) :
    pieces? (written ++ following) =
      (pieces? following).map (.lexeme lexeme written :: ·) := by
  have htake := Lexeme.take?_append hspelled hdetached
  have hcut := take_length_sub_length written following
  obtain ⟨c, rest, rfl⟩ := List.exists_cons_of_ne_nil hspelled.ne_nil
  have hlayout : ¬isLayoutChar c = true := by
    intro hlayout
    have hblank := hspelled.not_isBlankChar List.mem_cons_self
    rw [isBlankChar_of_isLayoutChar hlayout] at hblank
    cases hblank
  rw [List.cons_append] at htake hcut ⊢
  rw [pieces?, if_neg hlayout]
  split
  next hnone => cases htake.symm.trans hnone
  next hsome =>
    cases htake.symm.trans hsome
    simp only [hcut]

/-! ## Substitution -/

/-- Substitution replaces the names among the pieces of a laid out text. -/
theorem Laid.exists_pieces {bindings : List (Text × Text)}
    (hnames : ∀ binding ∈ bindings, isName binding.1 = true) {text : Text}
    {lexemes : List Lexeme} (hlaid : Laid text lexemes) :
    ∃ pieces, pieces? text = some pieces ∧
      Text.substitute bindings text = pieces.flatMap (Piece.substituted bindings) := by
  induction hlaid with
  | nil => exact ⟨[], by rw [pieces?], Text.substitute_nil bindings⟩
  | @layout c text _ hlayout _ ih =>
      obtain ⟨pieces, hpieces, hsubstitute⟩ := ih
      have hc := not_isIdentifierChar_of_isBlankChar (isBlankChar_of_isLayoutChar hlayout)
      refine ⟨.layout c :: pieces, by rw [pieces?, if_pos hlayout, hpieces]; rfl, ?_⟩
      rw [Text.substitute_cons_of_not hc, hsubstitute]
      rfl
  | @lexeme lexeme written following _ hspelled hdetached _ ih =>
      obtain ⟨pieces, hpieces, hsubstitute⟩ := ih
      refine ⟨.lexeme lexeme written :: pieces,
        by rw [pieces?_lexeme hspelled hdetached, hpieces]; rfl, ?_⟩
      rw [List.flatMap_cons, ← hsubstitute]
      cases hspelled with
      | number hwritten =>
          have hstops : Text.Stops isIdentifierChar following :=
            Text.Stops.mono hdetached fun _ => extendsNumeral_of_isIdentifierChar
          exact Text.substitute_written_append hnames hwritten hstops
      | @name c rest hstart hrest =>
          have hrun : (c :: rest).all isIdentifierChar = true := by
            rw [List.all_cons, isIdentifierChar_of_isNameStart hstart, hrest]
            rfl
          exact Text.substitute_run_append (List.cons_ne_nil c rest) hrun hdetached
      | operator operator =>
          have hc : isIdentifierChar operator.toChar = false := by
            cases operator <;> decide
          exact Text.substitute_cons_of_not hc following
      | openParen => exact Text.substitute_cons_of_not (by decide) following
      | closeParen => exact Text.substitute_cons_of_not (by decide) following

/-- In an expression, substitution replaces the names that the lexer reads, and of a number at most
the exponent behind a bare point. If no bound name can be such an exponent, it replaces nothing but
the names. -/
theorem substitute_eq_pieces {bindings : List (Text × Text)}
    (hnames : ∀ binding ∈ bindings, isName binding.1 = true) {source : Text} {formula : Formula}
    (hread : Formula.ofText source = .ok formula) :
    ∃ pieces, pieces? source = some pieces ∧ lex source = .ok (Piece.lexemes pieces) ∧
      pieces.flatMap Piece.text = source ∧
      Text.substitute bindings source = pieces.flatMap (Piece.substituted bindings) ∧
      ((∀ binding ∈ bindings, isExponentRun binding.1 = false) →
        Text.substitute bindings source = pieces.flatMap (Piece.renamed bindings)) := by
  obtain ⟨derivation, hlaid, -, -⟩ := Formula.exists_laid hread
  obtain ⟨pieces, hpieces, hsubstitute⟩ := hlaid.exists_pieces hnames
  refine ⟨pieces, hpieces, ?_, flatMap_text_of_pieces? hpieces, hsubstitute, ?_⟩
  · have hlex := toOption_lexFrom source source
    rw [hpieces, hlaid.lexFrom source] at hlex
    rw [lex, hlaid.lexFrom source]
    exact congrArg Except.ok (Option.some.inj hlex)
  · intro hexponent
    have hformal : ∀ binding ∈ bindings, isFormalName binding.1 = true := by
      intro binding hmem
      rw [isFormalName, hnames binding hmem, hexponent binding hmem]
      rfl
    rw [hsubstitute]
    exact congrArg (List.flatMap · pieces) (funext (Piece.substituted_of_isFormalName hformal))

/-- The run `x` is replaced, the run `x1` and the runs of the number are not. -/
theorem substitute_eq_pieces_sum :
    (∀ binding ∈ [(['x'], ['7'])], isName binding.1 = true) ∧
      (∀ binding ∈ [(['x'], ['7'])], isExponentRun binding.1 = false) ∧
      Formula.ofText "x1*2.5+x".toList =
        .ok (.binary (.binary (.name "x1".toList) .mul (.number (.real 2.5))) .add
          (.name ['x'])) ∧
      ∃ pieces, pieces? "x1*2.5+x".toList = some pieces ∧
        "x1*2.5+7".toList = pieces.flatMap (Piece.renamed [(['x'], ['7'])]) := by
  have hnames : ∀ binding ∈ [(['x'], ['7'])], isName binding.1 = true := by decide
  have hexponent : ∀ binding ∈ [(['x'], ['7'])], isExponentRun binding.1 = false := by decide
  have hread : Formula.ofText "x1*2.5+x".toList =
      .ok (.binary (.binary (.name "x1".toList) .mul (.number (.real 2.5))) .add
        (.name ['x'])) := by
    with_unfolding_all rfl
  obtain ⟨pieces, hpieces, -, -, -, hrenamed⟩ := substitute_eq_pieces hnames hread
  have hsubstitute : Text.substitute [(['x'], ['7'])] "x1*2.5+x".toList = "x1*2.5+7".toList := by
    with_unfolding_all rfl
  exact ⟨hnames, hexponent, hread, pieces, hpieces, hsubstitute ▸ hrenamed hexponent⟩

/-- A name that is an exponent behind a bare point is replaced in the number. -/
theorem not_substitute_eq_renamed :
    ¬∀ (bindings : List (Text × Text)) (source : Text) (formula : Formula),
      (∀ binding ∈ bindings, isName binding.1 = true) → Formula.ofText source = .ok formula →
        ∃ pieces, pieces? source = some pieces ∧
          Text.substitute bindings source = pieces.flatMap (Piece.renamed bindings) := by
  intro h
  have hread : Formula.ofText "1.e+5".toList = .ok (.number (.real 100000.0)) := by
    with_unfolding_all rfl
  obtain ⟨pieces, hpieces, hsubstitute⟩ := h [(['e'], ['3'])] _ _ (by decide) hread
  have hcut : pieces? "1.e+5".toList =
      some [.lexeme (.number (.real 100000.0)) "1.e+5".toList] := by
    with_unfolding_all rfl
  rw [hcut] at hpieces
  cases hpieces
  exact absurd hsubstitute (by with_unfolding_all decide)

end Lindenmayer
