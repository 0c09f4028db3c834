import Lindenmayer.Proofs.Formula.Layout
import Lindenmayer.Proofs.Number
import Lindenmayer.Proofs.Text.Substitution

/-!
# Layout between lexemes

Integers, names, operators and parentheses can be written with any layout around them, as long as
some stands between two neighbours that are numbers or names. The lexer reads them all again. Layout
makes a difference at one kind of place only: a number that touches an opening parenthesis is
multiplied with the group.
-/

namespace Lindenmayer

/-- Integers in decimal digits, and whatever else is written in one way only. -/
inductive Lexeme.Plain : Lexeme → Text → Prop where
  | integer {digits : Text} {n : Int64} : digits ≠ [] → digits.all Char.isDigit = true →
      n.toInt = digitsValue digits → Plain (.number (.integer n)) digits
  | name {t : Text} : isName t = true → Plain (.name t) t
  | operator (operator : Operator) : Plain (.operator operator) [operator.toChar]
  | openParen : Plain .openParen ['(']
  | closeParen : Plain .closeParen [')']

/-- A lexeme as it stands in a text, with the layout behind it. -/
structure Placed where
  lexeme : Lexeme
  written : Text
  gap : Text
  plain : lexeme.Plain written
  isLayout : gap.all isLayoutChar = true

namespace Placed

def text (placed : Placed) : Text := placed.written ++ placed.gap

def Apart (first second : Placed) : Prop :=
  first.lexeme.isAtom = true → second.lexeme.isAtom = true → first.gap ≠ []

def touches (first second : Placed) : Bool :=
  match first.lexeme, first.gap, second.lexeme with
  | .number _, [], .openParen => true
  | _, _, _ => false

def touching : List Placed → List Bool
  | first :: second :: rest => first.touches second :: touching (second :: rest)
  | _ => []

/-- The lexemes, with a multiplication wherever a number touches an opening parenthesis. -/
def multiplied : List Placed → List Lexeme
  | [] => []
  | [last] => [last.lexeme]
  | first :: second :: rest =>
      (if first.touches second then [first.lexeme, .operator .mul] else [first.lexeme]) ++
        multiplied (second :: rest)

end Placed

/-! ## Written forms -/

namespace Lexeme.Plain

variable {lexeme : Lexeme} {written : Text}

theorem spelled (hplain : lexeme.Plain written) : lexeme.Spelled written := by
  cases hplain with
  | @integer _ n hne hdigits hvalue =>
      have hinteger := int64?_eq_some_iff.mpr hvalue
      have hnumber : Numeral.toNumber ⟨written, none, none⟩ = .integer n := by
        simp [Numeral.toNumber, Numeral.isPlain, hinteger]
      rw [← hnumber]
      exact .number (Numeral.written_digits hne hdigits)
  | name hname =>
      cases written with
      | nil => cases hname
      | cons c rest =>
          rw [isName, Bool.and_eq_true] at hname
          exact .name hname.1 hname.2
  | operator operator => exact .operator operator
  | openParen => exact .openParen
  | closeParen => exact .closeParen

/-- Only an opening parenthesis begins with one. -/
theorem exists_head (hplain : lexeme.Plain written) :
    ∃ c tail, written = c :: tail ∧ (c = '(' ↔ lexeme = .openParen) := by
  have hidentifier {c : Char} (hc : isIdentifierChar c = true) : c ≠ '(' := by
    rintro rfl
    cases hc
  cases hplain with
  | integer hne hdigits _ =>
      obtain ⟨c, tail, rfl⟩ := List.exists_cons_of_ne_nil hne
      rw [List.all_cons, Bool.and_eq_true] at hdigits
      have hc := hidentifier (isIdentifierChar_of_isDigit hdigits.1)
      exact ⟨c, tail, rfl, iff_of_false hc Lexeme.noConfusion⟩
  | name hname =>
      cases written with
      | nil => cases hname
      | cons c tail =>
          rw [isName, Bool.and_eq_true] at hname
          have hc := hidentifier (isIdentifierChar_of_isNameStart hname.1)
          exact ⟨c, tail, rfl, iff_of_false hc Lexeme.noConfusion⟩
  | operator operator =>
      refine ⟨operator.toChar, [], rfl, iff_of_false ?_ Lexeme.noConfusion⟩
      cases operator <;> decide
  | openParen => exact ⟨'(', [], rfl, iff_of_true rfl rfl⟩
  | closeParen => exact ⟨')', [], rfl, iff_of_false (by decide) Lexeme.noConfusion⟩

/-- What is neither a number nor a name does not belong to a numeral in front of it. -/
theorem stops_extendsNumeral (hplain : lexeme.Plain written) (hatom : lexeme.isAtom = false)
    (rest : Text) : Text.Stops extendsNumeral (written ++ rest) := by
  cases hplain with
  | integer _ _ _ => cases hatom
  | name _ => cases hatom
  | operator operator =>
      refine Text.stops_cons.mpr ?_
      cases operator <;> decide
  | openParen => exact Text.stops_cons.mpr (by decide)
  | closeParen => exact Text.stops_cons.mpr (by decide)

end Lexeme.Plain

theorem Lexeme.detached_of_stops (lexeme : Lexeme) {following : Text}
    (hstops : Text.Stops extendsNumeral following) : lexeme.Detached following := by
  cases lexeme with
  | number _ => exact hstops
  | name _ => exact hstops.mono fun _ => extendsNumeral_of_isIdentifierChar
  | operator _ => trivial
  | openParen => trivial
  | closeParen => trivial

namespace Placed

/-! ## Neighbours -/

theorem touches_eq_true_iff {first second : Placed} :
    first.touches second = true ↔
      (∃ n, first.lexeme = .number n) ∧ first.gap = [] ∧ second.lexeme = .openParen := by
  fun_cases touches first second with
  | case1 n hsecond hgap hlexeme =>
      exact iff_of_true rfl ⟨⟨n, hlexeme⟩, hgap, hsecond⟩
  | case2 hnot =>
      refine iff_of_false Bool.false_ne_true ?_
      rintro ⟨⟨n, hlexeme⟩, hgap, hsecond⟩
      exact hnot n hlexeme hgap hsecond

/-- Layout ends every lexeme. -/
theorem stops_of_gap {placed : Placed} (hgap : placed.gap ≠ []) (rest : Text) :
    Text.Stops extendsOperand (placed.gap ++ rest) := by
  obtain ⟨c, gap, heq⟩ := List.exists_cons_of_ne_nil hgap
  have hlayout := placed.isLayout
  rw [heq, List.all_cons, Bool.and_eq_true] at hlayout
  rw [heq]
  exact Text.stops_cons.mpr
    (not_extendsOperand_of_isBlankChar (isBlankChar_of_isLayoutChar hlayout.1))

theorem stops_extendsOperand_gap (placed : Placed) : Text.Stops extendsOperand placed.gap := by
  by_cases hgap : placed.gap = []
  · rw [hgap]
    exact Text.stops_nil _
  · have hstops := stops_of_gap hgap []
    rwa [List.append_nil] at hstops

theorem detached_of_apart {first second : Placed} (hapart : first.Apart second) (rest : Text) :
    first.lexeme.Detached (first.gap ++ (second.text ++ rest)) := by
  by_cases hgap : first.gap = []
  · cases hfirst : first.lexeme.isAtom with
    | false => exact Lexeme.detached_of_not_isAtom hfirst _
    | true =>
        have hsecond : second.lexeme.isAtom = false :=
          Bool.eq_false_iff.mpr fun hsecond => hapart hfirst hsecond hgap
        rw [hgap, List.nil_append, text, List.append_assoc]
        exact Lexeme.detached_of_stops _ (second.plain.stops_extendsNumeral hsecond _)
  · refine Lexeme.detached_of_stops _ ((stops_of_gap hgap _).mono fun _ => ?_)
    exact extendsOperand_of_extendsNumeral

/-- The lexer multiplies where a number touches an opening parenthesis. -/
theorem expand_eq (first second : Placed) (rest : Text) :
    first.lexeme.expand (first.gap ++ (second.text ++ rest)) =
      if first.touches second then [first.lexeme, .operator .mul] else [first.lexeme] := by
  obtain ⟨c, tail, hwritten, hopen⟩ := second.plain.exists_head
  by_cases htouches : first.touches second = true
  · obtain ⟨⟨n, hlexeme⟩, hgap, hsecond⟩ := touches_eq_true_iff.mp htouches
    obtain rfl := hopen.mpr hsecond
    rw [if_pos htouches, hlexeme, hgap, text, hwritten]
    rfl
  · rw [if_neg htouches]
    rcases first.lexeme.expand_eq_or (first.gap ++ (second.text ++ rest)) with
      ⟨n, inside, hlexeme, hfollowing, -⟩ | hexpand
    · refine absurd (touches_eq_true_iff.mpr ⟨⟨n, hlexeme⟩, ?_⟩) htouches
      by_cases hgap : first.gap = []
      · rw [hgap, text, hwritten] at hfollowing
        exact ⟨hgap, hopen.mp (List.cons.inj hfollowing).1⟩
      · have hstops := stops_of_gap hgap (second.text ++ rest)
        rw [hfollowing] at hstops
        exact absurd (Text.stops_cons.mp hstops) (by decide)
    · exact hexpand

/-! ## The lexer -/

theorem laid_multiplied {placed : List Placed} (hapart : placed.IsChain Apart) :
    Laid (placed.flatMap text) (multiplied placed) := by
  induction placed with
  | nil => exact .nil
  | cons first rest ih =>
      have hrest := (ih hapart.tail).layout_append first.isLayout
      have hspelled := first.plain.spelled
      rw [List.flatMap_cons, text, List.append_assoc]
      cases rest with
      | nil =>
          rw [List.flatMap_nil, List.append_nil] at hrest ⊢
          exact (Laid.of_lexeme hspelled).append hrest (stops_extendsOperand_gap first)
      | cons second rest =>
          rw [List.flatMap_cons] at hrest ⊢
          have hlaid := Laid.lexeme hspelled (detached_of_apart hapart.rel _) hrest
          rwa [expand_eq] at hlaid

theorem head?_multiplied (first : Placed) (rest : List Placed) :
    (multiplied (first :: rest)).head? = some first.lexeme := by
  cases rest with
  | nil => rfl
  | cons second rest =>
      rw [multiplied]
      split <;> rfl

theorem mul_cons_ne_multiplied {placed : Placed} (hopen : placed.lexeme = .openParen)
    (rest : List Placed) (lexemes : List Lexeme) :
    .operator .mul :: lexemes ≠ multiplied (placed :: rest) := by
  intro heq
  have hhead := head?_multiplied placed rest
  rw [← heq, hopen] at hhead
  cases hhead

/-- The places where a number touches an opening parenthesis can be told from what is read. -/
theorem multiplied_eq_iff {placed : List Placed} :
    ∀ {other : List Placed}, other.map lexeme = placed.map lexeme →
      (multiplied other = multiplied placed ↔ touching other = touching placed) := by
  induction placed with
  | nil =>
      intro other hlexemes
      rw [List.map_eq_nil_iff.mp hlexemes]
      exact iff_of_true rfl rfl
  | cons first rest ih =>
      intro other hlexemes
      obtain ⟨first', rest', rfl, hfirst, hrest⟩ := List.map_eq_cons_iff.mp hlexemes
      cases rest with
      | nil =>
          rw [List.map_eq_nil_iff.mp hrest, multiplied, multiplied, hfirst]
          exact iff_of_true rfl rfl
      | cons second rest =>
          have hsame := ih hrest
          obtain ⟨second', rest', rfl, hsecond, -⟩ := List.map_eq_cons_iff.mp hrest
          rw [multiplied, multiplied, touching, touching, hfirst, List.cons_eq_cons]
          cases htouches : first.touches second with
          | false =>
              cases htouches' : first'.touches second' with
              | false => simpa using hsame
              | true =>
                  obtain ⟨-, -, hopen⟩ := touches_eq_true_iff.mp htouches'
                  refine iff_of_false (fun heq => ?_) nofun
                  exact mul_cons_ne_multiplied (hsecond.symm.trans hopen) rest _
                    (List.cons.inj heq).2
          | true =>
              cases htouches' : first'.touches second' with
              | false =>
                  obtain ⟨-, -, hopen⟩ := touches_eq_true_iff.mp htouches
                  refine iff_of_false (fun heq => ?_) nofun
                  exact mul_cons_ne_multiplied (hsecond.trans hopen) rest' _
                    (List.cons.inj heq).2.symm
              | true => simpa using hsame

theorem lex_eq_multiplied {before : Text} {placed : List Placed}
    (hbefore : before.all isLayoutChar = true) (hapart : placed.IsChain Apart) :
    lex (before ++ placed.flatMap text) = .ok (multiplied placed) :=
  ((laid_multiplied hapart).layout_append hbefore).lexFrom _

/-- The lexer reads the lexemes again, whatever the layout, and multiplies where a number touches an
opening parenthesis, and nowhere else. So two layouts of the same lexemes are read alike exactly if
numbers touch opening parentheses at the same places. -/
theorem lex_placed {before : Text} {placed : List Placed}
    (hbefore : before.all isLayoutChar = true) (hapart : placed.IsChain Apart) :
    lex (before ++ placed.flatMap text) = .ok (multiplied placed) ∧
      ∀ (start : Text) (other : List Placed), start.all isLayoutChar = true →
        other.IsChain Apart → other.map lexeme = placed.map lexeme →
          (lex (start ++ other.flatMap text) = lex (before ++ placed.flatMap text) ↔
            touching other = touching placed) := by
  refine ⟨lex_eq_multiplied hbefore hapart, fun start other hstart hother hlexemes => ?_⟩
  rw [lex_eq_multiplied hbefore hapart, lex_eq_multiplied hstart hother, Except.ok.injEq]
  exact multiplied_eq_iff hlexemes

/-- A number and a name, in front of groups. -/
theorem lex_placed_groups :
    lex "\t02(x (".toList =
        .ok [.number (.integer 2), .operator .mul, .openParen, .name ['x'], .openParen] ∧
      lex "02 (x(\n".toList ≠ lex "\t02(x (".toList := by
  have hplain : Lexeme.Plain (.number (.integer 2)) "02".toList :=
    .integer (by decide) (by decide) (by decide)
  have hname : Lexeme.Plain (.name ['x']) ['x'] := .name (by decide)
  have hblank : [' '].all isLayoutChar = true := by decide
  have hbreak : ['\n'].all isLayoutChar = true := by decide
  obtain ⟨htight, hother⟩ := lex_placed
    (show ['\t'].all isLayoutChar = true by decide)
    (show List.IsChain Apart [⟨_, _, [], hplain, rfl⟩, ⟨_, _, [], .openParen, rfl⟩,
      ⟨_, _, [' '], hname, hblank⟩, ⟨_, _, [], .openParen, rfl⟩] by simp [Apart, Lexeme.isAtom])
  refine ⟨htight, fun heq => ?_⟩
  have hloose := (hother [] [⟨_, _, [' '], hplain, hblank⟩, ⟨_, _, [], .openParen, rfl⟩,
    ⟨_, _, [], hname, rfl⟩, ⟨_, _, ['\n'], .openParen, hbreak⟩] rfl
    (by simp [Apart, Lexeme.isAtom]) rfl).mp heq
  cases hloose

end Placed

end Lindenmayer
