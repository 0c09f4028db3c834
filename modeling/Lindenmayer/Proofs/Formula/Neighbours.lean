import Lindenmayer.Proofs.Formula.Acceptance
import Lindenmayer.Proofs.Formula.Splicing

/-!
# The neighbours of a spliced integer

The text of an integer stays a lexeme of its own, but for three ways in which its neighbours can
take part in it: digits go on with a numeral in front of them, a numeral goes on behind them, and a
minus becomes an operator behind an operand. Where none of these happens, a text is read with
integers in it only if it is read with names in their place.
-/

namespace Lindenmayer

/-! ## Unfinished numerals -/

/-- Whether digits behind the text go on with a numeral in it, which has to begin where no
identifier runs on. `boundary` says whether one does where the text starts. -/
def Text.awaitsDigits (boundary : Bool) : Text → Bool
  | [] => false
  | c :: rest =>
      ((boundary || !isIdentifierChar c) && (Numeral.ofText? (c :: rest ++ ['0'])).isSome) ||
        awaitsDigits (!isIdentifierChar c) rest

/-- Whether digits in front of the text go on with it: with a digit, a point, an exponent or a group
to be multiplied with. -/
def Text.continuesDigits (text : Text) : Bool :=
  text.head?.any (fun c => c.isDigit || c = '.' || c = '(') || (Numeral.takeExponent text).1.isSome

namespace Numeral

section

variable {first rest : Text} {d : Char} (hd : d.isDigit = true)
include hd

theorem SignText.not_digit {negative : Bool} (h : SignText negative (first ++ d :: rest)) :
    False := by
  generalize hsign : first ++ d :: rest = sign at h
  have hmem : d ∈ sign := hsign ▸ List.mem_append_right first List.mem_cons_self
  cases h with
  | none => cases hmem
  | plus =>
      obtain rfl := List.mem_singleton.mp hmem
      cases hd
  | minus =>
      obtain rfl := List.mem_singleton.mp hmem
      cases hd

/-- An exponent that is cut behind a digit is an exponent. It does not begin with the digit. -/
theorem ExponentText.cut {exponent : Option (Bool × Text)}
    (h : ExponentText exponent (first ++ d :: rest)) :
    first ≠ [] ∧ ∃ shorter, ExponentText shorter (first ++ ['0']) := by
  generalize hwhole : first ++ d :: rest = whole at h
  cases h with
  | none => cases (List.append_eq_nil_iff.mp hwhole).2
  | @some mark negative sign digits hmark hsign hdigits hne =>
      cases first with
      | nil =>
          obtain rfl : d = mark := (List.cons.inj hwhole).1
          rcases hmark with rfl | rfl <;> cases hd
      | cons c first =>
          refine ⟨List.cons_ne_nil c first, ?_⟩
          obtain ⟨rfl, htail⟩ := List.cons.inj hwhole
          rcases List.append_eq_append_iff.mp htail with
            ⟨overlap, rfl, hoverlap⟩ | ⟨between, rfl, rfl⟩
          · cases overlap with
            | nil =>
                rw [List.append_nil] at hsign
                exact ⟨_, .some hmark hsign rfl (List.cons_ne_nil '0' [])⟩
            | cons e overlap =>
                obtain rfl : d = e := (List.cons.inj hoverlap).1
                exact (hsign.not_digit hd).elim
          · refine ⟨Option.some (negative, between ++ ['0']), ?_⟩
            have hshorter : (between ++ ['0']).all Char.isDigit = true := by
              rw [List.all_append, Bool.and_eq_true] at hdigits ⊢
              exact ⟨hdigits.1, rfl⟩
            rw [List.cons_append, List.append_assoc]
            exact .some hmark hsign hshorter (by simp)

/-- A numeral that is cut behind a digit is a numeral, whichever digit it is. -/
theorem Written.cut {numeral : Numeral} (h : numeral.Written (first ++ d :: rest)) :
    ∃ shorter : Numeral, shorter.Written (first ++ ['0']) := by
  have hshorter {before after : Text} (hall : (before ++ after).all Char.isDigit = true) :
      (before ++ ['0']).all Char.isDigit = true := by
    rw [List.all_append, Bool.and_eq_true] at hall ⊢
    exact ⟨hall.1, rfl⟩
  obtain ⟨exponent, hexponent, htext⟩ := h.text_eq
  rcases List.append_eq_append_iff.mp htext with ⟨overlap, hwhole, -⟩ | ⟨behind, rfl, hbehind⟩
  · -- The cut is before the point.
    exact ⟨_, written_digits (by simp) (hshorter (hwhole ▸ h.whole))⟩
  rcases List.append_eq_append_iff.mp hbehind with
    ⟨between, rfl, rfl⟩ | ⟨overlap, hfraction, hoverlap⟩
  · -- The cut is in the exponent.
    obtain ⟨-, shorter, hshorter⟩ := hexponent.cut hd
    exact ⟨⟨numeral.whole, numeral.fraction, shorter⟩, h.whole, h.fraction, h.notEmpty, _, hshorter,
      by simp⟩
  -- The cut is behind the point, unless the exponent begins with the digit.
  cases overlap with
  | nil =>
      rw [List.nil_append] at hoverlap
      have hdigit : ExponentText numeral.exponent ([] ++ d :: rest) := hoverlap ▸ hexponent
      exact absurd rfl (hdigit.cut hd).1
  | cons c overlap =>
      obtain rfl : d = c := (List.cons.inj hoverlap).1
      cases hpoint : numeral.fraction with
      | none =>
          rw [hpoint] at hfraction
          cases (List.append_eq_nil_iff.mp hfraction.symm).2
      | some digits =>
          rw [hpoint, fractionText] at hfraction
          cases behind with
          | nil =>
              obtain rfl : '.' = d := (List.cons.inj hfraction).1
              cases hd
          | cons point behind =>
              obtain ⟨rfl, rfl⟩ := List.cons.inj hfraction
              have hdigits := hshorter (h.fraction _ hpoint)
              refine ⟨⟨numeral.whole, some (behind ++ ['0']), none⟩, h.whole, ?_, by simp, [],
                .none, by simp [fractionText]⟩
              rintro _ ⟨rfl⟩
              exact hdigits

end

/-- No numeral goes on behind the digits. -/
theorem scan?_digits_append {digits rest : Text} (hne : digits ≠ [])
    (hdigits : digits.all Char.isDigit = true) (hrest : rest.continuesDigits = false) :
    scan? (digits ++ rest) = some (⟨digits, none, none⟩, rest) := by
  obtain ⟨hstops, hfraction, hexponent⟩ : Text.Stops Char.isDigit rest ∧
      takeFraction rest = (none, rest) ∧ takeExponent rest = (none, rest) := by
    cases rest with
    | nil => exact ⟨Text.stops_nil _, rfl, rfl⟩
    | cons c rest =>
        simp only [Text.continuesDigits, List.head?_cons, Option.any_some, Bool.or_eq_false_iff,
          decide_eq_false_iff_not] at hrest
        obtain ⟨⟨⟨hdigit, hpoint⟩, -⟩, hexponent⟩ := hrest
        have hfraction : (c :: rest).head? ≠ some '.' := fun heq => hpoint (Option.some.inj heq)
        refine ⟨Text.stops_cons.mpr hdigit, takeFraction_of_head?_ne hfraction, ?_⟩
        revert hexponent
        fun_cases takeExponent (c :: rest) with
        | case1 => exact fun _ => rfl
        | case2 => rintro ⟨⟩
        | case3 => exact fun _ => rfl
  simp only [scan?, Text.takeWhile_append_of_stops hdigits hstops,
    Text.dropWhile_append_of_stops hdigits hstops, hfraction, hexponent]
  exact if_neg fun hempty => hne hempty.1

end Numeral

/-! ## Cutting out an integer -/

theorem Lexeme.expand_append_cons {c : Char} (hopen : c ≠ '(') (lexeme : Lexeme)
    (following rest : Text) :
    lexeme.expand (following ++ c :: rest) = lexeme.expand following := by
  cases following with
  | nil => rw [List.nil_append, expand_cons_of_ne hopen, expand_nil]
  | cons d following => exact lexeme.expand_cons_append d following (c :: rest)

/-- The first lexeme of a laid out text is the one that is read first. -/
theorem Laid.exists_of_take? {c : Char} {text following : Text} {lexeme : Lexeme}
    {lexemes : List Lexeme} (hlaid : Laid (c :: text) lexemes) (hlayout : isLayoutChar c = false)
    (htake : Lexeme.take? (c :: text) = some (lexeme, following)) :
    ∃ last, Laid following last ∧ lexemes = lexeme.expand following ++ last := by
  generalize hwhole : c :: text = whole at hlaid htake
  cases hlaid with
  | nil => cases hwhole
  | layout hc _ =>
      cases hwhole
      rw [hlayout] at hc
      cases hc
  | lexeme hspelled hdetached hfollowing =>
      rw [Lexeme.take?_append hspelled hdetached] at htake
      cases htake
      exact ⟨_, hfollowing, rfl⟩

/-- Digits that do not go on are a lexeme of their own. -/
theorem Laid.exists_of_digits {digits rest : Text} (hne : digits ≠ [])
    (hdigits : digits.all Char.isDigit = true) (hrest : rest.continuesDigits = false)
    {lexemes : List Lexeme} (hlaid : Laid (digits ++ rest) lexemes) :
    ∃ n last, Laid rest last ∧ lexemes = .number n :: last := by
  have hscan := Numeral.scan?_digits_append hne hdigits hrest
  obtain ⟨c, more, rfl⟩ := List.exists_cons_of_ne_nil hne
  have hdigit : c.isDigit = true := by
    rw [List.all_cons, Bool.and_eq_true] at hdigits
    exact hdigits.1
  have htake := Lexeme.take?_numeral (.inl hdigit) (more ++ rest)
  rw [← List.cons_append, hscan, Option.map_some] at htake
  obtain ⟨last, hlast, rfl⟩ := hlaid.exists_of_take?
    (not_isLayoutChar_of_isIdentifierChar (isIdentifierChar_of_isDigit hdigit)) htake
  refine ⟨Numeral.toNumber ⟨c :: more, none, none⟩, last, hlast, ?_⟩
  rw [Lexeme.expand_of_head?]
  · rfl
  · rintro hopen
    rw [Text.continuesDigits, hopen] at hrest
    cases hrest

def signLexemes (n : Int) : List Lexeme := if n < 0 then [.operator Sign.minus.operator] else []

theorem Laid.exists_of_integerText {n : Int} {rest : Text} (hrest : rest.continuesDigits = false)
    {lexemes : List Lexeme} (hlaid : Laid (integerText n ++ rest) lexemes) :
    ∃ m last, Laid rest last ∧ lexemes = signLexemes n ++ .number m :: last := by
  have hne : Nat.toDigits 10 n.natAbs ≠ [] := Nat.toDigits_ne_nil
  have hdigits := all_isDigit_toDigits n.natAbs
  rw [integerText] at hlaid
  rw [signLexemes]
  by_cases hnegative : n < 0
  · rw [if_pos hnegative] at hlaid
    obtain ⟨tail, htail, rfl⟩ := hlaid.exists_of_take? (by decide) rfl
    obtain ⟨m, last, hlast, rfl⟩ := htail.exists_of_digits hne hdigits hrest
    refine ⟨m, last, hlast, ?_⟩
    rw [if_pos hnegative, Lexeme.expand_of_not_isAtom rfl]
    rfl
  · rw [if_neg hnegative] at hlaid
    obtain ⟨m, last, hlast, rfl⟩ := hlaid.exists_of_digits hne hdigits hrest
    exact ⟨m, last, hlast, by rw [if_neg hnegative, List.nil_append]⟩

/-! ## Cutting before an integer -/

theorem Text.awaitsDigits_of_append {boundary : Bool} {init rest : Text} {c : Char}
    (h : awaitsDigits boundary (init ++ c :: rest) = false) :
    awaitsDigits (!isIdentifierChar c) rest = false := by
  induction init generalizing boundary with
  | nil => exact (Bool.or_eq_false_iff.mp h).2
  | cons d init ih => exact ih (Bool.or_eq_false_iff.mp h).2

/-- Behind the last character of a lexeme no identifier runs on. -/
theorem Lexeme.Spelled.exists_last {lexeme : Lexeme} {written following : Text}
    (hspelled : lexeme.Spelled written) (hdetached : lexeme.Detached following) :
    ∃ init c, written = init ++ [c] ∧
      (isIdentifierChar c = false ∨ Text.Stops isIdentifierChar following) := by
  have hlast : written = written.dropLast ++ [written.getLast hspelled.ne_nil] :=
    (List.dropLast_append_getLast hspelled.ne_nil).symm
  cases hspelled with
  | number _ =>
      exact ⟨_, _, hlast, .inr (hdetached.mono fun _ => extendsNumeral_of_isIdentifierChar)⟩
  | name _ _ => exact ⟨_, _, hlast, .inr hdetached⟩
  | operator operator => exact ⟨[], _, rfl, .inl (by cases operator <;> decide)⟩
  | openParen => exact ⟨[], _, rfl, .inl (by decide)⟩
  | closeParen => exact ⟨[], _, rfl, .inl (by decide)⟩

theorem Numeral.SignText.eq_nil_of_minus {negative : Bool} {sign digits first rest : Text}
    (hsign : SignText negative sign) (hdigits : digits.all Char.isDigit = true)
    (heq : sign ++ digits = first ++ '-' :: rest) : first = [] := by
  have hminus {before : Text} (htail : digits = before ++ '-' :: rest) : False := by
    have hmem : '-' ∈ digits := htail ▸ List.mem_append_right before List.mem_cons_self
    exact absurd (List.all_eq_true.mp hdigits '-' hmem) (by decide)
  cases first with
  | nil => rfl
  | cons c first =>
      cases hsign with
      | none => exact (hminus heq).elim
      | plus => exact (hminus (List.cons.inj heq).2).elim
      | minus => exact (hminus (List.cons.inj heq).2).elim

/-- A minus in an exponent is its sign. -/
theorem Numeral.ExponentText.exists_mark {exponent : Option (Bool × Text)} {first rest : Text}
    (h : ExponentText exponent (first ++ '-' :: rest)) :
    ∃ mark, first = [mark] ∧ isIdentifierChar mark = true := by
  generalize hwhole : first ++ '-' :: rest = whole at h
  cases h with
  | none => cases (List.append_eq_nil_iff.mp hwhole).2
  | @some mark negative sign digits hmark hsign hdigits _ =>
      cases first with
      | nil =>
          obtain rfl : '-' = mark := (List.cons.inj hwhole).1
          rcases hmark with hmark | hmark <;> cases hmark
      | cons c first =>
          obtain ⟨rfl, htail⟩ := List.cons.inj hwhole
          obtain rfl := hsign.eq_nil_of_minus hdigits htail.symm
          refine ⟨c, rfl, ?_⟩
          rcases hmark with rfl | rfl <;> decide

/-- A minus inside a numeral is the sign of its exponent. -/
theorem Numeral.Written.not_stops_reverse {numeral : Numeral} {first rest : Text}
    (h : numeral.Written (first ++ '-' :: rest)) : ¬Text.Stops isIdentifierChar first.reverse := by
  have hminus : '-' ∉ numeral.whole ++ fractionText numeral.fraction := by
    intro hmem
    rcases List.mem_append.mp hmem with hmem | hmem
    · exact absurd (List.all_eq_true.mp h.whole '-' hmem) (by decide)
    · cases hpoint : numeral.fraction with
      | none =>
          rw [hpoint] at hmem
          cases hmem
      | some digits =>
          rw [hpoint, fractionText, List.mem_cons] at hmem
          rcases hmem with hmem | hmem
          · cases hmem
          · exact absurd (List.all_eq_true.mp (h.fraction digits hpoint) '-' hmem) (by decide)
  obtain ⟨exponent, hexponent, htext⟩ := h.text_eq
  rw [← List.append_assoc] at htext
  rcases List.append_eq_append_iff.mp htext with ⟨overlap, hbefore, hoverlap⟩ | ⟨between, rfl, rfl⟩
  · cases overlap with
    | nil =>
        have hbare : ExponentText numeral.exponent ([] ++ '-' :: rest) := hoverlap ▸ hexponent
        obtain ⟨mark, hmark, -⟩ := hbare.exists_mark
        cases hmark
    | cons c overlap =>
        obtain rfl : '-' = c := (List.cons.inj hoverlap).1
        exact absurd (hbefore ▸ List.mem_append_right first List.mem_cons_self) hminus
  · obtain ⟨mark, rfl, hmark⟩ := hexponent.exists_mark
    intro hstops
    rw [List.reverse_append, List.reverse_singleton, List.singleton_append, Text.stops_cons,
      hmark] at hstops
    cases hstops

/-- Only a numeral can begin in a text that ends with no identifier and go on with an integer, and
then the text awaits digits. -/
theorem Lexeme.Spelled.awaitsDigits {lexeme : Lexeme} {boundary : Bool} {piece rest : Text}
    {c : Char} (hspelled : lexeme.Spelled (piece ++ c :: rest)) (hne : piece ≠ [])
    (hboundary : boundary = true ∨ Text.Stops isIdentifierChar piece)
    (hend : Text.Stops isIdentifierChar piece.reverse) (hc : c.isDigit = true ∨ c = '-') :
    piece.awaitsDigits boundary = true := by
  have hshort {d : Char} (hsingle : piece ++ c :: rest = [d]) : False := by
    have hlength := congrArg List.length hsingle
    have hpositive := List.length_pos_iff.mpr hne
    rw [List.length_append, List.length_cons, List.length_singleton] at hlength
    omega
  generalize hwhole : piece ++ c :: rest = written at hspelled
  cases hspelled with
  | number hwritten =>
      rcases hc with hdigit | rfl
      · rw [← hwhole] at hwritten
        obtain ⟨shorter, hshorter⟩ := hwritten.cut hdigit
        cases piece with
        | nil => exact absurd rfl hne
        | cons d piece =>
            have hstart : (boundary || !isIdentifierChar d) = true := by
              rcases hboundary with rfl | hstops
              · rfl
              · rw [Text.stops_cons.mp hstops]
                exact Bool.or_true boundary
            rw [Text.awaitsDigits, hstart, hshorter.ofText?]
            rfl
      · exact absurd hend (hwhole ▸ hwritten).not_stops_reverse
  | @name d more hstart hmore =>
      have hlast : isIdentifierChar (piece.getLast hne) = true := by
        have hmem : piece.getLast hne ∈ d :: more :=
          hwhole ▸ List.mem_append_left _ (List.getLast_mem hne)
        rcases List.mem_cons.mp hmem with hd | hmem
        · rw [hd]
          exact isIdentifierChar_of_isNameStart hstart
        · exact List.all_eq_true.mp hmore _ hmem
      have hhead : piece.reverse.head? = some (piece.getLast hne) := by
        rw [List.head?_reverse, List.getLast?_eq_some_getLast hne]
      rw [hend _ hhead] at hlast
      cases hlast
  | operator operator => exact (hshort hwhole).elim
  | openParen => exact (hshort hwhole).elim
  | closeParen => exact (hshort hwhole).elim

theorem Text.Stops.left_of_append {p : Char → Bool} {u v : Text} (h : Stops p (u ++ v)) :
    Stops p u := by
  cases u with
  | nil => exact stops_nil p
  | cons c u => exact stops_cons.mpr (stops_cons.mp h)

/-- A text falls apart before an integer, unless a numeral in front of it goes on with it. -/
theorem Laid.exists_of_piece {piece following : Text} {boundary : Bool} {c : Char}
    (hboundary : boundary = true ∨ Text.Stops isIdentifierChar (piece ++ c :: following))
    (hend : Text.Stops isIdentifierChar piece.reverse) (hc : c.isDigit = true ∨ c = '-')
    (hawaits : piece.awaitsDigits boundary = false) {lexemes : List Lexeme}
    (hlaid : Laid (piece ++ c :: following) lexemes) :
    ∃ first last, Laid piece first ∧ Laid (c :: following) last ∧ lexemes = first ++ last := by
  have hopen : c ≠ '(' := by
    rintro rfl
    revert hc
    decide
  generalize hwhole : piece ++ c :: following = whole at hlaid hboundary
  induction hlaid generalizing piece boundary with
  | nil => cases (List.append_eq_nil_iff.mp hwhole).2
  | @layout d text lexemes hlayout hlaid ih =>
      cases piece with
      | nil =>
          rw [List.nil_append] at hwhole
          exact ⟨[], lexemes, .nil, hwhole ▸ .layout hlayout hlaid, rfl⟩
      | cons e piece =>
          obtain ⟨rfl, htail⟩ := List.cons.inj hwhole
          have hidentifier : isIdentifierChar e = false :=
            not_isIdentifierChar_of_isBlankChar (isBlankChar_of_isLayoutChar hlayout)
          rw [List.reverse_cons] at hend
          obtain ⟨first, last, hfirst, hlast, rfl⟩ := ih hend.left_of_append
            (Bool.or_eq_false_iff.mp hawaits).2 htail (.inl (by rw [hidentifier]; rfl))
          exact ⟨first, last, .layout hlayout hfirst, hlast, rfl⟩
  | @lexeme lexeme written rest lexemes hspelled hdetached hlaid ih =>
      rcases List.append_eq_append_iff.mp hwhole with
        ⟨overlap, rfl, hoverlap⟩ | ⟨between, rfl, rfl⟩
      · cases overlap with
        | nil =>
            rw [List.nil_append] at hoverlap
            rw [List.append_nil] at hspelled
            rw [← hoverlap] at hlaid ⊢
            exact ⟨[lexeme], lexemes, .of_lexeme hspelled, hlaid,
              by rw [Lexeme.expand_cons_of_ne hopen]⟩
        | cons d overlap =>
            obtain ⟨rfl, rfl⟩ := List.cons.inj hoverlap
            by_cases hne : piece = []
            · subst hne
              exact ⟨[], _, .nil, .lexeme hspelled hdetached hlaid, rfl⟩
            · rw [List.append_assoc] at hboundary
              have hstart := hboundary.imp id Text.Stops.left_of_append
              rw [hspelled.awaitsDigits hne hstart hend hc] at hawaits
              cases hawaits
      · obtain ⟨init, d, rfl, hnext⟩ := hspelled.exists_last hdetached
        have hbetween : Text.awaitsDigits (!isIdentifierChar d) between = false := by
          rw [List.append_assoc] at hawaits
          exact Text.awaitsDigits_of_append hawaits
        rw [List.reverse_append] at hend
        obtain ⟨first, last, hfirst, hlast, rfl⟩ := ih hend.left_of_append hbetween rfl
          (hnext.imp (by simp) id)
        rw [Lexeme.expand_append_cons hopen]
        exact ⟨_, last, .lexeme hspelled hdetached.left_of_append hfirst, hlast,
          (List.append_assoc _ _ _).symm⟩

theorem exists_head_integerText (n : Int) :
    ∃ c rest, integerText n = c :: rest ∧ (c.isDigit = true ∨ c = '-') := by
  unfold integerText
  split
  · exact ⟨'-', _, rfl, .inr rfl⟩
  · obtain ⟨c, rest, hdigits⟩ :=
      List.exists_cons_of_ne_nil (Nat.toDigits_ne_nil : Nat.toDigits 10 n.natAbs ≠ [])
    have hall := all_isDigit_toDigits n.natAbs
    rw [hdigits, List.all_cons, Bool.and_eq_true] at hall
    exact ⟨c, rest, hdigits, .inl hall.1⟩

/-- A text falls apart around an integer that no numeral goes on with. -/
theorem Laid.exists_of_hole {piece rest : Text} {n : Int}
    (hend : Text.Stops isIdentifierChar piece.reverse)
    (hawaits : piece.awaitsDigits true = false) (hcontinues : rest.continuesDigits = false)
    {lexemes : List Lexeme} (hlaid : Laid (piece ++ (integerText n ++ rest)) lexemes) :
    ∃ first m last, Laid piece first ∧ Laid rest last ∧
      lexemes = first ++ (signLexemes n ++ .number m :: last) := by
  obtain ⟨c, more, hhead, hc⟩ := exists_head_integerText n
  rw [hhead, List.cons_append] at hlaid
  obtain ⟨first, tail, hfirst, htail, rfl⟩ := hlaid.exists_of_piece (.inl rfl) hend hc hawaits
  rw [← List.cons_append, ← hhead] at htail
  obtain ⟨m, last, hlast, rfl⟩ := htail.exists_of_integerText hcontinues
  exact ⟨first, m, last, hfirst, hlast, rfl⟩

/-- The reader goes on with a name as with an integer, unless a minus is an operator for it. -/
theorem Posture.exists_of_run_integer {posture final : Posture} {n : Int} {m : Number}
    {last : List Lexeme} (hsign : (decide (n < 0) && posture.operand) = false)
    (hrun : posture.run (signLexemes n ++ .number m :: last) = some final) (name : Text) :
    ∃ next, posture.step (.name name) = some next ∧ next.operand = true ∧
      next.run last = some final := by
  have hnumber : posture.run (.number m :: last) = some final := by
    rw [signLexemes] at hrun
    by_cases hnegative : n < 0
    · rw [decide_eq_true hnegative, Bool.true_and] at hsign
      rwa [if_pos hnegative, List.singleton_append, run_signed hsign] at hrun
    · rwa [if_neg hnegative] at hrun
  rw [run, List.foldlM_cons, ← posture.step_name m name] at hnumber
  obtain ⟨next, hstep, hnext⟩ := Option.bind_eq_some_iff.mp hnumber
  exact ⟨next, hstep, operand_of_step hstep, hnext⟩

/-! ## Templates of integers -/

def Template.fillIntegers (results : Template Int64) : Text :=
  (results.map fun n => integerText n.toInt).fill

/-- Whether an integer takes part in a lexeme with its neighbours, or the minus of one becomes an
operator. `operand` says whether an operand stands in front of the first piece. -/
def fusesBehind (operand : Bool) (holes : List (Text × Int64)) (rest : Text) : Bool :=
  match holes with
  | [] => false
  | (piece, n) :: holes =>
      piece.awaitsDigits true || (Template.fillIntegers ⟨holes, rest⟩).continuesDigits ||
        (decide (n.toInt < 0) && piece.operandAfter operand) || fusesBehind true holes rest

/-- Whether one of the integers is not read as an operand of its own. -/
def Template.fuses (results : Template Int64) : Bool := fusesBehind false results.holes results.rest

/-- Behind a point, before another integer, a digit or a group, and negative behind an operand. -/
example :
    [(⟨[(['.'], 2)], []⟩ : Template Int64), ⟨[([], 2), ([], 2)], []⟩, ⟨[([], 2)], ['5']⟩,
      ⟨[([], 2)], "(3)".toList⟩, ⟨[("5 ".toList, -2)], []⟩].all Template.fuses = true := by
  with_unfolding_all rfl

theorem Laid.setOff {name rest : Text} (hname : isName name = true) {lexemes : List Lexeme}
    (hlaid : Laid rest lexemes) :
    Laid (setOff name ++ rest) (.name name :: lexemes) := by
  have hspace : Laid (' ' :: rest) lexemes := .layout (by decide) hlaid
  have hstops : Text.Stops extendsOperand (' ' :: rest) := Text.stops_cons.mpr (by decide)
  have hnamed := (Laid.of_isName hname).append hspace hstops
  have htext : Lindenmayer.setOff name ++ rest = ' ' :: (name ++ ' ' :: rest) := by
    simp [Lindenmayer.setOff]
  rw [htext]
  exact .layout (by decide) hnamed

/-- Where no integer fuses, names can take the place of the integers. -/
theorem exists_laid_of_not_fuses {holes : List (Text × Int64)} {rest : Text} {names : List Text}
    (hlength : names.length = holes.length) (hnames : ∀ name ∈ names, isName name = true)
    (hends : ∀ hole ∈ holes, Text.Stops isIdentifierChar hole.1.reverse)
    {posture final : Posture} (hfuses : fusesBehind posture.operand holes rest = false)
    {lexemes : List Lexeme} (hlaid : Laid (Template.fillIntegers ⟨holes, rest⟩) lexemes)
    (hrun : posture.run lexemes = some final) :
    ∃ named, Laid (Template.refill ⟨holes, rest⟩ (names.map setOff)).fill named ∧
      posture.run named = some final := by
  induction holes generalizing names posture lexemes with
  | nil => exact ⟨lexemes, hlaid, hrun⟩
  | cons hole holes ih =>
      obtain ⟨piece, n⟩ := hole
      obtain ⟨name, names, rfl⟩ := List.exists_cons_of_length_eq_add_one hlength
      simp only [fusesBehind, Bool.or_eq_false_iff] at hfuses
      obtain ⟨⟨⟨hawaits, hcontinues⟩, hsign⟩, hfuses⟩ := hfuses
      have htext : Template.fillIntegers ⟨(piece, n) :: holes, rest⟩ =
          piece ++ (integerText n.toInt ++ Template.fillIntegers ⟨holes, rest⟩) :=
        Template.fill_cons piece (integerText n.toInt) _ rest
      rw [htext] at hlaid
      obtain ⟨first, m, last, hfirst, hlast, rfl⟩ :=
        hlaid.exists_of_hole (hends _ List.mem_cons_self) hawaits hcontinues
      rw [Posture.run_append] at hrun
      obtain ⟨between, hbetween, hrun⟩ := Option.bind_eq_some_iff.mp hrun
      have hoperand : between.operand = piece.operandAfter posture.operand :=
        (Posture.operand_of_run hbetween).trans (hfirst.operandAfter posture.operand).symm
      rw [← hoperand] at hsign
      obtain ⟨next, hstep, hhas, hnext⟩ := Posture.exists_of_run_integer hsign hrun name
      -- What follows is in the same posture behind the name as behind the integer.
      obtain ⟨named, hnamed, hfinal⟩ := ih (Nat.succ.inj hlength)
        (fun other hmem => hnames other (List.mem_cons_of_mem _ hmem))
        (fun other hmem => hends other (List.mem_cons_of_mem _ hmem)) (hhas ▸ hfuses) hlast hnext
      refine ⟨first ++ .name name :: named, ?_, ?_⟩
      · have hset := hnamed.setOff (hnames name List.mem_cons_self)
        have hfill : Template.fill (Template.refill ⟨(piece, n) :: holes, rest⟩
            ((name :: names).map setOff)) = piece ++ (setOff name ++
              (Template.refill ⟨holes, rest⟩ (names.map setOff)).fill) :=
          Template.fill_cons piece (setOff name) _ rest
        rw [hfill]
        exact hfirst.append hset (Text.stops_cons.mpr (by decide))
      · rw [Posture.run_append, hbetween, Option.bind_some, Posture.run, List.foldlM_cons, hstep]
        exact hfinal

/-- A text with integers that do not fuse is read only if it is read with names in their place. -/
theorem Formula.exists_ofText_refill {results : Template Int64} {names : List Text}
    (hlength : names.length = results.holes.length) (hnames : ∀ name ∈ names, isName name = true)
    (hends : ∀ hole ∈ results.holes, Text.Stops isIdentifierChar hole.1.reverse)
    (hfuses : results.fuses = false) {formula : Formula}
    (hread : ofText results.fillIntegers = .ok formula) :
    ∃ named, ofText (results.refill (names.map setOff)).fill = .ok named := by
  obtain ⟨derivation, hlaid, -, -⟩ := exists_laid hread
  have hrun := (isSome_ofLexemes results.fillIntegers derivation.lexemes).mp
    ⟨_, derivation.ofLexemes_lexemes _⟩
  have hstart : fusesBehind Posture.start.operand results.holes results.rest = false := hfuses
  obtain ⟨lexemes, hnamed, hfinal⟩ :=
    exists_laid_of_not_fuses hlength hnames hends hstart hlaid hrun
  obtain ⟨named, hof⟩ :=
    (isSome_ofLexemes (results.refill (names.map setOff)).fill lexemes).mpr hfinal
  exact ⟨named, Except.bind_eq_ok_iff.mpr ⟨lexemes, hnamed.lexFrom _, hof⟩⟩

end Lindenmayer
