import Lindenmayer.Proofs.Formula.Padding
import Lindenmayer.Proofs.Text.Balance

/-!
# Formulas in parentheses

Parentheses around the whole text of a formula leave no trace in it. A text that is no formula does
not become one in parentheses either, and the value, if there is one, stays the same.
-/

namespace Lindenmayer

/-! ## Cutting texts at parentheses -/

/-- A closing parenthesis is a part of no lexeme but itself. -/
theorem Lexeme.Spelled.eq_closeParen {lexeme : Lexeme} {written : Text}
    (hspelled : lexeme.Spelled written) (hmem : ')' ∈ written) :
    lexeme = .closeParen ∧ written = [')'] := by
  have hidentifier {text : Text} (hall : text.all isIdentifierChar = true) : ')' ∉ text :=
    fun hmem => absurd (List.all_eq_true.mp hall _ hmem) (by decide)
  cases hspelled with
  | number hwritten => exact absurd (hwritten.mem_cases hmem) (by decide)
  | name hstart hrest =>
      rcases List.mem_cons.mp hmem with rfl | hmem
      · cases hstart
      · exact absurd hmem (hidentifier hrest)
  | operator operator => cases operator <;> exact absurd hmem (by decide)
  | openParen => exact absurd hmem (by decide)
  | closeParen => exact ⟨rfl, rfl⟩

theorem Laid.closeParen_mem {text : Text} {lexemes : List Lexeme} (hlaid : Laid text lexemes)
    (hmem : .closeParen ∈ lexemes) : ')' ∈ text := by
  induction hlaid with
  | nil => cases hmem
  | layout _ _ ih => exact List.mem_cons_of_mem _ (ih hmem)
  | @lexeme lexeme written following lexemes hspelled _ _ ih =>
      rcases List.mem_append.mp hmem with hmem | hmem
      · have hlexeme : lexeme = .closeParen := by
          rcases lexeme.expand_eq_or following with ⟨_, _, rfl, -, hexpand⟩ | hexpand
          · rw [hexpand] at hmem
            simp at hmem
          · rw [hexpand] at hmem
            exact (List.mem_singleton.mp hmem).symm
        subst hlexeme
        cases hspelled
        exact List.mem_append_left _ List.mem_cons_self
      · exact List.mem_append_right _ (ih hmem)

theorem Laid.exists_of_openParen {text : Text} {lexemes : List Lexeme}
    (hlaid : Laid ('(' :: text) lexemes) :
    ∃ rest, Laid text rest ∧ lexemes = .openParen :: rest := by
  generalize hwhole : '(' :: text = whole at hlaid
  cases hlaid with
  | nil => cases hwhole
  | layout hlayout _ =>
      cases hwhole
      cases hlayout
  | @lexeme lexeme written following lexemes hspelled _ hlaid =>
      cases hspelled with
      | number hwritten =>
          obtain ⟨c, rest, rfl, hhead⟩ := hwritten.exists_head
          cases hwhole
          exact absurd hhead (by decide)
      | name hstart _ =>
          cases hwhole
          cases hstart
      | operator operator => cases operator <;> cases hwhole
      | openParen =>
          cases hwhole
          exact ⟨lexemes, hlaid, rfl⟩
      | closeParen => cases hwhole

/-- A text falls apart at a closing parenthesis. -/
theorem Laid.exists_of_closeParen {first second : Text} {lexemes : List Lexeme}
    (hlaid : Laid (first ++ ')' :: second) lexemes) :
    ∃ before after, Laid first before ∧ Laid second after ∧
      lexemes = before ++ .closeParen :: after := by
  generalize hwhole : first ++ ')' :: second = whole at hlaid
  induction hlaid generalizing first with
  | nil => cases (List.append_eq_nil_iff.mp hwhole).2
  | @layout c text lexemes hlayout hlaid ih =>
      cases first with
      | nil =>
          cases hwhole
          cases hlayout
      | cons c first =>
          cases hwhole
          obtain ⟨before, after, hbefore, hafter, rfl⟩ := ih rfl
          exact ⟨before, after, .layout hlayout hbefore, hafter, rfl⟩
  | @lexeme lexeme written following lexemes hspelled hdetached hlaid ih =>
      have hcut : (first = [] ∧ lexeme = .closeParen ∧ following = second) ∨
          ∃ between, first = written ++ between ∧ following = between ++ ')' :: second := by
        rcases List.append_eq_append_iff.mp hwhole with ⟨overlap, hwritten, hfollowing⟩ | hbetween
        · cases overlap with
          | nil => exact .inr ⟨[], by simp [hwritten], by simp [hfollowing]⟩
          | cons c overlap =>
              obtain ⟨rfl, hoverlap⟩ := List.cons.inj hfollowing
              obtain ⟨hlexeme, hclose⟩ := hspelled.eq_closeParen (by simp [hwritten])
              rw [hclose] at hwritten
              cases first with
              | nil =>
                  cases hwritten
                  exact .inl ⟨rfl, hlexeme, hoverlap.symm⟩
              | cons d first => simp at hwritten
        · exact .inr hbetween
      obtain ⟨rfl, rfl, rfl⟩ | ⟨between, rfl, rfl⟩ := hcut
      · exact ⟨[], lexemes, .nil, hlaid, rfl⟩
      · obtain ⟨before, after, hbefore, hafter, rfl⟩ := ih rfl
        have hstops : Text.Stops extendsOperand (')' :: second) := Text.stops_cons.mpr (by decide)
        rw [lexeme.expand_append between hstops, ← List.append_assoc]
        exact ⟨_, after, .lexeme hspelled hdetached.left_of_append hbefore, hafter, rfl⟩

theorem laid_enclose_iff {depth : Nat} {text : Text} {lexemes : List Lexeme} :
    Laid (Text.enclose depth text) lexemes ↔
      ∃ inner, Laid text inner ∧
        lexemes =
          List.replicate depth .openParen ++ (inner ++ List.replicate depth .closeParen) := by
  induction depth generalizing lexemes with
  | zero => simp
  | succ depth ih =>
      rw [Text.enclose_succ]
      constructor
      · intro hlaid
        obtain ⟨rest, hrest, rfl⟩ := hlaid.exists_of_openParen
        obtain ⟨before, after, hbefore, hafter, rfl⟩ := hrest.exists_of_closeParen
        obtain ⟨inner, hinner, rfl⟩ := ih.mp hbefore
        rw [hafter.eq_lexemes .nil]
        exact ⟨inner, hinner, (Text.replicate_succ_append_replicate_succ _ _ inner depth).symm⟩
      · rintro ⟨inner, hinner, rfl⟩
        have hclose : Laid [')'] [.closeParen] := .of_lexeme .closeParen
        rw [Text.replicate_succ_append_replicate_succ]
        exact .lexeme .openParen trivial
          ((ih.mpr ⟨inner, hinner, rfl⟩).append hclose (Text.stops_cons.mpr (by decide)))

/-! ## Derivations in parentheses -/

/-- Behind one of the last elements, which are all the same, stand others of them. -/
theorem forall_mem_of_append_replicate {α : Type} {a : α} {first before after : List α}
    {count : Nat} (hfirst : a ∉ first)
    (h : first ++ List.replicate count a = before ++ a :: after) : ∀ x ∈ after, x = a := by
  rcases List.append_eq_append_iff.mp h with ⟨between, -, hcount⟩ | ⟨between, rfl, hcount⟩
  · intro x hx
    have hmem : x ∈ List.replicate count a := by simp [hcount, hx]
    exact List.eq_of_mem_replicate hmem
  · cases between with
    | nil =>
        intro x hx
        have hmem : x ∈ List.replicate count a := by
          rw [← List.nil_append (List.replicate count a), ← hcount]
          exact List.mem_cons_of_mem a hx
        exact List.eq_of_mem_replicate hmem
    | cons b between =>
        cases hcount
        simp at hfirst

namespace Derivation

/-- Behind an operand stands nothing or an operator. -/
theorem lexemes_eq_nil_or_cons {level : Level} (rest : Derivation (.rest level)) :
    rest = .stop ∨ ∃ operator following, rest.lexemes = .operator operator :: following := by
  cases rest with
  | stop => exact .inl rfl
  | link operator fits operand rest => exact .inr ⟨operator, _, rfl⟩

/-- What begins with a parenthesis is a group, or a group and an operator behind it. -/
theorem exists_of_openParen {derivation : Derivation .additive} {lexemes : List Lexeme}
    (h : derivation.lexemes = .openParen :: lexemes) :
    ∃ group : Derivation .additive,
      (lexemes = group.lexemes ++ [.closeParen] ∧ group.formula = derivation.formula) ∨
        ∃ operator rest, lexemes = group.lexemes ++ .closeParen :: .operator operator :: rest := by
  cases derivation with
  | chain product addends =>
      cases product with
      | chain operand factors =>
          cases operand with
          | signed sign operand => simp at h
          | primary inner =>
              cases inner with
              | number n => simp at h
              | name t => simp at h
              | group group =>
                  have hlexemes : lexemes = group.lexemes ++ .closeParen ::
                      (factors.lexemes ++ addends.lexemes) := by
                    simpa using h.symm
                  refine ⟨group, ?_⟩
                  obtain rfl | ⟨operator, rest, hrest⟩ := lexemes_eq_nil_or_cons factors
                  · obtain rfl | ⟨operator, rest, hrest⟩ := lexemes_eq_nil_or_cons addends
                    · exact .inl ⟨hlexemes, rfl⟩
                    · exact .inr ⟨operator, rest, by rw [hlexemes, hrest]; rfl⟩
                  · exact .inr ⟨operator, _, by rw [hlexemes, hrest]; rfl⟩

/-- A derivation of lexemes in parentheses has one of the lexemes themselves in it. -/
theorem exists_of_enclosed {inner : List Lexeme} (hclose : .closeParen ∉ inner) {depth : Nat}
    {derivation : Derivation .additive}
    (h : derivation.lexemes =
      List.replicate depth .openParen ++ (inner ++ List.replicate depth .closeParen)) :
    ∃ core : Derivation .additive, core.lexemes = inner ∧ core.formula = derivation.formula := by
  induction depth generalizing derivation with
  | zero => exact ⟨derivation, by simpa using h, rfl⟩
  | succ depth ih =>
      rw [List.replicate_succ, List.cons_append, ← List.append_assoc] at h
      obtain ⟨group, ⟨hgroup, hformula⟩ | ⟨operator, rest, hgroup⟩⟩ := exists_of_openParen h
      · rw [List.replicate_succ', ← List.append_assoc] at hgroup
        have hinner := List.append_cancel_right hgroup
        rw [List.append_assoc] at hinner
        obtain ⟨core, hcore, hmeaning⟩ := ih hinner.symm
        exact ⟨core, hcore, hmeaning.trans hformula⟩
      · have hopen : .closeParen ∉ List.replicate depth Lexeme.openParen ++ inner := by
          simp [hclose]
        cases forall_mem_of_append_replicate hopen hgroup (.operator operator) List.mem_cons_self

theorem exists_enclosed (core : Derivation .additive) (depth : Nat) :
    ∃ derivation : Derivation .additive,
      derivation.lexemes =
          List.replicate depth .openParen ++ (core.lexemes ++ List.replicate depth .closeParen) ∧
        derivation.formula = core.formula := by
  induction depth with
  | zero => exact ⟨core, by simp, rfl⟩
  | succ depth ih =>
      obtain ⟨inner, hlexemes, hformula⟩ := ih
      refine ⟨.ofOperand (.primary (.group inner)), ?_, hformula⟩
      rw [Text.replicate_succ_append_replicate_succ, ← hlexemes]
      simp

end Derivation

/-! ## Formulas in parentheses -/

/-- A text without parentheses of its own is the same formula in parentheses as it is without. -/
theorem Formula.ofText_enclose_iff {text : Text} (hclose : ')' ∉ text) {depth : Nat}
    {formula : Formula} :
    ofText (Text.enclose depth text) = .ok formula ↔ ofText text = .ok formula := by
  constructor
  · intro hread
    obtain ⟨derivation, hlaid, -, rfl⟩ := exists_laid hread
    obtain ⟨inner, hinner, hlexemes⟩ := laid_enclose_iff.mp hlaid
    obtain ⟨core, rfl, hformula⟩ := Derivation.exists_of_enclosed
      (fun hmem => hclose (hinner.closeParen_mem hmem)) hlexemes
    rw [ofText_of_laid hinner, hformula]
  · intro hread
    obtain ⟨derivation, hlaid, -, rfl⟩ := exists_laid hread
    obtain ⟨enclosed, hlexemes, hformula⟩ := derivation.exists_enclosed depth
    have henclosed : Laid (Text.enclose depth text) enclosed.lexemes :=
      laid_enclose_iff.mpr ⟨_, hlaid, hlexemes⟩
    rw [ofText_of_laid henclosed, hformula]

theorem toOption_compute_enclose {text : Text} (hclose : ')' ∉ text) (depth : Nat) :
    (compute (Text.enclose depth text)).toOption = (compute text).toOption :=
  toOption_compute_congr fun _ => Formula.ofText_enclose_iff hclose

end Lindenmayer
