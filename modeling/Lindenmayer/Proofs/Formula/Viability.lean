import Lindenmayer.Proofs.Formula.Acceptance

/-!
# Where an expression goes wrong

Lexemes are viable if some continuation makes them a sentence of the grammar. The reader goes on as
long as what it has read is viable, and no longer: a lexeme that it refuses is the first wrong one.
Where the lexemes end too early they are viable, and the reader tells whether closing parentheses
are all that is missing or an operand is.
-/

namespace Lindenmayer

def IsSentence (lexemes : List Lexeme) : Prop :=
  ∃ derivation : Derivation .additive, derivation.lexemes = lexemes

/-- Some continuation makes the lexemes a sentence. -/
def Viable (lexemes : List Lexeme) : Prop :=
  ∃ rest, IsSentence (lexemes ++ rest)

/-- Everything in front of the lexeme at place `k` is viable, but not together with it. -/
structure FirstWrong (lexemes : List Lexeme) (k : Nat) (lexeme : Lexeme) : Prop where
  stands : lexemes[k]? = some lexeme
  viable : Viable (lexemes.take k)
  notViable : ¬Viable (lexemes.take (k + 1))

/-- Nothing but closing parentheses, at least one, makes the lexemes a sentence. -/
def LacksParentheses (lexemes : List Lexeme) : Prop :=
  ∃ depth, IsSentence (lexemes ++ List.replicate (depth + 1) .closeParen)

/-- Any number or name makes the lexemes a sentence, with the closing parentheses that it takes. -/
def LacksOperand (lexemes : List Lexeme) : Prop :=
  ∀ operand : Lexeme, operand.isAtom = true →
    ∃ depth, IsSentence (lexemes ++ operand :: List.replicate depth .closeParen)

def ParseError.token? : ParseError → Option Text
  | unbalancedParentheses _ => none
  | emptyParameter _ => none
  | unexpectedToken token _ => some token
  | unexpectedEndOfInput _ => none
  | unexpectedTrailingTokens token _ => some token

/-! ## Postures of viable lexemes -/

/-- The sentences are what the reader can stop behind. -/
theorem isSentence_iff {lexemes : List Lexeme} :
    IsSentence lexemes ↔ Posture.start.run lexemes = some ⟨true, 0⟩ := by
  rw [← Formula.isSome_ofLexemes [] lexemes]
  constructor
  · rintro ⟨derivation, rfl⟩
    exact ⟨derivation.formula, derivation.ofLexemes_lexemes []⟩
  · rintro ⟨formula, hread⟩
    obtain ⟨derivation, hlexemes, -⟩ := Formula.exists_derivation hread
    exact ⟨derivation, hlexemes⟩

theorem isSentence_append_iff {lexemes rest : List Lexeme} {posture : Posture}
    (hrun : Posture.start.run lexemes = some posture) :
    IsSentence (lexemes ++ rest) ↔ posture.run rest = some ⟨true, 0⟩ := by
  rw [isSentence_iff, Posture.run_append, hrun, Option.bind_some]

namespace Posture

theorem run_closeParens {depth count : Nat} :
    (mk true depth).run (List.replicate count .closeParen) = some ⟨true, 0⟩ ↔ count = depth := by
  induction count generalizing depth with
  | zero => simp [run, eq_comm]
  | succ count ih =>
      cases depth with
      | zero => simp [run, List.replicate_succ, step]
      | succ depth =>
          rw [Nat.succ_inj, ← ih]
          rfl

/-- A number or a name can be read where an operand is wanted, and nowhere else. -/
theorem step_atom {operand : Lexeme} (hatom : operand.isAtom = true) (depth : Nat) :
    (mk false depth).step operand = some ⟨true, depth⟩ ∧ (mk true depth).step operand = none := by
  cases operand with
  | number n => cases depth <;> exact ⟨rfl, rfl⟩
  | name t => cases depth <;> exact ⟨rfl, rfl⟩
  | operator _ => cases hatom
  | openParen => cases hatom
  | closeParen => cases hatom

theorem run_atom_closeParens {operand : Lexeme} (hatom : operand.isAtom = true) (depth : Nat) :
    (mk false depth).run (operand :: List.replicate depth .closeParen) = some ⟨true, 0⟩ := by
  rw [run_cons, (step_atom hatom depth).1]
  exact run_closeParens.mpr rfl

end Posture

/-- The viable lexemes are those that the reader can read. -/
theorem viable_iff {lexemes : List Lexeme} :
    Viable lexemes ↔ ∃ posture, Posture.start.run lexemes = some posture := by
  constructor
  · rintro ⟨rest, hsentence⟩
    rw [isSentence_iff, Posture.run_append, Option.bind_eq_some_iff] at hsentence
    obtain ⟨posture, hrun, -⟩ := hsentence
    exact ⟨posture, hrun⟩
  · rintro ⟨⟨operand, depth⟩, hrun⟩
    cases operand with
    | false =>
        have hatom : (Lexeme.number (.integer 0)).isAtom = true := rfl
        exact ⟨_, (isSentence_append_iff hrun).mpr (Posture.run_atom_closeParens hatom depth)⟩
    | true => exact ⟨_, (isSentence_append_iff hrun).mpr (Posture.run_closeParens.mpr rfl)⟩

section

variable {lexemes : List Lexeme} {operand : Bool} {depth : Nat}
  (hrun : Posture.start.run lexemes = some ⟨operand, depth⟩)
include hrun

theorem lacksParentheses_iff : LacksParentheses lexemes ↔ operand = true ∧ depth ≠ 0 := by
  unfold LacksParentheses
  simp only [isSentence_append_iff hrun]
  cases operand with
  | false =>
      constructor
      · rintro ⟨count, hclosed⟩
        cases hclosed
      · rintro ⟨hfalse, -⟩
        cases hfalse
  | true =>
      simp only [Posture.run_closeParens, true_and]
      constructor
      · rintro ⟨count, rfl⟩
        exact Nat.succ_ne_zero count
      · intro hdepth
        obtain ⟨count, rfl⟩ := Nat.exists_eq_succ_of_ne_zero hdepth
        exact ⟨count, rfl⟩

theorem lacksOperand_iff : LacksOperand lexemes ↔ operand = false := by
  unfold LacksOperand
  simp only [isSentence_append_iff hrun]
  cases operand with
  | false =>
      refine iff_of_true (fun other hatom => ?_) rfl
      exact ⟨depth, Posture.run_atom_closeParens hatom depth⟩
  | true =>
      refine iff_of_false (fun hlacks => ?_) nofun
      obtain ⟨count, hclosed⟩ := hlacks (.number (.integer 0)) rfl
      rw [Posture.run_cons, (Posture.step_atom rfl depth).2] at hclosed
      cases hclosed

end

/-! ## Failures of the reader -/

namespace Reading

theorem posture_of_run {source : Text} {reading next : Reading} {lexemes : List Lexeme}
    (hrun : run source reading lexemes = .ok next) :
    reading.posture.run lexemes = some next.posture := by
  rw [← posture_run source, hrun]
  rfl

/-- The reader fails at one lexeme, behind what it has read. -/
theorem exists_of_run_error {source : Text} {error : ParseError} {lexemes : List Lexeme} :
    ∀ {reading : Reading}, run source reading lexemes = .error error →
      ∃ k lexeme between, lexemes[k]? = some lexeme ∧
        run source reading (lexemes.take k) = .ok between ∧
          between.step source lexeme = .error error := by
  induction lexemes with
  | nil =>
      intro reading hrun
      cases hrun
  | cons first rest ih =>
      intro reading hrun
      rw [run, List.foldlM_cons, Except.bind_eq_error_iff] at hrun
      rcases hrun with hstep | ⟨next, hstep, hrest⟩
      · exact ⟨0, first, reading, rfl, rfl, hstep⟩
      · obtain ⟨k, lexeme, between, hstands, hread, hfails⟩ := ih hrest
        exact ⟨k + 1, lexeme, between, hstands, (run_cons hstep _).trans hread, hfails⟩

theorem posture_step_of_error {source : Text} {reading : Reading} {lexeme : Lexeme}
    {error : ParseError} (hstep : reading.step source lexeme = .error error) :
    reading.posture.step lexeme = none := by
  rw [← posture_step source, hstep]
  rfl

/-- Where a sentence has been read the lexeme is one too many, elsewhere it is out of place. -/
theorem step_eq_error {source : Text} {reading : Reading} {lexeme : Lexeme} {error : ParseError}
    (hstep : reading.step source lexeme = .error error) :
    reading.posture = ⟨true, 0⟩ ∧ error = .unexpectedTrailingTokens lexeme.text source ∨
      reading.posture ≠ ⟨true, 0⟩ ∧ error = .unexpectedToken lexeme.text source := by
  cases reading with
  | wanting pending outer =>
      have hposture : (wanting pending outer).posture ≠ ⟨true, 0⟩ := by
        intro heq
        cases heq
      cases lexeme with
      | operator operator =>
          cases hsign : operator.sign? with
          | none =>
              simp only [step, hsign, Except.error.injEq] at hstep
              exact .inr ⟨hposture, hstep.symm⟩
          | some sign => simp [step, hsign] at hstep
      | closeParen =>
          cases hstep
          exact .inr ⟨hposture, rfl⟩
      | _ => cases hstep
  | having sum product outer =>
      cases outer with
      | nil =>
          refine .inl ⟨rfl, ?_⟩
          cases lexeme <;> cases hstep <;> rfl
      | cons pending outer =>
          have hposture : (having sum product (pending :: outer)).posture ≠ ⟨true, 0⟩ := by
            intro heq
            cases heq
          refine .inr ⟨hposture, ?_⟩
          cases lexeme <;> cases hstep <;> rfl

theorem finish_eq_error {source : Text} {reading : Reading} {error : ParseError}
    (hfinish : reading.finish source = .error error) :
    ∃ depth, reading.posture = ⟨false, depth⟩ ∧ error = .unexpectedEndOfInput source ∨
      reading.posture = ⟨true, depth + 1⟩ ∧ error = .unbalancedParentheses source := by
  cases reading with
  | wanting pending outer =>
      cases hfinish
      exact ⟨outer.length, .inl ⟨rfl, rfl⟩⟩
  | having sum product outer =>
      cases outer with
      | nil => cases hfinish
      | cons pending outer =>
          cases hfinish
          exact ⟨outer.length, .inr ⟨rfl, rfl⟩⟩

end Reading

theorem firstWrong_of_step {lexemes : List Lexeme} {k : Nat} {lexeme : Lexeme} {posture : Posture}
    (hstands : lexemes[k]? = some lexeme)
    (hread : Posture.start.run (lexemes.take k) = some posture)
    (hstep : posture.step lexeme = none) : FirstWrong lexemes k lexeme where
  stands := hstands
  viable := viable_iff.mpr ⟨posture, hread⟩
  notViable := by
    rintro ⟨rest, hsentence⟩
    rw [List.take_add_one, hstands, List.append_assoc, isSentence_append_iff hread] at hsentence
    change posture.run (lexeme :: rest) = _ at hsentence
    rw [Posture.run_cons, hstep] at hsentence
    cases hsentence

/-- An error that points at a lexeme points at the first wrong one, and calls it trailing exactly if
a sentence ends in front of it. Without one all lexemes are viable, and no sentence yet: then the
error says whether closing parentheses are all that is missing, or an operand is. -/
theorem Formula.error_of_ofLexemes {source : Text} {lexemes : List Lexeme} {error : ParseError}
    (hfails : Formula.ofLexemes source lexemes = .error error) :
    error.source = source ∧
    (∀ token, error.token? = some token →
      ∃ k lexeme, FirstWrong lexemes k lexeme ∧ token = lexeme.text ∧
        (error = .unexpectedTrailingTokens token source ↔ IsSentence (lexemes.take k))) ∧
    (error.token? = none →
      Viable lexemes ∧ ¬IsSentence lexemes ∧
        (error = .unbalancedParentheses source ∨ error = .unexpectedEndOfInput source) ∧
        (error = .unbalancedParentheses source ↔ LacksParentheses lexemes) ∧
        (error = .unexpectedEndOfInput source ↔ LacksOperand lexemes)) := by
  rcases Except.bind_eq_error_iff.mp hfails with hrun | ⟨final, hrun, hfinish⟩
  · obtain ⟨k, lexeme, between, hstands, hread, hstep⟩ := Reading.exists_of_run_error hrun
    have hposture : Posture.start.run (lexemes.take k) = _ := Reading.posture_of_run hread
    have hfirst := firstWrong_of_step hstands hposture (Reading.posture_step_of_error hstep)
    have hsentence : IsSentence (lexemes.take k) ↔ between.posture = ⟨true, 0⟩ := by
      rw [isSentence_iff, hposture, Option.some_inj]
    rcases Reading.step_eq_error hstep with ⟨hcomplete, rfl⟩ | ⟨hincomplete, rfl⟩
    · refine ⟨rfl, ?_, nofun⟩
      rintro token ⟨rfl⟩
      exact ⟨k, lexeme, hfirst, rfl, iff_of_true rfl (hsentence.mpr hcomplete)⟩
    · refine ⟨rfl, ?_, nofun⟩
      rintro token ⟨rfl⟩
      exact ⟨k, lexeme, hfirst, rfl, iff_of_false nofun (mt hsentence.mp hincomplete)⟩
  · have hposture : Posture.start.run lexemes = _ := Reading.posture_of_run hrun
    have hviable := viable_iff.mpr ⟨_, hposture⟩
    have hsentence : IsSentence lexemes ↔ _ := isSentence_iff
    rw [hposture, Option.some_inj] at hsentence
    obtain ⟨depth, ⟨hfinal, rfl⟩ | ⟨hfinal, rfl⟩⟩ := Reading.finish_eq_error hfinish
    · rw [hfinal] at hposture hsentence
      refine ⟨rfl, nofun, fun _ => ⟨hviable, mt hsentence.mp nofun, .inr rfl, ?_, ?_⟩⟩
      · exact iff_of_false nofun fun hlacks => nomatch ((lacksParentheses_iff hposture).mp hlacks).1
      · exact iff_of_true rfl ((lacksOperand_iff hposture).mpr rfl)
    · rw [hfinal] at hposture hsentence
      refine ⟨rfl, nofun, fun _ => ⟨hviable, mt hsentence.mp nofun, .inl rfl, ?_, ?_⟩⟩
      · exact iff_of_true rfl ((lacksParentheses_iff hposture).mpr ⟨rfl, Nat.succ_ne_zero depth⟩)
      · exact iff_of_false nofun fun hlacks => nomatch (lacksOperand_iff hposture).mp hlacks

def juxtaposed : List Lexeme :=
  [.openParen, .number (.integer 1), .number (.integer 2), .closeParen]

/-- The second operand within the parentheses is the first wrong lexeme. -/
theorem Formula.error_of_ofLexemes_juxtaposed :
    Formula.ofLexemes "(1 2)".toList juxtaposed =
        .error (.unexpectedToken ['2'] "(1 2)".toList) ∧
      ∃ k lexeme, FirstWrong juxtaposed k lexeme ∧ ['2'] = lexeme.text ∧
        ¬IsSentence (juxtaposed.take k) := by
  have hfails : Formula.ofLexemes "(1 2)".toList juxtaposed =
      .error (.unexpectedToken ['2'] "(1 2)".toList) := by rfl
  obtain ⟨-, hpoints, -⟩ := Formula.error_of_ofLexemes hfails
  obtain ⟨k, lexeme, hfirst, htoken, htrailing⟩ := hpoints ['2'] rfl
  exact ⟨hfails, k, lexeme, hfirst, htoken, fun hsentence => nomatch htrailing.mpr hsentence⟩

end Lindenmayer
