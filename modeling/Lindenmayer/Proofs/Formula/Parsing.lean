import Lindenmayer.Formula.Parsing
import Lindenmayer.Proofs.Formula.Derivation
import Lindenmayer.Proofs.Outcome

/-!
# The reader accepts exactly the expressions of the grammar

Completeness follows a derivation and says from which state to which state its lexemes lead the
reader. Soundness is an invariant of the reader: what it has read so far consists of complete
derivations, one for each formula that it holds, and of the operators, signs and parentheses between
them.
-/

namespace Lindenmayer

namespace Reading

def run (source : Text) (reading : Reading) (lexemes : List Lexeme) : Except ParseError Reading :=
  lexemes.foldlM (step source) reading

theorem run_cons {source : Text} {reading next : Reading} {lexeme : Lexeme}
    (hstep : step source reading lexeme = .ok next) (lexemes : List Lexeme) :
    run source reading (lexeme :: lexemes) = run source next lexemes := by
  rw [run, List.foldlM_cons, hstep]
  rfl

theorem run_append {source : Text} {reading next : Reading} {first : List Lexeme}
    (hfirst : run source reading first = .ok next) (second : List Lexeme) :
    run source reading (first ++ second) = run source next second := by
  rw [run, List.foldlM_append]
  change (run source reading first >>= fun next => run source next second) = _
  rw [hfirst]
  rfl

end Reading

open Reading (run run_cons run_append supply)

/-! ## Completeness -/

/-- Where the lexemes of a nonterminal lead the reader. -/
def Rank.Reads (source : Text) : (rank : Rank) → List Lexeme → rank.Meaning → Prop
  | phrase (.chain .additive), lexemes, formula => ∀ outer, ∃ sum product,
      run source (.wanting .start outer) lexemes = .ok (.having sum product outer) ∧
        Pending.close sum product = formula
  | rest .additive, lexemes, extend => ∀ sum product outer, ∃ sum' product',
      run source (.having sum product outer) lexemes = .ok (.having sum' product' outer) ∧
        Pending.close sum' product' = extend (Pending.close sum product)
  | phrase (.chain .multiplicative), lexemes, formula => ∀ sum outer,
      run source (.wanting ⟨sum, none, []⟩ outer) lexemes = .ok (.having sum formula outer)
  | rest .multiplicative, lexemes, extend => ∀ sum product outer,
      run source (.having sum product outer) lexemes = .ok (.having sum (extend product) outer)
  | phrase .unary, lexemes, formula => ∀ pending outer,
      run source (.wanting pending outer) lexemes = .ok (supply pending formula outer)
  | primary, lexemes, formula => ∀ pending outer,
      run source (.wanting pending outer) lexemes = .ok (supply pending formula outer)

theorem Reading.step_loose (source : Text) (sum : Option (Formula × Operator)) (product : Formula)
    (outer : List Pending) {operator : Operator} (loose : operator.isMultiplicative = false) :
    step source (.having sum product outer) (.operator operator) =
      .ok (.wanting ⟨some (Pending.close sum product, operator), none, []⟩ outer) := by
  cases outer <;> simp [step, operate, loose]

theorem Reading.step_tight (source : Text) (sum : Option (Formula × Operator)) (product : Formula)
    (outer : List Pending) {operator : Operator} (tight : operator.isMultiplicative = true) :
    step source (.having sum product outer) (.operator operator) =
      .ok (.wanting ⟨sum, some (product, operator), []⟩ outer) := by
  cases outer <;> simp [step, operate, tight]

theorem Reading.step_sign (source : Text) (pending : Pending) (outer : List Pending) (sign : Sign) :
    step source (.wanting pending outer) (.operator sign.operator) =
      .ok (.wanting { pending with signs := sign :: pending.signs } outer) := by
  simp [step]

theorem Derivation.reads (source : Text) {rank : Rank} (derivation : Derivation rank) :
    rank.Reads source derivation.lexemes derivation.meaning := by
  induction derivation with
  | @chain level first rest ihfirst ihrest =>
      cases level with
      | additive =>
          intro outer
          obtain ⟨sum, product, hrun, hclose⟩ := ihrest none first.meaning outer
          refine ⟨sum, product, ?_, hclose⟩
          rw [lexemes, Pending.start, run_append (ihfirst none outer), hrun]
      | multiplicative =>
          intro sum outer
          rw [lexemes, run_append (ihfirst _ outer)]
          exact ihrest sum first.meaning outer
  | @stop level =>
      cases level with
      | additive => exact fun sum product outer => ⟨sum, product, rfl, rfl⟩
      | multiplicative => exact fun sum product outer => rfl
  | @link level operator fits operand rest ihoperand ihrest =>
      cases level with
      | additive =>
          intro sum product outer
          obtain ⟨sum', product', hrun, hclose⟩ :=
            ihrest (some (Pending.close sum product, operator)) operand.meaning outer
          refine ⟨sum', product', ?_, hclose⟩
          rw [lexemes, run_cons (Reading.step_loose source sum product outer fits),
            run_append (ihoperand _ outer), hrun]
      | multiplicative =>
          intro sum product outer
          rw [lexemes, run_cons (Reading.step_tight source sum product outer fits),
            run_append (ihoperand _ outer)]
          exact ihrest sum (.binary product operator operand.meaning) outer
  | signed sign operand ih =>
      intro pending outer
      rw [lexemes, run_cons (Reading.step_sign source pending outer sign)]
      exact ih _ outer
  | primary inner ih =>
      intro pending outer
      exact ih pending outer
  | number n =>
      intro pending outer
      rfl
  | name t =>
      intro pending outer
      rfl
  | group inner ih =>
      intro pending outer
      obtain ⟨sum, product, hrun, hclose⟩ := ih (pending :: outer)
      have hopen : Reading.step source (.wanting pending outer) .openParen =
          .ok (.wanting .start (pending :: outer)) := rfl
      rw [lexemes, run_cons hopen, run_append hrun]
      change Except.ok (supply pending (Pending.close sum product) outer) = _
      rw [hclose]
      rfl

/-- An expression of the grammar is read as its formula. -/
theorem Derivation.ofLexemes_lexemes (source : Text) (derivation : Derivation .additive) :
    Formula.ofLexemes source derivation.lexemes = .ok derivation.formula := by
  obtain ⟨sum, product, hrun, hclose⟩ := derivation.reads source []
  change (run source (.wanting .start []) derivation.lexemes >>= Reading.finish source) = _
  rw [hrun, formula, ← hclose]
  rfl

/-! ## Soundness -/

/-- What a formula that waits at a level for the right operand of an operator was read from. -/
inductive Level.Covers (level : Level) : Option (Formula × Operator) → List Lexeme → Prop where
  | none : level.Covers none []
  | some (left : Derivation (.phrase (.chain level))) (operator : Operator)
      (fits : operator.isMultiplicative = level.isMultiplicative) :
      level.Covers (some (left.meaning, operator)) (left.lexemes ++ [.operator operator])

def Pending.Covers (pending : Pending) (lexemes : List Lexeme) : Prop :=
  ∃ sum product, Level.additive.Covers pending.sum sum ∧
    Level.multiplicative.Covers pending.product product ∧
      lexemes =
        sum ++ (product ++ pending.signs.reverse.map fun sign => .operator sign.operator)

inductive OuterCovers : List Pending → List Lexeme → Prop where
  | nil : OuterCovers [] []
  | cons {pending : Pending} {outer : List Pending} {before inner : List Lexeme} :
      OuterCovers outer before → pending.Covers inner →
      OuterCovers (pending :: outer) (before ++ (inner ++ [.openParen]))

/-- The invariant of the reader: what it stands for was read from `lexemes`. -/
inductive Reading.Covers : Reading → List Lexeme → Prop where
  | wanting {pending : Pending} {outer : List Pending} {before inner : List Lexeme} :
      OuterCovers outer before → pending.Covers inner →
      Covers (.wanting pending outer) (before ++ inner)
  | having {sum : Option (Formula × Operator)} {outer : List Pending}
      {before left : List Lexeme} (product : Derivation (.phrase (.chain .multiplicative))) :
      OuterCovers outer before → Level.additive.Covers sum left →
      Covers (.having sum product.meaning outer) (before ++ (left ++ product.lexemes))

theorem Pending.covers_start : Pending.start.Covers [] :=
  ⟨[], [], .none, .none, rfl⟩

/-- What waits at a level and its right operand make up a chain of the level. -/
theorem Level.Covers.exists_close {level : Level} {waiting : Option (Formula × Operator)}
    {left : List Lexeme} (hcovers : level.Covers waiting left)
    (operand : Derivation (.phrase level.operand)) :
    ∃ whole : Derivation (.phrase (.chain level)), whole.lexemes = left ++ operand.lexemes ∧
      whole.meaning = Pending.close waiting operand.meaning := by
  cases hcovers with
  | none =>
      refine ⟨.chain operand .stop, ?_, rfl⟩
      simp [Derivation.lexemes]
  | some left operator fits =>
      obtain ⟨whole, hlexemes, hmeaning⟩ := left.exists_operation operator fits operand
      exact ⟨whole, by simp [hlexemes], hmeaning⟩

/-- Signs and the operand behind them make up an operand. -/
theorem Derivation.exists_signed (signs : List Sign) (operand : Derivation .unary) :
    ∃ whole : Derivation .unary,
      whole.lexemes =
        (signs.reverse.map fun sign => Lexeme.operator sign.operator) ++ operand.lexemes ∧
      whole.meaning = signs.foldl (fun operand sign => .signed sign operand) operand.meaning := by
  induction signs generalizing operand with
  | nil => exact ⟨operand, rfl, rfl⟩
  | cons sign signs ih =>
      obtain ⟨whole, hlexemes, hmeaning⟩ := ih (.signed sign operand)
      refine ⟨whole, ?_, hmeaning⟩
      rw [hlexemes]
      simp [lexemes]

/-- An operand completes a product. -/
theorem Reading.Covers.supply {pending : Pending} {outer : List Pending}
    {before inner : List Lexeme} (houter : OuterCovers outer before)
    (hpending : pending.Covers inner) (operand : Derivation .unary) :
    (supply pending operand.meaning outer).Covers (before ++ (inner ++ operand.lexemes)) := by
  obtain ⟨sum, product, hsum, hproduct, rfl⟩ := hpending
  obtain ⟨signed, hsigned, hmeaning⟩ := operand.exists_signed pending.signs
  obtain ⟨whole, hwhole, hclose⟩ := hproduct.exists_close signed
  have hcovers := Reading.Covers.having whole houter hsum
  rw [hclose, hmeaning, hwhole, hsigned] at hcovers
  simpa [Reading.supply, Pending.operand] using hcovers

/-- What one lexeme does to the invariant. -/
theorem Reading.Covers.step {source : Text} {reading next : Reading} {lexemes : List Lexeme}
    {lexeme : Lexeme} (hcovers : reading.Covers lexemes)
    (hstep : reading.step source lexeme = .ok next) : next.Covers (lexemes ++ [lexeme]) := by
  cases hcovers with
  | @wanting pending outer before inner houter hpending =>
      rw [List.append_assoc]
      cases lexeme with
      | number n =>
          cases hstep
          exact Reading.Covers.supply houter hpending (.primary (.number n))
      | name t =>
          cases hstep
          exact Reading.Covers.supply houter hpending (.primary (.name t))
      | openParen =>
          cases hstep
          have hinner := Reading.Covers.wanting (.cons houter hpending) Pending.covers_start
          simpa using hinner
      | closeParen => cases hstep
      | operator operator =>
          cases hsign : operator.sign? with
          | none => simp [Reading.step, hsign] at hstep
          | some sign =>
              simp only [Reading.step, hsign, Except.ok.injEq] at hstep
              subst hstep
              obtain ⟨sum, product, hsum, hproduct, rfl⟩ := hpending
              obtain rfl := Operator.sign?_eq_some_iff.mp hsign
              refine .wanting houter ⟨sum, product, hsum, hproduct, ?_⟩
              simp
  | @having sum outer before left product houter hsum =>
      rw [List.append_assoc, List.append_assoc]
      cases lexeme with
      | number n => cases outer <;> cases hstep
      | name t => cases outer <;> cases hstep
      | openParen => cases outer <;> cases hstep
      | closeParen =>
          cases houter with
          | nil => cases hstep
          | cons houter hpending =>
              cases hstep
              obtain ⟨whole, hlexemes, hformula⟩ := hsum.exists_close product
              have hgroup :=
                Reading.Covers.supply houter hpending (.primary (.group whole))
              have hmeaning : (Derivation.primary (.group whole)).meaning = whole.formula := rfl
              rw [Derivation.lexemes, Derivation.lexemes, hlexemes, hmeaning] at hgroup
              rw [← hformula]
              simpa using hgroup
      | operator operator =>
          cases hrank : operator.isMultiplicative with
          | false =>
              rw [Reading.step_loose source _ _ _ hrank, Except.ok.injEq] at hstep
              obtain ⟨whole, hlexemes, hformula⟩ := hsum.exists_close product
              subst hstep
              rw [← hformula]
              refine .wanting houter ⟨_, [], .some whole operator hrank, .none, ?_⟩
              simp [hlexemes]
          | true =>
              rw [Reading.step_tight source _ _ _ hrank, Except.ok.injEq] at hstep
              subst hstep
              refine .wanting houter ⟨left, _, hsum, .some product operator hrank, ?_⟩
              simp

theorem Reading.Covers.run {source : Text} {reading final : Reading} {before lexemes : List Lexeme}
    (hcovers : reading.Covers before) (hrun : Reading.run source reading lexemes = .ok final) :
    final.Covers (before ++ lexemes) := by
  induction lexemes generalizing reading before with
  | nil =>
      cases hrun
      simpa using hcovers
  | cons lexeme lexemes ih =>
      rw [Reading.run, List.foldlM_cons, Except.bind_eq_ok_iff] at hrun
      obtain ⟨next, hstep, hrest⟩ := hrun
      have hfinal := ih (hcovers.step hstep) hrest
      simpa using hfinal

theorem Formula.exists_derivation {source : Text} {lexemes : List Lexeme} {formula : Formula}
    (h : Formula.ofLexemes source lexemes = .ok formula) :
    ∃ derivation : Derivation .additive,
      derivation.lexemes = lexemes ∧ derivation.formula = formula := by
  obtain ⟨final, hrun, hfinish⟩ := Except.bind_eq_ok_iff.mp h
  have hcovers := (Reading.Covers.wanting .nil Pending.covers_start).run hrun
  cases hcovers with
  | wanting houter hpending => cases hfinish
  | having product houter hsum =>
      cases houter with
      | cons _ _ => cases hfinish
      | nil =>
          cases hfinish
          obtain ⟨whole, hlexemes, hformula⟩ := hsum.exists_close product
          exact ⟨whole, by simpa using hlexemes, hformula⟩

/-- The reader accepts exactly the expressions of the grammar, as the formulas of their derivations,
and no expression has two derivations. -/
theorem Formula.ofLexemes_eq_ok_iff (source : Text) (lexemes : List Lexeme) (formula : Formula) :
    (Formula.ofLexemes source lexemes = .ok formula ↔
      ∃ derivation : Derivation .additive,
        derivation.lexemes = lexemes ∧ derivation.formula = formula) ∧
    ∀ first second : Derivation .additive,
      first.lexemes = lexemes → second.lexemes = lexemes → first = second := by
  refine ⟨⟨Formula.exists_derivation, ?_⟩, ?_⟩
  · rintro ⟨derivation, rfl, rfl⟩
    exact derivation.ofLexemes_lexemes source
  · rintro first second rfl hsecond
    exact Derivation.lexemes_injective hsecond.symm

end Lindenmayer
