import Lindenmayer.Formula.Lexeme

/-!
# Derivations of expressions

The grammar of expressions, with one type of derivation trees for each of its nonterminals:

    additive       := multiplicative (('+' | '-') multiplicative)*
    multiplicative := unary (('*' | '/') unary)*
    unary          := ('-' | '+') unary | primary
    primary        := NUMBER | NAME | '(' additive ')'

The first two rules are one for the two levels of operators: a chain of operands of the next level,
with operators of its own level between them. The iterated part of a chain is a nonterminal of its
own. Operators group to the left, so the iterated part stands for what it makes of the formula to
its left.
-/

namespace Lindenmayer

def Sign.operator : Sign → Operator
  | .minus => .sub
  | .plus => .add

theorem Operator.sign?_eq_some_iff {operator : Operator} {sign : Sign} :
    operator.sign? = some sign ↔ operator = sign.operator := by
  cases operator <;> cases sign <;> simp [Operator.sign?, Sign.operator]

@[simp]
theorem Operator.sign?_operator (sign : Sign) : sign.operator.sign? = some sign :=
  Operator.sign?_eq_some_iff.mpr rfl

theorem Sign.operator_injective {first second : Sign} (h : first.operator = second.operator) :
    first = second := by
  cases first <;> cases second <;> simp [Sign.operator] at h ⊢

inductive Level where
  | additive
  | multiplicative

def Level.isMultiplicative : Level → Bool
  | additive => false
  | multiplicative => true

/-- What can stand beside an operator: a chain of operands, or one operand with its signs. -/
inductive Phrase where
  | chain (level : Level)
  | unary

abbrev Level.operand : Level → Phrase
  | additive => .chain .multiplicative
  | multiplicative => .unary

inductive Rank where
  | phrase (phrase : Phrase)
  | rest (level : Level)
  | primary

namespace Rank

abbrev additive : Rank := phrase (.chain .additive)

abbrev unary : Rank := phrase .unary

/-- What a nonterminal stands for: a formula, or a step that extends the formula to its left. -/
abbrev Meaning : Rank → Type
  | phrase _ => Formula
  | rest _ => Formula → Formula
  | primary => Formula

end Rank

/-- Derivation trees. Behind the first operand of a chain stand links, an operator and an operand
each. -/
inductive Derivation : Rank → Type where
  | chain {level : Level} (first : Derivation (.phrase level.operand))
      (rest : Derivation (.rest level)) : Derivation (.phrase (.chain level))
  | stop {level : Level} : Derivation (.rest level)
  | link {level : Level} (operator : Operator)
      (fits : operator.isMultiplicative = level.isMultiplicative)
      (operand : Derivation (.phrase level.operand)) (rest : Derivation (.rest level)) :
      Derivation (.rest level)
  | signed (sign : Sign) (operand : Derivation .unary) : Derivation .unary
  | primary (inner : Derivation .primary) : Derivation .unary
  | number (number : Number) : Derivation .primary
  | name (name : Text) : Derivation .primary
  | group (inner : Derivation .additive) : Derivation .primary

namespace Derivation

def lexemes : {rank : Rank} → Derivation rank → List Lexeme
  | _, .chain first rest => first.lexemes ++ rest.lexemes
  | _, .stop => []
  | _, .link operator _ operand rest =>
      .operator operator :: (operand.lexemes ++ rest.lexemes)
  | _, .signed sign operand => .operator sign.operator :: operand.lexemes
  | _, .primary inner => inner.lexemes
  | _, .number n => [.number n]
  | _, .name t => [.name t]
  | _, .group inner => .openParen :: (inner.lexemes ++ [.closeParen])

/-- The formula of a derivation, in which parentheses leave no trace. -/
def meaning : {rank : Rank} → Derivation rank → rank.Meaning
  | _, .chain first rest => rest.meaning first.meaning
  | _, .stop => fun left => left
  | _, .link operator _ operand rest =>
      fun left => rest.meaning (.binary left operator operand.meaning)
  | _, .signed sign operand => .signed sign operand.meaning
  | _, .primary inner => inner.meaning
  | _, .number n => .number n
  | _, .name t => .name t
  | _, .group inner => inner.meaning

attribute [simp] lexemes meaning

abbrev formula (derivation : Derivation .additive) : Formula := derivation.meaning

abbrev ofOperand (operand : Derivation .unary) : Derivation .additive :=
  .chain (.chain operand .stop) .stop

/-! ## One operand more -/

theorem exists_longer {level : Level} (operator : Operator)
    (fits : operator.isMultiplicative = level.isMultiplicative)
    (operand : Derivation (.phrase level.operand)) :
    ∀ rest : Derivation (.rest level), ∃ longer : Derivation (.rest level),
      longer.lexemes = rest.lexemes ++ .operator operator :: operand.lexemes ∧
        ∀ left, longer.meaning left = .binary (rest.meaning left) operator operand.meaning
  | .stop => by
      refine ⟨.link operator fits operand .stop, ?_, fun left => rfl⟩
      simp [lexemes]
  | .link other hother first rest => by
      obtain ⟨longer, hlexemes, hmeaning⟩ := exists_longer operator fits operand rest
      refine ⟨.link other hother first longer, ?_, fun left => hmeaning _⟩
      simp [lexemes, hlexemes]

/-- A chain can be continued by an operator of its level and an operand. -/
theorem exists_operation {level : Level} (left : Derivation (.phrase (.chain level)))
    (operator : Operator) (fits : operator.isMultiplicative = level.isMultiplicative)
    (right : Derivation (.phrase level.operand)) :
    ∃ whole : Derivation (.phrase (.chain level)),
      whole.lexemes = left.lexemes ++ .operator operator :: right.lexemes ∧
        whole.meaning = .binary left.meaning operator right.meaning := by
  cases left with
  | chain first rest =>
      obtain ⟨longer, hlexemes, hmeaning⟩ := exists_longer operator fits right rest
      refine ⟨.chain first longer, ?_, hmeaning _⟩
      simp [lexemes, hlexemes]

end Derivation

/-! ## Unambiguity -/

namespace Level

/-- The operators that can go on with a chain: those of its level and, within its last operand, the
tighter ones. -/
def Continues : Level → Operator → Prop
  | additive, _ => True
  | multiplicative, operator => operator.isMultiplicative = true

theorem continues_of_fits {level : Level} {operator : Operator}
    (fits : operator.isMultiplicative = level.isMultiplicative) : level.Continues operator := by
  cases level with
  | additive => trivial
  | multiplicative => exact fits

end Level

namespace Rank

def Continues : Rank → Operator → Prop
  | phrase (.chain level), operator => level.Continues operator
  | phrase .unary, _ => False
  | rest level, operator => level.Continues operator
  | primary, _ => False

/-- A text of this nonterminal cannot be continued by what follows. -/
def Ends (rank : Rank) (following : List Lexeme) : Prop :=
  ∀ operator, rank.Continues operator → following.head? ≠ some (.operator operator)

theorem ends_of_head? {following : List Lexeme}
    (h : ∀ operator, following.head? ≠ some (.operator operator)) (rank : Rank) :
    rank.Ends following :=
  fun operator _ => h operator

theorem ends_unary (following : List Lexeme) : unary.Ends following :=
  fun _ hcontinues => False.elim hcontinues

theorem ends_primary (following : List Lexeme) : primary.Ends following :=
  fun _ hcontinues => False.elim hcontinues

/-- The operators that go on with an operand go on with the chain, and are not of its level. -/
theorem continues_operand {level : Level} {operator : Operator}
    (hcontinues : (phrase level.operand).Continues operator) :
    level.Continues operator ∧ operator.isMultiplicative ≠ level.isMultiplicative := by
  cases level with
  | additive =>
      have htight : operator.isMultiplicative = true := hcontinues
      exact ⟨trivial, by simp [htight, Level.isMultiplicative]⟩
  | multiplicative => exact False.elim hcontinues

end Rank

namespace Derivation

theorem ends_operand {level : Level} (rest : Derivation (.rest level)) {following : List Lexeme}
    (hends : (Rank.rest level).Ends following) :
    (Rank.phrase level.operand).Ends (rest.lexemes ++ following) := by
  intro operator hcontinues
  obtain ⟨hchain, hother⟩ := Rank.continues_operand hcontinues
  cases rest with
  | stop => exact hends operator hchain
  | link other fits operand rest =>
      rintro ⟨⟩
      exact hother fits

/-- A derivation is determined by a text that begins with its lexemes and goes on with something
that cannot continue it, and so is the rest of the text. -/
theorem eq_of_append {rank : Rank} (first : Derivation rank) :
    ∀ (second : Derivation rank) {u v : List Lexeme}, rank.Ends u → rank.Ends v →
      first.lexemes ++ u = second.lexemes ++ v → first = second ∧ u = v := by
  induction first with
  | chain operand rest ihoperand ihrest =>
      intro second u v hu hv heq
      cases second with
      | chain operand' rest' =>
          simp only [lexemes, List.append_assoc] at heq
          obtain ⟨rfl, htail⟩ :=
            ihoperand operand' (ends_operand rest hu) (ends_operand rest' hv) heq
          obtain ⟨rfl, rfl⟩ := ihrest rest' hu hv htail
          exact ⟨rfl, rfl⟩
  | stop =>
      intro second u v hu hv heq
      cases second with
      | stop => exact ⟨rfl, heq⟩
      | link operator fits _ _ =>
          simp only [lexemes, List.nil_append, List.cons_append] at heq
          exact absurd (by rw [heq]; rfl) (hu operator (Level.continues_of_fits fits))
  | link operator fits operand rest ihoperand ihrest =>
      intro second u v hu hv heq
      cases second with
      | stop =>
          simp only [lexemes, List.nil_append, List.cons_append] at heq
          exact absurd (by rw [← heq]; rfl) (hv operator (Level.continues_of_fits fits))
      | link operator' fits' operand' rest' =>
          simp only [lexemes, List.cons_append, List.append_assoc, List.cons.injEq,
            Lexeme.operator.injEq] at heq
          obtain ⟨rfl, heq⟩ := heq
          obtain ⟨rfl, htail⟩ :=
            ihoperand operand' (ends_operand rest hu) (ends_operand rest' hv) heq
          obtain ⟨rfl, rfl⟩ := ihrest rest' hu hv htail
          exact ⟨rfl, rfl⟩
  | signed sign operand ih =>
      intro second u v hu hv heq
      cases second with
      | signed sign' operand' =>
          simp only [lexemes, List.cons_append, List.cons.injEq, Lexeme.operator.injEq] at heq
          obtain ⟨hsign, heq⟩ := heq
          obtain rfl := Sign.operator_injective hsign
          obtain ⟨rfl, rfl⟩ := ih operand' (Rank.ends_unary u) (Rank.ends_unary v) heq
          exact ⟨rfl, rfl⟩
      | primary inner' =>
          cases inner' <;> simp [lexemes] at heq
  | primary inner ih =>
      intro second u v hu hv heq
      cases second with
      | signed sign' operand' =>
          cases inner <;> simp [lexemes] at heq
      | primary inner' =>
          obtain ⟨rfl, rfl⟩ := ih inner' (Rank.ends_primary u) (Rank.ends_primary v) heq
          exact ⟨rfl, rfl⟩
  | number n =>
      intro second u v hu hv heq
      cases second with
      | number n' => simpa [lexemes] using heq
      | name t' => simp [lexemes] at heq
      | group inner' => simp [lexemes] at heq
  | name t =>
      intro second u v hu hv heq
      cases second with
      | number n' => simp [lexemes] at heq
      | name t' => simpa [lexemes] using heq
      | group inner' => simp [lexemes] at heq
  | group inner ih =>
      intro second u v hu hv heq
      cases second with
      | number n' => simp [lexemes] at heq
      | name t' => simp [lexemes] at heq
      | group inner' =>
          simp only [lexemes, List.cons_append, List.append_assoc, List.cons.injEq, true_and,
            List.nil_append] at heq
          obtain ⟨rfl, htail⟩ := ih inner' (Rank.ends_of_head? (by simp) _)
            (Rank.ends_of_head? (by simp) _) heq
          exact ⟨rfl, by simpa using htail⟩

/-- The derivation of an expression is unique. -/
theorem lexemes_injective {first second : Derivation .additive}
    (h : first.lexemes = second.lexemes) : first = second :=
  (eq_of_append first second (Rank.ends_of_head? (by simp) _) (Rank.ends_of_head? (by simp) _)
    (congrArg (· ++ []) h)).1

end Derivation

end Lindenmayer
