import Lindenmayer.Rule

/-!
# Generations

One generation cuts a word, from the left, into factors: where a rule applies, the symbols that the
first such rule finds are one factor, and else the next symbol is one. The next generation is what
the factors become, one after the other.
-/

namespace Lindenmayer

/-- A part of a word and what happens to it. -/
inductive Factor where
  /-- No rule applies: the symbol stays. -/
  | copy (symbol : Symbol)
  /-- The rule replaces the symbols found. -/
  | apply (rule : Rule) (found : Word)
  deriving DecidableEq, Repr

def Factor.word : Factor → Word
  | copy symbol => [symbol]
  | apply _ found => found

def firstMatch? (rules : List Rule) (word : Word) : Option Rule :=
  rules.find? fun rule => rule.matchesAt word

theorem predecessor_ne_nil_of_firstMatch? {rules : List Rule} {word : Word} {rule : Rule}
    (h : firstMatch? rules word = some rule) : rule.predecessor ≠ [] := by
  have hmatch := List.find?_some h
  intro hnil
  simp [Rule.matchesAt, hnil] at hmatch

/-- A rule that applies uses up a part of the word. -/
theorem length_drop_lt_of_firstMatch? {rules : List Rule} {symbol : Symbol} {rest : Word}
    {rule : Rule} (h : firstMatch? rules (symbol :: rest) = some rule) :
    ((symbol :: rest).drop rule.predecessor.length).length < (symbol :: rest).length := by
  have hpos := List.length_pos_iff.2 (predecessor_ne_nil_of_firstMatch? h)
  rw [List.length_drop, List.length_cons]
  omega

/-- The factors of a word behind the factors `before`, which are in reverse order. -/
def factorsOnto (rules : List Rule) (before : List Factor) (word : Word) : List Factor :=
  match word with
  | [] => before.reverse
  | symbol :: rest =>
      match _hrule : firstMatch? rules (symbol :: rest) with
      | none => factorsOnto rules (.copy symbol :: before) rest
      | some rule =>
          let size := rule.predecessor.length
          factorsOnto rules (.apply rule ((symbol :: rest).take size) :: before)
            ((symbol :: rest).drop size)
termination_by word.length
decreasing_by
  · exact Nat.lt_succ_self _
  · exact length_drop_lt_of_firstMatch? _hrule

def factors (rules : List Rule) (word : Word) : List Factor := factorsOnto rules [] word

theorem factorsOnto_nil (rules : List Rule) (before : List Factor) :
    factorsOnto rules before [] = before.reverse := by
  rw [factorsOnto]

theorem factorsOnto_of_none {rules : List Rule} {symbol : Symbol} {rest : Word}
    (h : firstMatch? rules (symbol :: rest) = none) (before : List Factor) :
    factorsOnto rules before (symbol :: rest) =
      factorsOnto rules (.copy symbol :: before) rest := by
  rw [factorsOnto]
  split
  next => rfl
  next found => cases h.symm.trans found

theorem factorsOnto_of_some {rules : List Rule} {symbol : Symbol} {rest : Word} {rule : Rule}
    (h : firstMatch? rules (symbol :: rest) = some rule) (before : List Factor) :
    factorsOnto rules before (symbol :: rest) =
      factorsOnto rules
        (.apply rule ((symbol :: rest).take rule.predecessor.length) :: before)
        ((symbol :: rest).drop rule.predecessor.length) := by
  rw [factorsOnto]
  split
  next found => cases h.symm.trans found
  next found =>
    cases h.symm.trans found
    rfl

theorem factorsOnto_eq (rules : List Rule) (before : List Factor) (word : Word) :
    factorsOnto rules before word = before.reverse ++ factors rules word := by
  match word with
  | [] => simp [factors, factorsOnto_nil]
  | symbol :: rest =>
      cases hrule : firstMatch? rules (symbol :: rest) with
      | none =>
          have hall : factors rules (symbol :: rest) = _ := factorsOnto_of_none hrule []
          rw [hall, factorsOnto_of_none hrule, factorsOnto_eq rules (.copy symbol :: before) rest,
            factorsOnto_eq rules [.copy symbol] rest]
          simp
      | some rule =>
          have hall : factors rules (symbol :: rest) = _ := factorsOnto_of_some hrule []
          rw [hall, factorsOnto_of_some hrule, factorsOnto_eq rules (_ :: before),
            factorsOnto_eq rules [_]]
          simp
termination_by word.length
decreasing_by
  · exact Nat.lt_succ_self _
  · exact Nat.lt_succ_self _
  · exact length_drop_lt_of_firstMatch? hrule
  · exact length_drop_lt_of_firstMatch? hrule

@[simp] theorem factors_nil (rules : List Rule) : factors rules [] = [] :=
  factorsOnto_nil rules []

/-- Where no rule applies the symbol is copied. -/
theorem factors_of_none {rules : List Rule} {symbol : Symbol} {rest : Word}
    (h : firstMatch? rules (symbol :: rest) = none) :
    factors rules (symbol :: rest) = .copy symbol :: factors rules rest := by
  rw [factors, factorsOnto_of_none h, factorsOnto_eq]
  rfl

/-- Where a rule applies it takes as many symbols as its predecessor has. -/
theorem factors_of_some {rules : List Rule} {symbol : Symbol} {rest : Word} {rule : Rule}
    (h : firstMatch? rules (symbol :: rest) = some rule) :
    factors rules (symbol :: rest) =
      .apply rule ((symbol :: rest).take rule.predecessor.length) ::
        factors rules ((symbol :: rest).drop rule.predecessor.length) := by
  rw [factors, factorsOnto_of_some h, factorsOnto_eq]
  rfl

def Scope.replace (scope : Scope σ) : Factor → Effect σ Word
  | .copy symbol => pure [symbol]
  | .apply rule found => scope.instantiate rule found

def Scope.nextGeneration (scope : Scope σ) (rules : List Rule) (word : Word) : Effect σ Word := do
  let words ← (factors rules word).mapM scope.replace
  pure words.flatten

end Lindenmayer
