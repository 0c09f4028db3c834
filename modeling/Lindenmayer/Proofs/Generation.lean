import Lindenmayer.Generation
import Lindenmayer.Proofs.Outcome

/-!
# The shape of a generation

The factors of a word are the word, cut into pieces. What takes the place of a piece has the symbols
of a successor, each with its name and the number of its parameters; only the parameters themselves
are computed.
-/

namespace Lindenmayer

/-! ## Shapes -/

/-- Two symbols that differ at most in what their parameters are. -/
structure Symbol.SameShape (first second : Symbol) : Prop where
  name : second.name = first.name
  arity : second.arity = first.arity

def Word.SameShape (first second : Word) : Prop := List.Forall₂ Symbol.SameShape first second

namespace Word

theorem SameShape.names {first second : Word} (h : SameShape first second) :
    second.names = first.names := by
  induction h with
  | nil => rfl
  | cons hsymbol _ ih => exact congrArg₂ List.cons hsymbol.name ih

end Word

/-! ## Factors -/

theorem exists_of_firstMatch? {rules : List Rule} {word : Word} {rule : Rule}
    (h : firstMatch? rules word = some rule) :
    ∃ found rest, word = found ++ rest ∧ Word.names found = Word.names rule.predecessor ∧
      word.take rule.predecessor.length = found ∧ word.drop rule.predecessor.length = rest := by
  have hmatch := List.find?_some h
  rw [Rule.matchesAt, Bool.and_eq_true, Word.startsWith_iff] at hmatch
  have htake := List.prefix_iff_eq_take.mp hmatch.2
  rw [Word.names, Word.names, List.length_map, ← List.map_take] at htake
  exact ⟨_, _, (List.take_append_drop _ word).symm, htake.symm, rfl, rfl⟩

theorem mem_of_firstMatch? {rules : List Rule} {word : Word} {rule : Rule}
    (h : firstMatch? rules word = some rule) : rule ∈ rules :=
  List.mem_of_find?_eq_some h

/-- Induction along the factors of a word. -/
@[elab_as_elim]
theorem factors_induction (rules : List Rule) {motive : Word → Prop} (nil : motive [])
    (copy : ∀ symbol rest, firstMatch? rules (symbol :: rest) = none →
      factors rules (symbol :: rest) = .copy symbol :: factors rules rest →
        motive rest → motive (symbol :: rest))
    (apply : ∀ rule found rest, firstMatch? rules (found ++ rest) = some rule →
      Word.names found = Word.names rule.predecessor →
      factors rules (found ++ rest) = .apply rule found :: factors rules rest →
        motive rest → motive (found ++ rest))
    (word : Word) : motive word := by
  match word with
  | [] => exact nil
  | symbol :: rest =>
      cases hrule : firstMatch? rules (symbol :: rest) with
      | none =>
          exact copy symbol rest hrule (factors_of_none hrule)
            (factors_induction rules nil copy apply rest)
      | some rule =>
          obtain ⟨found, after, hword, hnames, htake, hdrop⟩ := exists_of_firstMatch? hrule
          have hshorter : after.length < (symbol :: rest).length :=
            hdrop ▸ length_drop_lt_of_firstMatch? hrule
          have hfactors := factors_of_some hrule
          rw [htake, hdrop, hword] at hfactors
          rw [hword] at hrule ⊢
          exact apply rule found after hrule hnames hfactors
            (factors_induction rules nil copy apply after)
termination_by word.length
decreasing_by
  · exact Nat.lt_succ_self _
  · exact hshorter

/-! ## What takes the place of a factor -/

inductive Factor.Becomes : Factor → Word → Prop where
  | copy (symbol : Symbol) : Becomes (.copy symbol) [symbol]
  | apply {rule : Rule} {found word : Word} : Word.SameShape rule.successor word →
      Becomes (.apply rule found) word

variable {σ : Type}

/-- The second symbol is the first with each of its parameters evaluated. -/
inductive Scope.Evaluates (scope : Scope σ) : Symbol → Symbol → Prop where
  | bare (name : Text) : Evaluates scope (.bare name) (.bare name)
  | list {name : Text} {args literals : List Text} (bindings : List (Text × Text)) :
      List.Forall₂
        (fun arg literal => Returns (scope.evaluate (Text.substitute bindings arg)) literal)
          args literals →
      Evaluates scope ⟨name, some args⟩ ⟨name, some literals⟩

theorem Scope.Evaluates.sameShape {scope : Scope σ} {first second : Symbol}
    (h : scope.Evaluates first second) : first.SameShape second := by
  cases h with
  | bare name => exact ⟨rfl, rfl⟩
  | list bindings hliterals => exact ⟨rfl, hliterals.length_eq.symm⟩

namespace Returns

variable {scope : Scope σ}

theorem evaluates_of_instantiateSymbol {bindings : List (Text × Text)} {origin symbol : Symbol}
    (h : Returns (scope.instantiateSymbol bindings origin) symbol) :
    scope.Evaluates origin symbol := by
  obtain ⟨name, args⟩ := origin
  cases args with
  | none =>
      rw [h.eq_of_pure]
      exact .bare name
  | some args =>
      obtain ⟨literals, hliterals, h⟩ := h.exists_of_bind
      rw [h.eq_of_pure]
      exact .list bindings hliterals.forall₂_of_mapM

theorem evaluates_of_instantiate {rule : Rule} {found word : Word}
    (h : Returns (scope.instantiate rule found) word) :
    List.Forall₂ scope.Evaluates rule.successor word := by
  revert h
  fun_cases scope.instantiate rule found with
  | case1 hbare =>
      intro h
      rw [h.eq_of_pure]
      refine List.forall₂_same.mpr fun symbol hmem => ?_
      obtain ⟨name, args⟩ := symbol
      have hargs := List.all_eq_true.mp hbare _ hmem
      cases args with
      | none => exact .bare name
      | some args => cases hargs
  | case2 =>
      intro h
      obtain ⟨bindings, _, h⟩ := h.exists_of_bind
      exact h.forall₂_of_mapM.imp fun _ _ hsymbol => evaluates_of_instantiateSymbol hsymbol

theorem sameShape_of_instantiate {rule : Rule} {found word : Word}
    (h : Returns (scope.instantiate rule found) word) : Word.SameShape rule.successor word :=
  h.evaluates_of_instantiate.imp fun _ _ hsymbol => hsymbol.sameShape

theorem becomes_of_replace {factor : Factor} {word : Word}
    (h : Returns (scope.replace factor) word) : factor.Becomes word := by
  cases factor with
  | copy symbol =>
      rw [h.eq_of_pure]
      exact .copy symbol
  | apply rule found => exact .apply (sameShape_of_instantiate h)

/-- The next generation is made of what takes the place of the factors. -/
theorem exists_of_nextGeneration {rules : List Rule} {word next : Word}
    (h : Returns (scope.nextGeneration rules word) next) :
    ∃ words, List.Forall₂ Factor.Becomes (factors rules word) words ∧ next = words.flatten := by
  obtain ⟨words, hwords, h⟩ := h.exists_of_bind
  exact ⟨words, hwords.forall₂_of_mapM.imp fun _ _ hfactor => becomes_of_replace hfactor,
    h.eq_of_pure⟩

end Returns

end Lindenmayer
