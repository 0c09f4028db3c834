import Lindenmayer.Proofs.Closure
import Lindenmayer.Proofs.Text.Call
import Lindenmayer.System
import Mathlib.Data.List.Find

/-!
# Context-free growth

Where every predecessor is a single symbol, each symbol is replaced without regard to its
neighbours, and where no functions can be called, without regard to the host. Growth is then a
morphism of words: the parts of a word grow as they would grow alone.
-/

namespace Lindenmayer

variable {σ α β : Type}

/-! ## Symbol by symbol -/

def Factor.alone (rules : List Rule) (symbol : Symbol) : Factor :=
  match firstMatch? rules [symbol] with
  | none => copy symbol
  | some rule => apply rule [symbol]

/-- A predecessor of one symbol is found, or not, whatever comes next. -/
theorem Rule.matchesAt_cons {rule : Rule} (hrule : rule.predecessor.length = 1) (symbol : Symbol)
    (rest : Word) : rule.matchesAt (symbol :: rest) = rule.matchesAt [symbol] := by
  obtain ⟨formal, hformal⟩ := List.length_eq_one_iff.mp hrule
  simp only [matchesAt, hformal, Word.startsWith]

section

variable {rules : List Rule} (hrules : ∀ rule ∈ rules, rule.predecessor.length = 1)
include hrules

theorem firstMatch?_cons (symbol : Symbol) (rest : Word) :
    firstMatch? rules (symbol :: rest) = firstMatch? rules [symbol] :=
  List.find?_congr fun rule hmem => Rule.matchesAt_cons (hrules rule hmem) symbol rest

theorem factors_cons (symbol : Symbol) (rest : Word) :
    factors rules (symbol :: rest) = Factor.alone rules symbol :: factors rules rest := by
  have hfirst := firstMatch?_cons hrules symbol rest
  rw [Factor.alone]
  cases hrule : firstMatch? rules [symbol] with
  | none => exact factors_of_none (hfirst.trans hrule)
  | some rule =>
      have hlength := hrules rule (List.mem_of_find?_eq_some hrule)
      rw [factors_of_some (hfirst.trans hrule), hlength]
      rfl

theorem factors_eq_map (word : Word) : factors rules word = word.map (Factor.alone rules) := by
  induction word with
  | nil => exact factors_nil rules
  | cons symbol rest ih => rw [factors_cons hrules, ih, List.map_cons]

/-- The next generation of two words, one after the other. -/
theorem Scope.nextGeneration_append (scope : Scope σ) (u v : Word) :
    scope.nextGeneration rules (u ++ v) = (do
      let first ← scope.nextGeneration rules u
      let second ← scope.nextGeneration rules v
      pure (first ++ second)) := by
  simp only [nextGeneration, factors_eq_map hrules, List.map_append, List.mapM_append, bind_assoc,
    pure_bind, List.flatten_append]

end

/-! ## Without functions -/

def IgnoresHost (α : Type) (run : Effect σ α) : Prop :=
  ∃ outcome : Except Error α, run = Effect.ofExcept id outcome

theorem closed_ignoresHost : Effect.Closed (σ := σ) IgnoresHost where
  pure := fun a => ⟨.ok a, rfl⟩
  refuse := fun {_ error} _ => ⟨.error error, rfl⟩
  bind := by
    rintro α β _ next ⟨outcome, rfl⟩ hnext
    cases outcome with
    | ok a => exact hnext a
    | error error => exact ⟨.error error, rfl⟩

theorem findCallsFrom?_no_functions (boundary : Bool) (text : Text) :
    findCallsFrom? [] boundary text = some (.plain text) := by
  refine findCallsFrom?_of_noneIn ?_ boundary
  induction text with
  | nil => trivial
  | cons c text ih => exact ⟨rfl, ih⟩

/-- Without function names there is nothing to call. -/
theorem Scope.ignoresHost_evaluate (scope : Scope σ) (hfunctions : scope.functions = [])
    (text : Text) : IgnoresHost Text (scope.evaluate text) := by
  refine closed_ignoresHost.evaluate_of_resolve ⟨.ok (.plain text), ?_⟩
  rw [resolve_eq, hfunctions, findCalls, findCallsFrom?_no_functions]
  rfl

theorem Scope.ignoresHost_nextGeneration (scope : Scope σ) (hfunctions : scope.functions = [])
    (rules : List Rule) (word : Word) : IgnoresHost Word (scope.nextGeneration rules word) :=
  closed_ignoresHost.nextGeneration (scope.ignoresHost_evaluate hfunctions) rules word

/-! ## Over generations -/

namespace System

variable {system : System σ}

theorem growFrom_succ_of_unlimited (hlimit : system.limit = none) (rules : List Rule)
    (generation generations : Nat) (word : Word) :
    system.growFrom rules generation (generations + 1) word =
      system.scope.nextGeneration rules word >>=
        system.growFrom rules (generation + 1) generations := by
  rw [growFrom]
  refine congrArg _ (funext fun next => ?_)
  rw [checkLimit, hlimit]
  rfl

/-- Two words grow, one after the other, if each one grows alone, on whatever hosts, and they grow
into what they would grow into alone. -/
theorem outcome_growFrom_append (hfunctions : system.alphabet.functionNames = [])
    (hlimit : system.limit = none) {rules : List Rule}
    (hrules : ∀ rule ∈ rules, rule.predecessor.length = 1) (generations : Nat) :
    ∀ (generation : Nat) (u v grown : Word) (host hostOfFirst hostOfSecond : σ),
      outcome ((system.growFrom rules generation generations (u ++ v)).run host) = .ok grown ↔
        ∃ first second,
          outcome ((system.growFrom rules generation generations u).run hostOfFirst) =
            .ok first ∧
          outcome ((system.growFrom rules generation generations v).run hostOfSecond) =
            .ok second ∧
          grown = first ++ second := by
  induction generations with
  | zero =>
      intro generation u v grown host hostOfFirst hostOfSecond
      constructor
      · rintro ⟨rfl⟩
        exact ⟨u, v, rfl, rfl, rfl⟩
      · rintro ⟨first, second, ⟨rfl⟩, ⟨rfl⟩, rfl⟩
        rfl
  | succ generations ih =>
      intro generation u v grown host hostOfFirst hostOfSecond
      obtain ⟨next, hnext⟩ := system.scope.ignoresHost_nextGeneration hfunctions rules u
      obtain ⟨other, hother⟩ := system.scope.ignoresHost_nextGeneration hfunctions rules v
      simp only [growFrom_succ_of_unlimited hlimit, system.scope.nextGeneration_append hrules,
        hnext, hother]
      -- The words grow on from their next generations, unless one of them has none.
      cases next with
      | error error =>
          constructor
          · rintro ⟨⟩
          · rintro ⟨first, second, ⟨⟩, -, -⟩
      | ok next =>
          cases other with
          | error error =>
              constructor
              · rintro ⟨⟩
              · rintro ⟨first, second, -, ⟨⟩, -⟩
          | ok other => exact ih (generation + 1) next other grown host hostOfFirst hostOfSecond

def counting : System Unit where
  alphabet := ⟨["A".toList, "B".toList], [], []⟩
  capabilities := .empty
  interpreter := ⟨id, fun c => throw (.unknownConstant c)⟩

/-- Two symbols that grow next to each other. -/
theorem outcome_growFrom_append_counting :
    outcome ((counting.growFrom
        [⟨[⟨['A'], some [['x']]⟩], [⟨['A'], some ["x+1".toList]⟩, .bare ['B']]⟩] 1 2
        ([⟨['A'], some [['1']]⟩] ++ [.bare ['B'], ⟨['A'], some [['5']]⟩])).run ()) =
      .ok [⟨['A'], some [['3']]⟩, .bare ['B'], .bare ['B'], .bare ['B'], ⟨['A'], some [['7']]⟩,
        .bare ['B'], .bare ['B']] := by
  have hrules : ∀ rule ∈ [(⟨[⟨['A'], some [['x']]⟩],
      [⟨['A'], some ["x+1".toList]⟩, .bare ['B']]⟩ : Rule)], rule.predecessor.length = 1 := by
    simp
  have hfunctions : counting.alphabet.functionNames = [] := rfl
  have hlimit : counting.limit = none := rfl
  refine (outcome_growFrom_append hfunctions hlimit hrules 2 1 _ _ _ () () ()).mpr
    ⟨[⟨['A'], some [['3']]⟩, .bare ['B'], .bare ['B']],
      [.bare ['B'], ⟨['A'], some [['7']]⟩, .bare ['B'], .bare ['B']], ?_, ?_, rfl⟩
  · with_unfolding_all rfl
  · with_unfolding_all rfl

end System

end Lindenmayer
