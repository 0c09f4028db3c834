import Lindenmayer.Proofs.Closure
import Lindenmayer.Proofs.Generation.Cut
import Lindenmayer.Proofs.Word.Nesting
import Lindenmayer.System

/-!
# The shape of growth

The names of a generation depend on the names of the word before it, and on nothing else: neither on
its parameters nor on the host. So two systems that grow words of the same names grow words of the
same names, and exceed a limit in the same generation, as long as no parameter is refused.
-/

namespace Lindenmayer

variable {σ τ : Type}

/-! ## Names of a generation -/

def Factor.newNames : Factor → List Text
  | copy symbol => [symbol.name]
  | apply rule _ => Word.names rule.successor

def nextNames (rules : List Rule) (word : Word) : List Text :=
  (factors rules word).flatMap Factor.newNames

theorem Factor.Becomes.names {factor : Factor} {word : Word} (h : factor.Becomes word) :
    Word.names word = factor.newNames := by
  cases h with
  | copy symbol => rfl
  | apply hshape => exact hshape.names

theorem names_flatten_of_becomes {cut : List Factor} {words : List Word}
    (h : List.Forall₂ Factor.Becomes cut words) :
    Word.names words.flatten = cut.flatMap Factor.newNames := by
  induction h with
  | nil => rfl
  | cons hfactor _ ih =>
      rw [List.flatten_cons, Word.names_append, List.flatMap_cons, hfactor.names, ih]

theorem firstMatch?_congr {word other : Word} (hnames : Word.names other = Word.names word)
    (rules : List Rule) : firstMatch? rules other = firstMatch? rules word := by
  have hmatches (rule : Rule) : rule.matchesAt other = rule.matchesAt word := by
    rw [Bool.eq_iff_iff, Rule.matchesAt_iff, Rule.matchesAt_iff, Rule.Finds, Rule.Finds, hnames]
  rw [firstMatch?, firstMatch?, funext hmatches]

/-- Words of the same names are cut at the same places, by the same rules. -/
theorem nextNames_congr {rules : List Rule} {word other : Word}
    (hnames : Word.names other = Word.names word) :
    nextNames rules other = nextNames rules word := by
  induction word using factors_induction rules generalizing other with
  | nil =>
      rw [List.map_eq_nil_iff.mp hnames]
  | copy symbol rest hrule hfactors ih =>
      obtain ⟨first, others, rfl, hfirst, hothers⟩ := List.map_eq_cons_iff.mp hnames
      rw [← firstMatch?_congr hnames] at hrule
      rw [nextNames, nextNames, hfactors, factors_of_none hrule, List.flatMap_cons,
        List.flatMap_cons, Factor.newNames, Factor.newNames, hfirst]
      exact congrArg ([symbol.name] ++ ·) (ih hothers)
  | apply rule found rest hrule hfound hfactors ih =>
      rw [← firstMatch?_congr hnames] at hrule
      obtain ⟨start, others, rfl, hstart, -⟩ := exists_of_firstMatch? hrule
      have hfits : Factor.Fits rules (.apply rule start) others :=
        ⟨firstMatch?_eq_some_iff.mp hrule, hstart⟩
      rw [Word.names_append, Word.names_append, hstart, hfound] at hnames
      have hothers := List.append_cancel_left hnames
      have hother : factors rules (start ++ others) = .apply rule start :: factors rules others :=
        factors_append_of_fits hfits
      rw [nextNames, nextNames, hfactors, hother, List.flatMap_cons, List.flatMap_cons]
      exact congrArg (Word.names rule.successor ++ ·) (ih hothers)

theorem Returns.names_of_nextGeneration {scope : Scope σ} {rules : List Rule} {word next : Word}
    (h : Returns (scope.nextGeneration rules word) next) :
    Word.names next = nextNames rules word := by
  obtain ⟨words, hwords, rfl⟩ := h.exists_of_nextGeneration
  exact names_flatten_of_becomes hwords

/-! ## Failures of a generation -/

/-- The computation fails only with what is wrong with a text. -/
def FailsInText (α : Type) (run : Effect σ α) : Prop :=
  ∀ before error after, run before = .error error after → error.OfText

theorem closed_failsInText : Effect.Closed (σ := σ) FailsInText where
  pure := fun a before error after h => by cases h
  refuse := fun herror before error after h => by
    cases h
    exact herror
  bind := by
    intro α β first next hfirst hnext before error after h
    cases hrun : first before with
    | ok a between =>
        rw [run_bind_of_ok hrun] at h
        exact hnext a between error after h
    | error fault between =>
        rw [run_bind_of_error hrun] at h
        cases h
        exact hfirst before _ _ hrun

theorem failsInText_ofHost {run : EStateM EvaluationError σ α} :
    FailsInText α (Effect.ofHost .evaluation run) := by
  intro before error after h
  cases hrun : run before with
  | ok a between =>
      rw [run_ofHost_of_ok hrun] at h
      cases h
  | error fault between =>
      rw [run_ofHost_of_error hrun] at h
      cases h
      exact .evaluation fault

/-- A generation fails only in its parameters. -/
theorem failsInText_nextGeneration (scope : Scope σ) (rules : List Rule) (word : Word) :
    FailsInText Word (scope.nextGeneration rules word) := by
  have hcalls : Effect.Closed.Calls FailsInText scope := by
    intro name function _ literals
    refine closed_failsInText.bind ?_ fun values => failsInText_ofHost
    exact closed_failsInText.ofExcept fun error _ => .evaluation error
  exact closed_failsInText.nextGeneration (closed_failsInText.evaluate hcalls) rules word

/-! ## Two systems -/

/-- The run does not fail in a text. -/
def TakesTexts {α : Type} (result : EStateM.Result Error σ α) : Prop :=
  ∀ error after, result = .error error after → ¬error.OfText

/-- Two runs end with words of the same names, or refuse the same generation for its length. -/
def SameShape (limit : Option Nat) :
    EStateM.Result Error σ Word → EStateM.Result Error τ Word → Prop
  | .ok grown _, .ok other _ => Word.names other = Word.names grown
  | .error error _, .error other _ => other = error ∧
      ∃ bound generation length, limit = some bound ∧
        error = .grammar (.expansionLimit bound generation length)
  | _, _ => False

namespace System

variable {system : System σ} {other : System τ}

theorem exists_of_checkLimit {generation : Nat} {word : Word} {error : GrammarError}
    (h : system.checkLimit generation word = .error error) :
    ∃ bound, system.limit = some bound ∧ error = .expansionLimit bound generation word.length := by
  rw [checkLimit] at h
  cases hlimit : system.limit with
  | none =>
      rw [hlimit] at h
      cases h
  | some bound =>
      simp only [hlimit] at h
      by_cases hlength : bound < word.length
      · rw [if_pos hlength] at h
        cases h
        exact ⟨bound, rfl, rfl⟩
      · rw [if_neg hlength] at h
        cases h

/-- The limit counts symbols, so it does not tell apart words of the same names. -/
theorem checkLimit_congr (hlimit : other.limit = system.limit) {word otherWord : Word}
    (hnames : Word.names otherWord = Word.names word) (generation : Nat) :
    other.checkLimit generation otherWord = system.checkLimit generation word := by
  have hlength := congrArg List.length hnames
  rw [Word.names, Word.names, List.length_map, List.length_map] at hlength
  rw [checkLimit, checkLimit, hlimit, hlength]

theorem nextGeneration_of_takesTexts {rules : List Rule} {word : Word} {α : Type}
    {next : Word → Effect σ α} {before : σ}
    (htakes : TakesTexts ((system.scope.nextGeneration rules word >>= next) before)) :
    ∃ grown between, system.scope.nextGeneration rules word before = .ok grown between := by
  cases hrun : system.scope.nextGeneration rules word before with
  | ok grown between => exact ⟨grown, between, rfl⟩
  | error error between =>
      have htext : error.OfText := failsInText_nextGeneration _ _ _ _ _ _ hrun
      exact absurd htext (htakes error between (run_bind_of_error hrun))

/-- Generation by generation, two words of the same names grow alike. -/
theorem sameShape_of_growFrom (hlimit : other.limit = system.limit) {rules : List Rule}
    (generations : Nat) : ∀ {generation : Nat} {word otherWord : Word} {before : σ}
      {otherBefore : τ}, Word.names otherWord = Word.names word →
      TakesTexts (system.growFrom rules generation generations word before) →
      TakesTexts (other.growFrom rules generation generations otherWord otherBefore) →
      SameShape system.limit (system.growFrom rules generation generations word before)
        (other.growFrom rules generation generations otherWord otherBefore) := by
  induction generations with
  | zero => exact fun hnames _ _ => hnames
  | succ generations ih =>
      intro generation word otherWord before otherBefore hnames htakes hotherTakes
      rw [growFrom] at htakes hotherTakes ⊢
      rw [growFrom]
      obtain ⟨next, between, hnext⟩ := nextGeneration_of_takesTexts htakes
      obtain ⟨otherNext, otherBetween, hotherNext⟩ := nextGeneration_of_takesTexts hotherTakes
      rw [run_bind_of_ok hnext] at htakes ⊢
      rw [run_bind_of_ok hotherNext] at hotherTakes ⊢
      have hnextNames : Word.names otherNext = Word.names next := by
        rw [Returns.names_of_nextGeneration ⟨_, _, hnext⟩,
          Returns.names_of_nextGeneration ⟨_, _, hotherNext⟩, nextNames_congr hnames]
      rw [checkLimit_congr hlimit hnextNames] at hotherTakes ⊢
      cases hcheck : system.checkLimit generation next with
      | error error =>
          obtain ⟨bound, hbound, rfl⟩ := exists_of_checkLimit hcheck
          exact ⟨rfl, bound, generation, next.length, hbound, rfl⟩
      | ok _ =>
          rw [hcheck] at htakes hotherTakes
          exact ih hnextNames htakes hotherTakes

/-- Whatever the parameters of the start are, and whatever the hosts make of them, the names of what
grows are the same, or the same generation is too long. -/
theorem sameShape_of_build (halphabet : other.alphabet = system.alphabet)
    (hlimit : other.limit = system.limit) {start otherStart : Text} {word otherWord : Word}
    (hword : system.alphabet.readWord start = .ok word)
    (hother : system.alphabet.readWord otherStart = .ok otherWord)
    (hnames : Word.names otherWord = Word.names word) (rules : List (Text × Text))
    (iterations : Nat) (before : σ) (otherBefore : τ)
    (htakes : TakesTexts ((system.build start rules iterations).run before))
    (hotherTakes : TakesTexts ((other.build otherStart rules iterations).run otherBefore)) :
    SameShape system.limit ((system.build start rules iterations).run before)
      ((other.build otherStart rules iterations).run otherBefore) := by
  rw [EStateM.run] at htakes hotherTakes ⊢
  rw [EStateM.run]
  unfold build at htakes hotherTakes ⊢
  rw [halphabet, hother] at hotherTakes ⊢
  rw [hword] at htakes ⊢
  cases hrules : system.alphabet.readRules rules with
  | error error =>
      rw [hrules] at htakes
      exact absurd (.parse error) (htakes (.parse error) before rfl)
  | ok readRules =>
      rw [hrules] at htakes hotherTakes
      exact sameShape_of_growFrom hlimit iterations hnames htakes hotherTakes

def ticking : Alphabet := ⟨["A".toList, "B".toList], ["tick".toList], []⟩

def counter : System Nat where
  alphabet := ticking
  capabilities := Capabilities.empty.withFunction "tick" [] fun _ =>
    modifyGet fun count => (.number (.integer (Int64.ofNat count)), count + 1)
  interpreter := ⟨fun _ => 0, fun c => throw (.unknownConstant c)⟩
  limit := some 4

def stopped : System Unit where
  alphabet := ticking
  capabilities := Capabilities.empty.withFunction "tick" [] fun _ => pure (.number (.integer 7))
  interpreter := ⟨id, fun c => throw (.unknownConstant c)⟩
  limit := some 4

/-- Two hosts that count differently, from different starts. -/
theorem sameShape_of_build_ticking :
    (counter.build "A(1)".toList [("A(x)".toList, "A(x+tick())B".toList)] 2).run 5 =
        .ok [⟨['A'], some ["12".toList]⟩, .bare ['B'], .bare ['B']] 7 ∧
      SameShape counter.limit
        ((counter.build "A(1)".toList [("A(x)".toList, "A(x+tick())B".toList)] 2).run 5)
        ((stopped.build "A(-3)".toList [("A(x)".toList, "A(x+tick())B".toList)] 2).run ()) := by
  have hcounter : (counter.build "A(1)".toList [("A(x)".toList, "A(x+tick())B".toList)] 2).run 5 =
      .ok [⟨['A'], some ["12".toList]⟩, .bare ['B'], .bare ['B']] 7 := by
    with_unfolding_all rfl
  have hstopped :
      (stopped.build "A(-3)".toList [("A(x)".toList, "A(x+tick())B".toList)] 2).run () =
        .ok [⟨['A'], some ["11".toList]⟩, .bare ['B'], .bare ['B']] () := by
    with_unfolding_all rfl
  have halphabet : stopped.alphabet = counter.alphabet := rfl
  have hlimit : stopped.limit = counter.limit := rfl
  have hword : ticking.readWord "A(1)".toList = .ok [⟨['A'], some [['1']]⟩] := by
    with_unfolding_all rfl
  have hother : ticking.readWord "A(-3)".toList = .ok [⟨['A'], some ["-3".toList]⟩] := by
    with_unfolding_all rfl
  refine ⟨hcounter, sameShape_of_build halphabet hlimit hword hother rfl _ _ _ _ ?_ ?_⟩
  · intro error after h
    rw [hcounter] at h
    cases h
  · intro error after h
    rw [hstopped] at h
    cases h

end System

end Lindenmayer
