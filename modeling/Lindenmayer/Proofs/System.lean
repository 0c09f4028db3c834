import Lindenmayer.Proofs.Generation
import Lindenmayer.System

/-!
# Growth over generations

A property of words that every generation keeps holds of the word that is grown. Growth can be
stopped after any generation and taken up again from the word and the host that it has reached.
-/

namespace Lindenmayer

variable {σ : Type} {system : System σ}

/-! ## Reading -/

theorem Alphabet.exists_readWord_of_readRules {alphabet : Alphabet} {rules : List (Text × Text)}
    {readRules : List Rule} (h : alphabet.readRules rules = .ok readRules) {rule : Rule}
    (hmem : rule ∈ readRules) :
    ∃ predecessor successor, (predecessor, successor) ∈ rules ∧
      alphabet.readWord predecessor = .ok rule.predecessor ∧
        alphabet.readWord successor = .ok rule.successor := by
  obtain ⟨⟨predecessor, successor⟩, hrule, hread⟩ :=
    exists_of_mem_forall₂ (Except.forall₂_of_mapM h) hmem
  obtain ⟨formal, hformal, hread⟩ := Except.bind_eq_ok_iff.mp hread
  obtain ⟨replacement, hreplacement, hread⟩ := Except.bind_eq_ok_iff.mp hread
  cases hread
  exact ⟨predecessor, successor, hrule, hformal, hreplacement⟩

namespace System

/-- What can be read grows. -/
theorem build_eq_growFrom {start : Text} {rules : List (Text × Text)} {word : Word}
    {readRules : List Rule} (hrules : system.alphabet.readRules rules = .ok readRules)
    (hword : system.alphabet.readWord start = .ok word) (iterations : Nat) :
    system.build start rules iterations = system.growFrom readRules 1 iterations word := by
  unfold build
  rw [hrules, hword]
  rfl

/-! ## Counting generations -/

/-- The generations that follow grow from the word of the last one. -/
theorem growFrom_add {rules : List Rule} (first second : Nat) (generation : Nat) (word : Word) :
    system.growFrom rules generation (first + second) word =
      system.growFrom rules generation first word >>=
        system.growFrom rules (generation + first) second := by
  induction first generalizing generation word with
  | zero => rw [Nat.zero_add, growFrom, pure_bind, Nat.add_zero]
  | succ first ih =>
      have hgeneration : generation + (first + 1) = generation + 1 + first := by
        rw [Nat.add_assoc, Nat.add_comm 1 first]
      rw [Nat.add_right_comm, growFrom, growFrom, hgeneration]
      simp only [bind_assoc, ih]

/-- Without a limit it does not matter how the generations are numbered. -/
theorem growFrom_of_unlimited (hlimit : system.limit = none) {rules : List Rule}
    (generations first second : Nat) (word : Word) :
    system.growFrom rules first generations word =
      system.growFrom rules second generations word := by
  induction generations generalizing first second word with
  | zero => rfl
  | succ generations ih =>
      have hcheck generation next : system.checkLimit generation next = .ok () := by
        rw [checkLimit, hlimit]
      rw [growFrom, growFrom]
      refine congrArg _ (funext fun next => ?_)
      rw [hcheck, hcheck, ih (first + 1) (second + 1)]

/-- Growth goes on from what it has reached. -/
theorem growFrom_of_reached (hlimit : system.limit = none) {rules : List Rule} {word reached : Word}
    {generation first : Nat} {before between : σ}
    (hfirst : system.growFrom rules generation first word before = .ok reached between)
    (second : Nat) :
    system.growFrom rules generation second reached between =
      system.growFrom rules generation (first + second) word before := by
  rw [growFrom_add, run_bind_of_ok hfirst,
    growFrom_of_unlimited hlimit second generation (generation + first) reached]

end System

/-! ## Invariants -/

namespace Returns

/-- What one generation preserves is preserved by any number of them. -/
theorem invariant_of_growFrom {rules : List Rule} {invariant : Word → Prop}
    (hstep : ∀ word next, invariant word → Returns (system.scope.nextGeneration rules word) next →
      invariant next) (generations : Nat) :
    ∀ {generation : Nat} {word grown : Word}, invariant word →
      Returns (system.growFrom rules generation generations word) grown → invariant grown := by
  induction generations with
  | zero =>
      intro generation word grown hword h
      rw [h.eq_of_pure]
      exact hword
  | succ generations ih =>
      intro generation word grown hword h
      obtain ⟨next, hnext, h⟩ := h.exists_of_bind
      obtain ⟨_, _, h⟩ := h.exists_of_bind
      exact ih (hstep word next hword hnext) h

theorem growFrom_of_build {start : Text} {rules : List (Text × Text)} {iterations : Nat}
    {grown word : Word} {readRules : List Rule}
    (hrules : system.alphabet.readRules rules = .ok readRules)
    (hword : system.alphabet.readWord start = .ok word)
    (h : Returns (system.build start rules iterations) grown) :
    Returns (system.growFrom readRules 1 iterations word) grown := by
  rw [System.build_eq_growFrom hrules hword] at h
  exact h

end Returns

end Lindenmayer
