import Lindenmayer.Proofs.System
import Lindenmayer.Proofs.System.Shape

/-!
# The limit of growth

A limit refuses the first generation that is longer than it, and has no other effect: up to there,
and always where no generation is too long, growth goes as it does without a limit. The start is not
a generation, so the limit does not apply to it.
-/

namespace Lindenmayer.System

variable {σ : Type} (system : System σ)

def withLimit (system : System σ) (limit : Option Nat) : System σ := { system with limit := limit }

/-! ## Counting symbols -/

theorem checkLimit_withLimit_none (generation : Nat) (word : Word) :
    (system.withLimit none).checkLimit generation word = .ok () := rfl

theorem checkLimit_withLimit_of_le {limit : Nat} {word : Word} (hword : word.length ≤ limit)
    (generation : Nat) :
    (system.withLimit (some limit)).checkLimit generation word = .ok () :=
  if_neg (Nat.not_lt.mpr hword)

theorem checkLimit_withLimit_of_lt {limit : Nat} {word : Word} (hword : limit < word.length)
    (generation : Nat) :
    (system.withLimit (some limit)).checkLimit generation word =
      .error (.expansionLimit limit generation word.length) :=
  if_pos hword

/-! ## One generation -/

theorem run_growFrom_of_ok {rules : List Rule} {generation : Nat} {word next : Word}
    {before between : σ} (hnext : system.scope.nextGeneration rules word before = .ok next between)
    (hcheck : system.checkLimit generation next = .ok ()) (generations : Nat) :
    system.growFrom rules generation (generations + 1) word before =
      system.growFrom rules (generation + 1) generations next between := by
  rw [growFrom, run_bind_of_ok hnext, hcheck]
  rfl

theorem run_growFrom_of_error {rules : List Rule} {word : Word} {before after : σ} {error : Error}
    (hnext : system.scope.nextGeneration rules word before = .error error after)
    (generation generations : Nat) :
    system.growFrom rules generation (generations + 1) word before = .error error after := by
  rw [growFrom, run_bind_of_error hnext]

theorem run_growFrom_of_refused {rules : List Rule} {generation : Nat} {word next : Word}
    {before between : σ} {error : GrammarError}
    (hnext : system.scope.nextGeneration rules word before = .ok next between)
    (hcheck : system.checkLimit generation next = .error error) (generations : Nat) :
    system.growFrom rules generation (generations + 1) word before =
      .error (.grammar error) between := by
  rw [growFrom, run_bind_of_ok hnext, hcheck]
  rfl

/-! ## Growth with a limit and without -/

/-- A limit that no generation exceeds changes nothing. -/
theorem growFrom_withLimit_of_within {rules : List Rule} {limit : Nat} (generations : Nat) :
    ∀ {generation : Nat} {word : Word} {before : σ},
      (∀ steps < generations, ∀ grown after,
        (system.withLimit none).growFrom rules generation (steps + 1) word before =
          .ok grown after → grown.length ≤ limit) →
      (system.withLimit (some limit)).growFrom rules generation generations word before =
        (system.withLimit none).growFrom rules generation generations word before := by
  induction generations with
  | zero => exact fun _ => rfl
  | succ generations ih =>
      intro generation word before hwithin
      cases hnext : system.scope.nextGeneration rules word before with
      | error error after =>
          have hfails (limit : Option Nat) :=
            (system.withLimit limit).run_growFrom_of_error hnext generation generations
          exact (hfails (some limit)).trans (hfails none).symm
      | ok next between =>
          have hstep (steps : Nat) := (system.withLimit none).run_growFrom_of_ok hnext
            (system.checkLimit_withLimit_none generation next) steps
          have hlength : next.length ≤ limit :=
            hwithin 0 (Nat.succ_pos generations) next between (hstep 0)
          rw [(system.withLimit (some limit)).run_growFrom_of_ok hnext
            (system.checkLimit_withLimit_of_le hlength generation), hstep]
          refine ih fun steps hsteps grown after hgrown => ?_
          exact hwithin (steps + 1) (Nat.succ_lt_succ hsteps) grown after
            ((hstep (steps + 1)).trans hgrown)

/-- The first generation that exceeds the limit is refused, on the host that it was grown on. -/
theorem growFrom_withLimit_of_beyond {rules : List Rule} {limit : Nat} {grown : Word} {after : σ}
    (hbeyond : limit < grown.length) (more steps : Nat) :
    ∀ {generation : Nat} {word : Word} {before : σ},
      (system.withLimit none).growFrom rules generation (steps + 1) word before =
        .ok grown after →
      (∀ earlier < steps, ∀ shorter between,
        (system.withLimit none).growFrom rules generation (earlier + 1) word before =
          .ok shorter between → shorter.length ≤ limit) →
      (system.withLimit (some limit)).growFrom rules generation (steps + 1 + more) word before =
        .error (.grammar (.expansionLimit limit (generation + steps) grown.length)) after := by
  induction steps with
  | zero =>
      intro generation word before hgrown _
      obtain ⟨next, between, hnext, hrest⟩ := run_bind_eq_ok_iff.mp hgrown
      cases hrest
      rw [Nat.zero_add, Nat.add_comm, Nat.add_zero]
      exact (system.withLimit (some limit)).run_growFrom_of_refused hnext
        (system.checkLimit_withLimit_of_lt hbeyond generation) more
  | succ steps ih =>
      intro generation word before hgrown hfirst
      obtain ⟨next, between, hnext, -⟩ := run_bind_eq_ok_iff.mp hgrown
      have hstep (count : Nat) := (system.withLimit none).run_growFrom_of_ok hnext
        (system.checkLimit_withLimit_none generation next) count
      have hlength : next.length ≤ limit :=
        hfirst 0 (Nat.succ_pos steps) next between (hstep 0)
      have hrest := ih ((hstep (steps + 1)).symm.trans hgrown) fun earlier hearlier shorter state
        hshorter => hfirst (earlier + 1) (Nat.succ_lt_succ hearlier) shorter state
          ((hstep (earlier + 1)).trans hshorter)
      rw [Nat.add_right_comm (steps + 1), (system.withLimit (some limit)).run_growFrom_of_ok hnext
        (system.checkLimit_withLimit_of_le hlength generation), hrest, Nat.add_right_comm,
        Nat.add_assoc]

/-! ## Building with a limit and without -/

/-- Without a limit, this generation is reached with this word and this host, and it is the first
one that is longer than `limit`. -/
structure FirstBeyond (system : System σ) (start : Text) (rules : List (Text × Text)) (limit : Nat)
    (before : σ) (generation : Nat) (word : Word) (after : σ) : Prop where
  pos : 0 < generation
  reached : ((system.withLimit none).build start rules generation).run before = .ok word after
  beyond : limit < word.length
  first : ∀ earlier, 0 < earlier → earlier < generation → ∀ shorter between,
    ((system.withLimit none).build start rules earlier).run before = .ok shorter between →
      shorter.length ≤ limit

/-- What is built can be read, or is refused whatever the limit is. -/
theorem build_eq_throw_or_growFrom (start : Text) (rules : List (Text × Text)) :
    (∃ error, ∀ limit iterations, (system.withLimit limit).build start rules iterations =
        throw (.parse error)) ∨
      ∃ readRules word, ∀ limit iterations, (system.withLimit limit).build start rules iterations =
        (system.withLimit limit).growFrom readRules 1 iterations word := by
  cases hrules : system.alphabet.readRules rules with
  | error error =>
      refine Or.inl ⟨error, fun limit iterations => ?_⟩
      have hrules : (system.withLimit limit).alphabet.readRules rules = .error error := hrules
      rw [build, hrules]
      rfl
  | ok readRules =>
      cases hword : system.alphabet.readWord start with
      | error error =>
          refine Or.inl ⟨error, fun limit iterations => ?_⟩
          have hrules : (system.withLimit limit).alphabet.readRules rules = .ok readRules := hrules
          have hword : (system.withLimit limit).alphabet.readWord start = .error error := hword
          rw [build, hrules, hword]
          rfl
      | ok word =>
          refine Or.inr ⟨readRules, word, fun limit iterations => ?_⟩
          have hrules : (system.withLimit limit).alphabet.readRules rules = .ok readRules := hrules
          exact build_eq_growFrom hrules hword iterations

variable {system} {start : Text} {rules : List (Text × Text)}

/-- Where no generation is the first beyond the limit, none is beyond it. -/
theorem length_le_of_not_firstBeyond {limit iterations : Nat} {before : σ}
    (hnone : ∀ generation word after, generation ≤ iterations →
      ¬system.FirstBeyond start rules limit before generation word after)
    (generation : Nat) : 0 < generation → generation ≤ iterations → ∀ word after,
      ((system.withLimit none).build start rules generation).run before = .ok word after →
        word.length ≤ limit := by
  induction generation using Nat.strongRecOn with
  | ind generation ih =>
      intro hpos hle word after hreached
      refine Nat.le_of_not_lt fun hbeyond => ?_
      refine hnone generation word after hle ⟨hpos, hreached, hbeyond, ?_⟩
      exact fun earlier hearlier hlt shorter between =>
        ih earlier hlt hearlier (Nat.le_trans (Nat.le_of_lt hlt) hle) shorter between

theorem build_withLimit_of_within {limit iterations : Nat} {before : σ}
    (hwithin : ∀ generation, 0 < generation → generation ≤ iterations → ∀ word after,
      ((system.withLimit none).build start rules generation).run before = .ok word after →
        word.length ≤ limit) :
    ((system.withLimit (some limit)).build start rules iterations).run before =
      ((system.withLimit none).build start rules iterations).run before := by
  rw [EStateM.run, EStateM.run]
  rcases build_eq_throw_or_growFrom system start rules with
    ⟨error, hbuild⟩ | ⟨readRules, word, hbuild⟩
  · rw [hbuild, hbuild]
  · rw [hbuild, hbuild]
    refine system.growFrom_withLimit_of_within iterations fun steps hsteps grown after hgrown => ?_
    refine hwithin (steps + 1) (Nat.succ_pos steps) hsteps grown after ?_
    rw [EStateM.run, hbuild, hgrown]

theorem build_withLimit_of_firstBeyond {limit generation iterations : Nat} {before after : σ}
    {word : Word} (hfirst : system.FirstBeyond start rules limit before generation word after)
    (hle : generation ≤ iterations) :
    ((system.withLimit (some limit)).build start rules iterations).run before =
      .error (.grammar (.expansionLimit limit generation word.length)) after := by
  obtain ⟨hpos, hreached, hbeyond, hfirst⟩ := hfirst
  obtain ⟨steps, rfl⟩ := Nat.exists_eq_add_of_lt hpos
  obtain ⟨more, rfl⟩ := Nat.exists_eq_add_of_le hle
  rw [Nat.zero_add] at hreached hfirst ⊢
  rw [EStateM.run] at hreached ⊢
  rcases build_eq_throw_or_growFrom system start rules with
    ⟨error, hbuild⟩ | ⟨readRules, first, hbuild⟩
  · rw [hbuild] at hreached
    cases hreached
  · rw [hbuild] at hreached ⊢
    rw [system.growFrom_withLimit_of_beyond hbeyond more steps hreached fun earlier hearlier shorter
      between hshorter => ?_, Nat.add_comm 1 steps]
    have hlt := Nat.succ_lt_succ hearlier
    refine hfirst (earlier + 1) (Nat.succ_pos earlier) hlt shorter between ?_
    rw [EStateM.run, hbuild, hshorter]

/-- A limit cuts growth off at the first generation that is longer, which is reported with its
number and length, on the host that growth without a limit has reached there. Without such a
generation the limit makes no difference, and so what succeeds with a limit succeeds alike with
every greater one. -/
theorem build_withLimit (system : System σ) (start : Text) (rules : List (Text × Text))
    (iterations limit : Nat) (before : σ) :
    (∀ generation word after, generation ≤ iterations →
      system.FirstBeyond start rules limit before generation word after →
        ((system.withLimit (some limit)).build start rules iterations).run before =
          .error (.grammar (.expansionLimit limit generation word.length)) after) ∧
    ((∀ generation word after, generation ≤ iterations →
      ¬system.FirstBeyond start rules limit before generation word after) →
        ((system.withLimit (some limit)).build start rules iterations).run before =
          ((system.withLimit none).build start rules iterations).run before) ∧
    ∀ greater grown after, limit ≤ greater →
      ((system.withLimit (some limit)).build start rules iterations).run before =
        .ok grown after →
      ((system.withLimit (some greater)).build start rules iterations).run before =
        .ok grown after := by
  refine ⟨fun generation word after hle hfirst => build_withLimit_of_firstBeyond hfirst hle,
    fun hnone => build_withLimit_of_within (length_le_of_not_firstBeyond hnone), ?_⟩
  intro greater grown after hgreater hgrown
  have hnone generation word reached (hle : generation ≤ iterations) :
      ¬system.FirstBeyond start rules limit before generation word reached := by
    intro hfirst
    rw [build_withLimit_of_firstBeyond hfirst hle] at hgrown
    cases hgrown
  have hwithin := length_le_of_not_firstBeyond hnone
  rw [build_withLimit_of_within fun generation hpos hle word reached hreached =>
    Nat.le_trans (hwithin generation hpos hle word reached hreached) hgreater]
  exact (build_withLimit_of_within hwithin).symm.trans hgrown

/-- The second generation is one symbol too long, and has called the host a second time. -/
theorem build_withLimit_ticking :
    counter.FirstBeyond "A(1)".toList [("A(x)".toList, "A(x+tick())B".toList)] 2 5 2
        [⟨['A'], some ["12".toList]⟩, .bare ['B'], .bare ['B']] 7 ∧
      ((counter.withLimit (some 2)).build "A(1)".toList
        [("A(x)".toList, "A(x+tick())B".toList)] 6).run 5 =
          .error (.grammar (.expansionLimit 2 2 3)) 7 := by
  have hfirst : ((counter.withLimit none).build "A(1)".toList
      [("A(x)".toList, "A(x+tick())B".toList)] 1).run 5 =
        .ok [⟨['A'], some [['6']]⟩, .bare ['B']] 6 := by
    with_unfolding_all rfl
  have hsecond : ((counter.withLimit none).build "A(1)".toList
      [("A(x)".toList, "A(x+tick())B".toList)] 2).run 5 =
        .ok [⟨['A'], some ["12".toList]⟩, .bare ['B'], .bare ['B']] 7 := by
    with_unfolding_all rfl
  have hbeyond : counter.FirstBeyond "A(1)".toList [("A(x)".toList, "A(x+tick())B".toList)] 2 5 2
      [⟨['A'], some ["12".toList]⟩, .bare ['B'], .bare ['B']] 7 := by
    refine ⟨by decide, hsecond, by decide, fun earlier hpos hlt shorter between hshorter => ?_⟩
    obtain rfl : earlier = 1 := by omega
    rw [hfirst] at hshorter
    cases hshorter
    decide
  exact ⟨hbeyond, (build_withLimit counter _ _ 6 2 5).1 2 _ 7 (by decide) hbeyond⟩

end Lindenmayer.System
