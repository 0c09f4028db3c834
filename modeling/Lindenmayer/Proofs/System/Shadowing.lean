import Lindenmayer.Proofs.Generation.Cut
import Lindenmayer.Proofs.System.Shape

/-!
# Shadowed rules

Rules are tried in the order in which they are declared, and found by the names of their
predecessors alone. A rule is therefore never applied if it has no predecessor, or if the names of
an earlier predecessor begin its own. Growth is the same without it, on every host.
-/

namespace Lindenmayer

variable {σ : Type}

/-- Wherever the later rule finds its predecessor the earlier one finds its own. -/
def Rule.Shadows (earlier later : Rule) : Prop :=
  earlier.predecessor ≠ [] ∧ Word.names earlier.predecessor <+: Word.names later.predecessor

/-- The rule at place `j` has no predecessor, or a rule in front of it shadows it. -/
def Shadowed (rules : List Rule) (j : Nat) : Prop :=
  ∃ rule, rules[j]? = some rule ∧
    (rule.predecessor = [] ∨
      ∃ i earlier, i < j ∧ rules[i]? = some earlier ∧ earlier.Shadows rule)

/-! ## Finding a rule -/

theorem Rule.Shadows.finds {earlier later : Rule} (hshadows : earlier.Shadows later) {word : Word}
    (hfinds : later.Finds word) : earlier.Finds word :=
  ⟨hshadows.1, hshadows.2.trans hfinds.2⟩

theorem firstMatch?_append_of_not_finds {before after : List Rule} {rule : Rule} {word : Word}
    (hrule : rule.Finds word → ∃ earlier ∈ before, earlier.Finds word) :
    firstMatch? (before ++ after) word = firstMatch? (before ++ rule :: after) word := by
  rw [firstMatch?, firstMatch?, List.find?_append, List.find?_append, List.find?_cons]
  cases hmatch : rule.matchesAt word with
  | false => rfl
  | true =>
      obtain ⟨earlier, hmem, hearlier⟩ := hrule (Rule.matchesAt_iff.mp hmatch)
      have hsome : (before.find? fun rule => rule.matchesAt word).isSome = true :=
        List.find?_isSome.mpr ⟨earlier, hmem, Rule.matchesAt_iff.mpr hearlier⟩
      obtain ⟨found, hfound⟩ := Option.isSome_iff_exists.mp hsome
      rw [hfound, Option.some_or, Option.some_or]

/-- A shadowed rule is nowhere the first that is found. -/
theorem firstMatch?_eraseIdx {rules : List Rule} {j : Nat} (hshadowed : Shadowed rules j)
    (word : Word) : firstMatch? (rules.eraseIdx j) word = firstMatch? rules word := by
  obtain ⟨rule, hrule, hdead⟩ := hshadowed
  obtain ⟨hlt, rfl⟩ := List.getElem?_eq_some_iff.mp hrule
  have hrules : rules = rules.take j ++ rules[j] :: rules.drop (j + 1) := by
    rw [← List.drop_eq_getElem_cons, List.take_append_drop]
  rw [List.eraseIdx_eq_take_drop_succ]
  conv_rhs => rw [hrules]
  refine firstMatch?_append_of_not_finds fun hfinds => ?_
  rcases hdead with hnil | ⟨i, earlier, hi, hearlier, hshadows⟩
  · exact absurd hnil hfinds.1
  · refine ⟨earlier, List.mem_of_getElem? (i := i) ?_, hshadows.finds hfinds⟩
    rw [List.getElem?_take_of_lt hi, hearlier]

/-! ## Growth -/

/-- The factors of a word depend on the rules that are found first, and on nothing else of the
rules. -/
theorem factors_congr {rules others : List Rule}
    (hfirst : ∀ word, firstMatch? others word = firstMatch? rules word) (word : Word) :
    factors others word = factors rules word := by
  induction word using factors_induction rules with
  | nil => rw [factors_nil, factors_nil]
  | copy symbol rest hrule hfactors ih =>
      rw [hfactors, ← ih]
      exact factors_of_none ((hfirst _).trans hrule)
  | apply rule found rest hrule hnames hfactors ih =>
      have hfits : Factor.Fits others (.apply rule found) rest :=
        ⟨firstMatch?_eq_some_iff.mp ((hfirst _).trans hrule), hnames⟩
      rw [hfactors, ← ih]
      exact factors_append_of_fits hfits

theorem System.growFrom_congr (system : System σ) {rules others : List Rule}
    (hfactors : ∀ word, factors others word = factors rules word) (generations : Nat) :
    ∀ (generation : Nat) (word : Word),
      system.growFrom others generation generations word =
        system.growFrom rules generation generations word := by
  induction generations with
  | zero => exact fun _ _ => rfl
  | succ generations ih =>
      intro generation word
      simp only [growFrom, Scope.nextGeneration, hfactors, ih]

/-- A shadowed rule can be deleted: growth ends alike without it, on every host. -/
theorem System.build_eraseIdx (system : System σ) {rules : List (Text × Text)}
    {readRules : List Rule} {j : Nat} (hread : system.alphabet.readRules rules = .ok readRules)
    (hshadowed : Shadowed readRules j) (start : Text) (iterations : Nat) (host : σ) :
    (system.build start (rules.eraseIdx j) iterations).run host =
      (system.build start rules iterations).run host := by
  have hfewer : system.alphabet.readRules (rules.eraseIdx j) = .ok (readRules.eraseIdx j) :=
    Except.mapM_eraseIdx hread j
  have hfactors := factors_congr (firstMatch?_eraseIdx hshadowed)
  rw [build, build, hread, hfewer]
  cases system.alphabet.readWord start with
  | error error => rfl
  | ok word =>
      exact congrArg (·.run host) (system.growFrom_congr hfactors iterations 1 word)

def overlapping : List (Text × Text) :=
  [("A(x)".toList, "A(x+tick())B".toList), ("A(y,z)B".toList, "B".toList)]

def overlappingRules : List Rule :=
  [⟨[⟨['A'], some [['x']]⟩], [⟨['A'], some ["x+tick()".toList]⟩, .bare ['B']]⟩,
    ⟨[⟨['A'], some [['y'], ['z']]⟩, .bare ['B']], [.bare ['B']]⟩]

theorem System.build_eraseIdx_overlapping :
    counter.alphabet.readRules overlapping = .ok overlappingRules ∧ Shadowed overlappingRules 1 ∧
      (counter.build "A(1)B".toList (overlapping.eraseIdx 1) 2).run 5 =
        (counter.build "A(1)B".toList overlapping 2).run 5 := by
  have hread : counter.alphabet.readRules overlapping = .ok overlappingRules := by
    with_unfolding_all rfl
  have hshadowed : Shadowed overlappingRules 1 :=
    ⟨_, rfl, .inr ⟨0, _, Nat.one_pos, rfl, List.cons_ne_nil _ _, List.prefix_append _ _⟩⟩
  exact ⟨hread, hshadowed, counter.build_eraseIdx hread hshadowed _ 2 5⟩

end Lindenmayer
