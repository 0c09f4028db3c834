import Lindenmayer.Proofs.Generation

/-!
# The cut of a word

There is one way to cut a word into factors such that at each place the first rule that applies
takes its symbols, and a symbol stands alone only where no rule applies. A generation is made along
this cut: it succeeds if all its factors can be replaced, from left to right, and else it fails with
the first factor that cannot.
-/

namespace Lindenmayer

/-! ## Where a rule applies -/

def Rule.Finds (rule : Rule) (word : Word) : Prop :=
  rule.predecessor ≠ [] ∧ Word.names rule.predecessor <+: Word.names word

theorem Rule.matchesAt_iff {rule : Rule} {word : Word} :
    rule.matchesAt word = true ↔ rule.Finds word := by
  rw [Rule.matchesAt, Bool.and_eq_true, Word.startsWith_iff, Bool.not_eq_true',
    List.isEmpty_eq_false_iff]
  rfl

/-- The rule is the first of the rules that finds its predecessor at the start of the word. -/
def FindsFirst (rules : List Rule) (rule : Rule) (word : Word) : Prop :=
  ∃ before after, rules = before ++ rule :: after ∧ rule.Finds word ∧
    ∀ other ∈ before, ¬other.Finds word

theorem firstMatch?_eq_some_iff {rules : List Rule} {rule : Rule} {word : Word} :
    firstMatch? rules word = some rule ↔ FindsFirst rules rule word := by
  rw [firstMatch?, List.find?_eq_some_iff_append]
  constructor
  · rintro ⟨hmatch, before, after, hrules, hbefore⟩
    refine ⟨before, after, hrules, Rule.matchesAt_iff.mp hmatch, fun other hmem hfinds => ?_⟩
    have hother := hbefore other hmem
    rw [Rule.matchesAt_iff.mpr hfinds] at hother
    cases hother
  · rintro ⟨before, after, hrules, hfinds, hbefore⟩
    refine ⟨Rule.matchesAt_iff.mpr hfinds, before, after, hrules, fun other hmem => ?_⟩
    rw [Bool.not_eq_true', Bool.eq_false_iff, ne_eq, Rule.matchesAt_iff]
    exact hbefore other hmem

theorem firstMatch?_eq_none_iff {rules : List Rule} {word : Word} :
    firstMatch? rules word = none ↔ ∀ rule ∈ rules, ¬rule.Finds word := by
  rw [firstMatch?, List.find?_eq_none]
  exact forall₂_congr fun rule _ => not_congr Rule.matchesAt_iff

/-! ## Cuts -/

/-- What stands at a place in front of the rest of the word: the names of the first rule that
applies there, or a symbol to which no rule applies. -/
def Factor.Fits (rules : List Rule) (factor : Factor) (rest : Word) : Prop :=
  match factor with
  | copy symbol => ∀ rule ∈ rules, ¬rule.Finds (symbol :: rest)
  | apply rule found =>
      FindsFirst rules rule (found ++ rest) ∧ Word.names found = Word.names rule.predecessor

/-- The factors are the word, cut into pieces, and each one fits where it stands. -/
structure IsCut (rules : List Rule) (word : Word) (cut : List Factor) : Prop where
  whole : cut.flatMap Factor.word = word
  fits : ∀ before factor after, cut = before ++ factor :: after →
    factor.Fits rules (after.flatMap Factor.word)

theorem Factor.Fits.word_ne_nil {rules : List Rule} {factor : Factor} {rest : Word}
    (hfits : factor.Fits rules rest) : factor.word ≠ [] := by
  cases factor with
  | copy symbol => exact List.cons_ne_nil symbol []
  | apply rule found =>
      obtain ⟨⟨_, _, _, hfinds, _⟩, hnames⟩ := hfits
      rintro (rfl : found = [])
      exact hfinds.1 (List.map_eq_nil_iff.mp hnames.symm)

namespace IsCut

variable {rules : List Rule}

theorem nil (rules : List Rule) : IsCut rules [] [] where
  whole := rfl
  fits := by
    intro before factor after hcut
    simp at hcut

theorem cons {factor : Factor} {rest : Word} {cut : List Factor} (hcut : IsCut rules rest cut)
    (hfits : factor.Fits rules rest) : IsCut rules (factor.word ++ rest) (factor :: cut) where
  whole := by rw [List.flatMap_cons, hcut.whole]
  fits := by
    intro before other after hsplit
    cases before with
    | nil =>
        cases hsplit
        rw [hcut.whole]
        exact hfits
    | cons first before =>
        cases hsplit
        exact hcut.fits before other after rfl

theorem head {word : Word} {factor : Factor} {cut : List Factor}
    (hcut : IsCut rules word (factor :: cut)) : factor.Fits rules (cut.flatMap Factor.word) :=
  hcut.fits [] factor cut rfl

theorem tail {word : Word} {factor : Factor} {cut : List Factor}
    (hcut : IsCut rules word (factor :: cut)) : IsCut rules (cut.flatMap Factor.word) cut where
  whole := rfl
  fits := fun before other after hsplit =>
    hcut.fits (factor :: before) other after (congrArg (factor :: ·) hsplit)

end IsCut

/-- The factors of a word are a cut of it. -/
theorem isCut_factors (rules : List Rule) (word : Word) :
    IsCut rules word (factors rules word) := by
  induction word using factors_induction rules with
  | nil =>
      rw [factors_nil]
      exact .nil rules
  | copy symbol rest hrule hfactors ih =>
      have hfits : Factor.Fits rules (.copy symbol) rest := firstMatch?_eq_none_iff.mp hrule
      rw [hfactors]
      exact ih.cons hfits
  | apply rule found rest hrule hnames hfactors ih =>
      have hfits : Factor.Fits rules (.apply rule found) rest :=
        ⟨firstMatch?_eq_some_iff.mp hrule, hnames⟩
      rw [hfactors]
      exact ih.cons hfits

/-- The first factor of a cut is the first factor of the word. -/
theorem factors_append_of_fits {rules : List Rule} {factor : Factor} {rest : Word}
    (hfits : factor.Fits rules rest) :
    factors rules (factor.word ++ rest) = factor :: factors rules rest := by
  cases factor with
  | copy symbol => exact factors_of_none (firstMatch?_eq_none_iff.mpr hfits)
  | apply rule found =>
      have hrule := firstMatch?_eq_some_iff.mpr hfits.1
      have hlength : rule.predecessor.length = found.length := by
        have hnames := congrArg List.length hfits.2
        rw [Word.names, Word.names, List.length_map, List.length_map] at hnames
        exact hnames.symm
      obtain ⟨symbol, tail, hword⟩ :=
        List.exists_cons_of_ne_nil (List.append_ne_nil_of_left_ne_nil hfits.word_ne_nil rest)
      change found ++ rest = symbol :: tail at hword
      rw [hword] at hrule
      have hfactors := factors_of_some hrule
      rw [← hword, hlength, List.take_left, List.drop_left] at hfactors
      exact hfactors

theorem IsCut.eq_factors {rules : List Rule} {word : Word} {cut : List Factor}
    (hcut : IsCut rules word cut) : cut = factors rules word := by
  induction cut generalizing word with
  | nil =>
      rw [← hcut.whole]
      exact (factors_nil rules).symm
  | cons factor cut ih =>
      rw [← hcut.whole, List.flatMap_cons, factors_append_of_fits hcut.head, ← ih hcut.tail]

/-! ## Growth along a cut -/

namespace Scope

variable {σ : Type} {scope : Scope σ}

/-- The factors become these words, one after the other, and the host goes from the one state to the
other. -/
inductive Replaces (scope : Scope σ) : List Factor → σ → List Word → σ → Prop where
  | nil (state : σ) : Replaces scope [] state [] state
  | copy (symbol : Symbol) {cut : List Factor} {before after : σ} {words : List Word} :
      Replaces scope cut before words after →
        Replaces scope (.copy symbol :: cut) before ([symbol] :: words) after
  | apply {rule : Rule} {found word : Word} {cut : List Factor} {before between after : σ}
      {words : List Word} :
      (scope.instantiate rule found).run before = .ok word between →
        Replaces scope cut between words after →
          Replaces scope (.apply rule found :: cut) before (word :: words) after

/-- The factors become words up to the first one whose rule fails. -/
def FailsAlong (scope : Scope σ) (cut : List Factor) (before : σ) (error : Error) (after : σ) :
    Prop :=
  ∃ done rule found rest words between, cut = done ++ .apply rule found :: rest ∧
    scope.Replaces done before words between ∧
      (scope.instantiate rule found).run between = .error error after

theorem Replaces.cons {factor : Factor} {word : Word} {cut : List Factor}
    {before between after : σ} {words : List Word}
    (hfactor : scope.replace factor before = .ok word between)
    (hcut : scope.Replaces cut between words after) :
    scope.Replaces (factor :: cut) before (word :: words) after := by
  cases factor with
  | copy symbol =>
      cases hfactor
      exact .copy symbol hcut
  | apply rule found => exact .apply hfactor hcut

theorem Replaces.exists_head {factor : Factor} {cut : List Factor} {before after : σ}
    {words : List Word} (h : scope.Replaces (factor :: cut) before words after) :
    ∃ word others between, words = word :: others ∧
      scope.replace factor before = .ok word between ∧
        scope.Replaces cut between others after := by
  cases h with
  | copy symbol hcut => exact ⟨_, _, _, rfl, rfl, hcut⟩
  | apply hfactor hcut => exact ⟨_, _, _, rfl, hfactor, hcut⟩

theorem mapM_replace_of_replaces {cut : List Factor} {before after : σ} {words : List Word}
    (h : scope.Replaces cut before words after) :
    cut.mapM scope.replace before = .ok words after := by
  induction cut generalizing before words with
  | nil =>
      cases h
      rfl
  | cons factor cut ih =>
      obtain ⟨word, others, between, rfl, hfactor, hcut⟩ := h.exists_head
      rw [List.mapM_cons, run_bind_of_ok hfactor, run_bind_of_ok (ih hcut)]
      rfl

theorem mapM_replace_of_failsAlong {cut : List Factor} {before after : σ} {error : Error}
    (h : scope.FailsAlong cut before error after) :
    cut.mapM scope.replace before = .error error after := by
  obtain ⟨done, rule, found, rest, words, between, rfl, hdone, hfound⟩ := h
  induction done generalizing before words with
  | nil =>
      cases hdone
      rw [List.nil_append, List.mapM_cons]
      exact run_bind_of_error hfound
  | cons factor done ih =>
      obtain ⟨word, others, next, rfl, hfactor, hdone⟩ := hdone.exists_head
      rw [List.cons_append, List.mapM_cons, run_bind_of_ok hfactor]
      exact run_bind_of_error (ih others hdone)

/-- A traversal of factors ends in one of the two ways. -/
theorem replaces_or_failsAlong (scope : Scope σ) (cut : List Factor) (before : σ) :
    (∃ words after, scope.Replaces cut before words after) ∨
      ∃ error after, scope.FailsAlong cut before error after := by
  induction cut generalizing before with
  | nil => exact Or.inl ⟨[], before, .nil before⟩
  | cons factor cut ih =>
      cases hfactor : scope.replace factor before with
      | ok word between =>
          rcases ih between with ⟨words, after, hcut⟩ | ⟨error, after, hcut⟩
          · exact Or.inl ⟨_, _, .cons hfactor hcut⟩
          · obtain ⟨done, rule, found, rest, words, last, rfl, hdone, hfound⟩ := hcut
            exact Or.inr ⟨error, after, factor :: done, rule, found, rest, word :: words, last, rfl,
              .cons hfactor hdone, hfound⟩
      | error error after =>
          cases factor with
          | copy symbol => cases hfactor
          | apply rule found =>
              exact Or.inr ⟨error, after, [], rule, found, cut, [], before, rfl, .nil before,
                hfactor⟩

theorem run_nextGeneration_of_replaces {rules : List Rule} {word : Word} {before after : σ}
    {words : List Word} (h : scope.Replaces (factors rules word) before words after) :
    (scope.nextGeneration rules word).run before = .ok words.flatten after :=
  run_bind_of_ok (mapM_replace_of_replaces h)

theorem run_nextGeneration_of_failsAlong {rules : List Rule} {word : Word} {before after : σ}
    {error : Error} (h : scope.FailsAlong (factors rules word) before error after) :
    (scope.nextGeneration rules word).run before = .error error after :=
  run_bind_of_error (mapM_replace_of_failsAlong h)

theorem run_nextGeneration_eq_ok_iff {rules : List Rule} {word next : Word} {before after : σ} :
    (scope.nextGeneration rules word).run before = .ok next after ↔
      ∃ words, scope.Replaces (factors rules word) before words after ∧ next = words.flatten := by
  constructor
  · intro hrun
    rcases scope.replaces_or_failsAlong (factors rules word) before with
      ⟨words, reached, h⟩ | ⟨error, reached, h⟩
    · rw [run_nextGeneration_of_replaces h] at hrun
      cases hrun
      exact ⟨words, h, rfl⟩
    · rw [run_nextGeneration_of_failsAlong h] at hrun
      cases hrun
  · rintro ⟨words, h, rfl⟩
    exact run_nextGeneration_of_replaces h

theorem run_nextGeneration_eq_error_iff {rules : List Rule} {word : Word} {before after : σ}
    {error : Error} :
    (scope.nextGeneration rules word).run before = .error error after ↔
      scope.FailsAlong (factors rules word) before error after := by
  constructor
  · intro hrun
    rcases scope.replaces_or_failsAlong (factors rules word) before with
      ⟨words, reached, h⟩ | ⟨other, reached, h⟩
    · rw [run_nextGeneration_of_replaces h] at hrun
      cases hrun
    · rw [run_nextGeneration_of_failsAlong h] at hrun
      cases hrun
      exact h
  · exact run_nextGeneration_of_failsAlong

/-- A word has exactly one cut, whose factors are not empty. The next generation consists of what
its factors become, from left to right; if there is none, the first factor that fails is the
reason. -/
theorem nextGeneration_along_cut (scope : Scope σ) (rules : List Rule) (word : Word) :
    ∃ cut, IsCut rules word cut ∧ (∀ other, IsCut rules word other → other = cut) ∧
      (∀ factor ∈ cut, factor.word ≠ []) ∧
        ∀ before after : σ,
          (∀ next, (scope.nextGeneration rules word).run before = .ok next after ↔
            ∃ words, scope.Replaces cut before words after ∧ next = words.flatten) ∧
          ∀ error, (scope.nextGeneration rules word).run before = .error error after ↔
            scope.FailsAlong cut before error after := by
  have hcut := isCut_factors rules word
  refine ⟨factors rules word, hcut, fun other hother => hother.eq_factors, ?_, ?_⟩
  · intro factor hmem
    obtain ⟨before, after, hsplit⟩ := List.append_of_mem hmem
    exact (hcut.fits before factor after hsplit).word_ne_nil
  · intro before after
    exact ⟨fun next => run_nextGeneration_eq_ok_iff, fun error => run_nextGeneration_eq_error_iff⟩

end Scope

end Lindenmayer
