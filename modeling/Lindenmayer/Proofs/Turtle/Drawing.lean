import Lindenmayer.Proofs.Generation.Literals
import Lindenmayer.Proofs.System
import Lindenmayer.Proofs.Word.Nesting
import Lindenmayer.Turtle

/-!
# Grammars that a turtle can draw

A word can be drawn if its symbols are declared, its brackets are well nested, and the symbols that
move the turtle carry as many parameters as the turtle asks for. Growth keeps this, and the only
thing that can then go wrong in drawing is a parameter that is no number or no exact real.
-/

namespace Lindenmayer

/-! ## The invariant -/

def Alphabet.Declares (alphabet : Alphabet) (symbol : Symbol) : Prop :=
  (alphabet.constantOf? symbol.name).isSome = true ∨ alphabet.isVariable symbol.name = true

/-- The symbol carries the number of parameters that the turtle takes with its name. -/
structure Turtle.Takes (symbol : Symbol) : Prop where
  forward : symbol.name = "fwd".toList → symbol.arity = 2
  turn : symbol.name = "rot".toList → symbol.arity = 1
  mark : symbol.name = "L".toList → symbol.arity = 1

/-- What a turtle needs to draw a word. -/
structure Alphabet.Drawable (alphabet : Alphabet) (word : Word) : Prop where
  declared : ∀ symbol ∈ word, alphabet.Declares symbol
  nested : alphabet.Nested word
  taken : ∀ symbol ∈ word, Turtle.Takes symbol

/-- The two sides of the rule are well nested, and what it puts in can be drawn. -/
structure Alphabet.DrawableRule (alphabet : Alphabet) (rule : Rule) : Prop where
  predecessor : alphabet.Nested rule.predecessor
  successor : alphabet.Drawable rule.successor

instance (alphabet : Alphabet) (symbol : Symbol) : Decidable (alphabet.Declares symbol) :=
  inferInstanceAs (Decidable (_ ∨ _))

instance (symbol : Symbol) : Decidable (Turtle.Takes symbol) :=
  decidable_of_iff
    ((symbol.name = "fwd".toList → symbol.arity = 2) ∧
      (symbol.name = "rot".toList → symbol.arity = 1) ∧
        (symbol.name = "L".toList → symbol.arity = 1))
    ⟨fun h => ⟨h.1, h.2.1, h.2.2⟩, fun h => ⟨h.forward, h.turn, h.mark⟩⟩

instance (alphabet : Alphabet) (word : Word) : Decidable (alphabet.Drawable word) :=
  decidable_of_iff
    ((∀ symbol ∈ word, alphabet.Declares symbol) ∧ alphabet.Nested word ∧
      ∀ symbol ∈ word, Turtle.Takes symbol)
    ⟨fun h => ⟨h.1, h.2.1, h.2.2⟩, fun h => ⟨h.declared, h.nested, h.taken⟩⟩

instance (alphabet : Alphabet) (rule : Rule) : Decidable (alphabet.DrawableRule rule) :=
  decidable_of_iff (alphabet.Nested rule.predecessor ∧ alphabet.Drawable rule.successor)
    ⟨fun h => ⟨h.1, h.2⟩, fun h => ⟨h.predecessor, h.successor⟩⟩

variable {alphabet : Alphabet}

theorem Alphabet.Declares.of_sameShape {first second : Symbol}
    (hdeclares : alphabet.Declares first) (hshape : first.SameShape second) :
    alphabet.Declares second := by
  rw [Alphabet.Declares, hshape.name]
  exact hdeclares

theorem Turtle.Takes.of_sameShape {first second : Symbol} (htakes : Turtle.Takes first)
    (hshape : first.SameShape second) : Turtle.Takes second := by
  constructor
  · rw [hshape.name, hshape.arity]
    exact htakes.forward
  · rw [hshape.name, hshape.arity]
    exact htakes.turn
  · rw [hshape.name, hshape.arity]
    exact htakes.mark

/-! ## Growth -/

/-- What takes the place of the factors leaves the depth as the word does. -/
theorem Alphabet.depth?_of_becomes {rules : List Rule}
    (hrules : ∀ rule ∈ rules, alphabet.Nested rule.predecessor ∧ alphabet.Nested rule.successor)
    {word : Word} {words : List Word}
    (hwords : List.Forall₂ Factor.Becomes (factors rules word) words) (depth : Nat) :
    alphabet.depth? depth (Word.names words.flatten) = alphabet.depth? depth (Word.names word) := by
  induction word using factors_induction rules generalizing words depth with
  | nil =>
      rw [factors_nil] at hwords
      cases hwords
      rfl
  | copy symbol rest _ hfactors ih =>
      rw [hfactors] at hwords
      cases hwords with
      | cons hbecomes hrest =>
          cases hbecomes
          have hnext next := ih hrest next
          exact congrArg (alphabet.deepen? depth symbol.name).bind (funext hnext)
  | apply rule found rest hrule hnames hfactors ih =>
      -- What is found has the names of the predecessor, so neither side changes the depth.
      rw [hfactors] at hwords
      cases hwords with
      | @cons _ replacement _ words hbecomes hrest =>
          cases hbecomes with
          | apply hshape =>
              obtain ⟨hpredecessor, hsuccessor⟩ := hrules rule (mem_of_firstMatch? hrule)
              have hreplacement : alphabet.Nested replacement := by
                rw [Alphabet.Nested, hshape.names]
                exact hsuccessor
              have hfound : alphabet.Nested found := by
                rw [Alphabet.Nested, hnames]
                exact hpredecessor
              have hleft := hreplacement.depth?_append depth (Word.names words.flatten)
              have hright := hfound.depth?_append depth (Word.names rest)
              rw [List.flatten_cons, Word.names_append, Word.names_append, hleft, hright]
              exact ih hrest depth

/-- A generation keeps what a turtle needs. -/
theorem Alphabet.Drawable.of_nextGeneration {σ : Type} {scope : Scope σ} {rules : List Rule}
    (hrules : ∀ rule ∈ rules, alphabet.DrawableRule rule) {word next : Word}
    (hword : alphabet.Drawable word) (h : Returns (scope.nextGeneration rules word) next) :
    alphabet.Drawable next := by
  obtain ⟨words, hwords, hflatten⟩ := h.exists_of_nextGeneration
  constructor
  · intro symbol hmem
    rcases h.exists_origin_of_nextGeneration hmem with hold | ⟨rule, hrule, origin, horigin, hnew⟩
    · exact hword.declared symbol hold
    · exact ((hrules rule hrule).successor.declared origin horigin).of_sameShape hnew.sameShape
  · have hnested rule (hrule : rule ∈ rules) :=
      And.intro (hrules rule hrule).predecessor (hrules rule hrule).successor.nested
    rw [Alphabet.Nested, hflatten, Alphabet.depth?_of_becomes hnested hwords]
    exact hword.nested
  · intro symbol hmem
    rcases h.exists_origin_of_nextGeneration hmem with hold | ⟨rule, hrule, origin, horigin, hnew⟩
    · exact hword.taken symbol hold
    · exact ((hrules rule hrule).successor.taken origin horigin).of_sameShape hnew.sameShape

/-! ## Drawing -/

def Turtle.system (alphabet : Alphabet) (limit : Option Nat) : System Turtle :=
  ⟨alphabet, Turtle.capabilities, Turtle.interpreter, limit⟩

@[simp]
theorem Turtle.system_alphabet (alphabet : Alphabet) (limit : Option Nat) :
    (Turtle.system alphabet limit).alphabet = alphabet := rfl

@[simp]
theorem Turtle.system_capabilities (alphabet : Alphabet) (limit : Option Nat) :
    (Turtle.system alphabet limit).capabilities = Turtle.capabilities := rfl

@[simp]
theorem Turtle.system_interpreter (alphabet : Alphabet) (limit : Option Nat) :
    (Turtle.system alphabet limit).interpreter = Turtle.interpreter := rfl

namespace Turtle

variable {limit : Option Nat} {symbol : Symbol}

theorem dispatch_of_constant {constant : Char}
    (hconstant : alphabet.constantOf? symbol.name = some constant) :
    (system alphabet limit).dispatch symbol = Effect.ofHost .grammar (applyConstant constant) := by
  simp only [System.dispatch, system_alphabet, system_interpreter, hconstant]
  rfl

section

variable (hconstant : alphabet.constantOf? symbol.name = none)
include hconstant

theorem dispatch_of_undeclared (hvariable : alphabet.isVariable symbol.name = false) :
    (system alphabet limit).dispatch symbol = throw (.grammar (.notAVariable symbol.name)) := by
  simp only [System.dispatch, system_alphabet, hconstant, hvariable, Bool.false_eq_true, if_false]

variable (hvariable : alphabet.isVariable symbol.name = true)
include hvariable

theorem dispatch_of_none (haction : capabilities.action? symbol.name = none) :
    (system alphabet limit).dispatch symbol = pure () := by
  simp only [System.dispatch, system_alphabet, system_capabilities, hconstant, hvariable, haction,
    if_true]

theorem dispatch_of_action {action : Capability Turtle Unit}
    (haction : capabilities.action? symbol.name = some action) :
    (system alphabet limit).dispatch symbol =
      if action.kinds.length = symbol.arity then
        action.call (symbol.args.getD [])
      else
        throw (.grammar (.arityMismatch symbol.name action.kinds.length symbol.arity)) := by
  simp only [System.dispatch, system_alphabet, system_capabilities, hconstant, hvariable, haction,
    if_true, Capability.accepts, decide_eq_true_eq]

end

end Turtle

def Error.IsInvalidArgument (error : Error) : Prop :=
  ∃ details, error = .evaluation (.invalidArgument details)

def Word.forwards (word : Word) : Nat := word.countP fun symbol => symbol.name = "fwd".toList

theorem Word.forwards_cons (symbol : Symbol) (word : Word) :
    Word.forwards (symbol :: word) = Word.forwards [symbol] + Word.forwards word := by
  rw [Word.forwards, Word.forwards, Word.forwards, ← List.countP_append]
  rfl

theorem Word.forwards_of_eq {symbol : Symbol} (hname : symbol.name = "fwd".toList) :
    Word.forwards [symbol] = 1 := by
  simp [Word.forwards, hname]

theorem Word.forwards_of_ne {symbol : Symbol} (hname : symbol.name ≠ "fwd".toList) :
    Word.forwards [symbol] = 0 := by
  simpa [Word.forwards] using hname

/-- The turtle has this many poses saved and this many segments drawn. -/
def Turtle.Holds (depth drawn : Nat) (turtle : Turtle) : Prop :=
  turtle.saved.length = depth ∧ turtle.segments.size = drawn

theorem ParamKind.exists_of_coerce {kind : ParamKind} {arg : Text} {error : EvaluationError}
    (h : kind.coerce arg = .error error) : ∃ details, error = .invalidArgument details := by
  cases kind with
  | text => cases h
  | number =>
      unfold ParamKind.coerce at h
      cases hread : Number.ofText? arg with
      | some n => simp [hread] at h
      | none =>
          simp only [hread, Except.error.injEq] at h
          exact ⟨_, h.symm⟩

theorem Value.exists_of_asReal {value : Value} {error : EvaluationError}
    (h : value.asReal = .error error) : ∃ details, error = .invalidArgument details := by
  revert h
  fun_cases Value.asReal value with
  | case1 => exact nofun
  | case2 => exact nofun
  | case3 =>
      rintro ⟨⟩
      exact ⟨_, rfl⟩
  | case4 =>
      rintro ⟨⟩
      exact ⟨_, rfl⟩

/-- Coercion gives an action as many values as it has parameters. -/
theorem Capability.ends_call {action : Capability Turtle Unit} {args : List Text}
    {turtle : Turtle} {post : Unit → Turtle → Prop} (hlength : args.length = action.kinds.length)
    (hrun : ∀ values : List Value, values.length = action.kinds.length →
      Ends (action.run values) turtle post
        fun error => Error.IsInvalidArgument (.evaluation error)) :
    Ends (action.call args) turtle post Error.IsInvalidArgument := by
  refine .bind (fun values state => values.length = action.kinds.length ∧ state = turtle)
    (.ofExcept ?_ ?_) ?_
  · intro values hvalues
    have hzip := (Except.forall₂_of_mapM hvalues).length_eq
    rw [List.length_zip, hlength, Nat.min_self] at hzip
    exact ⟨hzip.symm, rfl⟩
  · intro error herror
    obtain ⟨_, _, hcoerce⟩ := Except.exists_of_mapM herror
    obtain ⟨details, rfl⟩ := ParamKind.exists_of_coerce hcoerce
    exact ⟨details, rfl⟩
  · rintro values state ⟨hvalues, rfl⟩
    exact .ofHost (hrun values hvalues)

namespace Turtle

theorem ends_asReal (value : Value) (turtle : Turtle) :
    Ends (ofExcept value.asReal : EStateM EvaluationError Turtle Float) turtle
      (fun _ after => after = turtle) fun error => Error.IsInvalidArgument (.evaluation error) := by
  cases hreal : value.asReal with
  | ok r => exact rfl
  | error error =>
      obtain ⟨details, rfl⟩ := Value.exists_of_asReal hreal
      exact ⟨details, rfl⟩

/-- Moving forward draws one segment. -/
theorem ends_forwardAction {values : List Value} (hvalues : values.length = 2) (turtle : Turtle) :
    Ends (forwardAction values) turtle
      (fun _ => Holds turtle.saved.length (turtle.segments.size + 1))
      fun error => Error.IsInvalidArgument (.evaluation error) := by
  obtain ⟨length, thickness, rfl⟩ := List.length_eq_two.mp hvalues
  refine .bind _ (ends_asReal length turtle) ?_
  rintro reach _ rfl
  refine .bind _ (ends_asReal thickness _) ?_
  rintro width _ rfl
  exact ⟨rfl, Array.size_push _⟩

theorem ends_turnAction {values : List Value} (hvalues : values.length = 1) (turtle : Turtle) :
    Ends (turnAction values) turtle (fun _ => Holds turtle.saved.length turtle.segments.size)
      fun error => Error.IsInvalidArgument (.evaluation error) := by
  obtain ⟨angle, rfl⟩ := List.length_eq_one_iff.mp hvalues
  refine .bind _ (ends_asReal angle turtle) ?_
  rintro degrees _ rfl
  exact ⟨rfl, rfl⟩

theorem ends_markAction {values : List Value} (hvalues : values.length = 1) (turtle : Turtle) :
    Ends (markAction values) turtle (fun _ => Holds turtle.saved.length turtle.segments.size)
      fun error => Error.IsInvalidArgument (.evaluation error) := by
  obtain ⟨mark, rfl⟩ := List.length_eq_one_iff.mp hvalues
  exact ⟨rfl, rfl⟩

/-- A bracket that can be closed moves the turtle between levels. -/
theorem ends_applyConstant {constant : Char} (hconstant : constant = '[' ∨ constant = ']')
    {name : Text} (hname : alphabet.constantOf? name = some constant) {next : Nat}
    {turtle : Turtle} (hdeepen : alphabet.deepen? turtle.saved.length name = some next) :
    Ends (applyConstant constant) turtle (fun _ => Holds next turtle.segments.size)
      fun error => Error.IsInvalidArgument (.grammar error) := by
  unfold Alphabet.deepen? at hdeepen
  rw [hname] at hdeepen
  rcases hconstant with rfl | rfl
  · cases hdeepen
    exact ⟨rfl, rfl⟩
  · obtain ⟨pose, saved, segments, generator⟩ := turtle
    cases saved with
    | nil => cases hdeepen
    | cons last saved =>
        cases hdeepen
        exact ⟨rfl, rfl⟩

/-- The actions of the turtle. -/
theorem action?_eq_some {name : Text} {action : Capability Turtle Unit}
    (h : capabilities.action? name = some action) :
    name = "fwd".toList ∧ action = ⟨[.number, .number], forwardAction⟩ ∨
      name = "rot".toList ∧ action = ⟨[.number], turnAction⟩ ∨
        name = "L".toList ∧ action = ⟨[.number], markAction⟩ := by
  have hmem : (name, action) ∈ capabilities.actions := mem_of_lookup h
  rcases List.mem_cons.mp hmem with heq | hmem
  · cases heq
    exact Or.inr (Or.inr ⟨rfl, rfl⟩)
  rcases List.mem_cons.mp hmem with heq | hmem
  · cases heq
    exact Or.inr (Or.inl ⟨rfl, rfl⟩)
  rcases List.mem_cons.mp hmem with heq | hmem
  · cases heq
    exact Or.inl ⟨rfl, rfl⟩
  · cases hmem

/-- An action takes the parameters that the turtle asks for, and only `fwd` draws. -/
theorem ends_action {symbol : Symbol} (htakes : Takes symbol) {action : Capability Turtle Unit}
    (haction : capabilities.action? symbol.name = some action) (turtle : Turtle) :
    action.accepts symbol.arity = true ∧
      Ends (action.call (symbol.args.getD [])) turtle
        (fun _ => Holds turtle.saved.length (turtle.segments.size + Word.forwards [symbol]))
        Error.IsInvalidArgument := by
  rcases action?_eq_some haction with ⟨hname, rfl⟩ | ⟨hname, rfl⟩ | ⟨hname, rfl⟩
  · have harity := htakes.forward hname
    rw [harity, Word.forwards_of_eq hname]
    exact ⟨rfl, Capability.ends_call harity fun _ hvalues => ends_forwardAction hvalues turtle⟩
  · have harity := htakes.turn hname
    rw [harity, Word.forwards_of_ne (by rw [hname]; decide)]
    exact ⟨rfl, Capability.ends_call harity fun _ hvalues => ends_turnAction hvalues turtle⟩
  · have harity := htakes.mark hname
    rw [harity, Word.forwards_of_ne (by rw [hname]; decide)]
    exact ⟨rfl, Capability.ends_call harity fun _ hvalues => ends_markAction hvalues turtle⟩

variable {limit : Option Nat}

/-- A declared symbol with the parameters that the turtle takes is drawn. -/
theorem ends_dispatch (hbrackets : ∀ c ∈ alphabet.constants, c = '[' ∨ c = ']')
    {symbol : Symbol} (hdeclares : alphabet.Declares symbol) (htakes : Takes symbol)
    {turtle : Turtle} {next : Nat}
    (hdeepen : alphabet.deepen? turtle.saved.length symbol.name = some next) :
    Ends ((system alphabet limit).dispatch symbol) turtle
      (fun _ => Holds next (turtle.segments.size + Word.forwards [symbol]))
      Error.IsInvalidArgument := by
  cases hconstant : alphabet.constantOf? symbol.name with
  | some constant =>
      obtain ⟨hname, hmem⟩ := Alphabet.constantOf?_eq_some_iff.mp hconstant
      have hbracket := hbrackets constant (by simpa [Alphabet.isConstant] using hmem)
      rw [dispatch_of_constant hconstant, Word.forwards_of_ne (by simp [hname])]
      exact .ofHost (ends_applyConstant hbracket hconstant hdeepen)
  | none =>
      have hvariable : alphabet.isVariable symbol.name = true := by
        rcases hdeclares with hsome | hvariable
        · rw [hconstant] at hsome
          cases hsome
        · exact hvariable
      obtain rfl : next = turtle.saved.length := by
        unfold Alphabet.deepen? at hdeepen
        rw [hconstant] at hdeepen
        cases hdeepen
        rfl
      cases haction : capabilities.action? symbol.name with
      | none =>
          have hname : symbol.name ≠ "fwd".toList := by
            intro hname
            rw [hname] at haction
            cases haction
          rw [dispatch_of_none hconstant hvariable haction, Word.forwards_of_ne hname]
          exact ⟨rfl, rfl⟩
      | some action =>
          obtain ⟨haccepts, hends⟩ := ends_action htakes haction turtle
          rw [dispatch_of_action hconstant hvariable haction, if_pos (of_decide_eq_true haccepts)]
          exact hends

/-- A word is drawn symbol by symbol. -/
theorem ends_forM_dispatch (hbrackets : ∀ c ∈ alphabet.constants, c = '[' ∨ c = ']')
    {word : Word} (hdeclared : ∀ symbol ∈ word, alphabet.Declares symbol)
    (htaken : ∀ symbol ∈ word, Takes symbol) {turtle : Turtle} {reached : Nat}
    (hdepth : alphabet.depth? turtle.saved.length word.names = some reached) :
    Ends (word.forM (system alphabet limit).dispatch) turtle
      (fun _ => Holds reached (turtle.segments.size + word.forwards)) Error.IsInvalidArgument := by
  induction word generalizing turtle with
  | nil =>
      cases hdepth
      exact ⟨rfl, rfl⟩
  | cons symbol rest ih =>
      rw [Word.names, List.map_cons, Alphabet.depth?, List.foldlM_cons] at hdepth
      obtain ⟨next, hdeepen, hrest⟩ := Option.bind_eq_some_iff.mp hdepth
      rw [List.forM]
      refine .bind _ (ends_dispatch hbrackets (hdeclared symbol List.mem_cons_self)
        (htaken symbol List.mem_cons_self) hdeepen) ?_
      rintro _ state ⟨rfl, hsize⟩
      rw [Word.forwards_cons, ← Nat.add_assoc, ← hsize]
      exact ih (fun other hmem => hdeclared other (List.mem_cons_of_mem symbol hmem))
        (fun other hmem => htaken other (List.mem_cons_of_mem symbol hmem)) hrest

/-- What can be drawn is drawn from a clean sheet, and leaves no pose saved. -/
theorem ends_execute (hbrackets : ∀ c ∈ alphabet.constants, c = '[' ∨ c = ']') {word : Word}
    (hdrawable : alphabet.Drawable word) (turtle : Turtle) :
    Ends ((system alphabet limit).execute word) turtle
      (fun _ drawn => drawn.saved = [] ∧ drawn.segments.size = word.forwards)
      Error.IsInvalidArgument := by
  refine .bind (fun _ state => state = turtle.reset) rfl ?_
  rintro _ _ rfl
  have hdepth : alphabet.depth? turtle.reset.saved.length word.names = some 0 := hdrawable.nested
  refine (ends_forM_dispatch hbrackets hdrawable.declared hdrawable.taken hdepth).mono ?_
  rintro _ drawn ⟨hsaved, hsize⟩
  exact ⟨List.length_eq_zero_iff.mp hsaved, hsize.trans (Nat.zero_add _)⟩

/-- A word that grows from what can be drawn is drawn to its end, with a segment for every `fwd` and
every pose restored, unless a parameter is not what the turtle can take. -/
theorem execute_of_build (hbrackets : ∀ c ∈ alphabet.constants, c = '[' ∨ c = ']') {start : Text}
    {rules : List (Text × Text)} {word : Word} {readRules : List Rule}
    (hword : alphabet.readWord start = .ok word) (hrules : alphabet.readRules rules = .ok readRules)
    (hdrawable : alphabet.Drawable word)
    (hdrawables : ∀ rule ∈ readRules, alphabet.DrawableRule rule)
    {iterations : Nat} {before after : Turtle} {grown : Word}
    (hbuild : ((system alphabet limit).build start rules iterations).run before = .ok grown after)
    (turtle : Turtle) :
    match ((system alphabet limit).execute grown).run turtle with
    | .ok _ drawn => drawn.saved = [] ∧ drawn.segments.size = grown.forwards
    | .error error _ => ∃ details, error = .evaluation (.invalidArgument details) := by
  have hgrowth := Returns.growFrom_of_build hrules hword ⟨before, after, hbuild⟩
  have hgrown : alphabet.Drawable grown :=
    hgrowth.invariant_of_growFrom (fun _ _ hlast => hlast.of_nextGeneration hdrawables) iterations
      hdrawable
  have hends : Ends ((system alphabet limit).execute grown) turtle _ _ :=
    ends_execute hbrackets hgrown turtle
  rw [EStateM.run]
  unfold Ends at hends
  cases hrun : (system alphabet limit).execute grown turtle with
  | ok _ drawn =>
      rw [hrun] at hends
      exact hends
  | error error _ =>
      rw [hrun] at hends
      exact hends

def branching : Alphabet := ⟨["fwd".toList, "rot".toList], [], ['[', ']']⟩

def branch : Word :=
  [⟨"fwd".toList, some [['1'], ['1']]⟩, .bare ['['], ⟨"rot".toList, some ["90".toList]⟩,
    ⟨"fwd".toList, some [['2'], ['1']]⟩, .bare [']']]

/-- A branch that has grown is drawn. -/
theorem execute_of_build_branch :
    ((system branching none).build "fwd(1,1)".toList
        [("fwd(a,b)".toList, "fwd(a,b)[rot(90)fwd(a*2,b)]".toList)] 1).run (.ofSeed 0) =
          .ok branch (.ofSeed 0) ∧
      match ((system branching none).execute branch).run (.ofSeed 0) with
      | .ok _ drawn => drawn.saved = [] ∧ drawn.segments.size = 2
      | .error error _ => ∃ details, error = .evaluation (.invalidArgument details) := by
  have hbuild : ((system branching none).build "fwd(1,1)".toList
      [("fwd(a,b)".toList, "fwd(a,b)[rot(90)fwd(a*2,b)]".toList)] 1).run (.ofSeed 0) =
        .ok branch (.ofSeed 0) := by
    with_unfolding_all rfl
  have hword : branching.readWord "fwd(1,1)".toList =
      .ok [⟨"fwd".toList, some [['1'], ['1']]⟩] := by
    with_unfolding_all rfl
  have hrules : branching.readRules
      [("fwd(a,b)".toList, "fwd(a,b)[rot(90)fwd(a*2,b)]".toList)] =
        .ok [⟨[⟨"fwd".toList, some [['a'], ['b']]⟩],
          [⟨"fwd".toList, some [['a'], ['b']]⟩, .bare ['['], ⟨"rot".toList, some ["90".toList]⟩,
            ⟨"fwd".toList, some ["a*2".toList, ['b']]⟩, .bare [']']]⟩] := by
    with_unfolding_all rfl
  exact ⟨hbuild, execute_of_build (by simp [branching]) hword hrules
    (by with_unfolding_all decide) (by with_unfolding_all decide) hbuild (.ofSeed 0)⟩

end Turtle

end Lindenmayer
