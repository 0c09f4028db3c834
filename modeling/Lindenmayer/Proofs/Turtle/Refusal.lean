import Lindenmayer.Proofs.Turtle.Motion

/-!
# Refusals

Before a turtle acts on a symbol it looks at everything that can be wrong with it: whether it is
declared, whether there is a pose to take back, how many parameters it carries, whether they are
numbers, and whether these can be taken as reals. So a symbol that is refused changes nothing, and a
word that fails leaves the turtle where the symbols before the one refused have brought it.
-/

namespace Lindenmayer

/-- A run that fails leaves the host as it was. -/
def Atomic {ε σ α : Type} (run : EStateM ε σ α) : Prop :=
  ∀ before error after, run before = .error error after → after = before

namespace Turtle

variable {alphabet : Alphabet} {limit : Option Nat}

theorem Makes.atomic {ε : Type} {constant : Option Char} {run : EStateM ε Turtle Unit}
    (hrun : Makes constant run) : Atomic run := by
  intro before error after herror
  have hafter := hrun before
  rw [herror] at hafter
  exact hafter

/-! ## Values -/

theorem coerce_eq_ok_iff {text : Text} {value : Value} :
    ParamKind.number.coerce text = .ok value ↔
      ∃ n, Number.ofText? text = some n ∧ value = .number n := by
  cases hread : Number.ofText? text with
  | none => simp [ParamKind.coerce, hread]
  | some n => simp [ParamKind.coerce, hread, eq_comm]

theorem coerce_eq_error_iff {text : Text} {error : EvaluationError} :
    ParamKind.number.coerce text = .error error ↔
      Number.ofText? text = none ∧
        error = .invalidArgument ("expected a number, found '".toList ++ text.trim ++ ['\'']) := by
  cases hread : Number.ofText? text with
  | none => simp [ParamKind.coerce, hread, eq_comm]
  | some n => simp [ParamKind.coerce, hread]

theorem exists_coerce_iff {text : Text} :
    (∃ value, ParamKind.number.coerce text = .ok value) ↔
      ∃ n, Number.ofText? text = some n := by
  simp [coerce_eq_ok_iff, exists_comm (α := Value)]

/-- The first text that is no number is named. -/
theorem mapM_coerce_eq_error_iff {args : List Text} {error : EvaluationError} :
    args.mapM ParamKind.number.coerce = .error error ↔
      ∃ before arg rest, args = before ++ arg :: rest ∧
        (∀ text ∈ before, ∃ n, Number.ofText? text = some n) ∧ Number.ofText? arg = none ∧
          error =
            .invalidArgument ("expected a number, found '".toList ++ arg.trim ++ ['\'']) := by
  simp only [Except.mapM_eq_error_iff, exists_coerce_iff, coerce_eq_error_iff]

/-- The values are the numbers that the texts denote. -/
theorem mapM_coerce_eq_ok_iff {args : List Text} {values : List Value} :
    args.mapM ParamKind.number.coerce = .ok values ↔
      ∃ numbers : List Number, values = numbers.map Value.number ∧
        List.Forall₂ (fun text number => Number.ofText? text = some number) args numbers := by
  constructor
  · intro h
    have hvalues := Except.forall₂_of_mapM h
    clear h
    induction hvalues with
    | nil => exact ⟨[], rfl, .nil⟩
    | cons hhead _ ih =>
        obtain ⟨n, hn, rfl⟩ := coerce_eq_ok_iff.mp hhead
        obtain ⟨numbers, rfl, hnumbers⟩ := ih
        exact ⟨n :: numbers, rfl, .cons hn hnumbers⟩
  · rintro ⟨numbers, rfl, hnumbers⟩
    refine Except.mapM_of_forall₂ (List.forall₂_map_right_iff.mpr ?_)
    exact hnumbers.imp fun _ n hn => coerce_eq_ok_iff.mpr ⟨n, hn, rfl⟩

theorem asReal_eq_error_iff {number : Number} {error : EvaluationError} :
    (Value.number number).asReal = .error error ↔
      ∃ n, number = .integer n ∧ exactReal? n = none ∧
        error = .invalidArgument
          (integerText n.toInt ++ " cannot be represented exactly as a real".toList) := by
  cases number with
  | real r => simp [Value.asReal]
  | integer n =>
      cases hreal : exactReal? n with
      | none => simp [Value.asReal, hreal, eq_comm]
      | some r => simp [Value.asReal, hreal]

/-- The first integer that is no real is named. -/
theorem mapM_asReal_eq_error_iff {numbers : List Number} {error : EvaluationError} :
    (numbers.map Value.number).mapM Value.asReal = .error error ↔
      ∃ before n rest, numbers = before ++ .integer n :: rest ∧
        (∀ number ∈ before, ∃ r, (Value.number number).asReal = .ok r) ∧ exactReal? n = none ∧
          error = .invalidArgument
            (integerText n.toInt ++ " cannot be represented exactly as a real".toList) := by
  rw [List.mapM_map, Except.mapM_eq_error_iff]
  constructor
  · rintro ⟨before, number, rest, hnumbers, hbefore, hnumber⟩
    obtain ⟨n, rfl, hreal⟩ := asReal_eq_error_iff.mp hnumber
    exact ⟨before, n, rest, hnumbers, hbefore, hreal⟩
  · rintro ⟨before, n, rest, hnumbers, hbefore, hreal⟩
    exact ⟨before, _, rest, hnumbers, hbefore, asReal_eq_error_iff.mpr ⟨n, rfl, hreal⟩⟩

/-! ## Parameters -/

section

variable {name : Text} {action : Capability Turtle Unit}
  (haction : capabilities.action? name = some action)
include haction

/-- All parameters of an action are numbers. -/
theorem coerceAll_eq_mapM {args : List Text} (hlength : action.kinds.length = args.length) :
    action.coerceAll args = args.mapM ParamKind.number.coerce := by
  rcases action?_eq_some haction with ⟨-, rfl⟩ | ⟨-, rfl⟩ | ⟨-, rfl⟩
  · obtain ⟨length, thickness, rfl⟩ := List.length_eq_two.mp hlength.symm
    rfl
  · obtain ⟨angle, rfl⟩ := List.length_eq_one_iff.mp hlength.symm
    rfl
  · obtain ⟨mark, rfl⟩ := List.length_eq_one_iff.mp hlength.symm
    rfl

/-- An action that moves the turtle refuses the first of its values that is no real. The marker
looks at none. -/
theorem run_eq_error_iff {values : List Value} (hlength : action.kinds.length = values.length)
    {turtle after : Turtle} {error : EvaluationError} :
    action.run values turtle = .error error after ↔
      (name ≠ "L".toList ∧ values.mapM Value.asReal = .error error) ∧ after = turtle := by
  have hmodify (change : Turtle → Turtle) :
      (modify change : EStateM EvaluationError Turtle Unit) turtle ≠ .error error after := nofun
  have hnil : ([] : List Value).mapM Value.asReal ≠ .error error := nofun
  rcases action?_eq_some haction with ⟨rfl, rfl⟩ | ⟨rfl, rfl⟩ | ⟨rfl, rfl⟩
  · obtain ⟨length, thickness, rfl⟩ := List.length_eq_two.mp hlength.symm
    have hname : "fwd".toList ≠ "L".toList := by decide
    rw [and_iff_right hname, Except.mapM_cons_eq_error_iff, Except.mapM_cons_eq_error_iff]
    simp only [forwardAction, run_read_bind_eq_error_iff, hmodify, hnil, and_false, exists_false,
      or_false, or_and_right, exists_and_right, and_assoc]
  · obtain ⟨angle, rfl⟩ := List.length_eq_one_iff.mp hlength.symm
    have hname : "rot".toList ≠ "L".toList := by decide
    rw [and_iff_right hname, Except.mapM_cons_eq_error_iff]
    simp only [turnAction, run_read_bind_eq_error_iff, hmodify, hnil, and_false, exists_false,
      or_false]
  · obtain ⟨mark, rfl⟩ := List.length_eq_one_iff.mp hlength.symm
    constructor
    · nofun
    · rintro ⟨⟨hname, -⟩, -⟩
      exact absurd rfl hname

end

/-- What is wrong with the parameters of an action: the first that is no number, or, if they all are
and the action moves the turtle, the first integer that is no real. -/
inductive Declines (name : Text) (args : List Text) : EvaluationError → Prop where
  | number {before rest : List Text} {arg : Text} (hargs : args = before ++ arg :: rest)
      (hbefore : ∀ text ∈ before, ∃ n, Number.ofText? text = some n)
      (harg : Number.ofText? arg = none) :
      Declines name args
        (.invalidArgument ("expected a number, found '".toList ++ arg.trim ++ ['\'']))
  | real (hmoves : name ≠ "L".toList) {before rest : List Number} {n : Int64}
      (hargs : List.Forall₂ (fun text number => Number.ofText? text = some number) args
        (before ++ .integer n :: rest))
      (hbefore : ∀ number ∈ before, ∃ r, (Value.number number).asReal = .ok r)
      (hreal : exactReal? n = none) :
      Declines name args (.invalidArgument
        (integerText n.toInt ++ " cannot be represented exactly as a real".toList))

/-- An action fails for its parameters, and changes nothing then. -/
theorem call_eq_error_iff {name : Text} {action : Capability Turtle Unit}
    (haction : capabilities.action? name = some action) {args : List Text}
    (hlength : action.kinds.length = args.length) {turtle after : Turtle} {error : Error} :
    action.call args turtle = .error error after ↔
      (∃ fault, error = .evaluation fault ∧ Declines name args fault) ∧ after = turtle := by
  have hcount {numbers : List Number}
      (hnumbers : List.Forall₂ (fun text number => Number.ofText? text = some number) args
        numbers) : action.kinds.length = (numbers.map Value.number).length := by
    rw [List.length_map, ← hnumbers.length_eq, hlength]
  rw [Capability.call, run_ofExcept_bind_eq_error_iff, coerceAll_eq_mapM haction hlength]
  constructor
  · rintro (⟨⟨fault, hfault, rfl⟩, rfl⟩ | ⟨values, hvalues, hrun⟩)
    · obtain ⟨before, arg, rest, hargs, hbefore, harg, rfl⟩ := mapM_coerce_eq_error_iff.mp hfault
      exact ⟨⟨_, rfl, .number hargs hbefore harg⟩, rfl⟩
    · obtain ⟨numbers, rfl, hnumbers⟩ := mapM_coerce_eq_ok_iff.mp hvalues
      obtain ⟨fault, hfault, rfl⟩ := run_ofHost_eq_error_iff.mp hrun
      obtain ⟨⟨hmoves, hreals⟩, rfl⟩ := (run_eq_error_iff haction (hcount hnumbers)).mp hfault
      obtain ⟨before, n, rest, rfl, hbefore, hreal, rfl⟩ := mapM_asReal_eq_error_iff.mp hreals
      exact ⟨⟨_, rfl, .real hmoves hnumbers hbefore hreal⟩, rfl⟩
  · rintro ⟨⟨fault, rfl, hdeclines⟩, rfl⟩
    cases hdeclines with
    | @number before rest arg hargs hbefore harg =>
        have hfault := mapM_coerce_eq_error_iff.mpr ⟨before, arg, rest, hargs, hbefore, harg, rfl⟩
        exact .inl ⟨⟨_, hfault, rfl⟩, rfl⟩
    | @real hmoves before rest n hargs hbefore hreal =>
        have hreals := mapM_asReal_eq_error_iff.mpr ⟨before, n, rest, rfl, hbefore, hreal, rfl⟩
        refine .inr ⟨_, mapM_coerce_eq_ok_iff.mpr ⟨_, rfl, hargs⟩, ?_⟩
        refine run_ofHost_eq_error_iff.mpr ⟨_, ?_, rfl⟩
        exact (run_eq_error_iff haction (hcount hargs)).mpr ⟨⟨hmoves, hreals⟩, rfl⟩

/-! ## Symbols -/

theorem applyConstant_eq_error_iff {constant : Char} {turtle after : Turtle}
    {error : GrammarError} :
    applyConstant constant turtle = .error error after ↔
      (constant = ']' ∧ turtle.saved = [] ∧ error = .stackUnderflow ']' ∨
        constant ≠ '[' ∧ constant ≠ ']' ∧ error = .unknownConstant constant) ∧
      after = turtle := by
  by_cases hopen : constant = '['
  · simp [hopen, applyConstant_open]
  by_cases hclose : constant = ']'
  · cases hsaved : turtle.saved with
    | nil => simp [hclose, applyConstant_close_of_nil hsaved, eq_comm]
    | cons pose saved => simp [hclose, applyConstant_close_of_cons hsaved]
  · simp [hopen, hclose, applyConstant_of_ne hopen hclose, eq_comm]

/-- What can be wrong with a symbol for a turtle, and with what error it is refused. -/
inductive Refuses (alphabet : Alphabet) (turtle : Turtle) (symbol : Symbol) : Error → Prop where
  | underflow (hconstant : alphabet.constantOf? symbol.name = some ']')
      (hsaved : turtle.saved = []) :
      Refuses alphabet turtle symbol (.grammar (.stackUnderflow ']'))
  | unknown {constant : Char} (hconstant : alphabet.constantOf? symbol.name = some constant)
      (hopen : constant ≠ '[') (hclose : constant ≠ ']') :
      Refuses alphabet turtle symbol (.grammar (.unknownConstant constant))
  | undeclared (hconstant : alphabet.constantOf? symbol.name = none)
      (hvariable : alphabet.isVariable symbol.name = false) :
      Refuses alphabet turtle symbol (.grammar (.notAVariable symbol.name))
  | arity (hconstant : alphabet.constantOf? symbol.name = none)
      (hvariable : alphabet.isVariable symbol.name = true) {action : Capability Turtle Unit}
      (haction : capabilities.action? symbol.name = some action)
      (hlength : action.kinds.length ≠ symbol.arity) :
      Refuses alphabet turtle symbol
        (.grammar (.arityMismatch symbol.name action.kinds.length symbol.arity))
  | parameters (hconstant : alphabet.constantOf? symbol.name = none)
      (hvariable : alphabet.isVariable symbol.name = true) {action : Capability Turtle Unit}
      (haction : capabilities.action? symbol.name = some action)
      (hlength : action.kinds.length = symbol.arity) {fault : EvaluationError}
      (hdeclines : Declines symbol.name (symbol.args.getD []) fault) :
      Refuses alphabet turtle symbol (.evaluation fault)

/-- A symbol is refused for what is wrong with it, and changes nothing then. -/
theorem dispatch_eq_error_iff {symbol : Symbol} {turtle after : Turtle} {error : Error} :
    (system alphabet limit).dispatch symbol turtle = .error error after ↔
      Refuses alphabet turtle symbol error ∧ after = turtle := by
  constructor
  · intro h
    cases hconstant : alphabet.constantOf? symbol.name with
    | some constant =>
        rw [dispatch_of_constant hconstant] at h
        obtain ⟨fault, hfault, rfl⟩ := run_ofHost_eq_error_iff.mp h
        obtain ⟨⟨rfl, hsaved, rfl⟩ | ⟨hopen, hclose, rfl⟩, rfl⟩ :=
          applyConstant_eq_error_iff.mp hfault
        · exact ⟨.underflow hconstant hsaved, rfl⟩
        · exact ⟨.unknown hconstant hopen hclose, rfl⟩
    | none =>
        cases hvariable : alphabet.isVariable symbol.name with
        | false =>
            rw [dispatch_of_undeclared hconstant hvariable] at h
            cases h
            exact ⟨.undeclared hconstant hvariable, rfl⟩
        | true =>
            cases haction : capabilities.action? symbol.name with
            | none =>
                rw [dispatch_of_none hconstant hvariable haction] at h
                cases h
            | some action =>
                rw [dispatch_of_action hconstant hvariable haction] at h
                by_cases hlength : action.kinds.length = symbol.arity
                · rw [if_pos hlength] at h
                  obtain ⟨⟨fault, rfl, hdeclines⟩, rfl⟩ := (call_eq_error_iff haction hlength).mp h
                  exact ⟨.parameters hconstant hvariable haction hlength hdeclines, rfl⟩
                · rw [if_neg hlength] at h
                  cases h
                  exact ⟨.arity hconstant hvariable haction hlength, rfl⟩
  · rintro ⟨hrefuses, rfl⟩
    cases hrefuses with
    | underflow hconstant hsaved =>
        rw [dispatch_of_constant hconstant]
        exact run_ofHost_of_error (applyConstant_close_of_nil hsaved)
    | unknown hconstant hopen hclose =>
        rw [dispatch_of_constant hconstant]
        exact run_ofHost_of_error (applyConstant_of_ne hopen hclose)
    | undeclared hconstant hvariable =>
        rw [dispatch_of_undeclared hconstant hvariable]
        rfl
    | arity hconstant hvariable haction hlength =>
        rw [dispatch_of_action hconstant hvariable haction, if_neg hlength]
        rfl
    | parameters hconstant hvariable haction hlength hdeclines =>
        rw [dispatch_of_action hconstant hvariable haction, if_pos hlength]
        exact (call_eq_error_iff haction hlength).mpr ⟨⟨_, rfl, hdeclines⟩, rfl⟩

/-! ## Words -/

/-- A word fails exactly if one of its symbols is refused after those before it have been drawn. It
fails with the error of this symbol and leaves the turtle as the symbols before it do, since nothing
that a turtle does with a symbol fails halfway. -/
theorem execute_atomic (alphabet : Alphabet) (limit : Option Nat) :
    (∀ word turtle error after,
      ((system alphabet limit).execute word).run turtle = .error error after ↔
        ∃ (k : Nat) (hk : k < word.length),
          ((system alphabet limit).execute (word.take k)).run turtle = .ok () after ∧
          ((system alphabet limit).dispatch word[k]).run after = .error error after ∧
          Refuses alphabet after word[k] error) ∧
      (∀ symbol, Atomic ((system alphabet limit).dispatch symbol)) ∧
      (∀ constant, Atomic (applyConstant constant)) ∧
      ∀ name action, capabilities.action? name = some action →
        (∀ values, Atomic (action.run values)) ∧ ∀ args, Atomic (action.call args) := by
  refine ⟨fun word turtle error after => ?_, fun symbol => (makes_dispatch symbol).atomic,
    fun constant => (makes_applyConstant constant).atomic, fun name action haction => ?_⟩
  · have hexecute :
        ((system alphabet limit).execute word).run turtle = .error error after ↔
          ∃ (k : Nat) (hk : k < word.length) (between : Turtle),
            ((system alphabet limit).execute (word.take k)).run turtle = .ok () between ∧
              (system alphabet limit).dispatch word[k] between = .error error after :=
      run_forM_eq_error_iff
    rw [hexecute]
    constructor
    · rintro ⟨k, hk, between, htake, hsymbol⟩
      obtain ⟨hrefuses, rfl⟩ := dispatch_eq_error_iff.mp hsymbol
      exact ⟨k, hk, htake, hsymbol, hrefuses⟩
    · rintro ⟨k, hk, htake, hsymbol, -⟩
      exact ⟨k, hk, after, htake, hsymbol⟩
  · exact ⟨fun values => (makes_action haction values).atomic,
      fun args => (makes_call haction args).atomic⟩

/-- The line before a bracket that closes nothing is drawn, the one behind it is not. -/
example : ∃ after : Turtle,
    ((system ⟨["fwd".toList], [], [']']⟩ none).execute
      [⟨"fwd".toList, some [['1'], ['1']]⟩, .bare [']'], ⟨"fwd".toList, some [['1'], ['1']]⟩]).run
        (.ofSeed 0) = .error (.grammar (.stackUnderflow ']')) after ∧ after.segments.size = 1 :=
  ⟨_, by with_unfolding_all rfl, by with_unfolding_all rfl⟩

end Turtle

end Lindenmayer
