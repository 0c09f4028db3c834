import Lindenmayer.Value

/-!
# Hosts

A host is what a grammar acts on: a state of some type `σ`, together with what symbols do to it.
Named capabilities back the variables and functions of an alphabet, and an interpreter backs its
constants. Parameters reach a capability as texts and are coerced to the kinds that it declares.
-/

namespace Lindenmayer

/-! ## Effects -/

/-- A computation on a host of state `σ`. The state that a failing one has reached is kept. -/
abbrev Effect (σ : Type) := EStateM Error σ

namespace Effect

def ofExcept (wrap : ε → Error) : Except ε α → Effect σ α
  | .ok a => pure a
  | .error e => throw (wrap e)

def ofHost (wrap : ε → Error) (run : EStateM ε σ α) : Effect σ α := run.adaptExcept wrap

end Effect

/-! ## Capabilities -/

/-- What a capability makes of an argument. -/
inductive ParamKind where
  /-- The argument is read as a number. -/
  | number
  /-- The argument is taken as it is. -/
  | text
  deriving DecidableEq, Repr

def ParamKind.coerce (kind : ParamKind) (arg : Text) : Except EvaluationError Value :=
  match kind with
  | text => .ok (.text arg)
  | number =>
      match Number.ofText? arg with
      | some n => .ok (.number n)
      | none =>
          .error (.invalidArgument ("expected a number, found '".toList ++ arg.trim ++ ['\'']))

/-- A named operation of a host with the kinds of its parameters. `run` is given one value for each
kind. -/
structure Capability (σ α : Type) where
  kinds : List ParamKind
  run : List Value → EStateM EvaluationError σ α

namespace Capability

def accepts (capability : Capability σ α) (found : Nat) : Bool := capability.kinds.length = found

/-- Coerces the arguments from left to right, up to the first that cannot be. -/
def coerceAll (capability : Capability σ α) (args : List Text) :
    Except EvaluationError (List Value) :=
  (capability.kinds.zip args).mapM fun (kind, arg) => kind.coerce arg

def call (capability : Capability σ α) (args : List Text) : Effect σ α := do
  let values ← Effect.ofExcept .evaluation (capability.coerceAll args)
  Effect.ofHost .evaluation (capability.run values)

end Capability

/-- The named operations of a host: actions for variables, functions for use inside parameters. Of
several operations of one name, the one registered last counts. -/
structure Capabilities (σ : Type) where
  actions : List (Text × Capability σ Unit)
  functions : List (Text × Capability σ Value)

namespace Capabilities

def empty : Capabilities σ := ⟨[], []⟩

def withAction (table : Capabilities σ) (name : String) (kinds : List ParamKind)
    (run : List Value → EStateM EvaluationError σ Unit) : Capabilities σ :=
  { table with actions := (name.toList, ⟨kinds, run⟩) :: table.actions }

def withFunction (table : Capabilities σ) (name : String) (kinds : List ParamKind)
    (run : List Value → EStateM EvaluationError σ Value) : Capabilities σ :=
  { table with functions := (name.toList, ⟨kinds, run⟩) :: table.functions }

def action? (table : Capabilities σ) (name : Text) : Option (Capability σ Unit) :=
  table.actions.lookup name

def function? (table : Capabilities σ) (name : Text) : Option (Capability σ Value) :=
  table.functions.lookup name

end Capabilities

/-! ## Interpreters -/

/-- How a host starts afresh and what constants do to it. By default a host knows no constants. -/
structure Interpreter (σ : Type) where
  reset : σ → σ
  applyConstant : Char → EStateM GrammarError σ Unit := fun c => throw (.unknownConstant c)

end Lindenmayer
