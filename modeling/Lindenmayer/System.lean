import Lindenmayer.Generation
import Lindenmayer.Word.Parsing

/-!
# Systems

A system is an alphabet together with a host. It grows a word from a start string, generation by
generation, and replays a word on its host symbol by symbol. The host may keep state through both,
since functions in parameters are run while a word grows.
-/

namespace Lindenmayer

/-- A Lindenmayer system on hosts of state `σ`. -/
structure System (σ : Type) where
  alphabet : Alphabet
  capabilities : Capabilities σ
  interpreter : Interpreter σ
  /-- The greatest length that a generation may have. -/
  limit : Option Nat := none

def Alphabet.readRules (alphabet : Alphabet) (rules : List (Text × Text)) :
    Except ParseError (List Rule) :=
  rules.mapM fun (predecessor, successor) => do
    let predecessor ← alphabet.readWord predecessor
    let successor ← alphabet.readWord successor
    pure ⟨predecessor, successor⟩

namespace System

def scope (system : System σ) : Scope σ := ⟨system.alphabet.functionNames, system.capabilities⟩

/-! ## Growth -/

def checkLimit (system : System σ) (generation : Nat) (word : Word) : Except GrammarError Unit :=
  match system.limit with
  | none => .ok ()
  | some limit =>
      if limit < word.length then
        .error (.expansionLimit limit generation word.length)
      else
        .ok ()

/-- Grows a word for a number of generations, the first of which has the number `generation`. -/
def growFrom (system : System σ) (rules : List Rule) (generation : Nat) :
    (generations : Nat) → Word → Effect σ Word
  | 0, word => pure word
  | generations + 1, word => do
      let next ← system.scope.nextGeneration rules word
      Effect.ofExcept .grammar (system.checkLimit generation next)
      growFrom system rules (generation + 1) generations next

/-- Grows the word that `start` denotes. The rules are read before it. -/
def build (system : System σ) (start : Text) (rules : List (Text × Text)) (iterations : Nat) :
    Effect σ Word := do
  let rules ← Effect.ofExcept .parse (system.alphabet.readRules rules)
  let word ← Effect.ofExcept .parse (system.alphabet.readWord start)
  system.growFrom rules 1 iterations word

def evaluate (system : System σ) (text : Text) : Effect σ Text := system.scope.evaluate text

/-! ## Replay -/

/-- Lets a symbol act on the host: a constant through the interpreter, a variable through the action
of its name. A variable without an action does nothing; any other symbol is refused. -/
def dispatch (system : System σ) (symbol : Symbol) : Effect σ Unit :=
  match system.alphabet.constantOf? symbol.name with
  | some constant => Effect.ofHost .grammar (system.interpreter.applyConstant constant)
  | none =>
      if system.alphabet.isVariable symbol.name then
        match system.capabilities.action? symbol.name with
        | none => pure ()
        | some action =>
            if action.accepts symbol.arity then
              action.call (symbol.args.getD [])
            else
              throw (.grammar (.arityMismatch symbol.name action.kinds.length symbol.arity))
      else
        throw (.grammar (.notAVariable symbol.name))

/-- Resets the host and lets the symbols of a word act on it, up to the first that is refused. -/
def execute (system : System σ) (word : Word) : Effect σ Unit := do
  modify system.interpreter.reset
  word.forM system.dispatch

end System

end Lindenmayer
