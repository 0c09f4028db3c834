import Lindenmayer.Description
import Lindenmayer.System
import Lindenmayer.Turtle

/-!
# Growing a description

A description grows on a turtle: the word is grown from the start string and then drawn.
-/

namespace Lindenmayer

/-- Why a description does not grow: it is none, or growing or drawing fails. -/
inductive Failure where
  | description (error : DescriptionError)
  | growth (error : Error)
  deriving DecidableEq, Repr

def Failure.message : Failure → String
  | description error => error.message
  | growth error => error.message

namespace Description

def turtleSystem (description : Description) : Except DescriptionError (System Turtle) := do
  let alphabet ← description.alphabet
  pure ⟨alphabet, Turtle.capabilities, Turtle.interpreter, description.maxTokens.map UInt64.toNat⟩

/-- A new turtle. Without a seed in the description its random integers come from `entropy`. -/
def turtle (description : Description) (entropy : UInt64) : Turtle :=
  .ofSeed (description.seed.getD entropy)

def growWord (description : Description) (system : System Turtle) (iterations : UInt64) :
    Effect Turtle Word :=
  system.build description.start description.rules iterations.toNat

def growAndDraw (description : Description) (system : System Turtle) (iterations : UInt64) :
    Effect Turtle (Word × Array Segment) := do
  let word ← description.growWord system iterations
  system.execute word
  let turtle ← get
  pure (word, turtle.segments)

def onTurtle (description : Description) (entropy : UInt64)
    (run : System Turtle → Effect Turtle α) : Except Failure α :=
  match description.turtleSystem with
  | .error error => .error (.description error)
  | .ok system =>
      match (run system).run (description.turtle entropy) with
      | .ok a _ => .ok a
      | .error error _ => .error (.growth error)

def grow (description : Description) (entropy : UInt64) : Except Failure (Word × Array Segment) :=
  description.onTurtle entropy fun system =>
    description.growAndDraw system description.iterations

end Description

end Lindenmayer
