import Lindenmayer.Host
import Lindenmayer.Turtle.Generator

/-!
# The turtle

A host that draws. The turtle has a place and a heading, in degrees clockwise from straight up; it
moves forward and records the segment travelled, turns, and saves and restores its pose at brackets.
It also draws random integers for parameters. The random stream is not part of what a reset clears.
-/

namespace Lindenmayer

structure Point where
  x : Float
  y : Float
  deriving DecidableEq

structure Segment where
  start : Point
  finish : Point
  thickness : Float
  deriving DecidableEq

structure Pose where
  position : Point
  rotation : Float
  deriving DecidableEq

def Pose.origin : Pose := ⟨⟨0.0, 0.0⟩, 0.0⟩

/-- The state of a turtle. The pose saved last comes first, the segment drawn first comes first. -/
structure Turtle where
  pose : Pose
  saved : List Pose
  segments : Array Segment
  generator : Generator
  deriving DecidableEq

namespace Turtle

def ofSeed (seed : UInt64) : Turtle := ⟨.origin, [], #[], .ofSeed seed⟩

def radiansPerDegree : Float := 0.017453292519943295

def ahead (pose : Pose) (length : Float) : Point :=
  let radians := pose.rotation * radiansPerDegree
  ⟨pose.position.x + radians.sin * length, pose.position.y + radians.cos * length⟩

def forward (length thickness : Float) (turtle : Turtle) : Turtle :=
  let finish := ahead turtle.pose length
  { turtle with
    pose := { turtle.pose with position := finish }
    segments := turtle.segments.push ⟨turtle.pose.position, finish, thickness⟩ }

def turn (angle : Float) (turtle : Turtle) : Turtle :=
  { turtle with pose := { turtle.pose with rotation := turtle.pose.rotation + angle } }

def randomInteger (min max : Int64) (turtle : Turtle) : Int64 × Turtle :=
  let drawn := turtle.generator.inRange min max
  (drawn.1, { turtle with generator := drawn.2 })

/-- Puts the turtle back to the origin and forgets everything drawn and saved. -/
def reset (turtle : Turtle) : Turtle := ⟨.origin, [], #[], turtle.generator⟩

/-- An opening bracket saves the pose, a closing one takes back the pose saved last. -/
def applyConstant (constant : Char) : EStateM GrammarError Turtle Unit := do
  let turtle ← get
  if constant = '[' then
    set { turtle with saved := turtle.pose :: turtle.saved }
  else if constant = ']' then
    match turtle.saved with
    | [] => throw (.stackUnderflow constant)
    | pose :: saved => set { turtle with pose := pose, saved := saved }
  else
    throw (.unknownConstant constant)

def interpreter : Interpreter Turtle where
  reset := reset
  applyConstant := applyConstant

/-! ## Capabilities -/

/-- Refuses any other number of values than the kinds of a capability ask for. -/
def refuseCount (name : String) (expected : Nat) (args : List Value) :
    EStateM EvaluationError Turtle α :=
  throw (.argumentCountMismatch name.toList expected args.length)

def forwardAction : List Value → EStateM EvaluationError Turtle Unit
  | [length, thickness] => do
      let length ← ofExcept length.asReal
      let thickness ← ofExcept thickness.asReal
      modify (forward length thickness)
  | args => refuseCount "fwd" 2 args

def turnAction : List Value → EStateM EvaluationError Turtle Unit
  | [angle] => do
      let angle ← ofExcept angle.asReal
      modify (turn angle)
  | args => refuseCount "rot" 1 args

def markAction : List Value → EStateM EvaluationError Turtle Unit
  | [_] => pure ()
  | args => refuseCount "L" 1 args

def randomFunction : List Value → EStateM EvaluationError Turtle Value
  | [min, max] => do
      let min ← ofExcept min.asInteger
      let max ← ofExcept max.asInteger
      modifyGet fun turtle =>
        let drawn := turtle.randomInteger min max
        (.number (.integer drawn.1), drawn.2)
  | args => refuseCount "randrange" 2 args

def capabilities : Capabilities Turtle :=
  Capabilities.empty
    |>.withAction "fwd" [.number, .number] forwardAction
    |>.withAction "rot" [.number] turnAction
    |>.withAction "L" [.number] markAction
    |>.withFunction "randrange" [.number, .number] randomFunction

end Turtle

end Lindenmayer
