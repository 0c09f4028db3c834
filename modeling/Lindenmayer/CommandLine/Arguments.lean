import Lindenmayer.CommandLine

/-!
# Arguments

The arguments of the program: one grammar file and options, in any order. Long options start with
two hyphens and take a value after an equals sign or as the next argument; short ones start with one
hyphen and can be written together. Behind a bare `--` nothing is an option.
-/

namespace Lindenmayer

structure Arguments where
  path : Option Text := none
  options : Options := {}

inductive ArgumentError where
  | missingPath
  | surplus (argument : Text)
  | unknown (option : Text)
  | repeated (option : Text)
  | missingValue (option : Text)
  | unexpectedValue (option : Text)
  | invalidNumber (value : Text)
  deriving DecidableEq, Repr

def ArgumentError.message : ArgumentError → String
  | missingPath => "error: a grammar file is required"
  | surplus argument => s!"error: unexpected argument '{argument.toString}'"
  | unknown option => s!"error: unknown option '{option.toString}'"
  | repeated option => s!"error: option '{option.toString}' is given more than once"
  | missingValue option => s!"error: option '{option.toString}' needs a value"
  | unexpectedValue option => s!"error: option '{option.toString}' takes no value"
  | invalidNumber value => s!"error: '{value.toString}' is not a number of generations"

namespace Arguments

/-- Reads an unsigned 64-bit number, which may have a plus sign. -/
def readCount (value : Text) : Except ArgumentError UInt64 :=
  let digits := if ['+'] <+: value then value.tail else value
  match uint64OfDigits? digits with
  | some count => .ok count
  | none => .error (.invalidNumber value)

def setPath (path : Text) (arguments : Arguments) : Except ArgumentError Arguments :=
  match arguments.path with
  | none => .ok { arguments with path := some path }
  | some _ => .error (.surplus path)

def setIterations (option value : Text) (arguments : Arguments) :
    Except ArgumentError Arguments := do
  let count ← readCount value
  if arguments.options.iterations.isSome then
    throw (.repeated option)
  pure { arguments with options := { arguments.options with iterations := some count } }

/-- Sets an option that takes no value. Verbosity concerns the log, and none is written. -/
def setFlag (option : Text) (arguments : Arguments) : Except ArgumentError Arguments :=
  let options := arguments.options
  if option = "--execute".toList ∨ option = "-e".toList then
    if options.execute then .error (.repeated option)
    else .ok { arguments with options := { options with execute := true } }
  else if option = "--json".toList ∨ option = "-j".toList then
    if options.json then .error (.repeated option)
    else .ok { arguments with options := { options with json := true } }
  else if option = "--verbose".toList ∨ option = "-v".toList then
    .ok arguments
  else
    .error (.unknown option)

def takesValue (option : Text) : Bool :=
  option = "--iterations".toList || option = "-i".toList

/-- Reads short options that are written together. What follows the one that takes a value is the
value; if nothing follows, the value is still to come. -/
def readShort (arguments : Arguments) : Text → Except ArgumentError (Arguments × Option Text)
  | [] => .ok (arguments, none)
  | c :: rest =>
      let option := ['-', c]
      if takesValue option then
        if rest = [] then
          .ok (arguments, some option)
        else
          let value := if ['='] <+: rest then rest.tail else rest
          (arguments.setIterations option value).map fun arguments => (arguments, none)
      else do
        let arguments ← arguments.setFlag option
        arguments.readShort rest

/-- Reads a long option, with the value behind its equals sign. The value may be still to come. -/
def readLong (arguments : Arguments) (argument : Text) :
    Except ArgumentError (Arguments × Option Text) :=
  let option := argument.takeWhile (· ≠ '=')
  match argument.dropWhile (· ≠ '='), takesValue option with
  | _ :: value, true =>
      (arguments.setIterations option value).map fun arguments => (arguments, none)
  | [], true => .ok (arguments, some option)
  | _ :: _, false => .error (.unexpectedValue option)
  | [], false => (arguments.setFlag option).map fun arguments => (arguments, none)

def readFrom (arguments : Arguments) : List Text → Except ArgumentError Arguments
  | [] => .ok arguments
  | argument :: following =>
      if argument = "--".toList then
        following.foldlM (fun arguments path => arguments.setPath path) arguments
      else
        let read :=
          match argument with
          | '-' :: '-' :: _ => arguments.readLong argument
          | '-' :: c :: letters => arguments.readShort (c :: letters)
          | _ => (arguments.setPath argument).map fun arguments => (arguments, none)
        match read, following with
        | .error error, _ => .error error
        | .ok (arguments, none), following => arguments.readFrom following
        | .ok (_, some option), [] => .error (.missingValue option)
        | .ok (arguments, some option), value :: following =>
            match arguments.setIterations option value with
            | .error error => .error error
            | .ok arguments => arguments.readFrom following

def read (arguments : List Text) : Except ArgumentError (Text × Options) := do
  let arguments ← readFrom {} arguments
  match arguments.path with
  | none => throw .missingPath
  | some path => pure (path, arguments.options)

end Arguments

end Lindenmayer
