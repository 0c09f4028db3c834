import Lindenmayer.CommandLine.Arguments

/-!
# The program

Reads the grammar file, runs the command line on it, and prints what it gives. The exit status is
one if that fails, and two if the arguments are refused.
-/

namespace Lindenmayer

def reasonText : IO.Error → String
  | .noFileOrDirectory _ _ _ => "No such file or directory (os error 2)"
  | .permissionDenied _ _ _ => "Permission denied (os error 13)"
  | .inappropriateType _ _ _ => "Is a directory (os error 21)"
  | error => error.toString

def readText (path : String) : IO (Except String Text) := do
  try
    let bytes ← IO.FS.readBinFile path
    match String.fromUTF8? bytes with
    | some content => pure (.ok content.toList)
    | none => pure (.error "stream did not contain valid UTF-8")
  catch error =>
    pure (.error (reasonText error))

def readEntropy : IO UInt64 := do
  let bytes ← IO.getRandomBytes 8
  pure (bytes.foldl (fun number byte => number * 256 + byte.toUInt64) 0)

def runOn (path : String) (options : Options) : IO (Except Failure Text) := do
  match ← readText path with
  | .error reason => pure (.error (.description (.unreadable path reason)))
  | .ok file => pure (CommandLine.run options (← readEntropy) file)

def runProgram (arguments : List Text) : IO UInt32 := do
  match Arguments.read arguments with
  | .error error =>
      IO.eprintln error.message
      pure 2
  | .ok (path, options) =>
      match ← runOn path.toString options with
      | .error failure =>
          IO.eprintln failure.message
          pure 1
      | .ok output =>
          IO.print output.toString
          pure 0

end Lindenmayer

def main (arguments : List String) : IO UInt32 :=
  Lindenmayer.runProgram (arguments.map String.toList)
