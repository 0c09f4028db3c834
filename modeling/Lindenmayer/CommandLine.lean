import Lindenmayer.Growth

/-!
# The command line

What the program prints for a grammar file and options: the grown word in grammar notation, or the
segments that draw it, one to a line or as JSON.
-/

namespace Lindenmayer

structure Options where
  /-- How many generations to grow, instead of the number in the description. -/
  iterations : Option UInt64 := none
  /-- Whether to draw the word. -/
  execute : Bool := false
  /-- Whether to write segments as JSON, which draws the word too. -/
  json : Bool := false
  deriving DecidableEq, Repr

namespace Segment

def pointText (point : Point) : Text :=
  '(' :: fixedText 4 point.x ++ ',' :: ' ' :: fixedText 4 point.y ++ [')']

def lineText (segment : Segment) : Text :=
  pointText segment.start ++ " -> ".toList ++ pointText segment.finish ++ " width ".toList ++
    fixedText 4 segment.thickness

/-- A real as a JSON number; a real that is not finite is `null`. -/
def realJson (real : Float) : Json :=
  match RealStyle.json.finite? real with
  | some literal => .number literal
  | none => .null

def pointJson (point : Point) : Json := .array [realJson point.x, realJson point.y]

def toJson (segment : Segment) : Json :=
  .ofMembers [("from", pointJson segment.start), ("to", pointJson segment.finish),
    ("thickness", realJson segment.thickness)]

end Segment

namespace CommandLine

def segmentsText (options : Options) (segments : List Segment) : Text :=
  if options.json then
    (Json.array (segments.map Segment.toJson)).pretty ++ ['\n']
  else
    segments.flatMap fun segment => segment.lineText ++ ['\n']

def run (options : Options) (entropy : UInt64) (file : Text) : Except Failure Text := do
  let description ← (Description.ofText file).mapError .description
  let iterations := options.iterations.getD description.iterations
  if options.execute || options.json then
    let (_, segments) ← description.onTurtle entropy fun system =>
      description.growAndDraw system iterations
    pure (segmentsText options segments.toList)
  else
    let word ← description.onTurtle entropy fun system => description.growWord system iterations
    pure (word.text ++ ['\n'])

end CommandLine

end Lindenmayer
