import Lindenmayer.CommandLine
import Lindenmayer.Main
import Lindenmayer.Proofs.Decimal.Numeral
import Lindenmayer.Proofs.Formula.Layout
import Lindenmayer.Proofs.Formula.Parsing
import Lindenmayer.Proofs.Text.Substitution
import Lindenmayer.Proofs.Formula.Grafting
import Lindenmayer.Proofs.Formula.Substitution
import Lindenmayer.Proofs.Word.Nesting
import Lindenmayer.Proofs.Generation
import Lindenmayer.Proofs.System
import Lindenmayer.Proofs.Turtle.Drawing
import Lindenmayer.Proofs.Text.Call
import Lindenmayer.Proofs.Text.Balance
import Lindenmayer.Proofs.Expression.CallTree
import Lindenmayer.Proofs.Expression.Recording
import Lindenmayer.Proofs.Word.Notation
import Lindenmayer.Proofs.Closure
import Lindenmayer.Proofs.Generation.Cut
import Lindenmayer.Proofs.System.Shape
import Lindenmayer.Proofs.Decimal.Writing
import Lindenmayer.Proofs.Generation.Literals
import Lindenmayer.Proofs.Turtle.Resumption
import Lindenmayer.Proofs.System.Limit
import Lindenmayer.Proofs.System.ContextFree
import Lindenmayer.Proofs.Turtle.Session
import Lindenmayer.Proofs.Formula.Splicing
import Lindenmayer.Proofs.Expression.Atoms
import Lindenmayer.Proofs.Turtle.Branch
import Lindenmayer.Proofs.Turtle.Connection
import Lindenmayer.Proofs.Expression.Numerals
import Lindenmayer.Proofs.Json
import Lindenmayer.Proofs.Description
import Lindenmayer.Proofs.Formula.Parts
import Lindenmayer.Proofs.Formula.Exactness
import Lindenmayer.Proofs.Real.Finiteness
import Lindenmayer.Proofs.Formula.Finiteness
import Lindenmayer.Proofs.Expression.Finiteness
import Lindenmayer.Proofs.Formula.Acceptance
import Lindenmayer.Proofs.Formula.Neighbours
import Lindenmayer.Proofs.Expression.Neighbours
import Lindenmayer.Proofs.Value
import Lindenmayer.Proofs.Formula.Pieces
import Lindenmayer.Proofs.Formula.Padding
import Lindenmayer.Proofs.Expression.Padding
import Lindenmayer.Proofs.Formula.Enclosure
import Lindenmayer.Proofs.Expression.TextParameter
import Lindenmayer.Proofs.System.TextParameter
import Lindenmayer.Proofs.Text.Segments
import Lindenmayer.Proofs.Word.Reading
import Lindenmayer.Proofs.Text.CallSpan
import Lindenmayer.Proofs.Turtle.Refusal
import Lindenmayer.Proofs.Text.Composition
import Lindenmayer.Proofs.Formula.Viability
import Lindenmayer.Proofs.Formula.Spacing
import Lindenmayer.Proofs.System.Shadowing
import Lindenmayer.Proofs.Turtle.RandomInteger
import Lindenmayer.Proofs.Text.Interior
import Lindenmayer.Proofs.Expression.Attempt
import Lindenmayer.Proofs.Text.Depth
import Lindenmayer.Proofs.Expression.Interior
import Lindenmayer.Proofs.Expression.Depth
