import HandlerScript.Main
import HandlerScript.Proofs.Grammar
import HandlerScript.Proofs.Boundary
import HandlerScript.Proofs.NumeralText
import HandlerScript.Proofs.QuotedText
import HandlerScript.Proofs.Reading
import HandlerScript.Proofs.Choice
import HandlerScript.Proofs.Breaks
import HandlerScript.Proofs.Outcome
import HandlerScript.Proofs.Acceptance
import HandlerScript.Proofs.Compiling
import HandlerScript.Proofs.Completion
import HandlerScript.Proofs.ViablePrefix
import HandlerScript.Proofs.Number.Nearest
import HandlerScript.Proofs.Number.Exact
import HandlerScript.Proofs.Number.Text
import HandlerScript.Proofs.Relocation
import HandlerScript.Proofs.Checked
import HandlerScript.Proofs.Printable
import HandlerScript.Proofs.Printing
import HandlerScript.Proofs.RoundTrip
import HandlerScript.Proofs.FirstDefect
import HandlerScript.Proofs.Lossless
import HandlerScript.Proofs.ByteOffset
import HandlerScript.Proofs.Spans
import HandlerScript.Proofs.Attribution
import HandlerScript.Proofs.Passage
import HandlerScript.Proofs.Extension
import HandlerScript.Proofs.Concatenation
import HandlerScript.Proofs.Slots
import HandlerScript.Proofs.DeclarationOrder
import HandlerScript.Proofs.Forest
import HandlerScript.Proofs.Spacing
import HandlerScript.Proofs.Json.Grammar
import HandlerScript.Proofs.Json.Reading
import HandlerScript.Proofs.Labels
import HandlerScript.Proofs.Json.Writing
import HandlerScript.Proofs.Encoded
import HandlerScript.Proofs.LookAhead
import HandlerScript.Proofs.ByteRange
import HandlerScript.Proofs.ExprSpans
import HandlerScript.Proofs.Json.Layout
import HandlerScript.Proofs.Arguments
import HandlerScript.Proofs.CommandLine
import HandlerScript.Proofs.EditDistance
import HandlerScript.Proofs.Suggestions
import HandlerScript.Proofs.Number.Correct
import HandlerScript.Proofs.LiteralValues
import HandlerScript.Proofs.Advance
import HandlerScript.Proofs.Progress
