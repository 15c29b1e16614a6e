import Sexpr.Arguments.Arity
import Sexpr.Arguments.Fault
import Sexpr.Arguments.Match
import Sexpr.Arguments.Tail
import Sexpr.Decode
import Sexpr.Decode.Custom
import Sexpr.Decode.Subject
import Sexpr.Decode.Untyped
import Sexpr.Eval
import Sexpr.Eval.Arithmetic
import Sexpr.Eval.Call
import Sexpr.Eval.Interpolation
import Sexpr.Eval.Modules
import Sexpr.Expr
import Sexpr.Expr.Depth
import Sexpr.Expr.Edit
import Sexpr.Expr.Equality
import Sexpr.Expr.Inspect
import Sexpr.Failure
import Sexpr.Load
import Sexpr.Load.Encoding
import Sexpr.Mark
import Sexpr.Number.Binary64
import Sexpr.Number.Numeral
import Sexpr.Number.Shortest
import Sexpr.Print
import Sexpr.Print.Encode
import Sexpr.Print.Layout
import Sexpr.Print.Source
import Sexpr.Proofs.Acceptance
import Sexpr.Proofs.BareTexts
import Sexpr.Proofs.Blocks
import Sexpr.Proofs.CallArguments
import Sexpr.Proofs.CallBinding
import Sexpr.Proofs.CallTraces
import Sexpr.Proofs.Canonical
import Sexpr.Proofs.Characters
import Sexpr.Proofs.Concatenation
import Sexpr.Proofs.ConciseText
import Sexpr.Proofs.Continuation
import Sexpr.Proofs.Coordinates
import Sexpr.Proofs.Counts
import Sexpr.Proofs.CursorRuns
import Sexpr.Proofs.Cuts
import Sexpr.Proofs.DecodeFaults
import Sexpr.Proofs.Decoding
import Sexpr.Proofs.Editing
import Sexpr.Proofs.EndOfText
import Sexpr.Proofs.EscapedTexts
import Sexpr.Proofs.ExactNumbers
import Sexpr.Proofs.Exhaustive
import Sexpr.Proofs.FaithfulCalls
import Sexpr.Proofs.Folding
import Sexpr.Proofs.Formatting
import Sexpr.Proofs.Indentation
import Sexpr.Proofs.Inhabitants
import Sexpr.Proofs.KeptFailures
import Sexpr.Proofs.LeadingValues
import Sexpr.Proofs.Lossless
import Sexpr.Proofs.Misreading
import Sexpr.Proofs.NumberForms
import Sexpr.Proofs.Numerals
import Sexpr.Proofs.OmittedFields
import Sexpr.Proofs.ParseFaults
import Sexpr.Proofs.Parts
import Sexpr.Proofs.Patterns
import Sexpr.Proofs.PlainValues
import Sexpr.Proofs.PositionalFields
import Sexpr.Proofs.PrintedRecords
import Sexpr.Proofs.Productions
import Sexpr.Proofs.RawStrings
import Sexpr.Proofs.Readable
import Sexpr.Proofs.ReadsBack
import Sexpr.Proofs.RealText
import Sexpr.Proofs.RecordGroups
import Sexpr.Proofs.Reformatting
import Sexpr.Proofs.Relabelling
import Sexpr.Proofs.Rendering
import Sexpr.Proofs.Replacing
import Sexpr.Proofs.RoundTrip
import Sexpr.Proofs.Rounding
import Sexpr.Proofs.Routing
import Sexpr.Proofs.ScanFaults
import Sexpr.Proofs.Scanners
import Sexpr.Proofs.SearchSteps
import Sexpr.Proofs.SearchTree
import Sexpr.Proofs.Segmentation
import Sexpr.Proofs.Sequencing
import Sexpr.Proofs.ShortestDecimal
import Sexpr.Proofs.Slicing
import Sexpr.Proofs.Sourced
import Sexpr.Proofs.SpanIndependence
import Sexpr.Proofs.Spelling
import Sexpr.Proofs.Strings
import Sexpr.Proofs.TextContainers
import Sexpr.Proofs.TextLayout
import Sexpr.Proofs.TextReading
import Sexpr.Proofs.TracedReading
import Sexpr.Proofs.Unbroken
import Sexpr.Proofs.Unions
import Sexpr.Proofs.Uniqueness
import Sexpr.Proofs.Verbatim
import Sexpr.Proofs.Writing
import Sexpr.Reader.Fault
import Sexpr.Reader.Grammar
import Sexpr.Reader.Lexeme
import Sexpr.Reader.Traced
import Sexpr.Schema.Record
import Sexpr.Schema.Tag
import Sexpr.Schema.Target
import Sexpr.Source.Cursor
import Sexpr.Source.Span
import Sexpr.Text.Alphanumeric
import Sexpr.Text.Digit
import Sexpr.Text.Inspect
import Sexpr.Text.Lines
import Sexpr.Text.LowerCase
import Sexpr.Text.Printable
import Sexpr.Text.Runs
import Sexpr.Text.Space
import Sexpr.Trace
import Sexpr.Value
