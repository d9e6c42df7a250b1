import Pipeline.Assembly
import Pipeline.Canonical
import Pipeline.Json.Reader
import Pipeline.Json.Tidy
import Pipeline.Json.Tree
import Pipeline.Literal.Datum
import Pipeline.Main
import Pipeline.Token.Spacing
import Pipeline.Tool.Basic
import Pipeline.WellFormed
import Pipeline.Proofs.Outcome
import Pipeline.Proofs.Progress
import Pipeline.Proofs.Agreement
import Pipeline.Proofs.Loops
import Pipeline.Proofs.Lexeme
import Pipeline.Proofs.Reading
import Pipeline.Proofs.Soundness
import Pipeline.Proofs.Completeness
import Pipeline.Proofs.Recognition
import Pipeline.Proofs.Layout
import Pipeline.Proofs.Spacing
import Pipeline.Proofs.Split
import Pipeline.Proofs.Formatting
import Pipeline.Proofs.Insensitivity
import Pipeline.Proofs.Overlap
import Pipeline.Proofs.Documents
import Pipeline.Proofs.Extent
import Pipeline.Proofs.CanonicalRuns
import Pipeline.Proofs.Failing
import Pipeline.Proofs.ArgumentOrder
import Pipeline.Proofs.TokenPrefix
import Pipeline.Proofs.OrderRule
import Pipeline.Proofs.Viable
import Pipeline.Proofs.Stopping
import Pipeline.Proofs.ErrorPosition
import Pipeline.Proofs.LongestMatch
import Pipeline.Proofs.Decoding
import Pipeline.Proofs.Assembling
import Pipeline.Proofs.Enclosure
import Pipeline.Proofs.Pretty
import Pipeline.Proofs.OutputModes
import Pipeline.Proofs.BrokenLiteral
import Pipeline.Proofs.FailureOrigin
import Pipeline.Proofs.Messages
import Pipeline.Proofs.LineColumn
import Pipeline.Proofs.Quoting
import Pipeline.Proofs.Integers
import Pipeline.Proofs.NegativeIntegers
import Pipeline.Proofs.Truncation
import Pipeline.Proofs.ArgumentAccess
import Pipeline.Proofs.InnerSinks
import Pipeline.Proofs.Detachment
import Pipeline.Proofs.Nesting
