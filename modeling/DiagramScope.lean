import DiagramScope.Broker
import DiagramScope.Command.Arguments
import DiagramScope.Command.Report
import DiagramScope.Command.Run
import DiagramScope.Customization
import DiagramScope.Decimal.Binary64
import DiagramScope.Decimal.Reading
import DiagramScope.Decimal.Rounding
import DiagramScope.Decimal.Shortest
import DiagramScope.Decimal.Text
import DiagramScope.Document
import DiagramScope.Except
import DiagramScope.Failure
import DiagramScope.Files
import DiagramScope.Hierarchy
import DiagramScope.Main
import DiagramScope.Mask
import DiagramScope.Mask.Codec
import DiagramScope.Matrix
import DiagramScope.Node
import DiagramScope.OrderedMap
import DiagramScope.Proofs.Broker
import DiagramScope.Proofs.Broker.Coincidence
import DiagramScope.Proofs.Broker.History
import DiagramScope.Proofs.Broker.Lending
import DiagramScope.Proofs.Broker.Provenance
import DiagramScope.Proofs.Command.Agreement
import DiagramScope.Proofs.Customization.Context
import DiagramScope.Proofs.Customization.Editing
import DiagramScope.Proofs.Customization.Insertion
import DiagramScope.Proofs.Customization.Moves
import DiagramScope.Proofs.Customization.Opening
import DiagramScope.Proofs.Customization.Rows
import DiagramScope.Proofs.Decimal.RoundTrip
import DiagramScope.Proofs.Decimal.Rounding
import DiagramScope.Proofs.Decimal.Shortest
import DiagramScope.Proofs.Decimal.Word
import DiagramScope.Proofs.Document
import DiagramScope.Proofs.Hierarchy
import DiagramScope.Proofs.Hierarchy.Walk
import DiagramScope.Proofs.Mask.Codec
import DiagramScope.Proofs.Mask.Decoding
import DiagramScope.Proofs.Mask.Domain
import DiagramScope.Proofs.Mask.Orientation
import DiagramScope.Proofs.Matrix
import DiagramScope.Proofs.Matrix.Words
import DiagramScope.Proofs.OrderedMap
import DiagramScope.Proofs.Resolution.Isolation
import DiagramScope.Proofs.Resolution.Rewriting
import DiagramScope.Proofs.Resolution.Scoping
import DiagramScope.Proofs.Script.Evaluation.Batches
import DiagramScope.Proofs.Script.Evaluation.Canonical
import DiagramScope.Proofs.Script.Evaluation.Copying
import DiagramScope.Proofs.Script.Evaluation.Elementwise
import DiagramScope.Proofs.Script.Evaluation.Layers
import DiagramScope.Proofs.Script.Evaluation.Locality
import DiagramScope.Proofs.Script.Evaluation.Naming
import DiagramScope.Proofs.Script.Evaluation.Placement
import DiagramScope.Proofs.Script.Evaluation.Preservation
import DiagramScope.Proofs.Script.Evaluation.Spanned
import DiagramScope.Proofs.Script.Evaluation.Vectors
import DiagramScope.Proofs.Script.Labels
import DiagramScope.Proofs.Script.Lines
import DiagramScope.Proofs.Script.Parser.Completeness
import DiagramScope.Proofs.Script.Parser.Discipline
import DiagramScope.Proofs.Script.Parser.Faults
import DiagramScope.Proofs.Script.Parser.Levels
import DiagramScope.Proofs.Script.Parser.Lines
import DiagramScope.Proofs.Script.Parser.Longest
import DiagramScope.Proofs.Script.Parser.Lookahead
import DiagramScope.Proofs.Script.Parser.Nesting
import DiagramScope.Proofs.Script.Parser.Origin
import DiagramScope.Proofs.Script.Parser.Settling
import DiagramScope.Proofs.Script.Parser.Soundness
import DiagramScope.Proofs.Script.Shift
import DiagramScope.Proofs.Script.Spans
import DiagramScope.Proofs.Script.Syntax.Grammar
import DiagramScope.Proofs.Script.Syntax.Path
import DiagramScope.Proofs.Script.Syntax.Spelling
import DiagramScope.Proofs.Script.Syntax.Standing
import DiagramScope.Proofs.Script.Syntax.Viable
import DiagramScope.Proofs.Script.Token.Cutting
import DiagramScope.Proofs.Script.Token.Lines
import DiagramScope.Proofs.Script.Token.Quoting
import DiagramScope.Proofs.Script.Token.Reading
import DiagramScope.Proofs.Script.Token.Tiling
import DiagramScope.Proofs.Script.Value.Assignment
import DiagramScope.Proofs.Script.Value.Copy
import DiagramScope.Proofs.Script.Value.Display
import DiagramScope.Proofs.Script.Value.Number
import DiagramScope.Proofs.Store
import DiagramScope.Proofs.Store.History
import DiagramScope.Resolution
import DiagramScope.Script.Arithmetic
import DiagramScope.Script.Builtin
import DiagramScope.Script.Diagnostic
import DiagramScope.Script.Evaluation
import DiagramScope.Script.Evaluation.Fault
import DiagramScope.Script.Interpreter
import DiagramScope.Script.Span
import DiagramScope.Script.Syntax
import DiagramScope.Script.Syntax.Parser
import DiagramScope.Script.Token
import DiagramScope.Script.Token.Lexer
import DiagramScope.Script.Value
import DiagramScope.Session
import DiagramScope.Settings
import DiagramScope.Store
import DiagramScope.Text.Blank
import DiagramScope.Text.Quoted
import DiagramScope.Text.Similarity
import DiagramScope.Text.Width
import DiagramScope.Toml.Decode
import DiagramScope.Toml.Reader
import DiagramScope.Toml.Scalar
import DiagramScope.Toml.Value
import DiagramScope.Wire
import DiagramScope.Wire.Text
