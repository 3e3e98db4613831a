import ClassChart.Batch
import ClassChart.Command.Args
import ClassChart.Command.Inputs
import ClassChart.Command.Program
import ClassChart.Command.Run
import ClassChart.Diagnostic
import ClassChart.Disk
import ClassChart.Disk.Pattern
import ClassChart.Disk.Search
import ClassChart.Extract
import ClassChart.Extract.Facts
import ClassChart.Grammar.Member
import ClassChart.Grammar.Reader
import ClassChart.Grammar.Region
import ClassChart.Grammar.Unit
import ClassChart.Json
import ClassChart.Main
import ClassChart.Model
import ClassChart.Model.Json
import ClassChart.Model.Merge
import ClassChart.Model.TextBox
import ClassChart.Policy
import ClassChart.Proofs.Grammar.Derivation
import ClassChart.Report
import ClassChart.Session
import ClassChart.Settings
import ClassChart.Text.Blank
import ClassChart.Text.Letter
import ClassChart.Text.Numeral
import ClassChart.Text.Range
import ClassChart.Text.Span
import ClassChart.Token
import ClassChart.Token.Lexeme
import ClassChart.Token.Literal
import ClassChart.Token.Stream
import ClassChart.Toml
import ClassChart.Toml.Scalar
import ClassChart.Toml.Value
import ClassChart.Tree
import ClassChart.Tree.Cursor
import ClassChart.Warning
import ClassChart.Proofs.Grammar.Laws
import ClassChart.Proofs.Grammar.Region
import ClassChart.Proofs.Grammar.Member
import ClassChart.Proofs.Grammar.Unit
import ClassChart.Proofs.Grammar.Shape
import ClassChart.Proofs.Model.Merge
import ClassChart.Proofs.Extract.Results
import ClassChart.Proofs.Extract.Parts
import ClassChart.Proofs.Token.Scan
import ClassChart.Proofs.Extract.Total
import ClassChart.Proofs.Extract.Order
import ClassChart.Proofs.Model.Laws
import ClassChart.Proofs.Text.Bytes
import ClassChart.Proofs.Token.Literal
import ClassChart.Proofs.Token.Lookahead
import ClassChart.Proofs.Token.Extent
import ClassChart.Proofs.Token.Run
import ClassChart.Proofs.Tree.Bare
import ClassChart.Proofs.Grammar.Plain
import ClassChart.Proofs.Grammar.Chunks
import ClassChart.Proofs.Extract.Bare
import ClassChart.Proofs.Extract.Opaque
import ClassChart.Proofs.Model.Source
import ClassChart.Proofs.Token.Word
import ClassChart.Proofs.Grammar.Tight
import ClassChart.Proofs.Grammar.Written
import ClassChart.Proofs.Extract.Writable
import ClassChart.Proofs.Extract.RoundTrip
import ClassChart.Proofs.Model.Repetition
import ClassChart.Proofs.Token.Lossless
import ClassChart.Proofs.Extract.Leaves
import ClassChart.Proofs.Extract.Sites
import ClassChart.Proofs.Extract.Policies
import ClassChart.Proofs.Batch
import ClassChart.Proofs.Extract.Braces
import ClassChart.Proofs.Extract.Joined
import ClassChart.Proofs.Token.Quoted
import ClassChart.Proofs.Token.Classes
import ClassChart.Proofs.Token.Spacing
import ClassChart.Proofs.Extract.Spacing
import ClassChart.Proofs.Model.Json
import ClassChart.Proofs.Model.Edits
import ClassChart.Proofs.Disk
import ClassChart.Proofs.Command.Run
import ClassChart.Proofs.Token.Faults
import ClassChart.Proofs.Token.Recovery
import ClassChart.Proofs.Grammar.Viable
import ClassChart.Proofs.Grammar.Blame
import ClassChart.Proofs.Extract.Labels
import ClassChart.Proofs.Extract.Types
import ClassChart.Proofs.Text.Location
import ClassChart.Proofs.Model.TextBox
import ClassChart.Proofs.Token.Restart
import ClassChart.Proofs.Command.Inputs
import ClassChart.Proofs.Tree.Walk
