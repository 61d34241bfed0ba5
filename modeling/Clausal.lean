import Clausal.Assoc
import Clausal.Bounded
import Clausal.Build
import Clausal.Builtin
import Clausal.Check
import Clausal.CommandLine
import Clausal.CommandLine.Command
import Clausal.CommandLine.Switch
import Clausal.Compile
import Clausal.Config
import Clausal.Decimal
import Clausal.Decimal.Shortest
import Clausal.Diagnostic
import Clausal.Diagnostic.Render
import Clausal.Dispatch
import Clausal.Fault
import Clausal.FileTree
import Clausal.FileTree.Node
import Clausal.Highlight
import Clausal.Highlight.Source
import Clausal.Highlight.Wat
import Clausal.Journal
import Clausal.Log
import Clausal.Lower
import Clausal.Main
import Clausal.Path
import Clausal.Program
import Clausal.Program.Grammar
import Clausal.Program.Outline
import Clausal.Proofs.Check.Steps
import Clausal.Proofs.Outcome
import Clausal.Proofs.Typing
import Clausal.Scaffold
import Clausal.Sexp
import Clausal.Sexp.Datum
import Clausal.Span
import Clausal.Text.Blank
import Clausal.Text.Class
import Clausal.Text.Escapes
import Clausal.Text.Lines
import Clausal.Text.Numeral
import Clausal.Text.Printable
import Clausal.Text.Quoted
import Clausal.Text.Run
import Clausal.Text.Word
import Clausal.Token
import Clausal.Token.Scan
import Clausal.Toml
import Clausal.Toml.Document
import Clausal.Toml.Draft
import Clausal.Toml.Scalar
import Clausal.Toml.Text
import Clausal.Tool
import Clausal.Ty
import Clausal.Wasm
import Clausal.Workspace
import Clausal.Proofs.Check.Register
import Clausal.Proofs.Check.Sound
import Clausal.Proofs.Check.Complete
import Clausal.Proofs.Emit.Code
import Clausal.Proofs.Emit.WellTyped
import Clausal.Proofs.Semantics.Basic
import Clausal.Proofs.Semantics.Source
import Clausal.Proofs.Semantics.Machine
import Clausal.Proofs.Emit.Meaning
import Clausal.Proofs.Emit.Coverage
import Clausal.Proofs.Check.Walk
import Clausal.Proofs.Order
import Clausal.Proofs.Grammar.Derivation
import Clausal.Proofs.Token.Words
import Clausal.Proofs.Grammar.Sound
import Clausal.Proofs.Grammar.Complete
import Clausal.Proofs.Grammar.Printing
import Clausal.Proofs.Check.Stops
import Clausal.Proofs.Check.Unused
import Clausal.Proofs.Bounded
import Clausal.Proofs.Failures
import Clausal.Proofs.Emit.Text
import Clausal.Proofs.Emit.Agreement
import Clausal.Proofs.Check.Cycles
import Clausal.Proofs.Check.Operations
import Clausal.Proofs.Wasm.Reading
import Clausal.Proofs.Wasm.Printing
import Clausal.Proofs.FileTree.Change
import Clausal.Proofs.Build
import Clausal.Proofs.Check.Replay
import Clausal.Proofs.Insertion
import Clausal.Proofs.Token.Account
import Clausal.Proofs.Grammar.Local
import Clausal.Proofs.Grammar.Sealed
import Clausal.Proofs.Token.Step
import Clausal.Proofs.Grammar.Compose
import Clausal.Proofs.Emit.Constants
import Clausal.Proofs.Emit.Spine
import Clausal.Proofs.Emit.Selection
import Clausal.Proofs.Emit.Account
import Clausal.Proofs.Check.Depth
import Clausal.Proofs.Check.Once
import Clausal.Proofs.Grammar.Segments
import Clausal.Proofs.Diagnostic.Carets
import Clausal.Proofs.Token.Respacing
import Clausal.Proofs.Check.Places
import Clausal.Proofs.Diagnostic.Excerpts
import Clausal.Proofs.Scaffold
import Clausal.Proofs.Grammar.Rows
import Clausal.Proofs.Grammar.EndOfFile
