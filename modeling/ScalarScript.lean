import ScalarScript.Binding
import ScalarScript.Builtin
import ScalarScript.CommandLine.Command
import ScalarScript.CommandLine.Config
import ScalarScript.CommandLine.Execute
import ScalarScript.CommandLine.Flag
import ScalarScript.CommandLine.Setting
import ScalarScript.Compile.Expression
import ScalarScript.Compile.Fault
import ScalarScript.Compile.State
import ScalarScript.Compile.Statement
import ScalarScript.Diagnostic.Code
import ScalarScript.Diagnostic.Failure
import ScalarScript.Diagnostic.Report
import ScalarScript.Diagnostic.Suggestion
import ScalarScript.Document.Assignments
import ScalarScript.Document.Datum
import ScalarScript.Document.Json
import ScalarScript.Document.Moment
import ScalarScript.Document.Toml.Contents
import ScalarScript.Document.Toml.Quoted
import ScalarScript.Document.Toml.Scalar
import ScalarScript.Document.Toml.Statement
import ScalarScript.Document.Yaml.Contents
import ScalarScript.Document.Yaml.Cursor
import ScalarScript.Document.Yaml.Node
import ScalarScript.Document.Yaml.Property
import ScalarScript.Document.Yaml.Scalar
import ScalarScript.Document.Yaml.Scanner
import ScalarScript.Document.Yaml.Tag
import ScalarScript.Files.Access
import ScalarScript.Files.Folder
import ScalarScript.Files.Wildcard
import ScalarScript.Link
import ScalarScript.Log
import ScalarScript.Machine.Core
import ScalarScript.Machine.Fault
import ScalarScript.Machine.Host
import ScalarScript.Machine.Observer
import ScalarScript.Machine.Run
import ScalarScript.Machine.State
import ScalarScript.Machine.Step
import ScalarScript.Main
import ScalarScript.Number.Arithmetic
import ScalarScript.Number.Binary
import ScalarScript.Number.Integer
import ScalarScript.Number.Numeral
import ScalarScript.Number.Shortest
import ScalarScript.Opcode
import ScalarScript.Peephole.Liveness
import ScalarScript.Peephole.Optimize
import ScalarScript.Peephole.Rule
import ScalarScript.Program.Basic
import ScalarScript.Program.Instruction
import ScalarScript.Program.Listing
import ScalarScript.Program.Operand
import ScalarScript.Scope.Chain
import ScalarScript.Scope.Tree
import ScalarScript.Script
import ScalarScript.ScriptTest.Directive
import ScalarScript.ScriptTest.Journal
import ScalarScript.ScriptTest.Report
import ScalarScript.ScriptTest.Suite
import ScalarScript.ScriptTest.Trial
import ScalarScript.Text.Base64
import ScalarScript.Text.Blank
import ScalarScript.Text.CodeSet
import ScalarScript.Text.Cut
import ScalarScript.Text.Json
import ScalarScript.Text.Letter
import ScalarScript.Text.LowerCase
import ScalarScript.Text.Paint
import ScalarScript.Text.Pattern
import ScalarScript.Text.Printable
import ScalarScript.Text.Quoted
import ScalarScript.Text.Sorted
import ScalarScript.Text.Utf8
import ScalarScript.Token.Basic
import ScalarScript.Token.Lexer
import ScalarScript.Value.Basic
import ScalarScript.Value.Cell
import ScalarScript.Value.Operation
import ScalarScript.Value.Store
import ScalarScript.Value.Ty
import ScalarScript.Proofs.Control.Confined
import ScalarScript.Proofs.Control.Peephole
import ScalarScript.Proofs.Control.Skeleton
import ScalarScript.Proofs.Control.Stretch
import ScalarScript.Proofs.Layout.Twin
import ScalarScript.Proofs.Linking.InPlace
import ScalarScript.Proofs.Linking.Meaning
import ScalarScript.Proofs.Linking.Unlinked
import ScalarScript.Proofs.Machine.Abreast
import ScalarScript.Proofs.Machine.Arguments
import ScalarScript.Proofs.Machine.Count
import ScalarScript.Proofs.Machine.Drive
import ScalarScript.Proofs.Machine.Effected
import ScalarScript.Proofs.Machine.Kept
import ScalarScript.Proofs.Machine.Limit
import ScalarScript.Proofs.Machine.Observing
import ScalarScript.Proofs.Machine.Proper
import ScalarScript.Proofs.Machine.Raised
import ScalarScript.Proofs.Machine.Reuse
import ScalarScript.Proofs.Machine.Storage
import ScalarScript.Proofs.Machine.Unseen
import ScalarScript.Proofs.Machine.Way
import ScalarScript.Proofs.Number.Finite
import ScalarScript.Proofs.Source.Declaration
import ScalarScript.Proofs.Source.Emission
import ScalarScript.Proofs.Source.Expression
import ScalarScript.Proofs.Source.Function
import ScalarScript.Proofs.Source.Grammar
import ScalarScript.Proofs.Source.Loop
import ScalarScript.Proofs.Source.Names
import ScalarScript.Proofs.Source.Program
import ScalarScript.Proofs.Source.Reading
import ScalarScript.Proofs.Source.Resolution
import ScalarScript.Proofs.Source.Scoping
import ScalarScript.Proofs.Source.Statement
import ScalarScript.Proofs.Source.Tree
import ScalarScript.Proofs.Stateful
import ScalarScript.Proofs.Symbolic.Effect
import ScalarScript.Proofs.Symbolic.Linked
import ScalarScript.Proofs.Symbolic.Machine
import ScalarScript.Proofs.Symbolic.Marks
import ScalarScript.Proofs.Symbolic.Turn
import ScalarScript.Proofs.Typing.Accepted
import ScalarScript.Proofs.Typing.Access
import ScalarScript.Proofs.Typing.Allocation
import ScalarScript.Proofs.Typing.Balance
import ScalarScript.Proofs.Typing.Bindings
import ScalarScript.Proofs.Typing.Check
import ScalarScript.Proofs.Typing.Frames
import ScalarScript.Proofs.Typing.Height
import ScalarScript.Proofs.Typing.Host
import ScalarScript.Proofs.Typing.Lexical
import ScalarScript.Proofs.Typing.Nesting
import ScalarScript.Proofs.Typing.Parts
import ScalarScript.Proofs.Typing.Plan
import ScalarScript.Proofs.Typing.Preserve
import ScalarScript.Proofs.Typing.Run
import ScalarScript.Proofs.Typing.Soundness
import ScalarScript.Proofs.Typing.State
import ScalarScript.Proofs.Typing.Step
import ScalarScript.Proofs.Typing.Through
import ScalarScript.Proofs.Typing.Tree
import ScalarScript.Proofs.Typing.Value
import ScalarScript.Proofs.Layout.Expression
import ScalarScript.Proofs.Layout.Statement
import ScalarScript.Proofs.Machine.Ordering
import ScalarScript.Proofs.Token.Lexer
import ScalarScript.Proofs.Layout.Program
import ScalarScript.Proofs.Layout.Termination
import ScalarScript.Proofs.ScriptTest.Journal
import ScalarScript.Proofs.ScriptTest.Trial
import ScalarScript.Proofs.Source.Completeness
import ScalarScript.Proofs.Source.Placement
import ScalarScript.Proofs.Source.Sight
import ScalarScript.Proofs.Source.Allotment
import ScalarScript.Proofs.Reference.Fragment
import ScalarScript.Proofs.Machine.Bracketed
import ScalarScript.Proofs.Token.Numeral
import ScalarScript.Proofs.Token.Lexeme
import ScalarScript.Proofs.Token.Stream
import ScalarScript.Proofs.Token.Printing
import ScalarScript.Proofs.Binding.Resolved
import ScalarScript.Proofs.Binding.Calls
import ScalarScript.Proofs.Binding.Agreement
import ScalarScript.Proofs.Peephole.Application
import ScalarScript.Proofs.Peephole.Liveness
import ScalarScript.Proofs.Peephole.Fixpoint
import ScalarScript.Proofs.Diagnostic.Distance
import ScalarScript.Proofs.Diagnostic.Suggestion
import ScalarScript.Proofs.Lines.Clause
import ScalarScript.Proofs.Lines.Marker
import ScalarScript.Proofs.Lines.Written
import ScalarScript.Proofs.Lines.Labels
import ScalarScript.Proofs.Lines.Region
import ScalarScript.Proofs.Lines.Place
import ScalarScript.Proofs.Lines.Reported
import ScalarScript.Proofs.Access.Agreement
import ScalarScript.Proofs.Access.Unread
import ScalarScript.Proofs.Peephole.Demand
import ScalarScript.Proofs.Peephole.Window
import ScalarScript.Proofs.Peephole.Simulation
import ScalarScript.Proofs.Peephole.Convention
import ScalarScript.Proofs.Peephole.Transparency
