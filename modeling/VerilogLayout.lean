import VerilogLayout.Text.Basic
import VerilogLayout.Text.Blank
import VerilogLayout.Text.Word
import VerilogLayout.Text.Printable
import VerilogLayout.Text.Digit
import VerilogLayout.Text.Lines
import VerilogLayout.Text.Quoted
import VerilogLayout.Text.Bracket
import VerilogLayout.Text.Arguments
import VerilogLayout.Number.Integer
import VerilogLayout.Number.Binary
import VerilogLayout.Number.Spelling
import VerilogLayout.Text.Utf8
import VerilogLayout.Data.Value
import VerilogLayout.Data.Json
import VerilogLayout.Data.Limit
import VerilogLayout.Data.Moment
import VerilogLayout.Data.Toml.Token
import VerilogLayout.Data.Toml.Document
import VerilogLayout.Report
import VerilogLayout.Tree.Node
import VerilogLayout.Tree.Kind
import VerilogLayout.Tree.Keyword
import VerilogLayout.Tree.Wrapper
import VerilogLayout.Tree.Decode
import VerilogLayout.Ledger
import VerilogLayout.Spacing.Join
import VerilogLayout.Spacing.Lexeme
import VerilogLayout.Spacing.Phrase
import VerilogLayout.Column.Setting
import VerilogLayout.Column.Mapping
import VerilogLayout.Column.Line
import VerilogLayout.Column.Range
import VerilogLayout.Column.Layout
import VerilogLayout.Render.Basic
import VerilogLayout.Render.Declaration
import VerilogLayout.Render.Instance
import VerilogLayout.Render.Module
import VerilogLayout.Render.Statement
import VerilogLayout.Render.Document
import VerilogLayout.Files.Path
import VerilogLayout.Files.Store
import VerilogLayout.Tree.Load
import VerilogLayout.Source.Scan
import VerilogLayout.Source.Form
import VerilogLayout.Source.Align
import VerilogLayout.Template.Comment
import VerilogLayout.Template.Header
import VerilogLayout.Template.Instance
import VerilogLayout.Event
import VerilogLayout.Program.Basic
import VerilogLayout.Tree.Make
import VerilogLayout.Document.Format
import VerilogLayout.Workspace.Config
import VerilogLayout.Diff.Script
import VerilogLayout.Diff.Unified
import VerilogLayout.Command.Option
import VerilogLayout.Command.Request
import VerilogLayout.Command.Failure
import VerilogLayout.Command.Console
import VerilogLayout.Command.Format
import VerilogLayout.Command.Run
import VerilogLayout.Main
import VerilogLayout.Proofs.Comments.Carry
import VerilogLayout.Proofs.Comments.Keep
import VerilogLayout.Proofs.Comments.Run
import VerilogLayout.Proofs.Comments.Phrase
import VerilogLayout.Proofs.Comments.Standing
import VerilogLayout.Proofs.Comments.Statement
import VerilogLayout.Proofs.Comments.Declaration
import VerilogLayout.Proofs.Comments.Module
import VerilogLayout.Proofs.Comments.Tree
import VerilogLayout.Proofs.Comments.Once
import VerilogLayout.Proofs.Comments.EndMark
import VerilogLayout.Proofs.Plain.Basic
import VerilogLayout.Proofs.Plain.Statement
import VerilogLayout.Proofs.Procedural.Ink
import VerilogLayout.Proofs.Procedural.Grammar
import VerilogLayout.Proofs.Procedural.Shape
import VerilogLayout.Proofs.Procedural.Tokens
import VerilogLayout.Proofs.Collapse.Basic
import VerilogLayout.Proofs.Collapse.Settled
import VerilogLayout.Proofs.Collapse.Statement
import VerilogLayout.Proofs.Collapse.Choice
import VerilogLayout.Proofs.Collapse.Module
import VerilogLayout.Proofs.Collapse.Tree
import VerilogLayout.Proofs.Source.Trim
import VerilogLayout.Proofs.Source.Search
import VerilogLayout.Proofs.Source.Tab
import VerilogLayout.Proofs.Source.Watch
import VerilogLayout.Proofs.Source.Range
import VerilogLayout.Proofs.Source.Scan
import VerilogLayout.Proofs.Source.Gap
import VerilogLayout.Proofs.Source.Vector
import VerilogLayout.Proofs.Source.Port
import VerilogLayout.Proofs.Source.Value
import VerilogLayout.Proofs.Source.Signal
import VerilogLayout.Proofs.Source.Parameter
import VerilogLayout.Proofs.Source.Assign
import VerilogLayout.Proofs.Source.Connection
import VerilogLayout.Proofs.Source.CodeLine
import VerilogLayout.Proofs.Source.Aligned
import VerilogLayout.Proofs.Source.ReadInk
import VerilogLayout.Proofs.Source.Ink
import VerilogLayout.Proofs.Source.Place
import VerilogLayout.Proofs.Source.Level
import VerilogLayout.Proofs.Source.Drift
import VerilogLayout.Proofs.Literal.Lexing
import VerilogLayout.Proofs.Literal.Open
import VerilogLayout.Proofs.Literal.Value
import VerilogLayout.Proofs.Literal.Kept
import VerilogLayout.Proofs.Source.OpenList
import VerilogLayout.Proofs.Column.Row
import VerilogLayout.Proofs.Spacing.Glue
import VerilogLayout.Proofs.Spacing.Lexeme
import VerilogLayout.Proofs.Spacing.Neighbour
import VerilogLayout.Proofs.Spacing.Woven
import VerilogLayout.Proofs.Tokens.Line
import VerilogLayout.Proofs.Tokens.List
import VerilogLayout.Proofs.Tokens.Instance
import VerilogLayout.Proofs.Tokens.Declaration
import VerilogLayout.Proofs.Tokens.Position
import VerilogLayout.Proofs.Tokens.Assignment
import VerilogLayout.Proofs.Nesting.Line
import VerilogLayout.Proofs.Nesting.Span
import VerilogLayout.Proofs.Nesting.Declaration
import VerilogLayout.Proofs.Nesting.Instance
import VerilogLayout.Proofs.Json.Grammar
import VerilogLayout.Proofs.Json.Characters
import VerilogLayout.Proofs.Json.Number
import VerilogLayout.Proofs.Json.Read
import VerilogLayout.Proofs.Json.Write
import VerilogLayout.Proofs.Json.Depth
import VerilogLayout.Proofs.Tree.Encoding
import VerilogLayout.Proofs.Tree.Unwrap
import VerilogLayout.Proofs.Total.Basic
import VerilogLayout.Proofs.Total.Renderer
import VerilogLayout.Proofs.Total.Tree
import VerilogLayout.Proofs.LineEnd.Closed
import VerilogLayout.Proofs.LineEnd.Tidy
import VerilogLayout.Proofs.LineEnd.Tree
import VerilogLayout.Proofs.Files.Utf8
import VerilogLayout.Proofs.Files.Store
import VerilogLayout.Proofs.Document.Problem
import VerilogLayout.Proofs.Document.Again
import VerilogLayout.Proofs.Command.Console
import VerilogLayout.Proofs.Command.Collect
import VerilogLayout.Proofs.Command.Source
import VerilogLayout.Proofs.Command.Conclusion
import VerilogLayout.Proofs.Command.Write
import VerilogLayout.Proofs.Command.Check
import VerilogLayout.Proofs.Command.Found
import VerilogLayout.Proofs.Command.Again
import VerilogLayout.Proofs.Header.Printed
import VerilogLayout.Proofs.Header.Entry
import VerilogLayout.Proofs.Header.Whole
import VerilogLayout.Proofs.Header.Template
import VerilogLayout.Proofs.Header.InitialValue
import VerilogLayout.Proofs.LineEnd.Description
import VerilogLayout.Proofs.Origin.Basic
import VerilogLayout.Proofs.Origin.Phrase
import VerilogLayout.Proofs.Origin.Declaration
import VerilogLayout.Proofs.Origin.Instance
import VerilogLayout.Proofs.Origin.Statement
import VerilogLayout.Proofs.Origin.Module
import VerilogLayout.Proofs.Origin.Tree
import VerilogLayout.Proofs.Origin.End
import VerilogLayout.Proofs.Column.Bounds
import VerilogLayout.Proofs.Settings.Integer
import VerilogLayout.Proofs.Settings.Mapping
import VerilogLayout.Proofs.Settings.Meaning
import VerilogLayout.Proofs.Settings.CommandLine
import VerilogLayout.Proofs.Settings.Load
import VerilogLayout.Proofs.Header.Piece
import VerilogLayout.Proofs.Header.Comment
