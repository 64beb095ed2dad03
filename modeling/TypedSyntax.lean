import TypedSyntax.Config
import TypedSyntax.DataType
import TypedSyntax.DataType.Json
import TypedSyntax.DataType.Promotion
import TypedSyntax.Datum
import TypedSyntax.Error
import TypedSyntax.Export
import TypedSyntax.Json.Attribute
import TypedSyntax.Json.Number
import TypedSyntax.Json.Printer
import TypedSyntax.Json.Quoted
import TypedSyntax.Json.Reader
import TypedSyntax.Json.Record
import TypedSyntax.Json.Value
import TypedSyntax.Json.Writer
import TypedSyntax.Kind
import TypedSyntax.Literal
import TypedSyntax.Literal.Temporal
import TypedSyntax.Modifier
import TypedSyntax.Number.Double
import TypedSyntax.Number.Finite
import TypedSyntax.Number.Layout
import TypedSyntax.Number.Shortest
import TypedSyntax.Operator
import TypedSyntax.Payload
import TypedSyntax.Proofs.DataType
import TypedSyntax.Proofs.DataType.Acceptance
import TypedSyntax.Proofs.DataType.Json
import TypedSyntax.Proofs.DataType.Order
import TypedSyntax.Proofs.DataType.Widest
import TypedSyntax.Proofs.Datum
import TypedSyntax.Proofs.Export.Agreement
import TypedSyntax.Proofs.Export.Assembly
import TypedSyntax.Proofs.Export.Attributes
import TypedSyntax.Proofs.Export.Content
import TypedSyntax.Proofs.Export.Equality
import TypedSyntax.Proofs.Export.Growth
import TypedSyntax.Proofs.Export.Inventory
import TypedSyntax.Proofs.Export.Label
import TypedSyntax.Proofs.Export.Literal
import TypedSyntax.Proofs.Export.Normal
import TypedSyntax.Proofs.Export.Regular
import TypedSyntax.Proofs.Export.Subtree
import TypedSyntax.Proofs.Export.Wrapper
import TypedSyntax.Proofs.Json.Codec
import TypedSyntax.Proofs.Json.Decimal
import TypedSyntax.Proofs.Json.Float
import TypedSyntax.Proofs.Json.Grammar
import TypedSyntax.Proofs.Json.Printing
import TypedSyntax.Proofs.Json.Reading
import TypedSyntax.Proofs.Json.Scaling
import TypedSyntax.Proofs.Json.Writing
import TypedSyntax.Proofs.Literal
import TypedSyntax.Proofs.Literal.Range
import TypedSyntax.Proofs.Literal.Temporal
import TypedSyntax.Proofs.Number.Arithmetic
import TypedSyntax.Proofs.Number.Layout
import TypedSyntax.Proofs.Number.Nearest
import TypedSyntax.Proofs.Number.Rounding
import TypedSyntax.Proofs.Number.Shortest
import TypedSyntax.Proofs.Outcome
import TypedSyntax.Proofs.Python.Comment
import TypedSyntax.Proofs.Python.Completeness
import TypedSyntax.Proofs.Python.Containment
import TypedSyntax.Proofs.Python.Coupling
import TypedSyntax.Proofs.Python.Escape
import TypedSyntax.Proofs.Python.Expression
import TypedSyntax.Proofs.Python.Float
import TypedSyntax.Proofs.Python.Grammar
import TypedSyntax.Proofs.Python.Header
import TypedSyntax.Proofs.Python.History
import TypedSyntax.Proofs.Python.Imports
import TypedSyntax.Proofs.Python.Inline
import TypedSyntax.Proofs.Python.Insertion
import TypedSyntax.Proofs.Python.Layout
import TypedSyntax.Proofs.Python.Lexer
import TypedSyntax.Proofs.Python.Lines
import TypedSyntax.Proofs.Python.Method
import TypedSyntax.Proofs.Python.Number
import TypedSyntax.Proofs.Python.Openings
import TypedSyntax.Proofs.Python.Outline
import TypedSyntax.Proofs.Python.Parser
import TypedSyntax.Proofs.Python.Precedence
import TypedSyntax.Proofs.Python.Quote
import TypedSyntax.Proofs.Python.Readback
import TypedSyntax.Proofs.Python.Rendering
import TypedSyntax.Proofs.Python.Spelling
import TypedSyntax.Proofs.Python.Standing
import TypedSyntax.Proofs.Python.Steady
import TypedSyntax.Proofs.Python.Tight
import TypedSyntax.Proofs.Python.Transparent
import TypedSyntax.Proofs.Python.Untyped
import TypedSyntax.Proofs.Python.Written
import TypedSyntax.Proofs.SymbolTable.Bracketing
import TypedSyntax.Proofs.SymbolTable.Run
import TypedSyntax.Proofs.SymbolTable.Session
import TypedSyntax.Proofs.Term
import TypedSyntax.Proofs.Text.Split
import TypedSyntax.Proofs.Tree.Answers
import TypedSyntax.Proofs.Tree.Arithmetic
import TypedSyntax.Proofs.Tree.Call
import TypedSyntax.Proofs.Tree.Change
import TypedSyntax.Proofs.Tree.Forest
import TypedSyntax.Proofs.Tree.Literal
import TypedSyntax.Proofs.Tree.Lookup
import TypedSyntax.Proofs.Tree.Method
import TypedSyntax.Proofs.Tree.Mirror
import TypedSyntax.Proofs.Tree.Preorder
import TypedSyntax.Proofs.Tree.Renaming
import TypedSyntax.Proofs.Tree.Sound
import TypedSyntax.Proofs.Tree.Terms
import TypedSyntax.Proofs.Tree.Traversal
import TypedSyntax.Proofs.Tree.WellFormed
import TypedSyntax.Proofs.Typing
import TypedSyntax.Proofs.Workspace.Handle
import TypedSyntax.Proofs.Workspace.Location
import TypedSyntax.Proofs.Workspace.Run
import TypedSyntax.Proofs.Workspace.Tag
import TypedSyntax.Proofs.Workspace.Weaving
import TypedSyntax.Proofs.WriterRegistry
import TypedSyntax.Python.Text
import TypedSyntax.Python.Writer
import TypedSyntax.Rules
import TypedSyntax.SourceLocation
import TypedSyntax.SymbolTable
import TypedSyntax.Term
import TypedSyntax.Text.Digit
import TypedSyntax.Text.Split
import TypedSyntax.Toml.Document
import TypedSyntax.Toml.Scalar
import TypedSyntax.Toml.Table
import TypedSyntax.Tree.Basic
import TypedSyntax.Tree.Build
import TypedSyntax.Tree.Check
import TypedSyntax.Tree.Draft
import TypedSyntax.Tree.Walk
import TypedSyntax.Typing
import TypedSyntax.Workspace
import TypedSyntax.WriterRegistry
import TypedSyntax.Yaml.Scalar
import TypedSyntax.Yaml.Writer
