import Component.Binding
import Component.Code.Basic
import Component.Code.Literal
import Component.Code.Printer
import Component.CommandLine.Arguments
import Component.CommandLine.Outcome
import Component.Compile
import Component.Diagnostic
import Component.Dump
import Component.Fault
import Component.Fragment
import Component.Json
import Component.Lifecycle
import Component.Lines
import Component.Main
import Component.Markup.Document
import Component.Markup.Error
import Component.Markup.Node
import Component.Markup.Reader
import Component.Markup.Reference
import Component.Markup.StartTag
import Component.Markup.Token
import Component.Property
import Component.Script.Binding
import Component.Script.Class
import Component.Script.Escape
import Component.Script.Expr
import Component.Script.Expression
import Component.Script.Function
import Component.Script.Grammar
import Component.Script.Input
import Component.Script.Item
import Component.Script.Lexer
import Component.Script.Parser
import Component.Script.Pattern
import Component.Script.Primary
import Component.Script.Statement
import Component.Script.Symbol
import Component.Script.Word
import Component.Segment
import Component.Span
import Component.Table
import Component.Text.Basic
import Component.Text.Blank
import Component.Text.Identifier
import Component.Proofs.Page.Attachment
import Component.Proofs.Page.Machine
import Component.Proofs.Page.Mounting
import Component.Proofs.Page.Rendering
import Component.Proofs.Markup.InStep
import Component.Proofs.Markup.StartTag
import Component.Proofs.Markup.Construct
import Component.Proofs.Markup.Progress
import Component.Proofs.Markup.Descent
import Component.Proofs.Markup.Tiling
import Component.Proofs.Markup.Printing
import Component.Proofs.Markup.RoundTrip
import Component.Proofs.Markup.Bracketing
import Component.Proofs.Markup.Reporting
import Component.Proofs.Compiling
import Component.Proofs.Hygiene
import Component.Proofs.Page.Updating
import Component.Proofs.Page.Lifetime
import Component.Proofs.Relocation
import Component.Proofs.Diagnosing
import Component.Proofs.Markup.Placement
import Component.Proofs.Provenance
import Component.Proofs.Code.Expressions
import Component.Proofs.Code.Factory
import Component.Proofs.Script.Names
import Component.Proofs.Validity
import Component.Proofs.Resolution
import Component.Proofs.Page.Numbering
import Component.Proofs.Scoping
import Component.Proofs.Markup.Joining
import Component.Proofs.Segmentation
import Component.Proofs.Lines
import Component.Proofs.CommandLine
import Component.Proofs.Script.Hoisting
import Component.Proofs.FactoryScope
import Component.Proofs.Page.MountOrder
import Component.Proofs.Extraction
import Component.Proofs.Script.Progress
import Component.Proofs.Script.Progress.Expressions
import Component.Proofs.Script.Progress.Statements
import Component.Proofs.Script.Ordering
import Component.Proofs.OnePass
import Component.Proofs.Markup.TagLayout
import Component.Proofs.Markup.Enclosing
import Component.Proofs.Markup.AttributeSpans
import Component.Proofs.Markup.NormalForm
import Component.Proofs.Page.FirstOffence
import Component.Proofs.Markup.References
import Component.Proofs.Code.StringLiteral
import Component.Proofs.LineLookup
import Component.Proofs.Script.Declarators
import Component.Proofs.PropertyNames
import Component.Proofs.ByteOrderMark
import Component.Proofs.Code.ReadingBack
import Component.Proofs.Markup.ExpressionEnd
import Component.Proofs.Markup.MaximalMunch
