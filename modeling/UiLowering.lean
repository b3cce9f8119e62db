import UiLowering.Call.Arguments
import UiLowering.Call.Emit
import UiLowering.Call.Intrinsic
import UiLowering.Call.Route
import UiLowering.Call.Shortcut
import UiLowering.Call.Template
import UiLowering.Code
import UiLowering.Component.Basic
import UiLowering.Component.Lower
import UiLowering.Component.Text
import UiLowering.Decimal.Positional
import UiLowering.Decimal.Shortest
import UiLowering.Effect.Reads
import UiLowering.Effect.Writes
import UiLowering.Env
import UiLowering.Fault
import UiLowering.Json.Basic
import UiLowering.Json.Fields
import UiLowering.Json.Number
import UiLowering.Json.Parser
import UiLowering.Json.Printer
import UiLowering.Json.Token
import UiLowering.Lower.Definition
import UiLowering.Lower.Expr
import UiLowering.Lower.Stmt
import UiLowering.Lowered
import UiLowering.MatchChain
import UiLowering.Names
import UiLowering.Notice
import UiLowering.Proofs.Alike
import UiLowering.Proofs.Call.Callback
import UiLowering.Proofs.Call.Faults
import UiLowering.Proofs.Call.Forwarded
import UiLowering.Proofs.Call.Function
import UiLowering.Proofs.Call.Method
import UiLowering.Proofs.Call.Route
import UiLowering.Proofs.Call.SecondName
import UiLowering.Proofs.Call.Selected
import UiLowering.Proofs.Call.Substitution
import UiLowering.Proofs.Call.Template
import UiLowering.Proofs.Component.Batch
import UiLowering.Proofs.Component.EnumName
import UiLowering.Proofs.Component.Faults
import UiLowering.Proofs.Component.Isolation
import UiLowering.Proofs.Component.Scope
import UiLowering.Proofs.Component.TypeNames
import UiLowering.Proofs.Effect.Agree
import UiLowering.Proofs.Effect.BoundCall
import UiLowering.Proofs.Effect.BoundWrite
import UiLowering.Proofs.Effect.PathReads
import UiLowering.Proofs.Effect.ReadNames
import UiLowering.Proofs.Effect.Shadowed
import UiLowering.Proofs.Effect.Static
import UiLowering.Proofs.Effect.WritePlace
import UiLowering.Proofs.Effect.WriteSet
import UiLowering.Proofs.Formatter.Confined
import UiLowering.Proofs.Formatter.Sheltered
import UiLowering.Proofs.Formatter.Values
import UiLowering.Proofs.Json.RoundTrip
import UiLowering.Proofs.Lowered
import UiLowering.Proofs.MatchChain
import UiLowering.Proofs.Names
import UiLowering.Proofs.Nodes
import UiLowering.Proofs.Schema.Ancestors
import UiLowering.Proofs.Schema.Index
import UiLowering.Proofs.Schema.Restored
import UiLowering.Proofs.Schema.Spelling
import UiLowering.Proofs.Scope.Body
import UiLowering.Proofs.Scope.Dereference
import UiLowering.Proofs.Scope.Hole
import UiLowering.Proofs.Scope.Occurrence
import UiLowering.Proofs.Scope.Receiver
import UiLowering.Proofs.Scope.Spelled
import UiLowering.Proofs.Source.Built
import UiLowering.Proofs.Source.Chain
import UiLowering.Proofs.Source.ElementType
import UiLowering.Proofs.Source.Literal
import UiLowering.Proofs.Source.Operation
import UiLowering.Proofs.Source.Parts
import UiLowering.Proofs.Source.Pieces
import UiLowering.Proofs.Source.PlainText
import UiLowering.Proofs.Target.CallText
import UiLowering.Proofs.Target.Copies
import UiLowering.Proofs.Target.Else
import UiLowering.Proofs.Target.ExprText
import UiLowering.Proofs.Target.Guarded
import UiLowering.Proofs.Target.Layout
import UiLowering.Proofs.Target.Line
import UiLowering.Proofs.Target.Nesting
import UiLowering.Proofs.Target.Paren
import UiLowering.Proofs.Target.Scan
import UiLowering.Proofs.Target.Statement
import UiLowering.Proofs.Target.StmtText
import UiLowering.Proofs.Target.Term
import UiLowering.Proofs.Target.TypeText
import UiLowering.Proofs.Target.Unambiguous
import UiLowering.Proofs.Target.ViewText
import UiLowering.Proofs.Text.Cut
import UiLowering.Proofs.Text.Identifier
import UiLowering.Proofs.Text.Join
import UiLowering.Proofs.Text.Quoted
import UiLowering.Proofs.Text.Snake
import UiLowering.Proofs.Text.Trim
import UiLowering.Proofs.TypeName.Ends
import UiLowering.Proofs.TypeName.Idempotent
import UiLowering.Proofs.TypeName.Plain
import UiLowering.Proofs.TypeName.Rule
import UiLowering.Proofs.TypeName.Suffix
import UiLowering.Proofs.View.Detached
import UiLowering.Proofs.View.Exec
import UiLowering.Proofs.View.Rendered
import UiLowering.Proofs.Wire.Built
import UiLowering.Proofs.Wire.Component
import UiLowering.Proofs.Wire.Expr
import UiLowering.Proofs.Wire.Record
import UiLowering.Proofs.Wire.Schema
import UiLowering.Proofs.Wire.Stmt
import UiLowering.Schema.Basic
import UiLowering.Schema.Lookup
import UiLowering.Scope
import UiLowering.Source.Definition
import UiLowering.Source.ElementType
import UiLowering.Source.Expr
import UiLowering.Source.Literal
import UiLowering.Source.Nodes
import UiLowering.Source.Stmt
import UiLowering.Text.Blank
import UiLowering.Text.Cut
import UiLowering.Text.Digit
import UiLowering.Text.Name
import UiLowering.Text.Paren
import UiLowering.Text.Quoted
import UiLowering.Text.Snake
import UiLowering.Text.Word
import UiLowering.TypeName.Primitive
import UiLowering.TypeName.Resolve
import UiLowering.TypeName.Shape
import UiLowering.View.Collection
import UiLowering.View.Plan
import UiLowering.View.Render
import UiLowering.Wire.Component
import UiLowering.Wire.Definition
import UiLowering.Wire.Expr
import UiLowering.Wire.Schema
import UiLowering.Wire.Stmt
import UiLowering.Wire.View
