import UiLowering.Source.Literal
import UiLowering.Text.Cut

/-!
# Expressions

The expressions of the component language, as the lowering receives them.  Names of operators,
members and types are kept as written: what the target language does not know is for its own
compiler to refuse.

The parts that are more than an expression (an argument of a call, an arm of a match, …) are
structures over the type of what stands in them.  In a source tree that is `Expr`; the lowering
also uses them with the code of each part in its place.
-/

set_option autoImplicit false

namespace UiLowering

/-- An argument of a call or of the construction of a component. -/
structure Arg (ε : Type) where
  name : Option String
  value : ε
  byReference : Bool
  byMove : Bool

/-- An argument given by its position. -/
def Arg.positional {ε : Type} (value : ε) : Arg ε := ⟨none, value, false, false⟩

/-- A call.  The name is dotted if the call has a receiver, as in `canvas.setSize`. -/
structure Call (ε : Type) where
  name : String
  args : List (Arg ε)
  line : UInt32

/-- An array literal, with the type of its elements where a declaration gives it. -/
structure ArrayLit (ε : Type) where
  elements : List ε
  elementType : Option String

/-- A field of a record literal. -/
structure FieldInit (ε : Type) where
  name : String
  value : ε

/-- A record literal; one without a type takes it from where it stands. -/
structure RecordLit (ε : Type) where
  typeName : Option String
  fields : List (FieldInit ε)

/-- A value of an enumeration, which may belong to another component. -/
structure EnumRef where
  enumName : String
  valueName : String
  component : Option String

/-- A field of a record pattern.  With a value it is compared, without one it is bound. -/
structure FieldPattern (ε : Type) where
  name : String
  value : Option ε

/-- What an arm of a match asks of the subject. -/
inductive Pattern (ε : Type) where
  | literal (value : ε)
  | enumValue (ref : EnumRef)
  | record (typeName : Option String) (fields : List (FieldPattern ε))

/-- An arm of a match. -/
structure Arm (ε : Type) where
  pattern : Pattern ε
  body : ε

/-- A match expression. -/
structure Match (ε : Type) where
  subject : ε
  arms : List (Arm ε)
  otherwise : Option ε
  line : UInt32

/-- An expression. -/
inductive Expr where
  | int (value : Int64)
  | float (value : Float)
  | bool (value : Bool)
  | str (raw : String)
  | ident (name : String)
  /-- An operator between two operands.  `chain` marks a text chain; `Expr.binaryOf` sets it. -/
  | binary (left : Expr) (op : String) (right : Expr) (chain : Bool)
  /-- An operator before its operand. -/
  | unary (op : String) (operand : Expr)
  /-- An operator behind its operand. -/
  | trailing (op : String) (operand : Expr)
  | conditional (condition thenValue elseValue : Expr)
  | call (call : Call Expr)
  | member (object : Expr) (field : String)
  | index (base position : Expr)
  | array (literal : ArrayLit Expr)
  /-- An array of `count` copies of a value. -/
  | fill (value count : Expr)
  | record (literal : RecordLit Expr)
  | enumValue (ref : EnumRef)
  | construct (component : String) (args : List (Arg Expr))
  | select (choice : Match Expr)
  | reference (operand : Expr)
  | move (operand : Expr)

namespace Expr

/-! ## Text chains

A sum whose leftmost operand is a string literal puts a text together.  Whether an operation is such
a text chain is decided when it is built and kept with it, so that no later question goes down its
left side again. -/

/-- Whether an expression is sure to be a text: a string literal or a text chain. -/
def isText : Expr → Bool
  | .str _ => true
  | .binary _ _ _ chain => chain
  | _ => false

/-- Whether an expression is a text chain. -/
def isChain : Expr → Bool
  | .binary _ _ _ chain => chain
  | _ => false

/-- Builds an operation.  It is a text chain if it is a sum and its left operand is a text. -/
def binaryOf (left : Expr) (op : String) (right : Expr) : Expr :=
  .binary left op right (op == "+" && left.isText)

/-- The operands of a text chain, from left to right. -/
def chainParts : Expr → List Expr
  | .binary left op right chain =>
    if chain then left.chainParts ++ right.chainParts else [.binary left op right chain]
  | e => [e]

/-- Whether a value has to be put together by the formatter before it can be passed on. -/
def needsFormatter : Expr → Bool
  | .str raw => Literal.hasHole raw
  | e => e.isChain

/-! ## Assignable expressions

What is assigned to is a variable, or a member or an element of something that is assignable. -/

/-- The variable an assignable expression begins with: that of `a`, `a.b.c` and `a[i][j]` is
`a`. -/
def root? : Expr → Option String
  | .ident name => some name
  | .member object _ => object.root?
  | .index base _ => base.root?
  | _ => none

end Expr

/-- The receiver and the method of a dotted name; both have to be there. -/
def splitReceiver (name : String) : Option (String × String) :=
  (Text.cutLast '.' name).filter fun (receiver, method) => receiver != "" && method != ""

end UiLowering
