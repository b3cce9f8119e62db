import UiLowering.Json.Fields
import UiLowering.Source.Expr

/-!
# Expressions in JSON

An expression is an object with its kind under `type` and its parts under names of their own; a
pattern has its kind under `kind`.  Writing gives every field; reading takes defaults for fields
that are missing.  The mark of a text chain is not written: an operation that is read is built anew
from its operands, and gets its mark then.
-/

set_option autoImplicit false

namespace UiLowering

/-! ## Writing

Every field is written, also where its value is the default, so what is written does not depend on
the defaults of the reader. -/

/-- The kind of an expression. -/
def Expr.kind : Expr → String
  | .int _ => "int"
  | .float _ => "float"
  | .bool _ => "bool"
  | .str _ => "str"
  | .ident _ => "ident"
  | .binary .. => "binary"
  | .unary .. => "unary"
  | .trailing .. => "postfix"
  | .conditional .. => "ternary"
  | .call _ => "call"
  | .member .. => "member"
  | .index .. => "index"
  | .array _ => "array"
  | .fill .. => "array-repeat"
  | .record _ => "pod"
  | .enumValue _ => "enum-access"
  | .construct .. => "construct"
  | .select _ => "match"
  | .reference _ => "reference"
  | .move _ => "move"

/-- The fields of a reference to a value of an enumeration. -/
def EnumRef.entries (ref : EnumRef) : List (String × Json) :=
  [("enumName", .str ref.enumName), ("valueName", .str ref.valueName),
    ("componentName", .ofOption .str ref.component)]

namespace Expr

mutual

/-- An expression as JSON. -/
def toJson : Expr → Json
  | .int value => .obj [("type", .str "int"), ("value", .int value.toInt)]
  | .float value => .obj [("type", .str "float"), ("value", .ofFloat value)]
  | .bool value => .obj [("type", .str "bool"), ("value", .bool value)]
  | .str raw => .obj [("type", .str "str"), ("value", .str raw)]
  | .ident name => .obj [("type", .str "ident"), ("name", .str name)]
  | .binary left op right _ =>
    .obj [("type", .str "binary"), ("left", left.toJson), ("op", .str op),
      ("right", right.toJson)]
  | .unary op operand =>
    .obj [("type", .str "unary"), ("op", .str op), ("operand", operand.toJson)]
  | .trailing op operand =>
    .obj [("type", .str "postfix"), ("op", .str op), ("operand", operand.toJson)]
  | .conditional condition thenValue elseValue =>
    .obj [("type", .str "ternary"), ("condition", condition.toJson),
      ("thenExpr", thenValue.toJson), ("elseExpr", elseValue.toJson)]
  | .call ⟨name, args, line⟩ =>
    .obj [("type", .str "call"), ("name", .str name), ("args", .arr (argsToJson args)),
      ("line", .nat line.toNat)]
  | .member object field =>
    .obj [("type", .str "member"), ("object", object.toJson), ("member", .str field)]
  | .index base position =>
    .obj [("type", .str "index"), ("array", base.toJson), ("index", position.toJson)]
  | .array ⟨elements, elementType⟩ =>
    .obj [("type", .str "array"), ("elements", .arr (listToJson elements)),
      ("elementType", .ofOption .str elementType)]
  | .fill value count =>
    .obj [("type", .str "array-repeat"), ("value", value.toJson), ("count", count.toJson)]
  | .record ⟨typeName, fields⟩ =>
    .obj [("type", .str "pod"), ("typeName", .ofOption .str typeName),
      ("fields", .arr (fieldsToJson fields))]
  | .enumValue ref => .obj (("type", .str "enum-access") :: ref.entries)
  | .construct component args =>
    .obj [("type", .str "construct"), ("componentName", .str component),
      ("args", .arr (argsToJson args))]
  | .select ⟨subject, arms, otherwise, line⟩ =>
    .obj [("type", .str "match"), ("subject", subject.toJson), ("arms", .arr (armsToJson arms)),
      ("elseArm", optionToJson otherwise), ("line", .nat line.toNat)]
  | .reference operand => .obj [("type", .str "reference"), ("operand", operand.toJson)]
  | .move operand => .obj [("type", .str "move"), ("operand", operand.toJson)]

/-- Several expressions as JSON. -/
def listToJson : List Expr → List Json
  | [] => []
  | e :: es => e.toJson :: listToJson es

/-- An expression that may be missing as JSON. -/
def optionToJson : Option Expr → Json
  | none => .null
  | some e => e.toJson

/-- The arguments of a call as JSON. -/
def argsToJson : List (Arg Expr) → List Json
  | [] => []
  | ⟨name, value, byReference, byMove⟩ :: args =>
    .obj [("name", .ofOption .str name), ("value", value.toJson),
      ("isReference", .bool byReference), ("isMove", .bool byMove)] :: argsToJson args

/-- The fields of a record literal as JSON. -/
def fieldsToJson : List (FieldInit Expr) → List Json
  | [] => []
  | ⟨name, value⟩ :: fields =>
    .obj [("name", .str name), ("value", value.toJson)] :: fieldsToJson fields

/-- A pattern as JSON. -/
def patternToJson : Pattern Expr → Json
  | .literal value => .obj [("kind", .str "literal"), ("value", value.toJson)]
  | .enumValue ref => .obj (("kind", .str "enum") :: ref.entries)
  | .record typeName fields =>
    .obj [("kind", .str "pod"), ("typeName", .ofOption .str typeName),
      ("fields", .arr (fieldPatternsToJson fields))]

/-- The fields of a record pattern as JSON. -/
def fieldPatternsToJson : List (FieldPattern Expr) → List Json
  | [] => []
  | ⟨name, value⟩ :: fields =>
    .obj [("name", .str name), ("value", optionToJson value)] :: fieldPatternsToJson fields

/-- The arms of a match as JSON. -/
def armsToJson : List (Arm Expr) → List Json
  | [] => []
  | ⟨pattern, body⟩ :: arms =>
    .obj [("pattern", patternToJson pattern), ("body", body.toJson)] :: armsToJson arms

end

end Expr

/-- An array literal as JSON. -/
def ArrayLit.toJson (literal : ArrayLit Expr) : Json :=
  .obj [("elements", .arr (Expr.listToJson literal.elements)),
    ("elementType", .ofOption .str literal.elementType)]

/-! ## Reading

Each reader of a part takes the reader of the expressions in it. -/

/-- The kinds of expressions, in the order of their numbers. -/
def Expr.kinds : List String :=
  ["int", "float", "bool", "str", "ident", "binary", "unary", "postfix", "ternary", "call",
    "member", "index", "array", "array-repeat", "pod", "enum-access", "construct", "match",
    "reference", "move"]

/-- The kinds of patterns, in the order of their numbers. -/
def patternKinds : List String := ["literal", "enum", "pod"]

section

open Fields Json

variable (readExpr : Json → Option Expr)

/-- Reads an argument of a call. -/
def readArg : FieldReader (Arg Expr) := do
  let name ← optional "name" str?
  let value ← required "value" readExpr
  let byReference ← defaulted "isReference" false bool?
  let byMove ← defaulted "isMove" false bool?
  return ⟨name, value, byReference, byMove⟩

/-- Reads the arguments of a call. -/
def readArgs : Json → Option (List (Arg Expr)) := list? (record? (readArg readExpr))

/-- Reads a call. -/
def readCall : FieldReader (Call Expr) := do
  let name ← required "name" str?
  let args ← defaulted "args" [] (readArgs readExpr)
  let line ← defaulted "line" 0 uint32?
  return ⟨name, args, line⟩

/-- Reads an array literal. -/
def readArray : FieldReader (ArrayLit Expr) := do
  let elements ← required "elements" (list? readExpr)
  let elementType ← optional "elementType" str?
  return ⟨elements, elementType⟩

/-- Reads a field of a record literal. -/
def readFieldInit : FieldReader (FieldInit Expr) := do
  let name ← required "name" str?
  let value ← required "value" readExpr
  return ⟨name, value⟩

/-- Reads a record literal. -/
def readRecord : FieldReader (RecordLit Expr) := do
  let typeName ← optional "typeName" str?
  let fields ← required "fields" (list? (record? (readFieldInit readExpr)))
  return ⟨typeName, fields⟩

/-- Reads a reference to a value of an enumeration. -/
def readEnumRef : FieldReader EnumRef := do
  let enumName ← required "enumName" str?
  let valueName ← required "valueName" str?
  let component ← optional "componentName" str?
  return ⟨enumName, valueName, component⟩

/-- Reads a field of a record pattern. -/
def readFieldPattern : FieldReader (FieldPattern Expr) := do
  let name ← required "name" str?
  let value ← optional "value" readExpr
  return ⟨name, value⟩

/-- Reads the fields of a pattern of the given kind. -/
def readPatternOf (kind : String) : FieldReader (Pattern Expr) :=
  match kind with
  | "literal" => do
    let value ← required "value" readExpr
    return .literal value
  | "enum" => do
    let ref ← readEnumRef
    return .enumValue ref
  | "pod" => do
    let typeName ← optional "typeName" str?
    let fields ← required "fields" (list? (record? (readFieldPattern readExpr)))
    return .record typeName fields
  | _ => failure

/-- Reads a pattern, given what finds its kind and its other fields. -/
def readPattern (split : Json → Option (String × Fields)) (json : Json) :
    Option (Pattern Expr) := do
  let (kind, fields) ← split json
  Fields.read (readPatternOf readExpr kind) fields

/-- Reads an arm of a match, given the reader of its pattern. -/
def readArm (pattern? : Json → Option (Pattern Expr)) : FieldReader (Arm Expr) := do
  let pattern ← required "pattern" pattern?
  let body ← required "body" readExpr
  return ⟨pattern, body⟩

/-- Reads a match, given the reader of its patterns. -/
def readMatch (pattern? : Json → Option (Pattern Expr)) : FieldReader (Match Expr) := do
  let subject ← required "subject" readExpr
  let arms ← required "arms" (list? (record? (readArm readExpr pattern?)))
  let otherwise ← optional "elseArm" readExpr
  let line ← defaulted "line" 0 uint32?
  return ⟨subject, arms, otherwise, line⟩

/-- Reads the fields of an expression of the given kind. -/
def readExprOf (kind : String) : FieldReader Expr :=
  match kind with
  | "int" => do
    let value ← required "value" int64?
    return .int value
  | "float" => do
    let value ← required "value" float?
    return .float value
  | "bool" => do
    let value ← required "value" bool?
    return .bool value
  | "str" => do
    let raw ← required "value" str?
    return .str raw
  | "ident" => do
    let name ← required "name" str?
    return .ident name
  | "binary" => do
    let left ← required "left" readExpr
    let op ← required "op" str?
    let right ← required "right" readExpr
    return .binaryOf left op right
  | "unary" => do
    let op ← required "op" str?
    let operand ← required "operand" readExpr
    return .unary op operand
  | "postfix" => do
    let op ← required "op" str?
    let operand ← required "operand" readExpr
    return .trailing op operand
  | "ternary" => do
    let condition ← required "condition" readExpr
    let thenValue ← required "thenExpr" readExpr
    let elseValue ← required "elseExpr" readExpr
    return .conditional condition thenValue elseValue
  | "call" => do
    let call ← readCall readExpr
    return .call call
  | "member" => do
    let object ← required "object" readExpr
    let field ← required "member" str?
    return .member object field
  | "index" => do
    let base ← required "array" readExpr
    let position ← required "index" readExpr
    return .index base position
  | "array" => do
    let literal ← readArray readExpr
    return .array literal
  | "array-repeat" => do
    let value ← required "value" readExpr
    let count ← required "count" readExpr
    return .fill value count
  | "pod" => do
    let literal ← readRecord readExpr
    return .record literal
  | "enum-access" => do
    let ref ← readEnumRef
    return .enumValue ref
  | "construct" => do
    let component ← required "componentName" str?
    let args ← defaulted "args" [] (readArgs readExpr)
    return .construct component args
  | "match" => do
    let choice ← readMatch readExpr (readPattern readExpr (tagged? "kind" patternKinds))
    return .select choice
  | "reference" => do
    let operand ← required "operand" readExpr
    return .reference operand
  | "move" => do
    let operand ← required "operand" readExpr
    return .move operand
  | _ => failure

end

namespace Expr

/-- Reads an expression inside a tagged value, its JSON nested less than `level` deep. -/
def ofInnerWithin : Nat → Json → Option Expr
  | 0, _ => none
  | level + 1, json => do
    let (kind, fields) ← json.tagged? "type" kinds
    Fields.read (readExprOf (ofInnerWithin level) kind) fields

/-- Reads an expression inside a tagged value. -/
def ofInnerJson? (json : Json) : Option Expr := ofInnerWithin (json.depth + 1) json

/-- Reads an expression that stands by itself. -/
def ofJson? (json : Json) : Option Expr := do
  let (kind, fields) ← json.outerTagged? "type"
  Fields.read (readExprOf ofInnerJson? kind) fields

end Expr

/-- Reads an argument of a call. -/
def Arg.ofJson? : Json → Option (Arg Expr) := Json.record? (readArg Expr.ofJson?)

/-- Reads an array literal. -/
def ArrayLit.ofJson? : Json → Option (ArrayLit Expr) := Json.record? (readArray Expr.ofJson?)

/-- Reads a match. -/
def Match.ofJson? : Json → Option (Match Expr) :=
  Json.record? (readMatch Expr.ofJson? (readPattern Expr.ofInnerJson? (Json.outerTagged? "kind")))

end UiLowering
