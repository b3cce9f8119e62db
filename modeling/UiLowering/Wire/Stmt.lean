import UiLowering.Source.Stmt
import UiLowering.Wire.Expr

/-!
# Statements in JSON

A statement is an object with its kind under `type` and its parts under names of their own.
-/

set_option autoImplicit false

namespace UiLowering

/-! ## Writing

As with expressions every field is written. -/

/-- The kind of a statement. -/
def Stmt.kind : Stmt → String
  | .declare _ => "var-decl"
  | .assign _ => "assign"
  | .assignIndex _ => "index-assign"
  | .assignMember _ => "member-assign"
  | .ret _ => "return"
  | .evaluate _ => "expression"
  | .block _ => "block"
  | .branch .. => "if"
  | .forRange .. => "for-range"
  | .forEach .. => "for-each"

/-- The fields of a declaration. -/
def VarDecl.entries (decl : VarDecl) : List (String × Json) :=
  [("typeName", .str decl.typeName), ("name", .str decl.name),
    ("initializer", .ofOption Expr.toJson decl.initializer), ("isMutable", .bool decl.isMutable),
    ("isReference", .bool decl.isReference), ("isMove", .bool decl.isMove),
    ("isPublic", .bool decl.isPublic)]

/-- A declaration as JSON. -/
def VarDecl.toJson (decl : VarDecl) : Json := .obj decl.entries

namespace Stmt

mutual

/-- A statement as JSON. -/
def toJson : Stmt → Json
  | .declare decl => .obj (("type", .str "var-decl") :: decl.entries)
  | .assign a =>
    .obj [("type", .str "assign"), ("name", .str a.name), ("value", a.value.toJson),
      ("targetType", .ofOption .str a.targetType), ("isMove", .bool a.isMove)]
  | .assignIndex a =>
    .obj [("type", .str "index-assign"), ("array", a.array.toJson), ("index", a.position.toJson),
      ("value", a.value.toJson), ("compoundOp", .ofOption .str a.compoundOp),
      ("isMove", .bool a.isMove)]
  | .assignMember a =>
    .obj [("type", .str "member-assign"), ("object", a.object.toJson), ("member", .str a.field),
      ("value", a.value.toJson), ("compoundOp", .ofOption .str a.compoundOp),
      ("isMove", .bool a.isMove)]
  | .ret value => .obj [("type", .str "return"), ("value", .ofOption Expr.toJson value)]
  | .evaluate e => .obj [("type", .str "expression"), ("expression", e.toJson)]
  | .block body => .obj [("type", .str "block"), ("statements", .arr (listToJson body))]
  | .branch condition thenBranch elseBranch =>
    .obj [("type", .str "if"), ("condition", condition.toJson), ("thenBranch", thenBranch.toJson),
      ("elseBranch", optionToJson elseBranch)]
  | .forRange counter first limit body =>
    .obj [("type", .str "for-range"), ("varName", .str counter), ("start", first.toJson),
      ("end", limit.toJson), ("body", body.toJson)]
  | .forEach item items body =>
    .obj [("type", .str "for-each"), ("varName", .str item), ("iterable", items.toJson),
      ("body", body.toJson)]

/-- The statements of a body as JSON. -/
def listToJson : List Stmt → List Json
  | [] => []
  | stmt :: body => stmt.toJson :: listToJson body

/-- A statement that may be missing as JSON. -/
def optionToJson : Option Stmt → Json
  | none => .null
  | some stmt => stmt.toJson

end

end Stmt

/-! ## Reading

The reader counts down a depth, beginning with that of the JSON it is given, so it can go as far
inwards as there is anything to read. -/

/-- The kinds of statements, in the order of their numbers. -/
def Stmt.kinds : List String :=
  ["var-decl", "assign", "index-assign", "member-assign", "return", "expression", "block", "if",
    "for-range", "for-each"]

section

open Fields Json

/-- Reads a declaration, given the reader of its initial value. -/
def readVarDecl (readExpr : Json → Option Expr) : FieldReader VarDecl := do
  let typeName ← required "typeName" str?
  let name ← required "name" str?
  let initializer ← optional "initializer" readExpr
  let isMutable ← defaulted "isMutable" false bool?
  let isReference ← defaulted "isReference" false bool?
  let isMove ← defaulted "isMove" false bool?
  let isPublic ← defaulted "isPublic" false bool?
  return ⟨typeName, name, initializer, isMutable, isReference, isMove, isPublic⟩

/-- Reads an assignment to a variable. -/
def readAssignment : FieldReader Assignment := do
  let name ← required "name" str?
  let value ← required "value" Expr.ofInnerJson?
  let targetType ← optional "targetType" str?
  let isMove ← defaulted "isMove" false bool?
  return ⟨name, value, targetType, isMove⟩

/-- Reads an assignment to an element. -/
def readIndexAssignment : FieldReader IndexAssignment := do
  let array ← required "array" Expr.ofInnerJson?
  let position ← required "index" Expr.ofInnerJson?
  let value ← required "value" Expr.ofInnerJson?
  let compoundOp ← optional "compoundOp" str?
  let isMove ← defaulted "isMove" false bool?
  return ⟨array, position, value, compoundOp, isMove⟩

/-- Reads an assignment to a member. -/
def readMemberAssignment : FieldReader MemberAssignment := do
  let object ← required "object" Expr.ofInnerJson?
  let field ← required "member" str?
  let value ← required "value" Expr.ofInnerJson?
  let compoundOp ← optional "compoundOp" str?
  let isMove ← defaulted "isMove" false bool?
  return ⟨object, field, value, compoundOp, isMove⟩

/-- Reads the fields of a statement of the given kind, given the reader of the statements in it. -/
def readStmtOf (readStmt : Json → Option Stmt) (kind : String) : FieldReader Stmt :=
  match kind with
  | "var-decl" => do
    let decl ← readVarDecl Expr.ofInnerJson?
    return .declare decl
  | "assign" => do
    let a ← readAssignment
    return .assign a
  | "index-assign" => do
    let a ← readIndexAssignment
    return .assignIndex a
  | "member-assign" => do
    let a ← readMemberAssignment
    return .assignMember a
  | "return" => do
    let value ← optional "value" Expr.ofInnerJson?
    return .ret value
  | "expression" => do
    let e ← required "expression" Expr.ofInnerJson?
    return .evaluate e
  | "block" => do
    let body ← required "statements" (list? readStmt)
    return .block body
  | "if" => do
    let condition ← required "condition" Expr.ofInnerJson?
    let thenBranch ← required "thenBranch" readStmt
    let elseBranch ← optional "elseBranch" readStmt
    return .branch condition thenBranch elseBranch
  | "for-range" => do
    let counter ← required "varName" str?
    let first ← required "start" Expr.ofInnerJson?
    let limit ← required "end" Expr.ofInnerJson?
    let body ← required "body" readStmt
    return .forRange counter first limit body
  | "for-each" => do
    let item ← required "varName" str?
    let items ← required "iterable" Expr.ofInnerJson?
    let body ← required "body" readStmt
    return .forEach item items body
  | _ => failure

end

/-- Reads a declaration. -/
def VarDecl.ofJson? : Json → Option VarDecl := Json.record? (readVarDecl Expr.ofJson?)

namespace Stmt

/-- Reads a statement inside another one, its JSON nested less than `level` deep. -/
def ofInnerWithin : Nat → Json → Option Stmt
  | 0, _ => none
  | level + 1, json => do
    let (kind, fields) ← json.tagged? "type" kinds
    Fields.read (readStmtOf (ofInnerWithin level) kind) fields

/-- Reads a statement inside another one. -/
def ofInnerJson? (json : Json) : Option Stmt := ofInnerWithin (json.depth + 1) json

/-- Reads a statement that stands by itself. -/
def ofJson? (json : Json) : Option Stmt := do
  let (kind, fields) ← json.outerTagged? "type"
  Fields.read (readStmtOf ofInnerJson? kind) fields

/-- Reads the statements of a body. -/
def bodyOfJson? : Json → Option (List Stmt) := Json.list? ofJson?

end Stmt

end UiLowering
