import UiLowering.Source.Definition
import UiLowering.Wire.Stmt

/-!
# Definitions in JSON
-/

set_option autoImplicit false

namespace UiLowering

/-! ## Writing

Definitions are records without a kind. -/

/-- A parameter of a method as JSON. -/
def Param.toJson (param : Param) : Json :=
  .obj [("typeName", .str param.typeName), ("name", .str param.name),
    ("isMutable", .bool param.isMutable), ("isReference", .bool param.isReference)]

/-- A method as JSON. -/
def Method.toJson (method : Method) : Json :=
  .obj [("name", .str method.name), ("returnType", .str method.returnType),
    ("params", .arr (method.params.map Param.toJson)),
    ("body", .arr (Stmt.listToJson method.body)), ("isPublic", .bool method.isPublic)]

/-- A field of a record type as JSON. -/
def DataField.toJson (field : DataField) : Json :=
  .obj [("typeName", .str field.typeName), ("name", .str field.name)]

/-- A record type as JSON. -/
def DataDef.toJson (data : DataDef) : Json :=
  .obj [("name", .str data.name), ("moduleName", .str data.moduleName),
    ("fields", .arr (data.fields.map DataField.toJson))]

/-- An enumeration as JSON. -/
def EnumDef.toJson (enum : EnumDef) : Json :=
  .obj [("name", .str enum.name), ("values", .strs enum.values)]

/-- A parameter of a component as JSON. -/
def ComponentParam.toJson (param : ComponentParam) : Json :=
  .obj [("typeName", .str param.typeName), ("name", .str param.name),
    ("defaultValue", .ofOption Expr.toJson param.defaultValue),
    ("isMutable", .bool param.isMutable), ("isReference", .bool param.isReference),
    ("isPublic", .bool param.isPublic)]

/-! ## Reading

A flag that is missing is taken for false.  The parameters and the body of a method may be missing
as well, but not the fields of a record type nor the values of an enumeration. -/

section

open Fields Json

/-- Reads a parameter of a method. -/
def readParam : FieldReader Param := do
  let typeName ← required "typeName" str?
  let name ← required "name" str?
  let isMutable ← defaulted "isMutable" false bool?
  let isReference ← defaulted "isReference" false bool?
  return ⟨typeName, name, isMutable, isReference⟩

/-- Reads a method. -/
def Method.ofJson? : Json → Option Method := record? do
  let name ← required "name" str?
  let returnType ← defaulted "returnType" "void" str?
  let params ← defaulted "params" [] (list? (record? readParam))
  let body ← defaulted "body" [] Stmt.bodyOfJson?
  let isPublic ← defaulted "isPublic" false bool?
  return ⟨name, returnType, params, body, isPublic⟩

/-- Reads a field of a record type. -/
def readDataField : FieldReader DataField := do
  let typeName ← required "typeName" str?
  let name ← required "name" str?
  return ⟨typeName, name⟩

/-- Reads a record type. -/
def DataDef.ofJson? : Json → Option DataDef := record? do
  let name ← required "name" str?
  let moduleName ← defaulted "moduleName" "" str?
  let fields ← required "fields" (list? (record? readDataField))
  return ⟨name, moduleName, fields⟩

/-- Reads an enumeration. -/
def EnumDef.ofJson? : Json → Option EnumDef := record? do
  let name ← required "name" str?
  let values ← required "values" (list? str?)
  return ⟨name, values⟩

/-- Reads a parameter of a component. -/
def ComponentParam.ofJson? : Json → Option ComponentParam := record? do
  let typeName ← required "typeName" str?
  let name ← required "name" str?
  let defaultValue ← optional "defaultValue" Expr.ofJson?
  let isMutable ← defaulted "isMutable" false bool?
  let isReference ← defaulted "isReference" false bool?
  let isPublic ← defaulted "isPublic" false bool?
  return ⟨typeName, name, defaultValue, isMutable, isReference, isPublic⟩

end

end UiLowering
