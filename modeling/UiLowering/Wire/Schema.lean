import UiLowering.Json.Fields
import UiLowering.Schema.Basic

/-!
# Schemas in JSON

A schema is an object with the list of its types.
-/

set_option autoImplicit false

namespace UiLowering

/-! ## Writing

The index is not written.  It is made again from the types when they are read. -/

/-- The name of a kind of mapping. -/
def MappingKind.name : MappingKind → String
  | .function => "map"
  | .template => "inline"
  | .intrinsic => "intrinsic"

/-- A parameter of a method as JSON. -/
def ApiParam.toJson (param : ApiParam) : Json :=
  .obj [("type", .str param.typeName), ("name", .str param.name),
    ("isCallback", .bool param.isCallback)]

/-- A method as JSON. -/
def ApiMethod.toJson (method : ApiMethod) : Json :=
  .obj [("name", .str method.name), ("params", .arr (method.params.map ApiParam.toJson)),
    ("returnType", .str method.returnType), ("isShared", .bool method.isShared),
    ("isConstant", .bool method.isConstant), ("mapping", .str method.mapping.name),
    ("mappingValue", .str method.mappingValue)]

/-- A type as JSON. -/
def ApiType.toJson (type : ApiType) : Json :=
  .obj [("name", .str type.name), ("isBuiltin", .bool type.isBuiltin),
    ("isNocopy", .bool type.isNocopy), ("extends", .ofOption .str type.parent),
    ("aliasOf", .ofOption .str type.aliasOf), ("methods", .arr (type.methods.map ApiMethod.toJson))]

/-- Several types as JSON. -/
def typesToJson (types : List ApiType) : Json :=
  .obj [("types", .arr (types.map ApiType.toJson))]

/-- A schema as JSON. -/
def Schema.toJson (schema : Schema) : Json := schema.writeWith typesToJson

/-! ## Reading

Types are added one after another in the order in which they stand in the list. -/

section

open Fields Json

/-- The kind of mapping of a name. -/
def MappingKind.ofName? : String → Option MappingKind
  | "map" => some .function
  | "inline" => some .template
  | "intrinsic" => some .intrinsic
  | _ => none

/-- Reads a parameter of a method. -/
def readApiParam : FieldReader ApiParam := do
  let typeName ← required "type" str?
  let name ← required "name" str?
  let isCallback ← defaulted "isCallback" false bool?
  return ⟨typeName, name, isCallback⟩

/-- Reads a method. -/
def ApiMethod.ofJson? : Json → Option ApiMethod := record? do
  let name ← required "name" str?
  let params ← defaulted "params" [] (list? (record? readApiParam))
  let returnType ← defaulted "returnType" "void" str?
  let isShared ← defaulted "isShared" false bool?
  let isConstant ← defaulted "isConstant" false bool?
  let mapping ← defaulted "mapping" .function (choice? MappingKind.ofName?)
  let mappingValue ← defaulted "mappingValue" "" str?
  return ⟨name, params, returnType, isShared, isConstant, mapping, mappingValue⟩

/-- Reads a type. -/
def ApiType.ofJson? : Json → Option ApiType := record? do
  let name ← required "name" str?
  let isBuiltin ← defaulted "isBuiltin" false bool?
  let isNocopy ← defaulted "isNocopy" false bool?
  let parent ← optional "extends" str?
  let aliasOf ← optional "aliasOf" str?
  let methods ← defaulted "methods" [] (list? ApiMethod.ofJson?)
  return ⟨name, isBuiltin, isNocopy, parent, aliasOf, methods⟩

/-- Reads several types. -/
def typesOfJson? : Json → Option (List ApiType) :=
  record? (required "types" (list? ApiType.ofJson?))

/-- Reads a schema. -/
def Schema.ofJson? : Json → Option Schema := Schema.readWith typesOfJson?

end

end UiLowering
