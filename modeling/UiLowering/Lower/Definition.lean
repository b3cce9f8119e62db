import UiLowering.Lower.Stmt
import UiLowering.Source.Definition

/-!
# Lowering definitions
-/

set_option autoImplicit false

namespace UiLowering

/-- The smallest unsigned type that holds all values of an enumeration and the sentinel behind
them. -/
def enumStorage (count : Nat) : String :=
  if count + 1 ≤ 256 then "uint8_t" else if count + 1 ≤ 65536 then "uint16_t" else "uint32_t"

namespace Env

/-- The target name of a record type.  One that belongs to a module and not to the component bears
the name of its module. -/
def dataName (env : Env) (data : DataDef) : Lowered String :=
  if !env.scope.isLocalType data.name && data.moduleName != "" then
    pure (Text.qualify data.moduleName data.name)
  else env.typeText data.name

/-- A field of a record type. -/
def dataFieldText (env : Env) (field : DataField) : Lowered String := do
  let typeText ← env.typeText field.typeName
  return "    " ++ typeText ++ " " ++ field.name ++ ";\n"

/-- A record type. -/
def dataText (env : Env) (data : DataDef) : Lowered String := do
  let name ← env.dataName data
  let fields ← Lowered.all (data.fields.map env.dataFieldText)
  return "struct " ++ name ++ " \x7b\n" ++ Text.concat fields ++ "\x7d;\n"

/-- An enumeration, with a sentinel behind its values. -/
def enumDefText (env : Env) (enum : EnumDef) : Lowered String := do
  let name ← env.typeText enum.name
  return "enum struct " ++ name ++ " : " ++ enumStorage enum.values.length ++ " " ++
    braced (" " ++ Text.join ", " (enum.values ++ ["_COUNT"]) ++ " ") ++ ";\n"

/-- A parameter of a method. -/
def paramText (env : Env) (param : Param) : Lowered String := do
  let typeText ← env.typeText param.typeName
  return (if param.isMutable then "" else "const ") ++ typeText ++
    referenceMark param.isReference ++ " " ++ param.name

/-- A method.  `injected` is put at the end of its body. -/
def methodText (env : Env) (loops : LoopTable) (method : Method) (injected : String) :
    Lowered String := do
  let params ← Lowered.all (method.params.map env.paramText)
  let body ← env.bodyText loops method.body
  let returnText ← env.typeText method.returnType
  return returnText ++ " " ++ method.name ++ "(" ++ Text.join ", " params ++ ") \x7b\n" ++ body ++
    (if injected == "" then "" else Text.endLine injected) ++ "\x7d\n"

/-- The member that stores a parameter of a component; a reference is stored as a pointer. -/
def memberParamText (env : Env) (param : ComponentParam) : Lowered String := do
  let typeText ← env.typeText param.typeName
  if param.isReference then return typeText ++ "* " ++ param.name ++ " = nullptr;"
  else
    match param.defaultValue with
    | some value =>
      let code ← env.exprText value
      return typeText ++ " " ++ param.name ++ " = " ++ code ++ ";"
    | none => return typeText ++ " " ++ param.name ++ ";"

end Env

end UiLowering
