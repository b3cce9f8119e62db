/-!
# Primitive types

The names of the primitive types in the component language and in the target language.
-/

set_option autoImplicit false

namespace UiLowering.TypeName

/-- The target name of a primitive type. -/
def primitive? : String → Option String
  | "int" => some "int32_t"
  | "int8" => some "int8_t"
  | "int16" => some "int16_t"
  | "int32" => some "int32_t"
  | "int64" => some "int64_t"
  | "uint8" => some "uint8_t"
  | "uint16" => some "uint16_t"
  | "uint32" => some "uint32_t"
  | "uint64" => some "uint64_t"
  | "float32" => some "float"
  | "float64" => some "double"
  | "bool" => some "bool"
  | "void" => some "void"
  | "string" => some "webcc::string"
  | _ => none

/-- The primitive types of the target language.  They stand for themselves whatever a schema says,
so that `float`, the target name of `float32`, is not taken for a source name. -/
def targetPrimitives : List String :=
  ["int8_t", "int16_t", "int32_t", "int64_t", "uint8_t", "uint16_t", "uint32_t", "uint64_t",
    "float", "double", "bool", "void", "webcc::string"]

/-- The target integers that are narrower than what the runtime returns.  The result of a function
that is declared to return one of them is cast to it. -/
def narrowIntegers : List String :=
  ["int8_t", "int16_t", "int32_t", "uint8_t", "uint16_t", "uint32_t"]

/-- The cast for a target type, if its values need one. -/
def narrowingCast? (typeName : String) : Option String :=
  narrowIntegers.find? (· == typeName)

end UiLowering.TypeName
