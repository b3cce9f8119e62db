import UiLowering.Source.Stmt

/-!
# Definitions

The parts of a component: records, enumerations, parameters and methods.
-/

set_option autoImplicit false

namespace UiLowering

/-- A parameter of a method. -/
structure Param where
  typeName : String
  name : String
  isMutable : Bool
  isReference : Bool

/-- A method. -/
structure Method where
  name : String
  returnType : String
  params : List Param
  body : List Stmt
  isPublic : Bool

/-- A field of a record type. -/
structure DataField where
  typeName : String
  name : String

/-- A record type.  `moduleName` is empty for one that belongs to its component. -/
structure DataDef where
  name : String
  moduleName : String
  fields : List DataField

/-- An enumeration. -/
structure EnumDef where
  name : String
  values : List String

/-- A parameter of a component.  A parameter taken by reference is stored as a pointer. -/
structure ComponentParam where
  typeName : String
  name : String
  defaultValue : Option Expr
  isMutable : Bool
  isReference : Bool
  isPublic : Bool

namespace Method

/-- The name and type of what a statement declares. -/
def declared? : Stmt → Option (String × String)
  | .declare decl => some (decl.name, decl.typeName)
  | .forRange counter _ _ _ => some (counter, "int")
  | _ => none

/-- The names and types of the parameters and of everything declared anywhere in the body, in the
order of the source text. -/
def symbols (method : Method) : List (String × String) :=
  method.params.map (fun param => (param.name, param.typeName)) ++
    (Stmt.listNodes method.body).filterMap declared?

end Method

end UiLowering
