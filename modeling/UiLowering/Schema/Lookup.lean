import UiLowering.Schema.Basic

/-!
# Looking up types, methods and functions

Second names and ancestors are followed for sixteen steps at most, so that a schema whose links
run in a circle does no harm.
-/

set_option autoImplicit false

namespace UiLowering

namespace Schema

/-- How many links are followed. -/
def maxLinks : Nat := 16

/-- Follows at most `fuel` links from a second name to the name it stands for. -/
def followAlias (schema : Schema) : Nat → String → String
  | 0, name => name
  | fuel + 1, name =>
    match (schema.get? name).bind (·.aliasOf) with
    | some target => if target == name then name else schema.followAlias fuel target
    | none => name

/-- The name that a name stands for. -/
def resolveAlias (schema : Schema) (name : String) : String := schema.followAlias maxLinks name

/-- Whether a name belongs to a handle: a type that is neither built in nor a second name. -/
def isHandle (schema : Schema) (name : String) : Bool :=
  (schema.get? name).any fun type => !type.isBuiltin && type.aliasOf.isNone

/-- Whether `base` is met among the next `fuel` ancestors of a type. -/
def hasAncestor (schema : Schema) (base : String) : Nat → Option ApiType → Bool
  | 0, _ => false
  | _ + 1, none => false
  | fuel + 1, some type =>
    match type.parent with
    | none => false
    | some parent => parent == base || schema.hasAncestor base fuel (schema.get? parent)

/-- Whether one type extends another, directly or through others. -/
def inheritsFrom (schema : Schema) (derived base : String) : Bool :=
  schema.hasAncestor base maxLinks (schema.get? derived)

/-- The methods named `method` of a type and of its ancestors, `fuel` types in all. -/
def collectMethods (schema : Schema) (method : String) : Nat → Option ApiType → List ApiMethod
  | 0, _ => []
  | _ + 1, none => []
  | fuel + 1, some type =>
    type.methods.filter (·.name == method) ++
      schema.collectMethods method fuel (type.parent.bind schema.get?)

/-- The methods of a name that a type has itself or from an ancestor, the nearest first. -/
def methodsNamed (schema : Schema) (typeName method : String) : List ApiMethod :=
  schema.collectMethods method maxLinks (schema.get? typeName)

/-- Whether a method takes the given number of arguments; without a number it always does. -/
def takes (arity : Option Nat) (method : ApiMethod) : Bool :=
  arity.all fun n => method.params.length == n

/-- The nearest method of a name that takes the given number of arguments. -/
def lookupMethod (schema : Schema) (typeName method : String) (arity : Option Nat) :
    Option ApiMethod :=
  (schema.methodsNamed typeName method).find? (takes arity)

/-- A function of the runtime, with the method that is mapped to it. -/
structure Function where
  typeName : String
  space : String
  function : String
  method : ApiMethod

/-- The function an entry of the index leads to, if it takes the given number of arguments. -/
def functionAt? (schema : Schema) (arity : Option Nat) (entry : String × Nat) :
    Option Function := do
  let type ← schema.get? entry.1
  let method ← type.methods[entry.2]?
  let (space, function) ← method.target?
  if takes arity method then some ⟨type.name, space, function, method⟩ else none

/-- Finds a function of the runtime by its name, in camel case or in snake case. -/
def lookupFunction (schema : Schema) (name : String) (arity : Option Nat) : Option Function :=
  (schema.functions.getD (Text.snakeCase name) []).findSome? (schema.functionAt? arity)

end Schema

end UiLowering
