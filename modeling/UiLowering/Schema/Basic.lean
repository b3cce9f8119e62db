import UiLowering.Names
import UiLowering.Text.Cut
import UiLowering.Text.Snake

/-!
# The schema of the runtime

A schema describes the types that the runtime offers: the built-in texts and arrays, handles, and
namespaces of free functions.  Each method says how a call to it is lowered.

Besides the types a schema keeps an index from the snake case of each mapped function to the
methods that are mapped to it.  Types that are inserted later come later in an entry, and inserting
a type of a name that is already there takes the place of the old one.
-/

set_option autoImplicit false

namespace UiLowering

/-- How a call to a method is lowered. -/
inductive MappingKind where
  /-- To the function `namespace::function` of the runtime. -/
  | function
  /-- By a template with placeholders for the receiver and the arguments. -/
  | template
  /-- By one of the generators this library brings along. -/
  | intrinsic
deriving DecidableEq

/-- A parameter of a method of the runtime. -/
structure ApiParam where
  typeName : String
  name : String
  isCallback : Bool

/-- A method of the runtime.  A shared constant holds its literal in `mappingValue`. -/
structure ApiMethod where
  name : String
  params : List ApiParam
  returnType : String
  isShared : Bool
  isConstant : Bool
  mapping : MappingKind
  mappingValue : String

/-- A type of the runtime, which may extend another type or be a second name of one. -/
structure ApiType where
  name : String
  isBuiltin : Bool
  isNocopy : Bool
  parent : Option String
  aliasOf : Option String
  methods : List ApiMethod

namespace ApiMethod

/-- A method without parameters and result. -/
def plain (name : String) (mapping : MappingKind) (mappingValue : String) : ApiMethod :=
  ⟨name, [], "void", false, false, mapping, mappingValue⟩

/-- A shared constant. -/
def constant (name literal : String) : ApiMethod :=
  { plain name .template literal with isShared := true, isConstant := true }

/-- The method with one more parameter. -/
def withParam (method : ApiMethod) (typeName name : String) : ApiMethod :=
  { method with params := method.params ++ [⟨typeName, name, false⟩] }

/-- The method with one more parameter, which is a callback. -/
def withCallback (method : ApiMethod) (name : String) : ApiMethod :=
  { method with params := method.params ++ [⟨"callback", name, true⟩] }

/-- The method with the given result. -/
def returning (method : ApiMethod) (typeName : String) : ApiMethod :=
  { method with returnType := typeName }

/-- The method, called on its type and not on a value. -/
def shared (method : ApiMethod) : ApiMethod := { method with isShared := true }

/-- The namespace and the function of a method that is mapped to a function; both have to be
named. -/
def target? (method : ApiMethod) : Option (String × String) :=
  match method.mapping with
  | .function =>
    (Text.cutColons method.mappingValue).filter fun (space, function) =>
      space != "" && function != ""
  | _ => none

end ApiMethod

namespace ApiType

/-- A type without methods that extends nothing. -/
def plain (name : String) : ApiType := ⟨name, false, false, none, none, []⟩

/-- A built-in type. -/
def builtin (name : String) : ApiType := { plain name with isBuiltin := true }

/-- A second name of a type. -/
def synonym (name target : String) : ApiType := { builtin name with aliasOf := some target }

end ApiType

/-- The types of the runtime by name, and its functions by their name in snake case.  An entry of
the index is the name of a type and the position of a method in it. -/
structure Schema where
  types : NameMap ApiType
  functions : NameMap (List (String × Nat))

namespace Schema

/-- The schema without types. -/
def empty : Schema := ⟨∅, ∅⟩

/-- The functions that the methods of a type are mapped to, in snake case, with the positions of
the methods. -/
def mappedFunctions (type : ApiType) : List (String × Nat) :=
  type.methods.zipIdx.filterMap fun (method, i) =>
    method.target?.map fun (_, function) => (Text.snakeCase function, i)

/-- The index without the entries of the type `owner`. -/
def withoutOwner (functions : NameMap (List (String × Nat))) (owner : String) :
    NameMap (List (String × Nat)) :=
  functions.map fun _ entries => entries.filter fun entry => entry.1 != owner

/-- The index with one more entry at the end of the list for `key`. -/
def withEntry (functions : NameMap (List (String × Nat))) (key : String) (entry : String × Nat) :
    NameMap (List (String × Nat)) :=
  functions.insert key (functions.getD key [] ++ [entry])

/-- Adds a type, in place of one of the same name. -/
def insert (schema : Schema) (type : ApiType) : Schema where
  types := schema.types.insert type.name type
  functions :=
    (mappedFunctions type).foldl (fun functions (key, i) => withEntry functions key (type.name, i))
      (withoutOwner schema.functions type.name)

/-- The schema that arises from adding the types in order. -/
def ofTypes (types : List ApiType) : Schema := types.foldl insert empty

/-- The type of a name. -/
def get? (schema : Schema) (name : String) : Option ApiType := schema.types[name]?

/-- All types in the order of their names. -/
def typeList (schema : Schema) : List ApiType := schema.types.toList.map (·.2)

/-! ## Schemas that are written down

Of a schema only its types are written, in whatever way lists of types are.  The index is built anew
when they are read. -/

variable {τ : Type}

/-- Writes the types in the order of their names. -/
def writeWith (write : List ApiType → τ) (schema : Schema) : τ := write schema.typeList

/-- Reads types and adds them in the order in which they are listed. -/
def readWith (read : τ → Option (List ApiType)) (written : τ) : Option Schema :=
  (read written).map ofTypes

end Schema

end UiLowering
