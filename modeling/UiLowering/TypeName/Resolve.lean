import UiLowering.Notice
import UiLowering.Schema.Lookup
import UiLowering.Scope
import UiLowering.TypeName.Primitive
import UiLowering.TypeName.Shape

/-!
# From source type names to target type names

`step` decides what a trimmed name is: a name with a known target text, a collection of some other
type, a second name, or the companion (`Meta`) of another type.  `form?` follows the steps to the
end and returns the form of the type, of which `TypeForm.text` is the target text.

A schema may give second names in a circle, or a second name that stands for an array of itself.
Then there is no end, and `form?` finds none however many steps it is allowed.  A name that has an
end reaches it before any name comes up twice, and only names cut from the end of the given name or
of one that the schema gives as a second name come up, so `stepLimit` steps are enough.  A name
without an end has the form `endless`.  It leaves a notice, and what leaves that notice has no
answer (`Lowered.answer?`).
-/

set_option autoImplicit false

namespace UiLowering

/-- The form of a resolved type. -/
inductive TypeForm where
  | known (text : String)
  | vector (element : TypeForm)
  | fixed (element : TypeForm) (size : String)
  | companion (base : TypeForm)
  /-- A name that stands for itself because nothing is known about it.  `base` is the form of the
  type it would be the companion of, if it is named like one. -/
  | unresolved (name : String) (base : Option TypeForm)
  /-- A name whose steps never end. -/
  | endless (name : String)

namespace TypeForm

/-- The target text of a type. -/
def text : TypeForm → String
  | .known text => text
  | .vector element => "webcc::vector<" ++ element.text ++ ">"
  | .fixed element size => "webcc::array<" ++ element.text ++ ", " ++ size ++ ">"
  | .companion base => base.text ++ "Meta"
  | .unresolved name _ => name
  | .endless name => name

/-- The notices about names of which nothing is known or whose steps never end. -/
def notices : TypeForm → List Notice
  | .known _ => []
  | .vector element => element.notices
  | .fixed element _ => element.notices
  | .companion base => base.notices
  | .unresolved name none => [.typeUnresolved name]
  | .unresolved name (some base) => base.notices ++ [.typeUnresolved name]
  | .endless name => [.typeEndless name]

end TypeForm

namespace TypeName

/-- What a trimmed type name is. -/
inductive Step where
  | known (text : String)
  | vector (element : String)
  | fixed (element size : String)
  | synonym (target : String)
  | companion (base : String)
  | unresolved

/-- A dotted or colon-separated path as one identifier; a name of the runtime stays as it is. -/
def flatten (name : String) : String :=
  if Text.startsWith "webcc::" name then name else String.ofList (Text.flattenChars name.toList)

/-- What a name is that is neither a collection nor primitive nor a second name. -/
def namedStep (scope : Scope) (schema : Schema) (name : String) : Step :=
  if scope.isLocalType name then .known (Text.qualify scope.component name)
  else
    let moduleForm := Text.qualify scope.module name
    if moduleForm != name && scope.isGlobalType moduleForm then .known moduleForm
    else if Text.isQualifiedPath name then .known (flatten name)
    else if schema.isHandle name then .known ("webcc::" ++ name)
    else
      match Text.dropEnd? "Meta" name with
      | some base => if base == "" then .unresolved else .companion base
      | none => .unresolved

/-- What a trimmed name is. -/
def step (scope : Scope) (schema : Schema) (name : String) : Step :=
  if name == "" then .known ""
  else
    match Text.dropEnd? "[]" name with
    | some element => .vector element
    | none =>
      match fixedArray? name with
      | some (element, size) => .fixed element size
      | none =>
        if targetPrimitives.contains name then .known name
        else
          match primitive? name with
          | some target => .known target
          | none =>
            let target := schema.resolveAlias name
            if target != name then .synonym target else namedStep scope schema name

/-- The form of a type, if it is found within `fuel` steps. -/
def form? (scope : Scope) (schema : Schema) : Nat → String → Option TypeForm
  | 0, _ => none
  | fuel + 1, raw =>
    let name := Text.trim raw
    match step scope schema name with
    | .known text => some (.known text)
    | .vector element => (form? scope schema fuel element).map .vector
    | .fixed element size => (form? scope schema fuel element).map (.fixed · size)
    | .synonym target => form? scope schema fuel target
    | .companion base =>
      (form? scope schema fuel base).map fun form =>
        if form.text == base then .unresolved name (some form) else .companion form
    | .unresolved => some (.unresolved name none)

/-- A number of steps that is enough for every name that has a form. -/
def stepLimit (schema : Schema) (name : String) : Nat :=
  schema.typeList.foldr (fun type limit => (type.aliasOf.map (·.length + 1)).getD 0 + limit)
    (name.length + 2)

/-- The form of a type. -/
def resolve (scope : Scope) (schema : Schema) (name : String) : TypeForm :=
  (form? scope schema (stepLimit schema name) name).getD (.endless name)

/-- The form of the element type of a collection. -/
def elementForm? (scope : Scope) (schema : Schema) (name : String) : Option TypeForm :=
  (elementName? name).map (resolve scope schema)

end TypeName

end UiLowering
