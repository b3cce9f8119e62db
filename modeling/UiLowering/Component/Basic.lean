import UiLowering.Names
import UiLowering.Source.Definition
import UiLowering.Text.Name
import UiLowering.View.Collection

/-!
# Components and their output
-/

set_option autoImplicit false

namespace UiLowering

/-- A component. -/
structure Component where
  name : String
  moduleName : String
  data : List DataDef
  enums : List EnumDef
  params : List ComponentParam
  state : List VarDecl
  methods : List Method
  loops : LoopTable

namespace Component

/-- A component without parts. -/
def plain (name : String) : Component := ⟨name, "", [], [], [], [], [], ∅⟩

/-- The name of a component in target text. -/
def qualifiedName (component : Component) : String :=
  Text.qualify component.moduleName component.name

/-- The target names of the record types that belong to a module. -/
def moduleTypes (component : Component) : List String :=
  (component.data.filter (·.moduleName != "")).map fun data =>
    Text.qualify data.moduleName data.name

/-- The types that all components of a batch know: the components, and the record types that belong
to a module. -/
def globalTypes (components : List Component) : NameSet :=
  NameSet.ofNames (components.map qualifiedName ++ components.flatMap moduleTypes)

end Component

/-- What a fragment of the output was made from. -/
inductive FragmentKind where
  | data
  | enum
  | param
  | state
  | method
deriving DecidableEq

/-- A piece of target text. -/
structure Fragment where
  name : String
  kind : FragmentKind
  code : String

/-- The target text of a component, and for each of its methods the variables it may change. -/
structure Output where
  component : String
  fragments : List Fragment
  modifications : NameMap NameSet

/-- The first fragment of a name and kind. -/
def Output.fragment? (output : Output) (name : String) (kind : FragmentKind) : Option Fragment :=
  output.fragments.find? fun fragment => fragment.name == name && fragment.kind = kind

end UiLowering
