import UiLowering.Component.Basic
import UiLowering.Env
import UiLowering.Wire.Definition
import UiLowering.Wire.View

/-!
# Components, options, results and reports in JSON
-/

set_option autoImplicit false

namespace UiLowering

/-! ## Writing

A table becomes an object with one field for each of its names, in the order of the map. -/

/-- A component as JSON. -/
def Component.toJson (component : Component) : Json :=
  .obj [("name", .str component.name), ("moduleName", .str component.moduleName),
    ("data", .arr (component.data.map DataDef.toJson)),
    ("enums", .arr (component.enums.map EnumDef.toJson)),
    ("params", .arr (component.params.map ComponentParam.toJson)),
    ("state", .arr (component.state.map VarDecl.toJson)),
    ("methods", .arr (component.methods.map Method.toJson)),
    ("loops", LoopTable.toJson component.loops)]

/-- Options as JSON. -/
def Options.toJson (options : Options) : Json :=
  .obj [("trapNonExhaustiveMatch", .bool options.trapOpenMatch)]

/-- The name of a kind of fragment. -/
def FragmentKind.name : FragmentKind → String
  | .data => "data"
  | .enum => "enum"
  | .param => "param"
  | .state => "state"
  | .method => "method"

/-- A fragment as JSON. -/
def Fragment.toJson (fragment : Fragment) : Json :=
  .obj [("name", .str fragment.name), ("kind", .str fragment.kind.name),
    ("code", .str fragment.code)]

/-- The output of a component as JSON. -/
def Output.toJson (output : Output) : Json :=
  .obj [("component", .str output.component),
    ("fragments", .arr (output.fragments.map Fragment.toJson)),
    ("modifications",
      .obj (output.modifications.toList.map fun (method, names) => (method, .strs names.toList)))]

/-- A report as JSON. -/
def Diagnostic.toJson (d : Diagnostic) : Json :=
  .obj [("code", .str d.code), ("message", .str d.message), ("guarantee", .str d.guarantee),
    ("line", .nat d.line.toNat), ("context", .ofOption .str d.context), ("hints", .strs d.hints)]

/-! ## Reading

Only the name of a component has to be there. -/

section

open Fields Json

/-- Reads a component. -/
def Component.ofJson? : Json → Option Component := record? do
  let name ← required "name" str?
  let moduleName ← defaulted "moduleName" "" str?
  let data ← defaulted "data" [] (list? DataDef.ofJson?)
  let enums ← defaulted "enums" [] (list? EnumDef.ofJson?)
  let params ← defaulted "params" [] (list? ComponentParam.ofJson?)
  let state ← defaulted "state" [] (list? VarDecl.ofJson?)
  let methods ← defaulted "methods" [] (list? Method.ofJson?)
  let loops ← defaulted "loops" ∅ LoopTable.ofJson?
  return ⟨name, moduleName, data, enums, params, state, methods, loops⟩

/-- Reads options. -/
def Options.ofJson? : Json → Option Options := record? do
  let trapOpenMatch ← defaulted "trapNonExhaustiveMatch" false bool?
  return ⟨trapOpenMatch⟩

/-- The kind of fragment of a name. -/
def FragmentKind.ofName? : String → Option FragmentKind
  | "data" => some .data
  | "enum" => some .enum
  | "param" => some .param
  | "state" => some .state
  | "method" => some .method
  | _ => none

/-- Reads a kind of fragment. -/
def FragmentKind.ofJson? : Json → Option FragmentKind := choice? ofName?

/-- Reads a fragment. -/
def Fragment.ofJson? : Json → Option Fragment := record? do
  let name ← required "name" str?
  let kind ← required "kind" FragmentKind.ofJson?
  let code ← required "code" str?
  return ⟨name, kind, code⟩

/-- Reads a set of names. -/
def NameSet.ofJson? (json : Json) : Option NameSet := (list? str? json).map NameSet.ofNames

/-- Reads the output of a component. -/
def Output.ofJson? : Json → Option Output := record? do
  let component ← required "component" str?
  let fragments ← required "fragments" (list? Fragment.ofJson?)
  let modifications ← required "modifications" (entries? NameSet.ofJson?)
  return ⟨component, fragments, NameMap.ofEntries modifications⟩

/-- Reads a report. -/
def Diagnostic.ofJson? : Json → Option Diagnostic := record? do
  let code ← required "code" str?
  let message ← required "message" str?
  let guarantee ← required "guarantee" str?
  let line ← required "line" uint32?
  let context ← nullable "context" str?
  let hints ← required "hints" (list? str?)
  return ⟨code, message, guarantee, line, context, hints⟩

end

end UiLowering
