import UiLowering.Component.Basic
import UiLowering.Effect.Writes
import UiLowering.Lower.Definition

/-!
# Lowering components

A component is lowered to fragments: its record types, enumerations, parameters, state and methods,
in this order.  Each component has a scope of its own.  It is opened once and goes through all
methods; each method takes over the scope that the one before has left, forgets the locals in it and
declares its own.
-/

set_option autoImplicit false

namespace UiLowering

namespace Component

/-- The notice that a scope is opened. -/
def opened (scope : Scope) : Notice :=
  .scopeOpened scope.component scope.module scope.globalTypes.size

/-- The scope of the members of a component. -/
def scopeOf (component : Component) (globalTypes : NameSet) : Scope :=
  let scope := Scope.ofComponent component.moduleName component.qualifiedName globalTypes
  let scope := (component.data.filter (·.moduleName == "")).foldl
    (fun scope data => scope.declareType data.name) scope
  let scope := component.enums.foldl (fun scope enum => scope.declareType enum.name) scope
  let scope := component.params.foldl (fun scope param =>
    let scope := scope.declareMember param.name param.typeName
    if param.isReference then scope.markReference param.name else scope) scope
  let scope := component.state.foldl
    (fun scope decl => scope.declareMember decl.name decl.typeName) scope
  component.methods.foldl
    (fun scope method => scope.declareMethod method.name method.params.length) scope

/-- The scope of a method, from the scope that the method before has left. -/
def methodScope (scope : Scope) (method : Method) : Scope :=
  method.symbols.foldl (fun scope (name, typeName) => scope.declareLocal name typeName)
    scope.enterMethod

/-- A fragment from its code. -/
def fragment (name : String) (kind : FragmentKind) (code : Lowered String) : Lowered Fragment := do
  let text ← code
  return ⟨name, kind, text⟩

/-- The fragments of the members of a component, in order. -/
def memberFragments (component : Component) (env : Env) : List (Lowered Fragment) :=
  component.data.map (fun data => fragment data.name .data (env.dataText data)) ++
    component.enums.map (fun enum => fragment enum.name .enum (env.enumDefText enum)) ++
    component.params.map (fun param => fragment param.name .param (env.memberParamText param)) ++
    component.state.map (fun decl => fragment decl.name .state (env.declText decl))

/-- The fragments of methods, in order.  The scope goes from each method to the next. -/
def methodFragments (env : Env) (loops : LoopTable) : List Method → Lowered (List Fragment)
  | [] => pure []
  | method :: methods => do
    let env := { env with scope := methodScope env.scope method }
    let first ← fragment method.name .method (env.methodText loops method "")
    let rest ← methodFragments env loops methods
    return first :: rest

/-- For each method the variables it may change; of two methods of one name the later counts. -/
def modifications (component : Component) (schema : Schema) : NameMap NameSet :=
  NameMap.ofEntries (component.methods.map fun method =>
    (method.name, method.writes schema component.loops))

/-- Lowers a component. -/
def lower (component : Component) (schema : Schema) (globalTypes : NameSet) (options : Options) :
    Lowered Output := do
  let env : Env := ⟨component.scopeOf globalTypes, schema, options⟩
  Lowered.note (opened env.scope)
  let members ← Lowered.all (component.memberFragments env)
  let methods ← methodFragments env component.loops component.methods
  return ⟨component.qualifiedName, members ++ methods, component.modifications schema⟩

/-- Lowers the components of a batch one after another.  The first fault ends it. -/
def lowerAll (components : List Component) (schema : Schema) (options : Options) :
    Lowered (List Output) :=
  Lowered.all (components.map fun component =>
    component.lower schema (globalTypes components) options)

end Component

end UiLowering
