import UiLowering.Proofs.Call.Route
import UiLowering.Proofs.Component.Isolation
import UiLowering.Proofs.Component.Scope
import UiLowering.Proofs.Text.Cut
import UiLowering.Proofs.TypeName.Plain

/-!
# The names of the enumerations of components

An enumeration is declared by its component, under a name that begins with the name of the component
and, if there is one, that of its module.  It is referred to by the path from the component to it,
which is flattened where the reference stands.  No rule puts the name of the module in front of the
flattened path.  So the two names meet if the component has no module, and part if it has one.

The theorem is an equivalence, so the counterexample is not one special program: in a module, no
enumeration with a plain name and no second meaning is referred to under the name that it is
declared under.  It does not matter from which component of the module the reference is made.
-/

set_option autoImplicit false

namespace UiLowering

/-! ## Paths of two names

The path of an enumeration has one dot, between two plain names.  A dot rules out most of what a
type name can be, so the step from such a path is one of three rules, and only one of them
flattens. -/

namespace TypeName

variable {schema : Schema} {owner name : String}

theorem dot_mem_path (owner name : String) : '.' ∈ (owner ++ "." ++ name).toList := by
  rw [Text.toList_dotted]
  exact List.mem_append_right _ List.mem_cons_self

theorem ne_empty_of_dot {name : String} (h : '.' ∈ name.toList) : name ≠ "" := by
  rintro rfl
  cases h

theorem not_mem_path (howner : Text.IsPlain owner) (hname : Text.IsPlain name) {c : Char}
    (hc : Text.isPlainChar c = false) (hdot : c ≠ '.') : c ∉ (owner ++ "." ++ name).toList := by
  rw [Text.toList_dotted, List.mem_append, List.mem_cons]
  rintro (howner' | rfl | hname')
  · exact howner.not_mem hc howner'
  · exact hdot rfl
  · exact hname.not_mem hc hname'

theorem flatten_path (howner : Text.IsPlain owner) (hname : Text.IsPlain name) :
    flatten (owner ++ "." ++ name) = owner ++ "_" ++ name := by
  have hruntime : Text.startsWith "webcc::" (owner ++ "." ++ name) = false := by
    rw [← Bool.not_eq_true]
    intro hstarts
    obtain ⟨rest, hrest⟩ := List.isPrefixOf_iff_prefix.1 hstarts
    refine not_mem_path howner hname (by decide : Text.isPlainChar ':' = false) (by decide) ?_
    rw [← hrest]
    exact List.mem_append_left rest (by decide)
  rw [flatten, hruntime, if_neg Bool.false_ne_true, Text.toList_dotted,
    Text.flattenChars_append howner.2, Text.flattenChars, hname.flattenChars_eq,
    ← String.toList_inj]
  simp [String.toList_append]

/-- No primitive type is named by a path. -/
theorem not_isPrimitive_of_dot {name : String} (h : '.' ∈ name.toList) : ¬IsPrimitive name := by
  rintro (htarget | hsource)
  · have hdots : ∀ target ∈ targetPrimitives, '.' ∉ target.toList := by decide
    exact hdots name htarget h
  · unfold primitive? at hsource
    split at hsource
    case h_15 => cases hsource
    all_goals exact absurd h (by decide)

theorem exists_qualify_path (module owner name : String) :
    ∃ front, Text.qualify module (owner ++ "." ++ name) = front ++ "." ++ name := by
  rw [Text.qualify]
  split
  · exact ⟨owner, rfl⟩
  · exact ⟨module ++ "_" ++ owner, by simp [String.append_assoc]⟩

/-- The type a path of two names leads to.  The path is flattened, unless it is itself the name of a
type of the component or of the module; then it keeps its dot. -/
theorem exists_step_path (scope : Scope) (howner : Text.IsPlain owner) (hname : Text.IsPlain name)
    (halias : schema.resolveAlias (owner ++ "." ++ name) = owner ++ "." ++ name) :
    ∃ text, step scope schema (Text.trim (owner ++ "." ++ name)) = .known text ∧
      ((scope.isLocalType (owner ++ "." ++ name) = false ∧ text = owner ++ "_" ++ name) ∨
        (scope.isLocalType (owner ++ "." ++ name) = true ∨ scope.module ≠ "") ∧
          ∃ front, text = front ++ "." ++ name) := by
  have hplain : Text.IsPlainPath (owner ++ "." ++ name) := .join howner .dot (.name hname)
  rw [hplain.trim_eq, step_eq_namedStep hplain.ne_empty
    (hplain.not_mem (by decide) (by decide) (by decide))
    (not_isPrimitive_of_dot (dot_mem_path owner name)) halias]
  -- The rules for types of the component and of the module come before the one that flattens.
  by_cases hlocal : scope.isLocalType (owner ++ "." ++ name) = true
  · refine ⟨_, by rw [namedStep, if_pos hlocal], Or.inr ⟨Or.inl hlocal, ?_⟩⟩
    exact exists_qualify_path scope.component owner name
  · by_cases hmodule : (Text.qualify scope.module (owner ++ "." ++ name) != owner ++ "." ++ name &&
        scope.isGlobalType (Text.qualify scope.module (owner ++ "." ++ name))) = true
    · refine ⟨_, by simp only [namedStep, hlocal, hmodule, if_true]; rfl, Or.inr ⟨Or.inr ?_, ?_⟩⟩
      · rintro hnone
        rw [hnone] at hmodule
        simp [Text.qualify] at hmodule
      · exact exists_qualify_path scope.module owner name
    · have hpath : Text.isQualifiedPath (owner ++ "." ++ name) = true :=
        Text.isQualifiedPath_join owner name .dot
      refine ⟨_, by simp only [namedStep, hlocal, hmodule, hpath, if_true]; rfl, Or.inl ⟨?_, ?_⟩⟩
      · exact Bool.not_eq_true _ ▸ hlocal
      · exact flatten_path howner hname

/-- Locals do not matter to the names of types. -/
theorem step_withLocals (scope : Scope) (locals : NameMap String) (schema : Schema)
    (name : String) :
    step { scope with locals := locals } schema name = step scope schema name := rfl

end TypeName

/-! ## The scope of a component

Of the scope of a component only its own types matter here, and its enumerations are among them. -/

namespace Component

variable {component : Component} {shared : NameSet}

theorem isLocalType_scopeOf {enum : EnumDef} (henum : enum ∈ component.enums)
    (hname : component.qualifiedName ≠ "") :
    (component.scopeOf shared).isLocalType enum.name = true := by
  rw [Scope.isLocalType, scopeOf_component, Bool.and_eq_true, bne_iff_ne,
    Std.ExtTreeSet.contains_iff_mem]
  exact ⟨hname, mem_localTypes_scopeOf.2 (Or.inr (List.mem_map_of_mem henum))⟩

/-! ## The name in the declaration

The declaration stands in the output of the component that owns the enumeration, and its name is
built from the qualified name of that component.  It is there whenever the batch is lowered. -/

/-- The name that a component gives to an enumeration of its own. -/
def enumName (component : Component) (enum : EnumDef) : String :=
  Text.qualify component.qualifiedName enum.name

theorem qualifiedName_ne_empty (hname : component.name ≠ "") : component.qualifiedName ≠ "" := by
  rw [qualifiedName, Text.qualify]
  split
  · exact hname
  · intro h
    have hlength := congrArg String.length h
    simp at hlength

theorem enumName_eq (hname : component.name ≠ "") (enum : EnumDef) :
    component.enumName enum = component.qualifiedName ++ "_" ++ enum.name := by
  rw [enumName, Text.qualify, if_neg (by simp [qualifiedName_ne_empty hname])]

/-- The declaration of an enumeration, as its component writes it. -/
def enumDeclaration (component : Component) (enum : EnumDef) : Fragment :=
  ⟨enum.name, .enum, "enum struct " ++ component.enumName enum ++ " : " ++
    enumStorage enum.values.length ++ " " ++
    braced (" " ++ Text.join ", " (enum.values ++ ["_COUNT"]) ++ " ") ++ ";\n"⟩

variable {schema : Schema} {options : Options} {enum : EnumDef}

theorem fragment_enumDefText (henum : enum ∈ component.enums) (hname : component.name ≠ "")
    (hplain : Text.IsPlain enum.name) (hprimitive : ¬TypeName.IsPrimitive enum.name)
    (halias : schema.resolveAlias enum.name = enum.name) :
    fragment enum.name .enum ((component.envOf schema shared options).enumDefText enum) =
      pure (component.enumDeclaration enum) := by
  have hlocal : (component.scopeOf shared).isLocalType enum.name = true :=
    isLocalType_scopeOf henum (qualifiedName_ne_empty hname)
  have hbracket : ']' ∉ enum.name.toList := fun h =>
    Text.ne_of_isPlainChar (hplain.2 ']' h) (by decide) rfl
  have hstep : TypeName.step (component.scopeOf shared) schema (Text.trim enum.name) =
      .known (component.enumName enum) := by
    rw [Text.trim_of_not_blank fun c hc => Text.not_isBlank_of_isPlainChar (hplain.2 c hc),
      TypeName.step_eq_namedStep hplain.1 hbracket hprimitive halias, TypeName.namedStep,
      if_pos hlocal, scopeOf_component, enumName]
  have htype : (component.envOf schema shared options).typeText enum.name =
      pure (component.enumName enum) := Env.typeText_of_step hstep
  rw [fragment, Env.enumDefText, htype]
  rfl

/-- Whenever a batch is lowered, the declarations of its enumerations are in the output. -/
theorem exists_enumDeclaration {components : List Component} {outputs : List Output}
    (hcomponent : component ∈ components) (henum : enum ∈ component.enums)
    (hname : component.name ≠ "") (hplain : Text.IsPlain enum.name)
    (hprimitive : ¬TypeName.IsPrimitive enum.name)
    (halias : schema.resolveAlias enum.name = enum.name)
    (h : (lowerAll components schema options).result = .ok outputs) :
    ∃ output ∈ outputs, output.component = component.qualifiedName ∧
      component.enumDeclaration enum ∈ output.fragments := by
  obtain ⟨output, houtput, hlower⟩ := Lowered.exists_value_of_mem
    (Lowered.result_all_eq_ok_iff.1 h) (List.mem_map_of_mem hcomponent)
  obtain ⟨hqualified, hfragments, -⟩ := result_lower_iff.1 hlower
  have hmember : fragment enum.name .enum
      ((component.envOf schema (globalTypes components) options).enumDefText enum) ∈
        component.ownFragments (component.envOf schema (globalTypes components) options) := by
    simp only [ownFragments, memberFragments, List.mem_append, List.mem_map]
    exact Or.inl (Or.inl (Or.inl (Or.inr ⟨enum, henum, rfl⟩)))
  obtain ⟨found, hfound, hresult⟩ := Lowered.exists_value_of_mem hfragments hmember
  rw [fragment_enumDefText henum hname hplain hprimitive halias] at hresult
  cases hresult
  exact ⟨output, houtput, hqualified, hfound⟩

/-! ## The name in a reference

A value of the enumeration and its number of values are referred to by the same path, so they use
the same type name.  The name is compared with the declared one by its dots and by its length. -/

theorem dotted_ne_joined (front other name : String) :
    front ++ "." ++ name ≠ other ++ "_" ++ name := by
  intro h
  have hlists := congrArg String.toList h
  simp only [String.toList_append, List.append_assoc] at hlists
  have htails := (List.append_inj' hlists rfl).2
  cases htails

theorem joined_eq_enumName_iff (hname : component.name ≠ "") :
    component.name ++ "_" ++ enum.name = component.enumName enum ↔ component.moduleName = "" := by
  rw [enumName_eq hname, qualifiedName, Text.qualify]
  constructor
  · intro h
    by_contra hmodule
    rw [if_neg (by simpa using hmodule)] at h
    have hlength := congrArg String.length h
    have hjoint : "_".length = 1 := rfl
    simp only [String.length_append, hjoint] at hlength
    omega
  · intro hmodule
    rw [if_pos (by simpa using hmodule)]

/-- The surroundings of a place in a component of a batch, with the locals declared there. -/
def envAt (component : Component) (components : List Component) (schema : Schema)
    (options : Options) (locals : NameMap String) : Env :=
  ⟨{ component.scopeOf (globalTypes components) with locals := locals }, schema, options⟩

/-- A value of an enumeration, by the path that leads to it. -/
def enumAccess (owner : Component) (enum : EnumDef) (valueName : String) : Expr :=
  .enumValue ⟨enum.name, valueName, some owner.name⟩

/-- The number of values of an enumeration, by the path that leads to it. -/
def enumSizeCall (owner : Component) (enum : EnumDef) (line : UInt32) : Expr :=
  .call ⟨owner.name ++ "." ++ enum.name ++ ".size", [], line⟩

section Reference

variable {env : Env} {owner : Component} {used : String}

theorem exprText_enumAccess (h : env.typeText (owner.name ++ "." ++ enum.name) = pure used)
    (valueName : String) :
    env.exprText (owner.enumAccess enum valueName) = pure (used ++ "::" ++ valueName) := by
  have htext : env.enumText (some owner.name) enum.name valueName =
      pure (used ++ "::" ++ valueName) := by
    rw [Env.enumText, h]
    rfl
  exact Env.exprText_of_lower (by rw [enumAccess, Env.lower, htext])

theorem startsUpper_path (name : String) (hupper : Text.startsUpper owner.name = true) :
    Text.startsUpper (owner.name ++ "." ++ name) = true := by
  rw [Text.startsUpper] at hupper ⊢
  rw [Text.toList_dotted, List.head?_append_of_ne_nil]
  · exact hupper
  · intro hnil
    rw [hnil] at hupper
    cases hupper

theorem exprText_enumSizeCall (h : env.typeText (owner.name ++ "." ++ enum.name) = pure used)
    (hupper : Text.startsUpper owner.name = true) (line : UInt32) :
    env.exprText (owner.enumSizeCall enum line) =
      pure ("static_cast<int32_t>(" ++ used ++ "::_COUNT)") := by
  have hdot := TypeName.dot_mem_path owner.name enum.name
  have hsplit : splitReceiver (owner.name ++ "." ++ enum.name ++ ".size") =
      some (owner.name ++ "." ++ enum.name, "size") :=
    splitReceiver_eq_some_iff.2
      ⟨by simp [String.append_assoc], by decide, TypeName.ne_empty_of_dot hdot, by decide⟩
  have htext := Env.exprText_of_enumSize env ⟨owner.name ++ "." ++ enum.name ++ ".size", [], line⟩
    hsplit rfl hdot (startsUpper_path enum.name hupper)
  rw [enumSizeCall, htext, h]
  rfl

end Reference

/-- **Declaration and reference.**  A component declares an enumeration, and a component of the same
module refers to it by its path.  The reference always has a text, and both forms of it use the same
type name.  This is the name in the declaration exactly if the components have no module and the one
that refers has no type with the path for its name. -/
theorem enumName_agrees_iff (components : List Component) (schema : Schema) (options : Options)
    (owner user : Component) (enum : EnumDef) (howner : owner ∈ components)
    (hmodule : user.moduleName = owner.moduleName)
    (henum : enum ∈ owner.enums) (hname : Text.IsPlain owner.name)
    (hplain : Text.IsPlain enum.name) (hprimitive : ¬TypeName.IsPrimitive enum.name)
    (halias : schema.resolveAlias enum.name = enum.name)
    (hpath : schema.resolveAlias (owner.name ++ "." ++ enum.name) =
      owner.name ++ "." ++ enum.name) :
    (∀ outputs, (lowerAll components schema options).result = .ok outputs →
      ∃ output ∈ outputs, output.component = owner.qualifiedName ∧
        owner.enumDeclaration enum ∈ output.fragments) ∧
    ∃ used : String,
      (∀ locals valueName,
        (user.envAt components schema options locals).exprText (owner.enumAccess enum valueName) =
          pure (used ++ "::" ++ valueName)) ∧
      (∀ locals line, Text.startsUpper owner.name = true →
        (user.envAt components schema options locals).exprText (owner.enumSizeCall enum line) =
          pure ("static_cast<int32_t>(" ++ used ++ "::_COUNT)")) ∧
      (used = owner.enumName enum ↔
        owner.moduleName = "" ∧
          (user.scopeOf (globalTypes components)).isLocalType (owner.name ++ "." ++ enum.name) =
            false) := by
  refine ⟨fun outputs houtputs =>
    exists_enumDeclaration howner henum hname.1 hplain hprimitive halias houtputs, ?_⟩
  obtain ⟨used, hstep, hused⟩ := TypeName.exists_step_path
    (user.scopeOf (globalTypes components)) hname hplain hpath
  have htype (locals : NameMap String) :
      (user.envAt components schema options locals).typeText (owner.name ++ "." ++ enum.name) =
        pure used :=
    Env.typeText_of_step ((TypeName.step_withLocals _ locals schema _).trans hstep)
  refine ⟨used, fun locals => exprText_enumAccess (htype locals), fun locals line hupper =>
    exprText_enumSizeCall (htype locals) hupper line, ?_⟩
  rw [scopeOf_module, hmodule] at hused
  rcases hused with ⟨hlocal, rfl⟩ | ⟨hrule, front, rfl⟩
  · rw [joined_eq_enumName_iff hname.1, hlocal]
    simp
  · -- The name used has a dot where the name declared has an underscore.
    rw [enumName_eq hname.1]
    constructor
    · intro h
      exact absurd h (dotted_ne_joined front owner.qualifiedName enum.name)
    · rintro ⟨hnone, hlocal⟩
      rw [hnone, hlocal] at hrule
      simp at hrule

/-- Without modules, a page that refers to an enumeration of the application uses the name that is
declared. -/
theorem enumName_agrees_iff_page :
    let mode : EnumDef := ⟨"Mode", ["On", "Off"]⟩
    let app : Component := { plain "App" with enums := [mode] }
    let page : Component := plain "Page"
    ∃ outputs, (lowerAll [app, page] Schema.empty .default).result = .ok outputs ∧
      (∃ output ∈ outputs, output.component = "App" ∧
        ⟨"Mode", .enum, "enum struct App_Mode : uint8_t \x7b On, Off, _COUNT \x7d;\n"⟩ ∈
          output.fragments) ∧
      (∀ locals, (page.envAt [app, page] Schema.empty .default locals).exprText
        (app.enumAccess mode "On") = pure "App_Mode::On") ∧
      ∀ locals, (page.envAt [app, page] Schema.empty .default locals).exprText
        (app.enumSizeCall mode 1) = pure "static_cast<int32_t>(App_Mode::_COUNT)" := by
  intro mode app page
  obtain ⟨outputs, houtputs⟩ := Lowered.exists_ok_of_isOk
    (show (lowerAll [app, page] Schema.empty .default).result.isOk = true by decide +kernel)
  have hprimitive : ¬TypeName.IsPrimitive mode.name := by
    rintro (h | h) <;> revert h <;> decide
  have hplain (name : String) (hname : name ≠ "" ∧ name.toList.all Text.isPlainChar = true) :
      Text.IsPlain name := ⟨hname.1, List.all_eq_true.1 hname.2⟩
  obtain ⟨hdeclared, used, haccess, hsize, hagree⟩ := enumName_agrees_iff [app, page] Schema.empty
    .default app page mode List.mem_cons_self rfl List.mem_cons_self (hplain "App" (by decide))
    (hplain "Mode" (by decide)) hprimitive (TypeName.resolveAlias_eq_self rfl)
    (TypeName.resolveAlias_eq_self rfl)
  have hused : used = "App_Mode" := hagree.2 ⟨rfl, by decide +kernel⟩
  subst hused
  exact ⟨outputs, houtputs, hdeclared outputs houtputs, fun locals => haccess locals "On",
    fun locals => hsize locals 1 (by decide)⟩

/-- In a module, the component that declares an enumeration does not find it by its path. -/
theorem enumName_differs_in_module :
    let mode : EnumDef := ⟨"Mode", ["On", "Off"]⟩
    let app : Component := { plain "App" with moduleName := "Shop", enums := [mode] }
    let env : Env := app.envAt [app] Schema.empty .default ∅
    app.enumName mode = "Shop_App_Mode" ∧
      (env.enumDefText mode).result.toOption =
        some "enum struct Shop_App_Mode : uint8_t \x7b On, Off, _COUNT \x7d;\n" ∧
      (env.exprText (app.enumAccess mode "On")).result.toOption = some "App_Mode::On" ∧
      (env.exprText (app.enumSizeCall mode 1)).result.toOption =
        some "static_cast<int32_t>(App_Mode::_COUNT)" := by
  intro mode app env
  refine ⟨rfl, ?_, ?_, ?_⟩ <;> decide +kernel

end Component

end UiLowering
