import UiLowering.Component.Lower

/-!
# The scope of a component

A component fills its scope by lists of declarations, one after the other: its own record types, its
enumerations, its parameters, its state and its methods.  Each kind of declaration changes one part
of the scope and leaves the others alone, so every part is known from the lists that change it
(`mem_localTypes_scopeOf`, `mem_members_scopeOf`, `mem_references_scopeOf`, `mem_arities_scopeOf`).
-/

set_option autoImplicit false

namespace UiLowering.Component

/-! ## Lists of declarations

A list of declarations either leaves a part of the scope as it was or adds to it what each of its
members adds. -/

/-- What no declaration changes stays the same along a list of declarations. -/
theorem foldl_keeps {α β : Type} (part : Scope → β) {step : Scope → α → Scope}
    (h : ∀ scope x, part (step scope x) = part scope) (xs : List α) (scope : Scope) :
    part (xs.foldl step scope) = part scope := by
  induction xs generalizing scope with
  | nil => rfl
  | cons x xs ih => rw [List.foldl_cons, ih, h]

/-- What a list of declarations adds to a scope. -/
theorem foldl_iff {α : Type} {P : Scope → Prop} {step : Scope → α → Scope} {adds : α → Prop}
    (h : ∀ scope x, P (step scope x) ↔ P scope ∨ adds x) (xs : List α) (scope : Scope) :
    P (xs.foldl step scope) ↔ P scope ∨ ∃ x ∈ xs, adds x := by
  induction xs generalizing scope with
  | nil => simp
  | cons x xs ih => simp [ih, h, or_assoc]

theorem foldl_declareType_keeps {α β : Type} (part : Scope → β)
    (h : ∀ scope name, part (Scope.declareType scope name) = part scope) (nameOf : α → String)
    (xs : List α) (scope : Scope) :
    part (xs.foldl (fun scope x => scope.declareType (nameOf x)) scope) = part scope :=
  foldl_keeps part (fun scope x => h scope (nameOf x)) xs scope

theorem mem_localTypes_foldl {α : Type} (nameOf : α → String) (xs : List α) (scope : Scope)
    (name : String) :
    name ∈ (xs.foldl (fun scope x => scope.declareType (nameOf x)) scope).localTypes ↔
      name ∈ scope.localTypes ∨ ∃ x ∈ xs, nameOf x = name :=
  foldl_iff (P := fun scope => name ∈ scope.localTypes)
    (fun scope x => by simp [Scope.declareType, Std.ExtTreeSet.mem_insert, or_comm]) xs scope

/-! ## The parts of the scope

The first lemma on `scopeOf` opens it; the others look at one part each. -/

/-- The declaration of a parameter in the scope of its component. -/
def declareParam (scope : Scope) (param : ComponentParam) : Scope :=
  if param.isReference then
    (scope.declareMember param.name param.typeName).markReference param.name
  else scope.declareMember param.name param.typeName

/-- The names of the parameters that a component takes by reference. -/
def referenceNames (component : Component) : List String :=
  (component.params.filter (·.isReference)).map (·.name)

variable {component : Component} {shared : NameSet} {name : String}

theorem scopeOf_eq :
    component.scopeOf shared =
      component.methods.foldl
        (fun scope method => scope.declareMethod method.name method.params.length)
        (component.state.foldl (fun scope decl => scope.declareMember decl.name decl.typeName)
          (component.params.foldl declareParam
            (component.enums.foldl (fun scope enum => scope.declareType enum.name)
              ((component.data.filter (·.moduleName == "")).foldl
                (fun scope data => scope.declareType data.name)
                (Scope.ofComponent component.moduleName component.qualifiedName shared))))) :=
  rfl

/-- Members and methods do not change what a scope knows about types. -/
theorem scopeOf_keeps {β : Type} (part : Scope → β)
    (hmember : ∀ scope name typeName, part (Scope.declareMember scope name typeName) = part scope)
    (hreference : ∀ scope name, part (Scope.markReference scope name) = part scope)
    (hmethod : ∀ scope name arity, part (Scope.declareMethod scope name arity) = part scope) :
    part (component.scopeOf shared) =
      part (component.enums.foldl (fun scope enum => scope.declareType enum.name)
        ((component.data.filter (·.moduleName == "")).foldl
          (fun scope data => scope.declareType data.name)
          (Scope.ofComponent component.moduleName component.qualifiedName shared))) := by
  have hparam (scope : Scope) (param : ComponentParam) :
      part (declareParam scope param) = part scope := by
    unfold declareParam
    split
    · rw [hreference, hmember]
    · rw [hmember]
  rw [scopeOf_eq, foldl_keeps part fun scope method => hmethod scope _ _,
    foldl_keeps part fun scope decl => hmember scope _ _, foldl_keeps part hparam]

theorem scopeOf_component :
    (component.scopeOf shared).component = component.qualifiedName := by
  rw [scopeOf_keeps Scope.component (fun _ _ _ => rfl) (fun _ _ => rfl) fun _ _ _ => rfl,
    foldl_declareType_keeps Scope.component fun _ _ => rfl,
    foldl_declareType_keeps Scope.component fun _ _ => rfl]
  rfl

theorem scopeOf_module : (component.scopeOf shared).module = component.moduleName := by
  rw [scopeOf_keeps Scope.module (fun _ _ _ => rfl) (fun _ _ => rfl) fun _ _ _ => rfl,
    foldl_declareType_keeps Scope.module fun _ _ => rfl,
    foldl_declareType_keeps Scope.module fun _ _ => rfl]
  rfl

theorem mem_localTypes_scopeOf :
    name ∈ (component.scopeOf shared).localTypes ↔
      name ∈ (component.data.filter (·.moduleName == "")).map (·.name) ∨
        name ∈ component.enums.map (·.name) := by
  rw [scopeOf_keeps Scope.localTypes (fun _ _ _ => rfl) (fun _ _ => rfl) fun _ _ _ => rfl,
    mem_localTypes_foldl EnumDef.name, mem_localTypes_foldl DataDef.name, List.mem_map,
    List.mem_map]
  simp [Scope.ofComponent]

theorem mem_members_scopeOf :
    name ∈ (component.scopeOf shared).members ↔
      name ∈ component.params.map (·.name) ∨ name ∈ component.state.map (·.name) := by
  have hmethod (scope : Scope) (method : Method) :
      (scope.declareMethod method.name method.params.length).members = scope.members := rfl
  have hstate (scope : Scope) (decl : VarDecl) :
      name ∈ (scope.declareMember decl.name decl.typeName).members ↔
        name ∈ scope.members ∨ decl.name = name := by
    simp [Scope.declareMember, Std.ExtTreeMap.mem_insert, or_comm]
  have hparam (scope : Scope) (param : ComponentParam) :
      name ∈ (declareParam scope param).members ↔ name ∈ scope.members ∨ param.name = name := by
    unfold declareParam
    split <;> simp [Scope.declareMember, Scope.markReference, Std.ExtTreeMap.mem_insert, or_comm]
  rw [scopeOf_eq, foldl_keeps Scope.members hmethod,
    foldl_iff (P := fun scope => name ∈ scope.members) hstate,
    foldl_iff (P := fun scope => name ∈ scope.members) hparam,
    foldl_declareType_keeps Scope.members fun _ _ => rfl,
    foldl_declareType_keeps Scope.members fun _ _ => rfl]
  simp [Scope.ofComponent]

theorem mem_references_scopeOf :
    name ∈ (component.scopeOf shared).references ↔ name ∈ component.referenceNames := by
  have hmethod (scope : Scope) (method : Method) :
      (scope.declareMethod method.name method.params.length).references = scope.references := rfl
  have hstate (scope : Scope) (decl : VarDecl) :
      (scope.declareMember decl.name decl.typeName).references = scope.references := rfl
  have hparam (scope : Scope) (param : ComponentParam) :
      name ∈ (declareParam scope param).references ↔
        name ∈ scope.references ∨ param.isReference = true ∧ param.name = name := by
    unfold declareParam
    split
    · rename_i hreference
      simp [Scope.declareMember, Scope.markReference, Std.ExtTreeSet.mem_insert, hreference,
        or_comm]
    · rename_i hreference
      simp [Scope.declareMember, hreference]
  rw [scopeOf_eq, foldl_keeps Scope.references hmethod, foldl_keeps Scope.references hstate,
    foldl_iff (P := fun scope => name ∈ scope.references) hparam,
    foldl_declareType_keeps Scope.references fun _ _ => rfl,
    foldl_declareType_keeps Scope.references fun _ _ => rfl]
  simp [Scope.ofComponent, referenceNames, and_assoc]

theorem mem_arities_scopeOf :
    name ∈ (component.scopeOf shared).arities ↔ name ∈ component.methods.map (·.name) := by
  have hmethod (scope : Scope) (method : Method) :
      name ∈ (scope.declareMethod method.name method.params.length).arities ↔
        name ∈ scope.arities ∨ method.name = name := by
    simp [Scope.declareMethod, Std.ExtTreeMap.mem_insert, or_comm]
  have hstate (scope : Scope) (decl : VarDecl) :
      (scope.declareMember decl.name decl.typeName).arities = scope.arities := rfl
  have hparam (scope : Scope) (param : ComponentParam) :
      (declareParam scope param).arities = scope.arities := by
    unfold declareParam
    split <;> rfl
  rw [scopeOf_eq, foldl_iff (P := fun scope => name ∈ scope.arities) hmethod,
    foldl_keeps Scope.arities hstate, foldl_keeps Scope.arities hparam,
    foldl_declareType_keeps Scope.arities fun _ _ => rfl,
    foldl_declareType_keeps Scope.arities fun _ _ => rfl]
  simp [Scope.ofComponent]

end UiLowering.Component
