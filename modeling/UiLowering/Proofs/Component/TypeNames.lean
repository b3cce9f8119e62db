import Mathlib.Data.List.Pairwise
import UiLowering.Proofs.Component.EnumName

/-!
# The type names of a batch

Everything that a batch declares has a path: the names of its module, of its component and its own,
as far as there are any.  Its target name is the path with underscores between the names.  A name
may hold underscores itself, and a path does not say what it leads to.  So two declarations of a
batch get the same name exactly if their paths have the same words (`Entity.words`), cut at all
underscores.

A record type of a module that is named like a type of the component that carries it is declared
under the name of the latter.

A name that is joined from three can be cut in several ways if the three may hold underscores
themselves, and nothing in the source forbids that.  The condition in the theorem is stated on words
and not on names for this reason.  It becomes the plain one, different paths for different entities,
where no name has an underscore (`words_eq_iff`).
-/

set_option autoImplicit false

namespace UiLowering

/-! ## What has a name

An entity is named by a path, and its target name joins the path with underscores.  Joining is not
injective if the names may hold underscores.  What it does determine is the list of stretches
between all underscores, those of the joints and those of the names. -/

/-- What a batch declares under a name of its own: a component, a type of a component, or a record
type of a module. -/
inductive Entity where
  | component (module name : String)
  | ownType (module owner name : String)
  | moduleType (module name : String)
deriving DecidableEq

namespace Entity

/-- Names inside a module; the empty name is no module. -/
def within (module : String) (names : List String) : List String :=
  if module == "" then names else module :: names

/-- The names that lead to an entity. -/
def path : Entity → List String
  | component module name => within module [name]
  | ownType module owner name => within module [owner, name]
  | moduleType module name => within module [name]

/-- The name of an entity in target text. -/
def targetName (entity : Entity) : String := Text.join "_" entity.path

/-- The stretches between the underscores of a path. -/
def words (entity : Entity) : List (List Char) :=
  entity.path.flatMap fun name => name.toList.splitOn '_'

/-- Whether several components may carry the same entity. -/
def IsShared : Entity → Prop
  | moduleType .. => True
  | _ => False

theorem path_ne_nil (entity : Entity) : entity.path ≠ [] := by
  cases entity <;> simp only [path, within] <;> split <;> simp

theorem splitOn_join {path : List String} (h : path ≠ []) :
    (Text.join "_" path).toList.splitOn '_' = path.flatMap fun name => name.toList.splitOn '_' := by
  induction path with
  | nil => exact absurd rfl h
  | cons name path ih =>
    cases path with
    | nil => simp [Text.join]
    | cons next path =>
      have hchars : (Text.join "_" (name :: next :: path)).toList =
          name.toList ++ '_' :: (Text.join "_" (next :: path)).toList := by
        simp [Text.join, String.toList_append]
      rw [hchars, List.splitOn_append_cons_self, ih (List.cons_ne_nil _ _)]
      rfl

/-- Two entities have the same name exactly if their paths have the same words. -/
theorem targetName_eq_iff {first second : Entity} :
    first.targetName = second.targetName ↔ first.words = second.words := by
  rw [words, words, ← splitOn_join first.path_ne_nil, ← splitOn_join second.path_ne_nil]
  constructor
  · intro h
    rw [targetName, targetName] at h
    rw [h]
  · intro h
    have hchars := congrArg (List.intercalate ['_']) h
    rw [List.intercalate_splitOn, List.intercalate_splitOn] at hchars
    exact String.toList_inj.1 hchars

/-- Without underscores in the names, the words of a path are its names. -/
theorem words_eq_iff {first second : Entity} (hfirst : ∀ name ∈ first.path, '_' ∉ name.toList)
    (hsecond : ∀ name ∈ second.path, '_' ∉ name.toList) :
    first.words = second.words ↔ first.path = second.path := by
  have hwords (path : List String) (h : ∀ name ∈ path, '_' ∉ name.toList) :
      (path.flatMap fun name => name.toList.splitOn '_') = path.map String.toList := by
    rw [← List.flatMap_pure_eq_map, List.flatMap_congr fun name hname => ?_]
    exact List.splitOn_eq_singleton (h name hname)
  rw [words, words, hwords _ hfirst, hwords _ hsecond]
  exact List.map_inj_right fun _ _ => String.toList_inj.1

end Entity

/-! ## What the output declares

The names that an output declares are read back from its text: they are the words behind the
keywords of a declaration.  So the statement is about the text and not about a table beside it. -/

/-- The word that stands behind the given front of a text. -/
def Text.wordAfter (front text : String) : String :=
  String.ofList ((text.toList.drop front.toList.length).takeWhile (· != ' '))

/-- The name of the type that a fragment declares. -/
def Fragment.declared? (fragment : Fragment) : Option String :=
  match fragment.kind with
  | .data => some (Text.wordAfter "struct " fragment.code)
  | .enum => some (Text.wordAfter "enum struct " fragment.code)
  | .param | .state | .method => none

/-- The names under which an output declares a component and its types, in order. -/
def Output.declaredNames (output : Output) : List String :=
  output.component :: output.fragments.filterMap Fragment.declared?

theorem Text.wordAfter_append {front name : String} (hname : ' ' ∉ name.toList) (rest : String) :
    wordAfter front (front ++ name ++ " " ++ rest) = name := by
  have hchars : (front ++ name ++ " " ++ rest).toList =
      front.toList ++ (name.toList ++ ' ' :: rest.toList) := by
    simp [String.toList_append]
  have hword : ∀ c ∈ name.toList, (c != ' ') = true := fun c hc =>
    bne_iff_ne.2 fun heq => hname (heq ▸ hc)
  rw [wordAfter, hchars, List.drop_left, List.takeWhile_append_of_pos hword,
    List.takeWhile_cons_of_neg (by simp), List.append_nil, String.ofList_toList]

/-- Whenever the fragments are there, they declare the given names. -/
def Declares (fragments : List (Lowered Fragment)) (names : List String) : Prop :=
  ∀ found : List Fragment, fragments.map (·.result) = found.map .ok →
    found.filterMap Fragment.declared? = names

namespace Declares

variable {α : Type}

theorem append {first second : List (Lowered Fragment)} {names others : List String}
    (hfirst : Declares first names) (hsecond : Declares second others) :
    Declares (first ++ second) (names ++ others) := by
  intro found h
  rw [List.map_append] at h
  obtain ⟨front, back, rfl, hfront, hback⟩ := List.map_eq_append_iff.1 h.symm
  rw [List.filterMap_append, hfirst front hfront.symm, hsecond back hback.symm]

theorem map {xs : List α} {lowered : α → Lowered Fragment} {name? : α → Option String}
    (h : ∀ x ∈ xs, (lowered x).Yields fun fragment => fragment.declared? = name? x) :
    Declares (xs.map lowered) (xs.filterMap name?) := by
  intro found hfound
  induction xs generalizing found with
  | nil =>
    cases found with
    | nil => rfl
    | cons first found => cases hfound
  | cons x xs ih =>
    cases found with
    | nil => cases hfound
    | cons first found =>
      rw [List.map_cons, List.map_cons, List.map_cons, List.cons.injEq] at hfound
      have hfirst := h x List.mem_cons_self first hfound.1
      have hrest := ih (fun y hy => h y (List.mem_cons_of_mem x hy)) found hfound.2
      rw [List.filterMap_cons, List.filterMap_cons, hfirst, hrest]

end Declares

namespace Component

/-! ## The declarations of a component

A component is tidy if the names in it are plain and no two definitions have the same module and
name.  Then each definition is lowered under the name that its entity gives it, except a record type
of a module that is hidden by one of the component. -/

/-- The names of the types that belong to a component. -/
def ownTypes (component : Component) : List String :=
  (component.data.filter (·.moduleName == "")).map (·.name) ++ component.enums.map (·.name)

/-- What a component declares by a definition of the given module and name. -/
def entityOf (component : Component) (key : String × String) : Entity :=
  if key.1 == "" then .ownType component.moduleName component.name key.2
  else .moduleType key.1 key.2

/-- The name under which a component declares a record type. -/
def recordName (component : Component) (data : DataDef) : String :=
  if data.moduleName != "" && !component.ownTypes.contains data.name then
    Text.qualify data.moduleName data.name
  else Text.qualify component.qualifiedName data.name

/-- The names under which a component is to declare itself and its types. -/
def typeNames (component : Component) : List String :=
  component.qualifiedName ::
    (component.data.map component.recordName ++ component.enums.map component.enumName)

/-- The modules and names of the definitions of a component; an enumeration has no module. -/
def definitionKeys (component : Component) : List (String × String) :=
  component.data.map (fun data => (data.moduleName, data.name)) ++
    component.enums.map fun enum => ("", enum.name)

/-- A component and all it declares, in order. -/
def entities (component : Component) : List Entity :=
  .component component.moduleName component.name ::
    component.definitionKeys.map component.entityOf

/-- The name of a type is plain, and no other meaning comes before that in the component. -/
structure IsTypeName (schema : Schema) (name : String) : Prop where
  plain : Text.IsPlain name
  notPrimitive : ¬TypeName.IsPrimitive name
  notInSchema : schema.get? name = none

/-- The names in a component are plain and its types are told apart by them. -/
structure IsTidy (schema : Schema) (component : Component) : Prop where
  name : Text.IsPlain component.name
  module : component.moduleName ≠ "" → Text.IsPlain component.moduleName
  dataModule : ∀ data ∈ component.data, data.moduleName ≠ "" → Text.IsPlain data.moduleName
  data : ∀ data ∈ component.data, IsTypeName schema data.name
  enums : ∀ enum ∈ component.enums, IsTypeName schema enum.name
  definitions : component.definitionKeys.Nodup

section

variable {component : Component} {schema : Schema} {options : Options} {shared : NameSet}

theorem isLocalType_scopeOf_iff (hname : component.name ≠ "") {name : String} :
    (component.scopeOf shared).isLocalType name = true ↔ name ∈ component.ownTypes := by
  rw [Scope.isLocalType, scopeOf_component, Bool.and_eq_true, bne_iff_ne,
    Std.ExtTreeSet.contains_iff_mem, mem_localTypes_scopeOf, ownTypes, List.mem_append,
    and_iff_right (qualifiedName_ne_empty hname)]

/-- The name of a type that belongs to the component. -/
theorem typeText_of_mem_ownTypes (hname : component.name ≠ "") {name : String}
    (htype : IsTypeName schema name) (hown : name ∈ component.ownTypes) :
    (component.envOf schema shared options).typeText name =
      pure (Text.qualify component.qualifiedName name) := by
  have hlocal : (component.scopeOf shared).isLocalType name = true :=
    (isLocalType_scopeOf_iff hname).2 hown
  have hbracket : ']' ∉ name.toList := fun h =>
    Text.ne_of_isPlainChar (htype.plain.2 ']' h) (by decide) rfl
  have hstep : TypeName.step (component.scopeOf shared) schema (Text.trim name) =
      .known (Text.qualify component.qualifiedName name) := by
    rw [Text.trim_of_not_blank fun c hc => Text.not_isBlank_of_isPlainChar (htype.plain.2 c hc),
      TypeName.step_eq_namedStep htype.plain.1 hbracket htype.notPrimitive
        (TypeName.resolveAlias_eq_self htype.notInSchema), TypeName.namedStep, if_pos hlocal,
      scopeOf_component]
  exact Env.typeText_of_step hstep

theorem mem_ownTypes_of_data {data : DataDef} (hdata : data ∈ component.data)
    (hmodule : data.moduleName = "") : data.name ∈ component.ownTypes :=
  List.mem_append_left _ <| List.mem_map_of_mem <| List.mem_filter.2 ⟨hdata, by simp [hmodule]⟩

theorem dataName_eq (htidy : IsTidy schema component) {data : DataDef}
    (hdata : data ∈ component.data) :
    (component.envOf schema shared options).dataName data = pure (component.recordName data) := by
  have hlocal : (component.envOf schema shared options).scope.isLocalType data.name = true ↔
      data.name ∈ component.ownTypes := isLocalType_scopeOf_iff htidy.name.1
  rw [Env.dataName, recordName]
  by_cases hown : data.name ∈ component.ownTypes
  · have htext : (component.envOf schema shared options).typeText data.name = _ :=
      typeText_of_mem_ownTypes htidy.name.1 (htidy.data data hdata) hown
    simp [hlocal.2 hown, hown, htext]
  · have hmodule : data.moduleName ≠ "" := fun h => hown (mem_ownTypes_of_data hdata h)
    have hfalse := Bool.eq_false_iff.2 fun h => hown (hlocal.1 h)
    simp [hfalse, hown, hmodule]

/-! ## Reading the names off the text

A declared name ends at the first blank, and none of the names here has one.  With that the names in
the text are those that the component is to declare, in the same order. -/

theorem space_not_mem_of_isPlain {name : String} (h : Text.IsPlain name) : ' ' ∉ name.toList :=
  fun hmem => Text.ne_of_isPlainChar (h.2 ' ' hmem) (by decide) rfl

theorem space_not_mem_qualify {module name : String} (hmodule : ' ' ∉ module.toList)
    (hname : ' ' ∉ name.toList) : ' ' ∉ (Text.qualify module name).toList := by
  rw [Text.qualify]
  split
  · exact hname
  · simp [String.toList_append, hmodule, hname]

theorem space_not_mem_module {module : String} (h : module ≠ "" → Text.IsPlain module) :
    ' ' ∉ module.toList := by
  by_cases hmodule : module = ""
  · rw [hmodule]
    decide
  · exact space_not_mem_of_isPlain (h hmodule)

theorem space_not_mem_qualifiedName (htidy : IsTidy schema component) :
    ' ' ∉ component.qualifiedName.toList :=
  space_not_mem_qualify (space_not_mem_module htidy.module) (space_not_mem_of_isPlain htidy.name)

theorem space_not_mem_recordName (htidy : IsTidy schema component) {data : DataDef}
    (hdata : data ∈ component.data) : ' ' ∉ (component.recordName data).toList := by
  have hname := space_not_mem_of_isPlain (htidy.data data hdata).plain
  rw [recordName]
  split
  · exact space_not_mem_qualify (space_not_mem_module (htidy.dataModule data hdata)) hname
  · exact space_not_mem_qualify (space_not_mem_qualifiedName htidy) hname

theorem yields_fragment {P : Fragment → Prop} {name : String} {kind : FragmentKind}
    {code : Lowered String} (h : code.Yields fun text => P ⟨name, kind, text⟩) :
    (fragment name kind code).Yields P :=
  h.bind fun _ htext => Lowered.yields_pure htext

theorem declared?_data (htidy : IsTidy schema component) {data : DataDef}
    (hdata : data ∈ component.data) :
    (fragment data.name .data ((component.envOf schema shared options).dataText data)).Yields
      fun fragment => fragment.declared? = some (component.recordName data) := by
  refine yields_fragment ?_
  rw [Env.dataText, dataName_eq htidy hdata, pure_bind]
  refine (Lowered.yields_true _).bind fun fields _ => Lowered.yields_pure ?_
  have htext : "struct " ++ component.recordName data ++ " \x7b\n" ++ Text.concat fields ++
      "\x7d;\n" = "struct " ++ component.recordName data ++ " " ++
        ("\x7b\n" ++ Text.concat fields ++ "\x7d;\n") := by
    rw [← String.toList_inj]
    simp [String.toList_append]
  rw [htext]
  exact congrArg some (Text.wordAfter_append (space_not_mem_recordName htidy hdata) _)

theorem declared?_enum (htidy : IsTidy schema component) {enum : EnumDef}
    (henum : enum ∈ component.enums) :
    (fragment enum.name .enum ((component.envOf schema shared options).enumDefText enum)).Yields
      fun fragment => fragment.declared? = some (component.enumName enum) := by
  have htype := htidy.enums enum henum
  have hspace : ' ' ∉ (component.enumName enum).toList := space_not_mem_qualify
    (space_not_mem_qualifiedName htidy) (space_not_mem_of_isPlain htype.plain)
  rw [fragment_enumDefText henum htidy.name.1 htype.plain htype.notPrimitive
    (TypeName.resolveAlias_eq_self htype.notInSchema)]
  refine Lowered.yields_pure ?_
  have htext : "enum struct " ++ component.enumName enum ++ " : " ++
      enumStorage enum.values.length ++ " " ++
      braced (" " ++ Text.join ", " (enum.values ++ ["_COUNT"]) ++ " ") ++ ";\n" =
      "enum struct " ++ component.enumName enum ++ " " ++ (": " ++
        enumStorage enum.values.length ++ " " ++
        braced (" " ++ Text.join ", " (enum.values ++ ["_COUNT"]) ++ " ") ++ ";\n") := by
    rw [← String.toList_inj]
    simp [String.toList_append]
  rw [enumDeclaration, htext]
  exact congrArg some (Text.wordAfter_append hspace _)

/-- The fragments of a component declare its types, and no others. -/
theorem declares_ownFragments (htidy : IsTidy schema component) :
    Declares (component.ownFragments (component.envOf schema shared options))
      (component.data.map component.recordName ++ component.enums.map component.enumName) := by
  have hdata : Declares (component.data.map fun data => fragment data.name .data
      ((component.envOf schema shared options).dataText data)) _ :=
    Declares.map fun data hdata => declared?_data htidy hdata
  have henums : Declares (component.enums.map fun enum => fragment enum.name .enum
      ((component.envOf schema shared options).enumDefText enum)) _ :=
    Declares.map fun enum henum => declared?_enum htidy henum
  have hnone {α : Type} (xs : List α) (kind : FragmentKind) (name : α → String)
      (code : α → Lowered String)
      (hkind : ∀ name text, Fragment.declared? ⟨name, kind, text⟩ = none) :
      Declares (xs.map fun x => fragment (name x) kind (code x)) [] := by
    have h : Declares (xs.map fun x => fragment (name x) kind (code x)) _ :=
      Declares.map fun x _ => yields_fragment fun text _ => hkind (name x) text
    simpa using h
  have hparams := hnone component.params .param (·.name)
    (component.envOf schema shared options).memberParamText fun _ _ => rfl
  have hstate := hnone component.state .state (·.name)
    (component.envOf schema shared options).declText fun _ _ => rfl
  have hmethods := hnone component.methods .method (·.name) (fun method =>
    ((component.envOf schema shared options).within method).methodText component.loops method "")
    fun _ _ => rfl
  have hall := (((hdata.append henums).append hparams).append hstate).append hmethods
  simp only [List.append_nil, List.filterMap_eq_map'] at hall
  exact hall

end

/-- The output of a component declares the component and its types. -/
theorem declaredNames_eq {component : Component} {schema : Schema} {options : Options}
    {shared : NameSet} {output : Output} (htidy : IsTidy schema component)
    (h : (component.lower schema shared options).result = .ok output) :
    output.declaredNames = component.typeNames := by
  obtain ⟨hname, hfragments, -⟩ := result_lower_iff.1 h
  rw [Output.declaredNames, hname, declares_ownFragments htidy output.fragments hfragments,
    typeNames]

theorem flatMap_declaredNames_eq {components : List Component} {schema : Schema}
    {options : Options} {outputs : List Output}
    (htidy : ∀ component ∈ components, IsTidy schema component)
    (h : (lowerAll components schema options).result = .ok outputs) :
    outputs.flatMap Output.declaredNames = components.flatMap typeNames := by
  rw [lowerAll, Lowered.result_all_eq_ok_iff] at h
  -- The types of the batch stay as they are while the list is taken apart.
  generalize globalTypes components = shared at h
  induction components generalizing outputs with
  | nil =>
    cases outputs with
    | nil => rfl
    | cons output outputs => cases h
  | cons component components ih =>
    cases outputs with
    | nil => cases h
    | cons output outputs =>
      rw [List.map_cons, List.map_cons, List.map_cons, List.cons.injEq] at h
      rw [List.forall_mem_cons] at htidy
      rw [List.flatMap_cons, List.flatMap_cons, declaredNames_eq htidy.1 h.1, ih htidy.2 h.2]

/-! ## Names and entities

Entities and names are listed side by side.  Unless a type hides another, the name beside an entity
is the name of its path. -/

/-- The entities of a component with the names under which it declares them. -/
def declarations (component : Component) : List (Entity × String) :=
  (.component component.moduleName component.name, component.qualifiedName) ::
    (component.data.map (fun data =>
        (component.entityOf (data.moduleName, data.name), component.recordName data)) ++
      component.enums.map fun enum =>
        (component.entityOf ("", enum.name), component.enumName enum))

theorem map_fst_declarations (component : Component) :
    component.declarations.map Prod.fst = component.entities := by
  simp [declarations, entities, definitionKeys, Function.comp_def]

theorem map_fst_flatMap_declarations (components : List Component) :
    (components.flatMap declarations).map Prod.fst = components.flatMap entities := by
  rw [List.map_flatMap]
  exact List.flatMap_congr fun component _ => component.map_fst_declarations

theorem map_snd_flatMap_declarations (components : List Component) :
    (components.flatMap declarations).map Prod.snd = components.flatMap typeNames := by
  rw [List.map_flatMap]
  refine List.flatMap_congr fun component _ => ?_
  simp [declarations, typeNames, Function.comp_def]

/-- No record type of a module is named like a type of the component that carries it. -/
def HidesNone (component : Component) : Prop :=
  ∀ data ∈ component.data, data.moduleName ≠ "" → data.name ∉ component.ownTypes

section

variable {component : Component}

theorem qualify_eq_targetName (module name : String) :
    Text.qualify module name = Text.join "_" (Entity.within module [name]) := by
  rw [Text.qualify, Entity.within]
  split <;> rfl

theorem qualify_qualifiedName (hname : component.name ≠ "") (name : String) :
    Text.qualify component.qualifiedName name =
      (Entity.ownType component.moduleName component.name name).targetName := by
  rw [Text.qualify, if_neg (by simpa using qualifiedName_ne_empty hname), qualifiedName,
    qualify_eq_targetName, Entity.targetName, Entity.path, Entity.within, Entity.within]
  split
  · rfl
  · simp [Text.join, String.append_assoc]

theorem recordName_eq_targetName (hname : component.name ≠ "") (hhides : component.HidesNone)
    {data : DataDef} (hdata : data ∈ component.data) :
    component.recordName data =
      (component.entityOf (data.moduleName, data.name)).targetName := by
  rw [recordName, entityOf]
  by_cases hmodule : data.moduleName = ""
  · simp [hmodule, qualify_qualifiedName hname]
  · have hown := hhides data hdata hmodule
    simp [hmodule, hown, qualify_eq_targetName, Entity.targetName, Entity.path]

/-- Unless one type hides another, everything is declared under the name its path gives. -/
theorem snd_eq_targetName (hname : component.name ≠ "") (hhides : component.HidesNone)
    {pair : Entity × String} (h : pair ∈ component.declarations) :
    pair.2 = pair.1.targetName := by
  rw [declarations, List.mem_cons, List.mem_append, List.mem_map, List.mem_map] at h
  rcases h with rfl | ⟨data, hdata, rfl⟩ | ⟨enum, -, rfl⟩
  · exact qualify_eq_targetName _ _
  · exact recordName_eq_targetName hname hhides hdata
  · exact qualify_qualifiedName hname enum.name

/-- A hidden record type and the type that hides it are declared under one name. -/
theorem exists_same_name {data : DataDef} (hdata : data ∈ component.data)
    (hmodule : data.moduleName ≠ "") (hown : data.name ∈ component.ownTypes) :
    ∃ name, (.moduleType data.moduleName data.name, name) ∈ component.declarations ∧
      (.ownType component.moduleName component.name data.name, name) ∈
        component.declarations := by
  refine ⟨Text.qualify component.qualifiedName data.name, ?_, ?_⟩
  · refine List.mem_cons_of_mem _ (List.mem_append_left _ (List.mem_map.2 ⟨data, hdata, ?_⟩))
    simp [entityOf, hmodule, recordName, hown]
  · rw [ownTypes, List.mem_append, List.mem_map, List.mem_map] at hown
    refine List.mem_cons_of_mem _ (List.mem_append.2 ?_)
    rcases hown with ⟨own, hfound, hsame⟩ | ⟨enum, henum, hsame⟩
    · obtain ⟨hfound, hnone⟩ := List.mem_filter.1 hfound
      refine Or.inl (List.mem_map.2 ⟨own, hfound, ?_⟩)
      simp [entityOf, recordName, beq_iff_eq.1 hnone, hsame]
    · refine Or.inr (List.mem_map.2 ⟨enum, henum, ?_⟩)
      simp [entityOf, enumName, hsame]

end

/-! ## Different entities

Within one component the entities differ because the definitions do, and entities of two components
differ because the components do.  Only a record type of a module can be declared twice. -/

theorem entityOf_injective (component : Component) : Function.Injective component.entityOf := by
  rintro ⟨module, name⟩ ⟨otherModule, otherName⟩ h
  simp only [entityOf] at h
  split at h <;> split at h <;> simp_all

theorem nodup_entities {component : Component} (h : component.definitionKeys.Nodup) :
    component.entities.Nodup := by
  refine List.nodup_cons.2 ⟨fun hmem => ?_, h.map component.entityOf_injective⟩
  obtain ⟨key, -, hkey⟩ := List.mem_map.1 hmem
  rw [entityOf] at hkey
  split at hkey <;> cases hkey

theorem cases_of_mem_entities {component : Component} {entity : Entity}
    (h : entity ∈ component.entities) :
    entity = .component component.moduleName component.name ∨
      (∃ name, entity = .ownType component.moduleName component.name name) ∨ entity.IsShared := by
  rcases List.mem_cons.1 h with rfl | hdefinition
  · exact Or.inl rfl
  · obtain ⟨key, -, rfl⟩ := List.mem_map.1 hdefinition
    rw [entityOf]
    split
    · exact Or.inr (Or.inl ⟨key.2, rfl⟩)
    · exact Or.inr (Or.inr trivial)

/-- Two components declare the same entity only if it belongs to a module. -/
theorem isShared_of_mem {first second : Component}
    (hne : (first.moduleName, first.name) ≠ (second.moduleName, second.name)) {entity : Entity}
    (hfirst : entity ∈ first.entities) (hsecond : entity ∈ second.entities) : entity.IsShared := by
  rcases cases_of_mem_entities hfirst with rfl | ⟨name, rfl⟩ | hshared
  · rcases cases_of_mem_entities hsecond with heq | ⟨other, heq⟩ | hshared
    · obtain ⟨hmodule, hname⟩ := Entity.component.inj heq
      exact absurd (Prod.ext hmodule hname) hne
    · cases heq
    · exact hshared
  · rcases cases_of_mem_entities hsecond with heq | ⟨other, heq⟩ | hshared
    · cases heq
    · obtain ⟨hmodule, hname, -⟩ := Entity.ownType.inj heq
      exact absurd (Prod.ext hmodule hname) hne
    · exact hshared
  · exact hshared

theorem pairwise_entities {components : List Component}
    (hunits : (components.map fun component => (component.moduleName, component.name)).Nodup)
    (hdefinitions : ∀ component ∈ components, component.definitionKeys.Nodup) :
    (components.flatMap entities).Pairwise fun first second => first = second → first.IsShared := by
  refine List.pairwise_flatMap.2 ⟨fun component hcomponent => ?_, ?_⟩
  · exact (nodup_entities (hdefinitions component hcomponent)).imp fun hne heq => absurd heq hne
  · refine (List.pairwise_map.1 hunits).imp fun hne entity hfirst other hother heq => ?_
    subst heq
    exact isShared_of_mem hne hfirst hother

/-! ## Names that are told apart

The two ways to a collision are put together: a type that hides another, and two paths with the same
words. -/

/-- Two declarations have the same name only if they are of one record type of a module, which
several components carry. -/
def ToldApart (declarations : List (Entity × String)) : Prop :=
  declarations.Pairwise fun first second =>
    first.2 = second.2 → first.1 = second.1 ∧ first.1.IsShared

theorem ToldApart.fst_eq {declarations : List (Entity × String)} (h : ToldApart declarations)
    {first second : Entity × String} (hfirst : first ∈ declarations)
    (hsecond : second ∈ declarations) (hname : first.2 = second.2) : first.1 = second.1 := by
  have hsymm : Std.Symm fun first second : Entity × String =>
      first.2 = second.2 → first.1 = second.1 ∧ first.1.IsShared := by
    refine ⟨fun first second hrel hname => ?_⟩
    obtain ⟨heq, hshared⟩ := hrel hname.symm
    exact ⟨heq.symm, heq ▸ hshared⟩
  by_cases heq : first = second
  · rw [heq]
  · exact (List.Pairwise.forall h hfirst hsecond heq hname).1

theorem exists_declaration {components : List Component} {entity : Entity}
    (h : entity ∈ components.flatMap entities) :
    ∃ component ∈ components, ∃ name, (entity, name) ∈ component.declarations := by
  obtain ⟨component, hcomponent, hentity⟩ := List.mem_flatMap.1 h
  rw [← map_fst_declarations] at hentity
  obtain ⟨⟨_, name⟩, hpair, rfl⟩ := List.mem_map.1 hentity
  exact ⟨component, hcomponent, name, hpair⟩

/-- Names are told apart exactly if no type hides another and no two paths have the same words. -/
theorem toldApart_iff {components : List Component}
    (hunits : (components.map fun component => (component.moduleName, component.name)).Nodup)
    (hdefinitions : ∀ component ∈ components, component.definitionKeys.Nodup)
    (hnames : ∀ component ∈ components, component.name ≠ "") :
    ToldApart (components.flatMap declarations) ↔
      (∀ component ∈ components, component.HidesNone) ∧
        ∀ first ∈ components.flatMap entities, ∀ second ∈ components.flatMap entities,
          first.words = second.words → first = second := by
  constructor
  · intro h
    have hhides : ∀ component ∈ components, component.HidesNone := by
      intro component hcomponent data hdata hmodule hown
      obtain ⟨name, hmoduleType, hownType⟩ := exists_same_name hdata hmodule hown
      have heq := h.fst_eq (List.mem_flatMap.2 ⟨component, hcomponent, hmoduleType⟩)
        (List.mem_flatMap.2 ⟨component, hcomponent, hownType⟩) rfl
      cases heq
    refine ⟨hhides, fun first hfirst second hsecond hwords => ?_⟩
    obtain ⟨owner, howner, name, hname⟩ := exists_declaration hfirst
    obtain ⟨other, hother, otherName, hotherName⟩ := exists_declaration hsecond
    refine h.fst_eq (List.mem_flatMap.2 ⟨owner, howner, hname⟩)
      (List.mem_flatMap.2 ⟨other, hother, hotherName⟩) ?_
    rw [snd_eq_targetName (hnames owner howner) (hhides owner howner) hname,
      snd_eq_targetName (hnames other hother) (hhides other hother) hotherName]
    exact Entity.targetName_eq_iff.2 hwords
  · rintro ⟨hhides, hwords⟩
    have htarget : ∀ pair ∈ components.flatMap declarations, pair.2 = pair.1.targetName := by
      intro pair hpair
      obtain ⟨component, hcomponent, hdeclared⟩ := List.mem_flatMap.1 hpair
      exact snd_eq_targetName (hnames component hcomponent) (hhides component hcomponent) hdeclared
    have hpairwise := pairwise_entities hunits hdefinitions
    rw [← map_fst_flatMap_declarations] at hpairwise hwords
    refine (List.pairwise_map.1 hpairwise).imp_of_mem fun hfirst hsecond hshared hname => ?_
    rw [htarget _ hfirst, htarget _ hsecond, Entity.targetName_eq_iff] at hname
    have heq := hwords _ (List.mem_map_of_mem hfirst) _ (List.mem_map_of_mem hsecond) hname
    exact ⟨heq, hshared heq⟩

/-- **When type names collide.**  Among tidy components of different names, an output declares one
name for each entity.  These names are told apart exactly if no record type of a module is named
like a type of the component that carries it, and different entities have paths of different words.
Without underscores in the names this means different paths. -/
theorem typeNames_toldApart_iff (components : List Component) (schema : Schema) (options : Options)
    (outputs : List Output)
    (hunits : (components.map fun component => (component.moduleName, component.name)).Nodup)
    (htidy : ∀ component ∈ components, IsTidy schema component)
    (houtputs : (lowerAll components schema options).result = .ok outputs) :
    let declared := outputs.flatMap Output.declaredNames
    let declaring := components.flatMap entities
    declared.length = declaring.length ∧
      (ToldApart (declaring.zip declared) ↔
        (∀ component ∈ components, component.HidesNone) ∧
          ∀ first ∈ declaring, ∀ second ∈ declaring,
            first.words = second.words → first = second) ∧
      ((∀ entity ∈ declaring, ∀ name ∈ entity.path, '_' ∉ name.toList) →
        (ToldApart (declaring.zip declared) ↔
          (∀ component ∈ components, component.HidesNone) ∧
            ∀ first ∈ declaring, ∀ second ∈ declaring,
              first.path = second.path → first = second)) := by
  intro declared declaring
  have hfst : (components.flatMap declarations).map Prod.fst = declaring :=
    map_fst_flatMap_declarations components
  have hsnd : (components.flatMap declarations).map Prod.snd = declared :=
    (map_snd_flatMap_declarations components).trans (flatMap_declaredNames_eq htidy houtputs).symm
  have hiff := toldApart_iff hunits (fun component h => (htidy component h).definitions)
    fun component h => (htidy component h).name.1
  rw [List.zip_of_prod hfst hsnd] at hiff
  refine ⟨?_, hiff, fun hunderscore => ?_⟩
  · rw [← hfst, ← hsnd, List.length_map, List.length_map]
  · rw [hiff]
    refine and_congr_right fun _ => forall₄_congr fun first hfirst second hsecond => ?_
    rw [Entity.words_eq_iff (hunderscore first hfirst) (hunderscore second hsecond)]

/-- Two components of a module that carry the same record type of it, one with an enumeration of its
own. -/
theorem typeNames_toldApart_iff_module :
    let point : DataDef := ⟨"Point", "ui", [⟨"int", "x"⟩]⟩
    let card : Component :=
      { plain "Card" with moduleName := "ui", data := [point], enums := [⟨"Kind", ["Flat"]⟩] }
    let panel : Component := { plain "Panel" with moduleName := "ui", data := [point] }
    ∃ outputs, (lowerAll [card, panel] Schema.empty .default).result = .ok outputs ∧
      ToldApart (([card, panel].flatMap entities).zip (outputs.flatMap Output.declaredNames)) := by
  intro point card panel
  obtain ⟨outputs, houtputs⟩ := Lowered.exists_ok_of_isOk
    (show (lowerAll [card, panel] Schema.empty .default).result.isOk = true by decide +kernel)
  have hplain (name : String) (hname : name ≠ "" ∧ name.toList.all Text.isPlainChar = true) :
      Text.IsPlain name := ⟨hname.1, List.all_eq_true.1 hname.2⟩
  have htype (name : String) (hname : name ≠ "" ∧ name.toList.all Text.isPlainChar = true)
      (htarget : name ∉ TypeName.targetPrimitives) (hsource : TypeName.primitive? name = none) :
      IsTypeName Schema.empty name :=
    ⟨hplain name hname, by simp [TypeName.IsPrimitive, htarget, hsource], rfl⟩
  have hpoint : IsTypeName Schema.empty "Point" := htype _ (by decide) (by decide) rfl
  have hkind : IsTypeName Schema.empty "Kind" := htype _ (by decide) (by decide) rfl
  have hui : Text.IsPlain "ui" := hplain _ (by decide)
  have hcard : IsTidy Schema.empty card :=
    ⟨hplain _ (by decide), fun _ => hui, by simpa [card, point] using hui,
      by simpa [card, point] using hpoint, by simpa [card] using hkind, by decide⟩
  have hpanel : IsTidy Schema.empty panel :=
    ⟨hplain _ (by decide), fun _ => hui, by simpa [panel, point] using hui,
      by simpa [panel, point] using hpoint, by simp [panel, plain], by decide⟩
  have htidy : ∀ component ∈ [card, panel], IsTidy Schema.empty component :=
    List.forall_mem_cons.2 ⟨hcard, List.forall_mem_cons.2 ⟨hpanel, by simp⟩⟩
  obtain ⟨-, hiff, -⟩ := typeNames_toldApart_iff [card, panel] Schema.empty .default outputs
    (by decide) htidy houtputs
  refine ⟨outputs, houtputs, hiff.2 ⟨?_, by decide +kernel⟩⟩
  have hhides : ∀ component ∈ [card, panel], ∀ data ∈ component.data,
      data.name ∉ component.ownTypes := by
    decide
  exact fun component hcomponent data hdata _ => hhides component hcomponent data hdata

/-- A component of a module and an enumeration of the component named like the module get one
name. -/
theorem typeNames_collide :
    let app : Component := { plain "App" with enums := [⟨"Mode", ["On", "Off"]⟩] }
    let mode : Component := { plain "Mode" with moduleName := "App" }
    (lowerAll [app, mode] Schema.empty .default).result.toOption.map
        (·.flatMap Output.declaredNames) = some ["App", "App_Mode", "App_Mode"] ∧
      [app, mode].flatMap entities =
        [.component "" "App", .ownType "" "App" "Mode", .component "App" "Mode"] := by
  intro app mode
  exact ⟨by decide +kernel, rfl⟩

end Component

end UiLowering
