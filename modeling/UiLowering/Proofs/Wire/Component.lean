import UiLowering.Proofs.Names
import UiLowering.Proofs.Wire.Built
import UiLowering.Proofs.Wire.Stmt
import UiLowering.Wire.Component

/-!
# Components that were written are read back

The definitions of a component, its bound collections and the component as a whole.  The marks of
text chains are not written, so what comes back is the tree that was written only if it was built
(`source_readBack`); and whatever is read is built.
-/

set_option autoImplicit false

namespace UiLowering

open Fields Json

/-! ## Definitions

Parameters, fields, enumerations and methods are records of the usual types of fields, so most of
them are read back by naming their fields.  A method has a body in addition, and with it the
hypothesis on its expressions. -/

theorem finds_strings {entries : List (String × Json)} {key : String} {texts : List String}
    (h : entries.filter (·.1 == key) = [(key, .strs texts)]) :
    Finds (required key (list? str?)) entries texts :=
  finds_required h (list?_map_of_mem fun _ _ => rfl)

theorem record?_toJson_param (param : Param) : record? readParam param.toJson = some param :=
  record?_obj <| (finds_str rfl).bind <| (finds_str rfl).bind <| (finds_flag rfl).bind <|
    (finds_flag rfl).bind <| finds_pure _

/-- **A method that was written is read back.** -/
theorem Method.ofJson?_toJson {method : Method}
    (hplain : ∀ e ∈ method.allExpressions, e.IsPlain) :
    Method.ofJson? method.toJson = some method :=
  have hparams := list?_map_of_mem fun param (_ : param ∈ method.params) =>
    record?_toJson_param param
  have hbody := Stmt.bodyOfJson?_listToJson fun stmt hstmt e he =>
    hplain e (List.mem_flatMap.2 ⟨stmt, hstmt, he⟩)
  record?_obj <| (finds_str rfl).bind <| (finds_defaultedStr rfl).bind <|
    (finds_defaulted rfl hparams).bind <| (finds_defaulted rfl hbody).bind <|
    (finds_flag rfl).bind <| finds_pure _

theorem record?_toJson_dataField (field : DataField) :
    record? readDataField field.toJson = some field :=
  record?_obj <| (finds_str rfl).bind <| (finds_str rfl).bind <| finds_pure _

theorem DataDef.ofJson?_toJson (data : DataDef) : DataDef.ofJson? data.toJson = some data :=
  have hfields := list?_map_of_mem fun field (_ : field ∈ data.fields) =>
    record?_toJson_dataField field
  record?_obj <| (finds_str rfl).bind <| (finds_defaultedStr rfl).bind <|
    (finds_required rfl hfields).bind <| finds_pure _

theorem EnumDef.ofJson?_toJson (enum : EnumDef) : EnumDef.ofJson? enum.toJson = some enum :=
  record?_obj <| (finds_str rfl).bind <| (finds_strings rfl).bind <| finds_pure _

theorem ComponentParam.ofJson?_toJson {param : ComponentParam}
    (hplain : ∀ e ∈ param.defaultValue, e.IsPlain) :
    ComponentParam.ofJson? param.toJson = some param :=
  record?_obj <| (finds_str rfl).bind <| (finds_str rfl).bind <|
    (finds_optionalExpr rfl fun e he => (hplain e he).ofJson?_toJson).bind <|
    (finds_flag rfl).bind <| (finds_flag rfl).bind <| (finds_flag rfl).bind <| finds_pure _

/-! ## Bound collections

The table is written as an object with one entry for each name, in the order of the map.  Reading
inserts the entries again, and since no name comes twice the order is of no concern. -/

theorem BoundCollection.ofJson?_toJson (info : BoundCollection) :
    BoundCollection.ofJson? info.toJson = some info :=
  record?_obj <| (finds_required rfl (uint32?_toNat info.loopId)).bind <|
    (finds_optionalStr rfl).bind <| (finds_str rfl).bind <| (finds_str rfl).bind <|
    (finds_flag rfl).bind <| (finds_flag rfl).bind <| finds_pure _

theorem entries?_map {α : Type} {read : Json → Option α} {write : α → Json}
    (h : ∀ value, read (write value) = some value) (entries : List (String × α)) :
    entries? read (.obj (entries.map fun (name, value) => (name, write value))) =
      some entries := by
  rw [entries?]
  induction entries with
  | nil => rfl
  | cons entry entries ih =>
    obtain ⟨name, value⟩ := entry
    rw [List.map_cons, List.mapM_cons, ih]
    simp only [h]
    rfl

theorem LoopTable.ofJson?_toJson (loops : LoopTable) :
    LoopTable.ofJson? (LoopTable.toJson loops) = some loops := by
  rw [LoopTable.ofJson?, LoopTable.toJson, entries?_map BoundCollection.ofJson?_toJson,
    Option.map_some, NameMap.ofEntries_toList]

/-! ## Components

A component is a record of lists of the definitions above.  The expressions in it come from three
places, and the hypothesis on all of them is split accordingly. -/

/-- **A component that was written is read back.** -/
theorem Component.ofJson?_toJson {component : Component}
    (hplain : ∀ e ∈ component.allExpressions, e.IsPlain) :
    Component.ofJson? component.toJson = some component := by
  have hparams : ∀ param ∈ component.params, ComponentParam.ofJson? param.toJson = some param := by
    intro param hparam
    refine ComponentParam.ofJson?_toJson fun e he => hplain e ?_
    exact List.mem_append_left _ (List.mem_append_left _
      (List.mem_flatMap.2 ⟨param, hparam, Option.mem_toList.2 he⟩))
  have hstate : ∀ decl ∈ component.state, VarDecl.ofJson? decl.toJson = some decl := by
    intro decl hdecl
    refine VarDecl.ofJson?_toJson fun e he => hplain e ?_
    exact List.mem_append_left _ (List.mem_append_right _
      (List.mem_flatMap.2 ⟨decl, hdecl, Option.mem_toList.2 he⟩))
  have hmethods : ∀ method ∈ component.methods, Method.ofJson? method.toJson = some method := by
    intro method hmethod
    refine Method.ofJson?_toJson fun e he => hplain e ?_
    exact List.mem_append_right _ (List.mem_flatMap.2 ⟨method, hmethod, he⟩)
  exact record?_obj <| (finds_str rfl).bind <| (finds_defaultedStr rfl).bind <|
    (finds_list (fun data _ => data.ofJson?_toJson) rfl).bind <|
    (finds_list (fun enum _ => enum.ofJson?_toJson) rfl).bind <|
    (finds_list hparams rfl).bind <| (finds_list hstate rfl).bind <|
    (finds_list hmethods rfl).bind <|
    (finds_defaulted rfl (LoopTable.ofJson?_toJson component.loops)).bind <| finds_pure _

/-- **The source forms are read back as they were written**, with all their optional and defaulted
fields, their tables and the marks of their operations, if they were built and hold no double.  The
marks are not written: the reader sets them anew, so that whatever is read bears them, at every
depth. -/
theorem source_readBack :
    (∀ e : Expr, e.IsBuilt → e.IsFloatless → Expr.ofJson? e.toJson = some e) ∧
      (∀ (json : Json) (e : Expr), Expr.ofJson? json = some e → e.IsBuilt) ∧
      (∀ stmt : Stmt, (∀ e ∈ stmt.allExpressions, e.IsBuilt ∧ e.IsFloatless) →
        Stmt.ofJson? stmt.toJson = some stmt) ∧
      (∀ method : Method, (∀ e ∈ method.allExpressions, e.IsBuilt ∧ e.IsFloatless) →
        Method.ofJson? method.toJson = some method) ∧
      ∀ component : Component, (∀ e ∈ component.allExpressions, e.IsBuilt ∧ e.IsFloatless) →
        Component.ofJson? component.toJson = some component := by
  refine ⟨fun e hbuilt hfloatless => Expr.IsPlain.ofJson?_toJson ⟨hbuilt, hfloatless⟩,
    fun json e => Expr.isBuilt_of_ofJson?, fun stmt h => Stmt.ofJson?_toJson fun e he => ?_,
    fun method h => Method.ofJson?_toJson fun e he => ?_,
    fun component h => Component.ofJson?_toJson fun e he => ?_⟩
  all_goals exact ⟨(h e he).1, (h e he).2⟩

/-- The sum `("n = " + n) + "."`, a chain whose left operand is a chain. -/
def countChain : Expr :=
  .binaryOf (.binaryOf (.str "n = ") "+" (.ident "n")) "+" (.str ".")

/-- A component that shows a count, with a chain in its state and one inside a loop. -/
def countComponent : Component :=
  { Component.plain "Count" with
    state := [.plain "string" "label" (some countChain)]
    methods := [⟨"show", "void", [], [.forRange "n" (.int 0) (.int 3)
      (.block [.assign ⟨"label", countChain, some "string", false⟩])], true⟩]
    loops := NameMap.ofEntries [("rows", .ofLoop 1 "row" "make_row(row);")] }

/-- The component is read back with its loop table, and the chain in it with both of its marks. -/
theorem source_readBack_countComponent :
    countChain = .binary (.binary (.str "n = ") "+" (.ident "n") true) "+" (.str ".") true ∧
      Expr.ofJson? countChain.toJson = some countChain ∧
      Component.ofJson? countComponent.toJson = some countComponent := by
  have hbuilt : countChain.IsBuilt := by
    simp [countChain, Expr.IsBuilt, Each, Expr.binaryOf, Expr.nodes, Expr.BearsMark, Expr.isText]
  have hfloatless : countChain.IsFloatless := by
    simp [countChain, Expr.IsFloatless, Expr.binaryOf, Expr.nodes]
  have hcomponent : ∀ e ∈ countComponent.allExpressions, e.IsBuilt ∧ e.IsFloatless := by
    have hbounds : ∀ bound, (Expr.int bound).IsBuilt ∧ (Expr.int bound).IsFloatless := by
      simp [Expr.IsBuilt, Each, Expr.IsFloatless, Expr.nodes, Expr.BearsMark]
    simp [countComponent, Component.allExpressions, Component.plain, VarDecl.plain,
      Method.allExpressions, Stmt.allExpressions, Stmt.nodes, Stmt.listNodes, Stmt.expressions,
      hbuilt, hfloatless, hbounds]
  obtain ⟨hexpr, -, -, -, hread⟩ := source_readBack
  exact ⟨rfl, hexpr countChain hbuilt hfloatless, hread countComponent hcomponent⟩

end UiLowering
