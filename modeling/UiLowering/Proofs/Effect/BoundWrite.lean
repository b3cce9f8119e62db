import UiLowering.Effect.Writes
import UiLowering.Lower.Stmt
import UiLowering.Proofs.Call.Selected
import UiLowering.Proofs.Lowered
import UiLowering.Proofs.Names
import UiLowering.Proofs.Nodes

/-!
# Writes to bound collections, lowered and reported

Two parts of the library decide what is a write to a bound collection.  The lowering goes by the
loop table and by the three methods it has plans for; the report of what a body changes asks the
schema first, which may describe a method of arrays, and only then the shortcuts.

`boundWrite?` is the decision of the lowering: `stmtText_of_boundWrite` and
`stmtText_of_boundWrite_eq_none` say that a statement without parts is lowered to the plan that it
names, and as if nothing was bound if it names none.  The decision of the report is
`mutatesCollection`.  The two agree unless the schema gives a result to a method that changes the
collection: then the call is lowered as a write and not reported as one.

The lowering of a statement without parts is described once, by `boundWrite?` and the two lemmas on
`stmtText`.  Everything that is said elsewhere about plans, about their shape, their order or their
absence, starts from there and does not open the lowering again.
-/

set_option autoImplicit false

namespace UiLowering

/-! ## What a statement is lowered to

Three forms of statements can be writes to a bound collection: an assignment of the whole, an
assignment of an element, and a call of one of three methods.  `boundWrite?` decides between them
from the statement and the table, with no text involved.  The two lemmas on `stmtText` then say that
the lowering takes the same decision. -/

/-- A write to a bound collection, with the code of its operands. -/
inductive BoundWrite where
  | append (item : Lowered String)
  | removeLast
  | clear
  | reassign (value : Lowered String)
  | indexWrite (operands : Lowered (String × String)) (compoundOp : Option String)

/-- The plan of a write. -/
def BoundWrite.plan (info : BoundCollection) : BoundWrite → Lowered ViewPlan
  | .append item => do
    let code ← item
    return BoundCollection.appendPlan code
  | .removeLast => pure info.removeLastPlan
  | .clear => pure info.clearPlan
  | .reassign value => do
    let code ← value
    return info.reassignPlan code
  | .indexWrite operands compoundOp => do
    let (index, value) ← operands
    return BoundCollection.indexWritePlan index value compoundOp

namespace Env

/-- The write that a method of a bound collection is, by its name and its arguments. -/
def methodWrite? (env : Env) : String → List (Arg Expr) → Option BoundWrite
  | "push", [item] => some (.append (env.codedArg item).text)
  | "pop", [] => some .removeLast
  | "clear", [] => some .clear
  | _, _ => none

/-- The value of an assignment. -/
def reassignValue (env : Env) (a : Assignment) : Lowered String := do
  let code ← env.exprText a.value
  env.assignedText a.targetType (movedIf a.isMove code)

/-- The index and the value of an assignment to an element. -/
def indexOperands (env : Env) (a : IndexAssignment) : Lowered (String × String) := do
  let index ← env.exprText a.position
  let code ← env.exprText a.value
  return (index, movedIf a.isMove code)

/-- The bound collection that a statement writes to, and the write. -/
def boundWrite? (env : Env) (loops : LoopTable) : Stmt → Option (String × BoundWrite)
  | .assign a =>
    if loops[a.name]?.any (·.byReference) then some (a.name, .reassign (env.reassignValue a))
    else none
  | .assignIndex a =>
    match a.array with
    | .ident name =>
      if loops.contains name then
        some (name, .indexWrite (env.indexOperands a) (a.compoundOp.map compoundOperator))
      else none
    | _ => none
  | .evaluate (.call call) =>
    match splitReceiver call.name with
    | some (receiver, method) =>
      if loops.contains receiver then (env.methodWrite? method call.args).map (receiver, ·)
      else none
    | none => none
  | _ => none

variable {env : Env} {loops : LoopTable}

/-! ### The lowering takes the same decision

Each of the three functions of the lowering is compared with `boundWrite?`.  After this no proof has
to look at how they search the table. -/

/-- The lowering of a call on a bound collection. -/
theorem collectionCall?_eq (call : Call Expr) :
    env.collectionCall? loops call = (do
      let (receiver, method) ← splitReceiver call.name
      let info ← loops[receiver]?
      let write ← env.methodWrite? method call.args
      return do
        let plan ← write.plan info
        return plan.render info (env.scope.read receiver)) := by
  rw [collectionCall?]
  cases splitReceiver call.name with
  | none => rfl
  | some parts =>
    obtain ⟨receiver, method⟩ := parts
    cases h : loops[receiver]? with
    | none => simp [h]
    | some info =>
      simp only [Option.bind_eq_bind, Option.bind_some, h]
      unfold methodWrite?
      split <;> simp_all [BoundWrite.plan]

theorem exists_info {name : String} (h : loops.contains name = true) :
    ∃ info, loops[name]? = some info :=
  Option.isSome_iff_exists.1 (Std.ExtTreeMap.isSome_getElem?_eq_contains.trans h)

/-- The three ways to write to a bound collection. -/
theorem boundWrite?_cases {stmt : Stmt} {name : String} {write : BoundWrite}
    (h : env.boundWrite? loops stmt = some (name, write)) :
    ∃ info, loops[name]? = some info ∧
      ((∃ a, stmt = .assign a ∧ a.name = name ∧ info.byReference = true ∧
          write = .reassign (env.reassignValue a)) ∨
        (∃ a, stmt = .assignIndex a ∧ a.array = .ident name ∧
          write = .indexWrite (env.indexOperands a) (a.compoundOp.map compoundOperator)) ∨
        ∃ call method, stmt = .evaluate (.call call) ∧
          splitReceiver call.name = some (name, method) ∧
          env.methodWrite? method call.args = some write) := by
  unfold boundWrite? at h
  split at h
  · rename_i a
    split at h
    · rename_i hbound
      obtain ⟨info, hinfo, href⟩ := (Option.any_eq_true _ _).1 hbound
      obtain ⟨rfl, rfl⟩ := Prod.mk.inj (Option.some.inj h)
      exact ⟨info, hinfo, Or.inl ⟨a, rfl, rfl, href, rfl⟩⟩
    · simp at h
  · rename_i a
    split at h
    · rename_i harray
      split at h
      · rename_i hbound
        obtain ⟨info, hinfo⟩ := exists_info hbound
        obtain ⟨rfl, rfl⟩ := Prod.mk.inj (Option.some.inj h)
        exact ⟨info, hinfo, Or.inr (Or.inl ⟨a, rfl, harray, rfl⟩)⟩
      · simp at h
    · simp at h
  · rename_i call
    split at h
    · rename_i hsplit
      split at h
      · rename_i hbound
        obtain ⟨info, hinfo⟩ := exists_info hbound
        obtain ⟨found, hwrite, hpair⟩ := Option.map_eq_some_iff.1 h
        obtain ⟨rfl, rfl⟩ := Prod.mk.inj hpair
        exact ⟨info, hinfo, Or.inr (Or.inr ⟨call, _, rfl, hsplit, hwrite⟩)⟩
      · simp at h
    · simp at h
  · simp at h

/-- **A write to a bound collection is lowered to its plan.** -/
theorem stmtText_of_boundWrite {stmt : Stmt} {name : String} {write : BoundWrite}
    (h : env.boundWrite? loops stmt = some (name, write)) :
    ∃ info, loops[name]? = some info ∧
      env.stmtText loops stmt = do
        let plan ← write.plan info
        return plan.render info (env.scope.read name) := by
  obtain ⟨info, hinfo, ⟨a, rfl, rfl, href, rfl⟩ | ⟨a, rfl, harray, rfl⟩ |
    ⟨call, method, rfl, hsplit, hwrite⟩⟩ := boundWrite?_cases h
  · refine ⟨info, hinfo, ?_⟩
    simp [stmtText, assignmentText, hinfo, href, BoundWrite.plan, reassignValue]
  · refine ⟨info, hinfo, ?_⟩
    simp [stmtText, indexAssignmentText, harray, boundTo?, hinfo, BoundWrite.plan, indexOperands,
      exprText, coded, Coded.value, lower, Code.value]
  · refine ⟨info, hinfo, ?_⟩
    rw [stmtText, expressionText, collectionCall?_eq, hsplit]
    simp [hinfo, hwrite]

theorem collectionCall?_eq_none {call : Call Expr}
    (h : env.boundWrite? loops (.evaluate (.call call)) = none) :
    env.collectionCall? loops call = none := by
  rw [collectionCall?_eq]
  rw [boundWrite?] at h
  cases hsplit : splitReceiver call.name with
  | none => rfl
  | some parts =>
    obtain ⟨receiver, method⟩ := parts
    cases hinfo : loops[receiver]? with
    | none => simp [hinfo]
    | some info =>
      have hbound : loops.contains receiver = true := by
        rw [← Std.ExtTreeMap.isSome_getElem?_eq_contains, hinfo]; rfl
      rw [hsplit] at h
      simp only [hbound, if_true, Option.map_eq_none_iff] at h
      simp [hinfo, h]

theorem boundTo?_empty (e : Expr) : boundTo? ∅ e = none := by
  unfold boundTo?
  split
  · exact Std.ExtTreeMap.getElem?_empty
  · rfl

theorem collectionCall?_empty (call : Call Expr) : env.collectionCall? ∅ call = none := by
  refine collectionCall?_eq_none ?_
  rw [boundWrite?]
  split
  · exact if_neg (by simp)
  · rfl

/-- A statement that contains no others and is no write to a bound collection is lowered as if no
collection was bound. -/
theorem stmtText_of_boundWrite_eq_none {stmt : Stmt} (hleaf : stmt.nodes = [stmt])
    (h : env.boundWrite? loops stmt = none) : env.stmtText loops stmt = env.stmtText ∅ stmt := by
  cases stmt, hleaf using Stmt.leafCases with
  | declare decl => rw [stmtText, stmtText]
  | assign a =>
    rw [boundWrite?] at h
    rw [stmtText, stmtText, assignmentText, assignmentText]
    cases hinfo : loops[a.name]? with
    | none => simp
    | some info =>
      have href : info.byReference = false := by simpa [hinfo] using h
      simp [href]
  | assignIndex a =>
    rw [stmtText, stmtText, indexAssignmentText, indexAssignmentText]
    have hfree : boundTo? loops a.array = none := by
      unfold boundTo?
      rw [boundWrite?] at h
      split
      · rename_i name harray
        have hbound : name ∉ loops := by simpa [harray] using h
        exact Std.ExtTreeMap.getElem?_eq_none hbound
      · rfl
    rw [hfree, boundTo?_empty]
  | assignMember a => rw [stmtText, stmtText]
  | ret value => cases value <;> rw [stmtText, stmtText]
  | evaluate e =>
    rw [stmtText, stmtText]
    cases e with
    | call call =>
      rw [expressionText, expressionText, collectionCall?_eq_none h, collectionCall?_empty]
    | _ => rfl
  | emptyBlock => simp [stmtText, bodyText]

end Env

/-! ## What is reported

The report goes by the declared effect of a method.  A method of arrays that the schema gives a
result to counts as one that only reads, even if the shortcut of the same name changes the
collection. -/

/-- The schema does not describe a method of arrays, or says that it has no result. -/
def Schema.LacksResult (schema : Schema) (method : String) (argc : Nat) : Prop :=
  ∀ found, schema.lookupMethod Family.collection.typeName method (some argc) = some found →
    found.returnType = "void"

/-- A method that changes its collection by the shortcuts counts as a write unless the schema gives
it a result. -/
theorem mutatesCollection_iff {schema : Schema} {method : String} {argc : Nat}
    {shortcut : Shortcut} (hfind : Shortcut.find? .collection method argc = some shortcut)
    (hmutates : shortcut.mutates = true) :
    mutatesCollection schema method argc = true ↔ schema.LacksResult method argc := by
  rw [mutatesCollection, Schema.LacksResult]
  cases schema.lookupMethod Family.collection.typeName method (some argc) with
  | none => simp [hfind, hmutates]
  | some found => simp

/-- When a write to the bound collection `name` is reported under that name. -/
def BoundWrite.IsReported (schema : Schema) (name : String) : BoundWrite → Prop
  | .append _ => Text.rootOf name = name ∧ schema.LacksResult "push" 1
  | .removeLast => Text.rootOf name = name ∧ schema.LacksResult "pop" 0
  | .clear => Text.rootOf name = name ∧ schema.LacksResult "clear" 0
  | .reassign _ => True
  | .indexWrite .. => False

namespace Stmt

variable {schema : Schema} {loops : LoopTable}

theorem mem_bodyWrites_leaf {stmt : Stmt} (hleaf : stmt.nodes = [stmt]) {name : String} :
    name ∈ bodyWrites schema loops [stmt] ↔ stmt.written? schema loops = some name := by
  rw [bodyWrites, NameSet.mem_ofNames, listNodes, listNodes, hleaf]
  simp

theorem mem_bodyWrites_call {call : Call Expr} {receiver method name : String}
    (hsplit : splitReceiver call.name = some (receiver, method)) :
    name ∈ bodyWrites schema loops [.evaluate (.call call)] ↔
      Text.rootOf receiver = name ∧ mutatesCollection schema method call.args.length = true := by
  rw [mem_bodyWrites_leaf (by rw [nodes]), written?, Expr.written?, hsplit]
  simp [and_comm]

end Stmt

/-! ## The two decisions compared

For each form of write the report is computed on the statement alone, which has no parts.  What
remains is to compare the conditions. -/

theorem isReported_methodWrite {env : Env} {schema : Schema} {name method : String}
    {args : List (Arg Expr)} {write : BoundWrite} (h : env.methodWrite? method args = some write) :
    write.IsReported schema name ↔
      Text.rootOf name = name ∧ mutatesCollection schema method args.length = true := by
  unfold Env.methodWrite? at h
  split at h
  · obtain rfl := Option.some.inj h
    exact and_congr_right fun _ => (mutatesCollection_iff rfl rfl).symm
  · obtain rfl := Option.some.inj h
    exact and_congr_right fun _ => (mutatesCollection_iff rfl rfl).symm
  · obtain rfl := Option.some.inj h
    exact and_congr_right fun _ => (mutatesCollection_iff rfl rfl).symm
  · simp at h

theorem mem_bodyWrites_boundWrite {env : Env} {loops : LoopTable} {stmt : Stmt} {name : String}
    {write : BoundWrite} (h : env.boundWrite? loops stmt = some (name, write)) :
    name ∈ Stmt.bodyWrites env.schema loops [stmt] ↔ write.IsReported env.schema name := by
  obtain ⟨info, hinfo, ⟨a, rfl, rfl, href, rfl⟩ | ⟨a, rfl, harray, rfl⟩ |
    ⟨call, method, rfl, hsplit, hwrite⟩⟩ := Env.boundWrite?_cases h
  · rw [Stmt.mem_bodyWrites_leaf (by rw [Stmt.nodes])]
    simp [Stmt.written?, BoundWrite.IsReported]
  · rw [Stmt.mem_bodyWrites_leaf (by rw [Stmt.nodes])]
    have hbound : loops.contains name = true := by
      rw [← Std.ExtTreeMap.isSome_getElem?_eq_contains, hinfo]; rfl
    simp [Stmt.written?, BoundWrite.IsReported, harray, Expr.isBound, hbound]
  · rw [Stmt.mem_bodyWrites_call hsplit, isReported_methodWrite hwrite]

namespace Route

variable {env : Env} {receiver method : String} {argc : Nat}

/-- A shortcut that changes its receiver is one of the collections. -/
theorem find?_collection_of_select {shortcut : Shortcut}
    (h : select env receiver method argc = .shortcut shortcut)
    (hmutates : shortcut.mutates = true) :
    Shortcut.find? .collection method argc = some shortcut := by
  have hselected := selected_select env receiver method argc
  rw [h] at hselected
  cases hselected with
  | @shortcut family _ _ hfound =>
  cases family with
  | collection => exact hfound
  | text =>
    have htexts : ∀ other ∈ Shortcut.texts, other.mutates = false := by decide
    have hmem : shortcut ∈ Shortcut.texts := List.mem_of_find?_eq_some hfound
    rw [htexts shortcut hmem] at hmutates
    cases hmutates

end Route

/-- **What is lowered as a write to a bound collection, and what is reported as one.**  A statement
without parts is lowered to the plan that `boundWrite?` names, and as if nothing was bound if it
names none.  A write that goes through a plan is reported under the name of its collection exactly
if it assigns the whole collection, or calls a method to which the schema gives no result on a
collection without dots in its name; a write to an element is never reported.  A call that goes
through a shortcut that changes its receiver is reported exactly if the schema gives the method no
result. -/
theorem boundWrite_reported_iff (env : Env) (loops : LoopTable) :
    (∀ stmt : Stmt, stmt.nodes = [stmt] → env.boundWrite? loops stmt = none →
      env.stmtText loops stmt = env.stmtText ∅ stmt) ∧
    (∀ (stmt : Stmt) (name : String) (write : BoundWrite),
      env.boundWrite? loops stmt = some (name, write) →
        (∃ info, loops[name]? = some info ∧
          env.stmtText loops stmt = do
            let plan ← write.plan info
            return plan.render info (env.scope.read name)) ∧
        (name ∈ Stmt.bodyWrites env.schema loops [stmt] ↔ write.IsReported env.schema name)) ∧
    ∀ (call : Call Expr) (receiver method : String) (shortcut : Shortcut),
      splitReceiver call.name = some (receiver, method) →
      Route.select env receiver method call.args.length = .shortcut shortcut →
      shortcut.mutates = true →
        (Text.rootOf receiver ∈ Stmt.bodyWrites env.schema loops [.evaluate (.call call)] ↔
          env.schema.LacksResult method call.args.length) := by
  refine ⟨fun stmt => Env.stmtText_of_boundWrite_eq_none, fun stmt name write h =>
    ⟨Env.stmtText_of_boundWrite h, mem_bodyWrites_boundWrite h⟩, ?_⟩
  intro call receiver method shortcut hsplit hselect hmutates
  rw [Stmt.mem_bodyWrites_call hsplit,
    mutatesCollection_iff (Route.find?_collection_of_select hselect hmutates) hmutates]
  exact and_iff_right rfl

/-- Without methods of arrays in the schema, the call that clears the view is reported. -/
theorem boundWrite_reported_clear :
    let env : Env := ⟨Scope.ofComponent "" "App" ∅, Schema.empty, .default⟩
    let loops : LoopTable := NameMap.ofEntries [("xs", .ofLoop 0 "x" "make_x(x);")]
    let stmt : Stmt := .evaluate (.call ⟨"xs.clear", [], 1⟩)
    env.boundWrite? loops stmt = some ("xs", .clear) ∧
      "xs" ∈ Stmt.bodyWrites Schema.empty loops [stmt] := by
  intro env loops stmt
  have hwrite : env.boundWrite? loops stmt = some ("xs", .clear) := by rfl
  have hlacks : Schema.empty.LacksResult "clear" 0 := by
    intro found hfound
    simp [Schema.empty, Schema.lookupMethod, Schema.methodsNamed, Schema.collectMethods,
      Schema.get?, Schema.maxLinks] at hfound
  have hreported : BoundWrite.clear.IsReported Schema.empty "xs" := ⟨rfl, hlacks⟩
  exact ⟨hwrite,
    ((boundWrite_reported_iff env loops).2.1 stmt "xs" .clear hwrite).2.2 hreported⟩

/-- With a schema in which `pop` returns the removed element, the call that removes the last item
from the view is not reported. -/
theorem boundWrite_pop_not_reported :
    let pop := (ApiMethod.plain "pop" .template "").returning "int"
    let schema := Schema.ofTypes [{ ApiType.builtin "array" with methods := [pop] }]
    let env : Env := ⟨Scope.ofComponent "" "App" ∅, schema, .default⟩
    let loops : LoopTable := NameMap.ofEntries [("xs", .ofLoop 0 "x" "make_x(x);")]
    let stmt : Stmt := .evaluate (.call ⟨"xs.pop", [], 1⟩)
    env.boundWrite? loops stmt = some ("xs", .removeLast) ∧
      "xs" ∉ Stmt.bodyWrites schema loops [stmt] := by
  intro pop schema env loops stmt
  have hwrite : env.boundWrite? loops stmt = some ("xs", .removeLast) := by rfl
  have hfound : schema.lookupMethod Family.collection.typeName "pop" (some 0) = some pop := by
    simp [schema, pop, Schema.ofTypes, Schema.insert, Schema.lookupMethod, Schema.methodsNamed,
      Schema.collectMethods, Schema.get?, Schema.maxLinks, Schema.takes, Family.typeName,
      ApiType.builtin, ApiType.plain, ApiMethod.plain, ApiMethod.returning]
  refine ⟨hwrite, fun hmem => ?_⟩
  have hreported := (mem_bodyWrites_boundWrite hwrite).1 hmem
  exact absurd (hreported.2 pop hfound) (by decide)

end UiLowering
