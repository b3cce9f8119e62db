import UiLowering.Proofs.Call.Faults
import UiLowering.Proofs.Component.Isolation

/-!
# The only fault of the lowering

Statements and definitions add no fault of their own to those of their expressions, and the plans of
bound collections have none.  So a statement or a component that cannot be lowered contains a call
that is refused, and `only_callbacks_fail` says which calls are: those that give a callback of their
callee by value, no others and all of them.

The two directions are of a different kind.  That a fault comes from a call is an induction over the
tree, which does not know what a refusal is.  That a refused call is a fault of the whole is not:
the lowering reports the first fault that it meets, and this may be another one.  So the second
direction is stated for the call itself: if it is lowered, it gives all its callbacks by reference.
-/

set_option autoImplicit false

namespace UiLowering

variable {P : Fault → Prop}

/-! ## Statements

The refusals of the calls in a statement are those of the calls in its expressions.  An expected
type renames literals and leaves calls alone, so it may be set without changing what is refused. -/

namespace Env

variable {env : Env}

/-- The refusals of all calls in an expression have a property. -/
abbrev AllRefused (P : Fault → Prop) (env : Env) (e : Expr) : Prop :=
  Each (Expr.RefusedBy P env) e.nodes

/-- An expected type concerns no call. -/
theorem keptByTypes_refusedBy : Expr.KeptByTypes (fun _ => True) (Expr.RefusedBy P env) where
  record _ _ := fun _ h => nomatch h
  array _ := fun _ h => nomatch h
  inner _ _ := trivial

theorem faults_fillDeclText (decl : VarDecl) {value count : Expr}
    (hvalue : env.AllRefused P value) (hcount : env.AllRefused P count) :
    (env.fillDeclText decl value count).Faults P := by
  unfold fillDeclText
  extract_lets rest
  have hrest (element : String) : (rest element).Faults P := by
    refine (faults_exprText hvalue).bind fun valueCode => ?_
    split
    · exact Lowered.faults_pure _
    · exact (faults_exprText hcount).map
  split
  · exact (Lowered.faults_of_ok rfl).bind hrest
  · exact (env.faults_typeText _).bind hrest

theorem faults_arrayDeclText (decl : VarDecl) (element : String) {literal : ArrayLit Expr}
    (h : env.AllRefused P (.array literal)) :
    (env.arrayDeclText decl element literal).Faults P := by
  rw [AllRefused, Expr.nodes] at h
  have hnodes : Each (Expr.RefusedBy P env)
      (Expr.listNodes (Expr.withExpectedTypes element literal.elements)) :=
    Expr.each_withExpectedTypes keptByTypes_refusedBy trivial literal.elements h.tail
  exact (env.faults_typeText element).bind fun _ =>
    (faults_arrayText (faults_lowerList _ hnodes)).map

theorem faults_plainDeclText {decl : VarDecl}
    (h : ∀ value ∈ decl.initializer, env.AllRefused P value) :
    (env.plainDeclText decl).Faults P := by
  refine (env.faults_typeText _).bind fun _ => ?_
  dsimp only
  split
  · rename_i value hvalue
    exact (faults_exprText (h value hvalue)).map
  · exact Lowered.faults_pure _

theorem faults_declText {decl : VarDecl}
    (h : ∀ value ∈ decl.initializer, env.AllRefused P value) : (env.declText decl).Faults P := by
  unfold declText
  split
  · rename_i value count hfill
    have hnodes := h _ hfill
    rw [AllRefused, Expr.nodes] at hnodes
    exact faults_fillDeclText decl hnodes.tail.left hnodes.tail.right
  · rename_i literal hliteral
    split
    · exact faults_arrayDeclText decl _ (h _ hliteral)
    · exact faults_plainDeclText h
  · exact faults_plainDeclText h

theorem faults_assignmentText (loops : LoopTable) {a : Assignment}
    (h : env.AllRefused P a.value) : (env.assignmentText loops a).Faults P := by
  have hassigned (code : String) : (env.assignedText a.targetType code).Faults P := by
    unfold assignedText
    split
    · split
      · exact (env.faults_typeText _).map
      · exact Lowered.faults_pure _
    · exact Lowered.faults_pure _
  refine (faults_exprText h).bind fun code => (hassigned _).bind fun value => ?_
  split
  · split
    · exact Lowered.faults_pure _
    · exact Lowered.faults_pure _
  · exact Lowered.faults_pure _

theorem faults_indexAssignmentText (loops : LoopTable) {a : IndexAssignment}
    (harray : env.AllRefused P a.array) (hposition : env.AllRefused P a.position)
    (hvalue : env.AllRefused P a.value) : (env.indexAssignmentText loops a).Faults P := by
  refine (faults_exprText harray).bind fun target => (faults_exprText hposition).bind fun index =>
    (faults_exprText hvalue).bind fun code => ?_
  dsimp only
  split
  · exact Lowered.faults_pure _
  · exact Lowered.faults_pure _

theorem faults_memberAssignmentText {a : MemberAssignment} (hobject : env.AllRefused P a.object)
    (hvalue : env.AllRefused P a.value) : (env.memberAssignmentText a).Faults P :=
  (faults_exprText hobject).bind fun _ => (faults_exprText hvalue).map

/-- The plan of a call on a bound collection fails only with the item that is added. -/
theorem faults_collectionCall? {loops : LoopTable} {call : Call Expr} {text : Lowered String}
    (h : env.AllRefused P (.call call)) (htext : env.collectionCall? loops call = some text) :
    text.Faults P := by
  obtain ⟨parts, -, htext⟩ := Option.bind_eq_some_iff.1 htext
  obtain ⟨info, -, htext⟩ := Option.bind_eq_some_iff.1 htext
  dsimp only at htext
  split at htext
  · rename_i item hmethod hargs
    cases htext
    rw [AllRefused, Expr.nodes, hargs, Expr.argNodes] at h
    have hitem : (env.codedArg item).value.Faults P := faults_lower item.value h.tail.left
    exact (Arg.faults_text hitem).map
  · cases htext
    exact Lowered.faults_pure _
  · cases htext
    exact Lowered.faults_pure _
  · cases htext

theorem faults_expressionText (loops : LoopTable) {e : Expr} (h : env.AllRefused P e) :
    (env.expressionText loops e).Faults P := by
  have hplain : (env.plainStatementText e).Faults P := (faults_exprText h).map
  unfold expressionText
  split
  · split
    · rename_i htext
      exact faults_collectionCall? h htext
    · exact hplain
  · exact hplain

/-! ### All kinds of statements

A statement is lowered from the texts of its expressions and of the statements in it, in order.
Nothing in between can fail. -/

/-- The refusals of all calls in some statements have a property. -/
abbrev AllStmtsRefused (P : Fault → Prop) (env : Env) (stmts : List Stmt) : Prop :=
  Each (fun stmt => ∀ e ∈ stmt.expressions, env.AllRefused P e) stmts

variable {loops : LoopTable}

mutual

/-- **A statement fails only with a call inside it.**  The induction is on the statement. -/
theorem faults_stmtText : (stmt : Stmt) → env.AllStmtsRefused P stmt.nodes →
    (env.stmtText loops stmt).Faults P
  | .declare decl, h => by
    rw [Stmt.nodes] at h
    rw [stmtText]
    refine (faults_declText fun value hvalue => h.head value ?_).map
    exact Option.mem_toList.2 hvalue
  | .assign a, h => by
    rw [Stmt.nodes] at h
    rw [stmtText]
    exact faults_assignmentText loops (h.head a.value List.mem_cons_self)
  | .assignIndex a, h => by
    rw [Stmt.nodes] at h
    rw [stmtText]
    exact faults_indexAssignmentText loops (h.head a.array (by simp [Stmt.expressions]))
      (h.head a.position (by simp [Stmt.expressions]))
      (h.head a.value (by simp [Stmt.expressions]))
  | .assignMember a, h => by
    rw [Stmt.nodes] at h
    rw [stmtText]
    exact faults_memberAssignmentText (h.head a.object (by simp [Stmt.expressions]))
      (h.head a.value (by simp [Stmt.expressions]))
  | .ret (some value), h => by
    rw [Stmt.nodes] at h
    rw [stmtText]
    exact (faults_exprText (h.head value List.mem_cons_self)).map
  | .ret none, _ => by
    rw [stmtText]
    exact Lowered.faults_pure _
  | .evaluate e, h => by
    rw [Stmt.nodes] at h
    rw [stmtText]
    exact faults_expressionText loops (h.head e List.mem_cons_self)
  | .block body, h => by
    rw [Stmt.nodes] at h
    rw [stmtText]
    exact (faults_bodyText body h.tail).map
  | .branch condition thenBranch elseBranch, h => by
    rw [Stmt.nodes] at h
    rw [stmtText]
    exact (faults_exprText (h.head condition List.mem_cons_self)).bind fun _ =>
      (faults_stmtText thenBranch h.tail.left).bind fun _ =>
        faults_elseText _ elseBranch h.tail.right
  | .forRange counter first limit body, h => by
    rw [Stmt.nodes] at h
    rw [stmtText]
    exact (faults_exprText (h.head first (by simp [Stmt.expressions]))).bind fun _ =>
      (faults_exprText (h.head limit (by simp [Stmt.expressions]))).bind fun _ =>
        (faults_stmtText body h.tail).map
  | .forEach item items body, h => by
    rw [Stmt.nodes] at h
    rw [stmtText]
    exact (faults_exprText (h.head items List.mem_cons_self)).bind fun _ =>
      (faults_stmtText body h.tail).map

theorem faults_bodyText : (body : List Stmt) → env.AllStmtsRefused P (Stmt.listNodes body) →
    (env.bodyText loops body).Faults P
  | [], _ => by
    rw [bodyText]
    exact Lowered.faults_pure _
  | stmt :: body, h => by
    rw [Stmt.listNodes] at h
    rw [bodyText]
    exact (faults_stmtText stmt h.left).bind fun _ => (faults_bodyText body h.right).map

theorem faults_elseText (code : String) : (elseBranch : Option Stmt) →
    env.AllStmtsRefused P (Stmt.optionNodes elseBranch) →
      (env.elseText loops code elseBranch).Faults P
  | none, _ => by
    rw [elseText]
    exact Lowered.faults_pure _
  | some elseBranch, h => by
    rw [Stmt.optionNodes] at h
    rw [elseText]
    exact (faults_stmtText elseBranch h).map

end

end Env

/-! ## Components

Types are lowered without fault, so records and enumerations do not fail at all.  A member fails
with its first value, a method with its body. -/

namespace Env

variable {env : Env}

theorem faults_dataText (env : Env) (data : DataDef) : (env.dataText data).Faults P := by
  have hname : (env.dataName data).Faults P := by
    unfold dataName
    split
    · exact Lowered.faults_pure _
    · exact env.faults_typeText _
  refine hname.bind fun _ => (Lowered.faults_all (List.forall_mem_map.2 ?_)).map
  exact fun field _ => (env.faults_typeText field.typeName).map

theorem faults_memberParamText {param : ComponentParam}
    (h : ∀ value ∈ param.defaultValue, env.AllRefused P value) :
    (env.memberParamText param).Faults P := by
  refine (env.faults_typeText _).bind fun _ => ?_
  split
  · exact Lowered.faults_pure _
  · split
    · rename_i value hvalue
      exact (faults_exprText (h value hvalue)).map
    · exact Lowered.faults_pure _

theorem faults_methodText (loops : LoopTable) {method : Method} (injected : String)
    (h : env.AllStmtsRefused P (Stmt.listNodes method.body)) :
    (env.methodText loops method injected).Faults P := by
  have hparams : (Lowered.all (method.params.map env.paramText)).Faults P := by
    refine Lowered.faults_all (List.forall_mem_map.2 ?_)
    exact fun param _ => (env.faults_typeText param.typeName).map
  exact hparams.bind fun _ => (faults_bodyText method.body h).bind fun _ =>
    (env.faults_typeText method.returnType).map

end Env

namespace Component

variable {component : Component}

/-- The expressions that the members of a component start with. -/
def memberExpressions (component : Component) : List Expr :=
  component.params.filterMap (·.defaultValue) ++ component.state.filterMap (·.initializer)

theorem faults_memberFragments {env : Env}
    (h : ∀ e ∈ component.memberExpressions, env.AllRefused P e) :
    ∀ x ∈ component.memberFragments env, x.Faults P := by
  obtain ⟨hparams, hstate⟩ := List.forall_mem_append.1 h
  simp only [memberFragments, List.forall_mem_append, List.forall_mem_map]
  refine ⟨⟨⟨?_, ?_⟩, ?_⟩, ?_⟩
  · exact fun data _ => (env.faults_dataText data).map
  · exact fun enum _ => Lowered.Faults.map (env.faults_typeText enum.name).map
  · intro param hparam
    refine (Env.faults_memberParamText fun value hvalue => hparams value ?_).map
    exact List.mem_filterMap.2 ⟨param, hparam, hvalue⟩
  · intro decl hdecl
    refine (Env.faults_declText fun value hvalue => hstate value ?_).map
    exact List.mem_filterMap.2 ⟨decl, hdecl, hvalue⟩

/-- **A component fails only with a call inside it.** -/
theorem faults_lower {schema : Schema} {globalTypes : NameSet} {options : Options}
    (hmembers : ∀ e ∈ component.memberExpressions,
      (component.envOf schema globalTypes options).AllRefused P e)
    (hmethods : ∀ method ∈ component.methods,
      ((component.envOf schema globalTypes options).within method).AllStmtsRefused P
        (Stmt.listNodes method.body)) :
    (component.lower schema globalTypes options).Faults P := by
  have hfragments : (methodFragments (component.envOf schema globalTypes options) component.loops
      component.methods).Faults P := by
    rw [methodFragments_eq]
    refine Lowered.faults_all (List.forall_mem_map.2 fun method hmethod => ?_)
    exact (Env.faults_methodText component.loops "" (hmethods method hmethod)).map
  exact (Lowered.faults_note _).bind fun _ =>
    (Lowered.faults_all (faults_memberFragments hmembers)).bind fun _ => hfragments.map

end Component

/-! ## Which calls are refused

The lemmas above hold for any property of faults.  Here the property is that the fault names a call
in the tree that is refused, which gives one half of the statement.  The other half is that a call
which gives a callback by value fails at the check. -/

namespace Env

/-- A call is refused with a fault: its callee in the schema has a callback that the call gives by
value, and the fault names the call, the callback and the line of the call. -/
def Refuses (env : Env) (call : Call Expr) (fault : Fault) : Prop :=
  ∃ callee param, env.callee? call = some callee ∧ env.schema.HasMethod callee.method ∧
    callee.TakesByValue call param ∧ fault = .callbackByValue call.name param.name call.line

/-- A call in an expression is refused. -/
def RefusesIn (env : Env) (e : Expr) (fault : Fault) : Prop :=
  ∃ call, .call call ∈ e.nodes ∧ env.Refuses call fault

/-- A call in an expression of some statements is refused. -/
def RefusesInStmts (env : Env) (stmts : List Stmt) (fault : Fault) : Prop :=
  ∃ stmt ∈ stmts, ∃ e ∈ stmt.expressions, env.RefusesIn e fault

variable {env : Env}

theorem allRefused_of_refusesIn {e : Expr} (h : ∀ fault, env.RefusesIn e fault → P fault) :
    env.AllRefused P e := by
  rintro node hnode call rfl callee param hcallee hvalue
  exact h _ ⟨call, hnode, callee, param, hcallee, hasMethod_of_callee? hcallee, hvalue, rfl⟩

theorem allStmtsRefused_of_refusesInStmts {stmts : List Stmt}
    (h : ∀ fault, env.RefusesInStmts stmts fault → P fault) : env.AllStmtsRefused P stmts :=
  fun stmt hstmt e he => allRefused_of_refusesIn fun fault hfault =>
    h fault ⟨stmt, hstmt, e, he, hfault⟩

theorem refusesIn_of_exprText (env : Env) (e : Expr) :
    (env.exprText e).Faults (env.RefusesIn e) :=
  faults_exprText (allRefused_of_refusesIn fun _ h => h)

theorem refusesIn_of_stmtText (env : Env) (loops : LoopTable) (stmt : Stmt) :
    (env.stmtText loops stmt).Faults (env.RefusesInStmts stmt.nodes) :=
  faults_stmtText stmt (allStmtsRefused_of_refusesInStmts fun _ h => h)

end Env

/-- A call in a component is refused, among the members or in a method. -/
def Component.RefusesIn (component : Component) (env : Env) (fault : Fault) : Prop :=
  (∃ e ∈ component.memberExpressions, env.RefusesIn e fault) ∨
    ∃ method ∈ component.methods,
      (env.within method).RefusesInStmts (Stmt.listNodes method.body) fault

theorem Component.refusesIn_of_lower (component : Component) (schema : Schema)
    (globalTypes : NameSet) (options : Options) :
    (component.lower schema globalTypes options).Faults
      (component.RefusesIn (component.envOf schema globalTypes options)) :=
  faults_lower
    (fun e he => Env.allRefused_of_refusesIn fun _ h => Or.inl ⟨e, he, h⟩)
    (fun method hmethod => Env.allStmtsRefused_of_refusesInStmts fun _ h =>
      Or.inr ⟨method, hmethod, h⟩)

/-- **Only callbacks fail, and no callback is missed.**  An expression, a statement or a component
that cannot be lowered contains a call that gives a callback of a method of the schema by value, and
the fault names this call, the callback and the line.  A call that is lowered through a method of
the schema gives all callbacks of this method by reference; the arguments start behind the
parameters that the receiver takes. -/
theorem only_callbacks_fail :
    (∀ (env : Env) (e : Expr) (fault : Fault),
      (env.exprText e).result = .error fault → env.RefusesIn e fault) ∧
    (∀ (env : Env) (loops : LoopTable) (stmt : Stmt) (fault : Fault),
      (env.stmtText loops stmt).result = .error fault → env.RefusesInStmts stmt.nodes fault) ∧
    (∀ (component : Component) (schema : Schema) (globalTypes : NameSet) (options : Options)
      (fault : Fault), (component.lower schema globalTypes options).result = .error fault →
        component.RefusesIn (component.envOf schema globalTypes options) fault) ∧
    ∀ (env : Env) (call : Call Expr) (callee : Callee) (text : String),
      env.callee? call = some callee → (env.exprText (.call call)).result = .ok text →
        ∀ (i : Nat) (arg : Arg Expr) (param : ApiParam), call.args[i]? = some arg →
          callee.method.params[i + callee.skipped]? = some param → param.isCallback = true →
            arg.byReference = true := by
  refine ⟨Env.refusesIn_of_exprText, Env.refusesIn_of_stmtText, Component.refusesIn_of_lower, ?_⟩
  intro env call callee text hcallee htext i arg param harg hparam hcallback
  cases href : arg.byReference with
  | true => rfl
  | false =>
    exact absurd ⟨i, arg, harg, hparam, hcallback, href⟩
      (Env.not_takesByValue_of_lowered hcallee htext param)

/-- A function of the runtime that takes a callback. -/
def timerSchema : Schema :=
  .ofTypes [{ ApiType.plain "timer" with
    methods := [(ApiMethod.plain "every" .function "timer::every").withCallback "tick"] }]

/-- A call of this function, with the callback by reference or by value. -/
def everyCall (byReference : Bool) : Call Expr :=
  ⟨"every", [⟨none, .ident "redraw", byReference, false⟩], 7⟩

/-- A component with a method that makes the call with the callback by value. -/
def timerComponent : Component :=
  { Component.plain "Clock" with
    methods := [⟨"start", "void", [], [.evaluate (.call (everyCall false))], true⟩] }

/-- The surroundings of this component. -/
def timerEnv : Env := timerComponent.envOf timerSchema ∅ .default

/-- The call is refused with the callback by value, by itself and inside a statement and a
component, and lowered with the callback by reference. -/
theorem only_callbacks_fail_timer :
    (∃ fault, (timerEnv.exprText (.call (everyCall false))).result = .error fault ∧
      timerEnv.RefusesIn (.call (everyCall false)) fault) ∧
    (∃ fault, (timerEnv.stmtText ∅ (.evaluate (.call (everyCall false)))).result =
        .error fault ∧
      timerEnv.RefusesInStmts [.evaluate (.call (everyCall false))] fault) ∧
    (∃ fault, (timerComponent.lower timerSchema ∅ .default).result = .error fault ∧
      timerComponent.RefusesIn timerEnv fault) ∧
    ∃ callee text param, timerEnv.callee? (everyCall true) = some callee ∧
      (timerEnv.exprText (.call (everyCall true))).result = .ok text ∧
      callee.method.params[0 + callee.skipped]? = some param ∧ param.isCallback = true ∧
      ∀ arg, (everyCall true).args[0]? = some arg → arg.byReference = true := by
  obtain ⟨exprs, stmts, components, calls⟩ := only_callbacks_fail
  refine ⟨?_, ?_, ?_, ?_⟩
  · obtain ⟨fault, hfault⟩ := Lowered.exists_error_of_isOk_eq_false
      (show (timerEnv.exprText (.call (everyCall false))).result.isOk = false by decide +kernel)
    exact ⟨fault, hfault, exprs _ _ fault hfault⟩
  · obtain ⟨fault, hfault⟩ := Lowered.exists_error_of_isOk_eq_false
      (show (timerEnv.stmtText ∅ (.evaluate (.call (everyCall false)))).result.isOk = false by
        decide +kernel)
    exact ⟨fault, hfault, stmts _ _ _ fault hfault⟩
  · obtain ⟨fault, hfault⟩ := Lowered.exists_error_of_isOk_eq_false
      (show (timerComponent.lower timerSchema ∅ .default).result.isOk = false by
        decide +kernel)
    exact ⟨fault, hfault, components _ _ _ _ fault hfault⟩
  · obtain ⟨text, htext⟩ := Lowered.exists_ok_of_isOk
      (show (timerEnv.exprText (.call (everyCall true))).result.isOk = true by decide +kernel)
    have hcallee : ((timerEnv.callee? (everyCall true)).bind fun callee =>
        callee.method.params[0 + callee.skipped]?).any (·.isCallback) = true := by
      decide +kernel
    obtain ⟨param, hbind, hcallback⟩ := (Option.any_eq_true _ _).1 hcallee
    obtain ⟨callee, hfound, hparam⟩ := Option.bind_eq_some_iff.1 hbind
    exact ⟨callee, text, param, hfound, htext, hparam, hcallback, fun arg harg =>
      calls _ _ callee text hfound htext 0 arg param harg hparam hcallback⟩

end UiLowering
