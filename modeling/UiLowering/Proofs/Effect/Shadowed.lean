import UiLowering.Proofs.Call.Function
import UiLowering.Proofs.Effect.BoundCall

/-!
# Locals with the name of a bound collection

The loop table knows bound collections by their names and nothing else, and the lowering asks it
before it asks the scope.  So a local of a method that has the name of a bound collection is taken
for it: what is written to the local goes through the plan of the collection, and the view is
changed.  Only the assignment of a collection whose items are copies has no plan.

That the text with a plan is never the text without it has to be seen for each write.  The plan of
an assignment holds the plain assignment and more.  The plans of an append and of a removal end in a
brace, which no expression statement does unless it is a block of the formatter.  The plan of a
clear is told from the code of a call by its first character, or else by its length.

The main result is an equivalence.  It lists the cases in which the entry in the table makes no
difference, so in all others the text of a write to the local changes when a collection of the same
name is bound.
-/

set_option autoImplicit false

namespace UiLowering

/-- The statement writes to a variable: it assigns it or one of its elements, or it is a call that
appends to it, removes its last element or clears it. -/
inductive Stmt.WritesTo (name : String) : Stmt → Prop where
  | assign {a : Assignment} : a.name = name → WritesTo name (.assign a)
  | assignIndex {a : IndexAssignment} : a.array = .ident name → WritesTo name (.assignIndex a)
  | push {call : Call Expr} {item : Arg Expr} : splitReceiver call.name = some (name, "push") →
      call.args = [item] → WritesTo name (.evaluate (.call call))
  | pop {call : Call Expr} : splitReceiver call.name = some (name, "pop") →
      call.args = [] → WritesTo name (.evaluate (.call call))
  | clear {call : Call Expr} : splitReceiver call.name = some (name, "clear") →
      call.args = [] → WritesTo name (.evaluate (.call call))

/-! ## Texts with and without a plan

Each plan is compared with the text that the same write has if nothing is bound.  No text has to be
computed: a length, a last character or a first character is enough to tell the two apart. -/

/-- A statement that is an expression with the given code. -/
def plainStatement (code : String) : String :=
  if Text.startsWith "\x7b webcc::formatter" code then code ++ "\n" else code ++ ";\n"

namespace ViewPlan

variable (info : BoundCollection) (storage : String)

theorem reassign_ne_assignText (value : String) :
    (info.reassignPlan value).render info storage ≠ assignText storage value none := by
  have hrender : (info.reassignPlan value).render info storage =
      (ViewStep.ifRendered info.teardown).render info storage ++
        (assignText storage value none ++ (info.countVar ++ " = (int)" ++ storage ++ ".size();\n" ++
          ViewStep.renderAll info storage
            [.enterRender, .createEach, .exitRenderAndFlush])) := rfl
  have hcount : info.countVar ++ " = (int)" ++ storage ++ ".size();\n" ++
      ViewStep.renderAll info storage [.enterRender, .createEach, .exitRenderAndFlush] ≠ "" := by
    simp
  intro heq
  have hlength := congrArg String.length heq
  have hlt := Text.length_lt_append (assignText storage value none) hcount
  rw [hrender, String.length_append] at hlength
  omega

theorem indexWrite_ne_assignText (index value : String) (op : Option String) :
    (BoundCollection.indexWritePlan index value op).render info storage ≠
      assignText (storage ++ "[" ++ index ++ "]") value op := by
  have hrender : (BoundCollection.indexWritePlan index value op).render info storage =
      assignText (storage ++ "[" ++ index ++ "]") value op ++
        (ViewStep.relocateText storage info.parent index ++ "") := rfl
  have hmove : ViewStep.relocateText storage info.parent index ++ "" ≠ "" := by
    unfold ViewStep.relocateText
    simp
  intro heq
  have hlt := Text.length_lt_append (assignText (storage ++ "[" ++ index ++ "]") value op) hmove
  rw [← hrender, heq] at hlt
  exact Nat.lt_irrefl _ hlt

/-- A statement that is an expression has not the text of a plan that ends in a brace, unless this
begins like a block of the formatter. -/
theorem ne_plainStatement {plan body : String} (hend : plan = body ++ "\x7d\n")
    (hstart : ¬['\x7b', ' '] <+: plan.toList) (code : String) : plainStatement code ≠ plan := by
  rw [plainStatement]
  split
  · rename_i hcode
    rintro rfl
    refine hstart ?_
    rw [Text.startsWith, List.isPrefixOf_iff_prefix] at hcode
    rw [String.toList_append]
    have hblock : ['\x7b', ' '] <+: "\x7b webcc::formatter".toList := by simp
    exact (hblock.trans hcode).trans (List.prefix_append _ _)
  · intro heq
    rw [hend, ← String.toList_inj, String.toList_append, String.toList_append] at heq
    have hlast := (List.append_inj' heq (by simp)).2
    simp at hlast

theorem append_ne_plainStatement (item code : String) :
    plainStatement code ≠ (BoundCollection.appendPlan item).render info storage := by
  have hrender : (BoundCollection.appendPlan item).render info storage =
      "\x7b\n" ++ ViewStep.renderAll info storage
        [.saveOldCount, .append item,
          .ifAttached [.rebindExisting, .bindNewest, .createItem, .incrementCount]] ++ "\x7d\n" ++
        "" := rfl
  rw [String.append_empty] at hrender
  refine ne_plainStatement hrender ?_ code
  rw [hrender, String.append_assoc, String.toList_append]
  simp

theorem removeLast_ne_plainStatement (code : String) :
    plainStatement code ≠ info.removeLastPlan.render info storage := by
  have hrender : info.removeLastPlan.render info storage =
      "if (!" ++ storage ++ ".empty()) \x7b\n" ++ ViewStep.renderAll info storage
        [.removeLastView info.isOnlyChild, .shrinkByOne, .ifAttached [.decrementCount]] ++
          "\x7d\n" ++ "" := rfl
  rw [String.append_empty] at hrender
  refine ne_plainStatement hrender ?_ code
  simp only [hrender, String.append_assoc, String.toList_append]
  simp

/-- The plan of a clear begins with the loop over all items. -/
theorem exists_clear_eq :
    ∃ rest, info.clearPlan.render info storage = "for (auto& _v : " ++ (storage ++ rest) := by
  have hrender : info.clearPlan.render info storage =
      "for (auto& _v : " ++ storage ++ ") " ++
        braced (" _v._remove_view(" ++ keepArg info.isOnlyChild ++ "); ") ++ "\n" ++
        ViewStep.renderAll info storage
          ((if info.isOnlyChild then [.resetParentContent] else []) ++
            [.resetCount, .clearStorage]) := rfl
  simp only [hrender, String.append_assoc]
  exact ⟨_, rfl⟩

end ViewPlan

/-! ## The code of a clear

A clear is the one write whose plan could, by its shape, be the text of a call.  Of the ways that
such a call on a local can go, those of types are excluded, and the others give code that is too
short or begins with another character.  A template of the schema may hold anything and is excluded
by a hypothesis. -/

namespace Env

variable {env : Env} {name : String}

theorem head?_append_ne {front : String} {c d : Char} (h : front.toList.head? = some d)
    (hne : d ≠ c) (rest : String) : (front ++ rest).toList.head? ≠ some c := by
  rw [String.toList_append, List.head?_append, h]
  exact fun heq => hne (Option.some.inj heq)

theorem head?_narrowed_ne (env : Env) (returnType callee : String) (args : List String) :
    (env.narrowed returnType (applied ("webcc::" ++ callee) args)).toList.head? ≠ some 'f' := by
  rw [narrowed]
  split
  · simp only [String.append_assoc]
    exact head?_append_ne rfl (by decide) _
  · simp only [applied, String.append_assoc]
    exact head?_append_ne rfl (by decide) _

theorem template_of_clear {family : Family} {shortcut : Shortcut}
    (h : Shortcut.find? family "clear" 0 = some shortcut) :
    shortcut.template = "$\x7bthis\x7d.clear()" := by
  cases family with
  | text => simp [Shortcut.find?, Shortcut.table, Shortcut.texts] at h
  | collection =>
    simp [Shortcut.find?, Shortcut.table, Shortcut.collections] at h
    rw [← h]

/-- The code that clears a local is hardly longer than its name, or it begins with a character that
the plan does not begin with. -/
theorem head?_or_length_of_clear {call : Call Expr} {code : String}
    (hlocal : env.scope.kindOf? name = some .methodLocal)
    (hclear : ∀ found, Route.select env name "clear" 0 ≠ .valueTemplate found)
    (hsplit : splitReceiver call.name = some (name, "clear")) (hargs : call.args = [])
    (h : (env.exprText (.call call)).result = .ok code) :
    code.toList.head? ≠ some 'f' ∨ code.length ≤ name.length + 11 := by
  have hstatic : env.isStaticReceiver name = false := by simp [isStaticReceiver, hlocal]
  have hpath := length_readPath_le env.scope name
  have hselected := Route.selected_select env name "clear" 0
  generalize hroute : Route.select env name "clear" 0 = route at hclear hselected
  cases hselected with
  | intrinsic htype _ | staticTemplate htype _ | unknownStatic htype =>
    rw [hstatic] at htype
    cases htype
  | valueTemplate _ => exact absurd rfl (hclear _)
  | enumSize =>
    rw [exprText_of_select hsplit, hargs, List.length_nil, hroute] at h
    obtain ⟨typeText, -, hcode⟩ := Lowered.result_bind_eq_ok_iff.1 h
    cases hcode
    left
    simp only [String.append_assoc]
    exact head?_append_ne rfl (by decide) _
  | @shortcut _ shortcut _ hfound =>
    right
    rw [exprText_of_select hsplit, hargs, List.length_nil, hroute] at h
    have hcode : code = Template.expand shortcut.template (env.scope.readPath name) [] :=
      (Except.ok.inj h).symm
    have hlength := congrArg String.length
      (Template.expand_clear (.ofLoop 0 "" "") (env.scope.readPath name))
    change _ = (env.scope.readPath name ++ ".clear();\n").length at hlength
    rw [← template_of_clear hfound, ← hcode, String.length_append, String.length_append] at hlength
    have hend : ";\n".length = 2 := rfl
    have hrest : ".clear();\n".length = 10 := rfl
    omega
  | @function found =>
    left
    obtain ⟨-, hcode⟩ := (result_exprText_of_function hsplit (by rw [hargs]; exact hroute)).1 h
    rw [hargs, List.map_nil, result_functionCode_of_plain (by simp)] at hcode
    obtain ⟨codes, -, rfl⟩ := hcode
    rw [String.append_assoc, String.append_assoc]
    exact head?_narrowed_ne env found.returnType _ _
  | unknownMember =>
    right
    rw [exprText_of_select hsplit, hargs, List.length_nil, hroute] at h
    cases h
    change (env.scope.readPath name ++ "." ++ "clear" ++ "(" ++ "" ++ ")").length ≤ _
    have hrest : ("." ++ ("clear" ++ ("(" ++ ("" ++ ")")))).length = 8 := rfl
    simp only [String.append_assoc]
    rw [String.length_append, hrest]
    omega

/-! ## The table comes first

With the entry erased the lowering takes the way of an unbound variable, and with the entry it takes
the plan, whatever the scope says about the name. -/

variable {loops : LoopTable} {stmt : Stmt}

theorem nodes_of_writesTo (h : stmt.WritesTo name) : stmt.nodes = [stmt] := by
  cases h <;> rw [Stmt.nodes]

theorem stmtText_erase (h : stmt.WritesTo name) :
    env.stmtText (loops.erase name) stmt = env.stmtText ∅ stmt := by
  refine stmtText_of_boundWrite_eq_none (nodes_of_writesTo h) ?_
  cases h with
  | assign hname => simp [boundWrite?, hname]
  | assignIndex harray => simp [boundWrite?, harray]
  | push hsplit hargs | pop hsplit hargs | clear hsplit hargs => simp [boundWrite?, hsplit]

theorem stmtText_assign_empty (a : Assignment) :
    env.stmtText ∅ (.assign a) = do
      let value ← env.reassignValue a
      return assignText (env.scope.read a.name) value none := by
  simp [stmtText, assignmentText, reassignValue]

theorem stmtText_assignIndex_empty {a : IndexAssignment} (h : a.array = .ident name) :
    env.stmtText ∅ (.assignIndex a) = do
      let (index, value) ← env.indexOperands a
      return assignText (env.scope.read name ++ "[" ++ index ++ "]") value
        (a.compoundOp.map compoundOperator) := by
  simp [stmtText, indexAssignmentText, boundTo?_empty, indexOperands, h, exprText, coded,
    Coded.value, lower, Code.value]

theorem stmtText_call_empty (call : Call Expr) :
    env.stmtText ∅ (.evaluate (.call call)) = env.plainStatementText (.call call) := by
  rw [stmtText, expressionText, collectionCall?_empty]

theorem eq_of_boundWrite? {other : String} {write : BoundWrite} (h : stmt.WritesTo name)
    (hfound : env.boundWrite? loops stmt = some (other, write)) : other = name := by
  obtain ⟨_, -, ⟨a, rfl, rfl, -⟩ | ⟨a, rfl, harray, -⟩ | ⟨call, method, rfl, hsplit, -⟩⟩ :=
    boundWrite?_cases hfound
  · cases h with
    | assign hname => exact hname
  · cases h with
    | assignIndex hname =>
      rw [harray] at hname
      exact Expr.ident.inj hname
  · cases h with
    | push hname | pop hname | clear hname =>
      rw [hsplit] at hname
      exact (Prod.mk.inj (Option.some.inj hname)).1

/-- A write to a variable has no plan if the variable is not bound, or if it is assigned and the
items are copies. -/
theorem boundWrite?_eq_none_iff (h : stmt.WritesTo name) :
    env.boundWrite? loops stmt = none ↔ loops[name]? = none ∨
      ∃ a info, stmt = .assign a ∧ loops[name]? = some info ∧ info.byReference = false := by
  have hmem : loops[name]? = none ↔ name ∉ loops := by
    rw [Std.ExtTreeMap.mem_iff_isSome_getElem?, Option.not_isSome_iff_eq_none]
  cases h with
  | assign hname =>
    rw [boundWrite?, hname]
    cases hinfo : loops[name]? with
    | none => simp
    | some info => simp
  | assignIndex harray => simp [boundWrite?, harray, hmem]
  | push hsplit hargs | pop hsplit hargs | clear hsplit hargs =>
    simp [boundWrite?, hsplit, hargs, methodWrite?, hmem]

/-! ### The plan is seen in the text

The three calls and the two assignments are compared with the text that they have without the table.
That of the clear needs the way of the call; all others are decided by their shape. -/

/-- The plan of a clear is not the text of a call that clears a local. -/
theorem clear_ne_plainStatement (info : BoundCollection) {call : Call Expr} {code : String}
    (hlocal : env.scope.kindOf? name = some .methodLocal)
    (hclear : ∀ found, Route.select env name "clear" 0 ≠ .valueTemplate found)
    (hsplit : splitReceiver call.name = some (name, "clear")) (hargs : call.args = [])
    (h : (env.exprText (.call call)).result = .ok code) :
    plainStatement code ≠ info.clearPlan.render info (env.scope.read name) := by
  have hread : env.scope.read name = name := by simp [Scope.read, Scope.isReference, hlocal]
  obtain ⟨rest, hplan⟩ := ViewPlan.exists_clear_eq info name
  rw [hread, hplan]
  obtain ⟨last, hlast, hlength, hhead⟩ : ∃ last, plainStatement code = code ++ last ∧
      last.length ≤ 2 ∧ last.toList.head? ≠ some 'f' := by
    rw [plainStatement]
    split
    · exact ⟨"\n", rfl, by decide, by decide⟩
    · exact ⟨";\n", rfl, by decide, by decide⟩
  rw [hlast]
  intro heq
  rcases head?_or_length_of_clear hlocal hclear hsplit hargs h with hcode | hcode
  · have hfirst := congrArg (fun text => text.toList.head?) heq
    simp only [String.toList_append, List.head?_append] at hfirst
    cases hchars : code.toList.head? with
    | none =>
      rw [hchars] at hfirst
      exact hhead hfirst
    | some c =>
      rw [hchars] at hfirst hcode
      exact hcode hfirst
  · have htotal := congrArg String.length heq
    rw [String.length_append, String.length_append, String.length_append] at htotal
    have hloop : "for (auto& _v : ".length = 16 := rfl
    omega

/-- A write to a local is not lowered to the same text with a plan and without one. -/
theorem text_ne_of_boundWrite? {write : BoundWrite} {text other : String}
    (hlocal : env.scope.kindOf? name = some .methodLocal)
    (hclear : ∀ found, Route.select env name "clear" 0 ≠ .valueTemplate found)
    (h : env.boundWrite? loops stmt = some (name, write))
    (htext : (env.stmtText loops stmt).result = .ok text)
    (hother : (env.stmtText ∅ stmt).result = .ok other) : other ≠ text := by
  obtain ⟨info, -, hplanned⟩ := stmtText_of_boundWrite h
  rw [hplanned, Lowered.result_bind_eq_ok_iff] at htext
  obtain ⟨plan, hplan, htext⟩ := htext
  cases htext
  obtain ⟨_, -, ⟨a, rfl, rfl, -, rfl⟩ | ⟨a, rfl, harray, rfl⟩ |
    ⟨call, method, rfl, hsplit, hwrite⟩⟩ := boundWrite?_cases h
  · rw [stmtText_assign_empty, Lowered.result_bind_eq_ok_iff] at hother
    obtain ⟨value, hvalue, hother⟩ := hother
    obtain ⟨value', hvalue', hplan⟩ := Lowered.result_bind_eq_ok_iff.1 hplan
    rw [hvalue] at hvalue'
    cases hvalue'
    cases hplan
    cases hother
    exact (ViewPlan.reassign_ne_assignText info _ value).symm
  · rw [stmtText_assignIndex_empty harray, Lowered.result_bind_eq_ok_iff] at hother
    obtain ⟨operands, hoperands, hother⟩ := hother
    obtain ⟨operands', hoperands', hplan⟩ := Lowered.result_bind_eq_ok_iff.1 hplan
    rw [hoperands] at hoperands'
    cases hoperands'
    cases hplan
    cases hother
    exact (ViewPlan.indexWrite_ne_assignText info _ _ _ _).symm
  · rw [stmtText_call_empty, plainStatementText, Lowered.result_bind_eq_ok_iff] at hother
    obtain ⟨code, hcode, hother⟩ := hother
    cases hother
    unfold methodWrite? at hwrite
    split at hwrite
    · cases hwrite
      obtain ⟨item, -, hplan⟩ := Lowered.result_bind_eq_ok_iff.1 hplan
      cases hplan
      exact ViewPlan.append_ne_plainStatement info _ item code
    · cases hwrite
      cases hplan
      exact ViewPlan.removeLast_ne_plainStatement info _ code
    · rename_i hargs
      cases hwrite
      cases hplan
      exact clear_ne_plainStatement info hlocal hclear hsplit hargs hcode
    · cases hwrite

end Env

/-- **A local is lowered as the bound collection of its name.**  A write to a local has the same
result with the loop table and without the entry for the local's name exactly if there is no such
entry, or the statement assigns the local and the items of the collection are copies, or the
statement has the same fault both times.  The schema is assumed to have no template for clearing the
local, whose text is not known. -/
theorem localWrite_ignores_loops_iff {env : Env} {loops : LoopTable} {name : String} {stmt : Stmt}
    (hlocal : env.scope.kindOf? name = some .methodLocal) (hwrite : stmt.WritesTo name)
    (hclear : ∀ found, Route.select env name "clear" 0 ≠ .valueTemplate found) :
    (env.stmtText loops stmt).result = (env.stmtText (loops.erase name) stmt).result ↔
      loops[name]? = none ∨
      (∃ a info, stmt = .assign a ∧ loops[name]? = some info ∧ info.byReference = false) ∨
      ∃ fault, (env.stmtText loops stmt).result = .error fault ∧
        (env.stmtText (loops.erase name) stmt).result = .error fault := by
  rw [Env.stmtText_erase hwrite, ← or_assoc, ← Env.boundWrite?_eq_none_iff hwrite]
  constructor
  · intro heq
    cases hplan : env.boundWrite? loops stmt with
    | none => exact Or.inl rfl
    | some found =>
      obtain ⟨other, write⟩ := found
      obtain rfl := Env.eq_of_boundWrite? hwrite hplan
      cases hresult : (env.stmtText loops stmt).result with
      | error fault => exact Or.inr ⟨fault, rfl, heq.symm.trans hresult⟩
      | ok text =>
        have hother := heq.symm.trans hresult
        exact absurd rfl (Env.text_ne_of_boundWrite? hlocal hclear hplan hresult hother)
  · rintro (hnone | ⟨fault, htable, hempty⟩)
    · rw [Env.stmtText_of_boundWrite_eq_none (Env.nodes_of_writesTo hwrite) hnone]
    · rw [htable, hempty]

/-- The scope of a method with a local that has the name of a member. -/
def shadowEnv : Env where
  scope := ((Scope.ofComponent "" "App" ∅).declareMember "xs" "int[]").declareLocal "xs" "int[]"
  schema := Schema.empty
  options := .default

/-- The items of the collection are copies, so the assignment of the local has no plan. -/
theorem localWrite_ignores_loops_iff_copies :
    let loops : LoopTable :=
      NameMap.ofEntries
        [("xs", { BoundCollection.ofLoop 0 "x" "make_x(x);" with byReference := false })]
    let stmt : Stmt := .assign ⟨"xs", .ident "fresh", none, false⟩
    shadowEnv.scope.kindOf? "xs" = some .methodLocal ∧
      (shadowEnv.stmtText loops stmt).result =
        (shadowEnv.stmtText (loops.erase "xs") stmt).result := by
  intro loops stmt
  have hlocal : shadowEnv.scope.kindOf? "xs" = some .methodLocal := by decide +kernel
  have hfamily : shadowEnv.familyOf? "xs" = some .collection := by
    have htype : shadowEnv.receiverType? "xs" = some "int[]" := by decide +kernel
    rw [Env.familyOf?, htype]
    rfl
  have hclear : ∀ found, Route.select shadowEnv "xs" "clear" 0 ≠ .valueTemplate found := by
    intro found hfound
    rw [Env.select_of_familyOf? hfamily rfl] at hfound
    cases hfound
  refine ⟨hlocal, (localWrite_ignores_loops_iff hlocal (.assign rfl) hclear).2 ?_⟩
  exact Or.inr (Or.inl ⟨_, _, rfl, NameMap.getElem?_ofEntries, rfl⟩)

/-- The local is cleared, and with it the view of the member that it hides. -/
theorem local_clear_changes_view :
    let loops : LoopTable := NameMap.ofEntries [("xs", .ofLoop 0 "x" "make_x(x);")]
    let stmt : Stmt := .evaluate (.call ⟨"xs.clear", [], 1⟩)
    shadowEnv.scope.kindOf? "xs" = some .methodLocal ∧ stmt.WritesTo "xs" ∧
      (shadowEnv.stmtText loops stmt).result.toOption = some
        "for (auto& _v : xs) \x7b _v._remove_view(); \x7d\n_loop_0_count = 0;\nxs.clear();\n" ∧
      (shadowEnv.stmtText (loops.erase "xs") stmt).result.toOption = some "xs.clear();\n" := by
  intro loops stmt
  have hsplit : splitReceiver "xs.clear" = some ("xs", "clear") := by decide +kernel
  exact ⟨by decide +kernel, .clear hsplit rfl, by decide +kernel, by decide +kernel⟩

end UiLowering
