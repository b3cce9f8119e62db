import UiLowering.Proofs.Target.StmtText

/-!
# Which statements stay guarded

A statement that stands in a branch or in a loop without braces around it is guarded by them only
as far as its text is one statement.  `Stmt.isSingle` says for which statements it is.  Three kinds
are not:

* a write to a bound collection that clears it, assigns it or writes an element, since its plan is
  a sequence of steps;
* the declaration of an array of copies that is declared first and filled then;
* a statement that begins with the text of an expression in braces.

`stmtText_isSingle_iff` states that there are no others.  The statements in a block are free to
fall apart, so the recursion goes only into the branches and the bodies of loops.

The hypotheses say that names and templates are tidy.  Without them nothing could be said about any
text: a variable might have a semicolon in its name.  The theorem is an equivalence, so a reader of
the source can tell from the three kinds above where braces have to be added, and that they are
needed nowhere else.
-/

set_option autoImplicit false

namespace UiLowering

open Target

/-! ## Single statements

The question is answered on the source as far as possible.  Only for a leaf that begins with an
expression is it the text of this expression that decides, by its first character. -/

/-- Whether the plan of a write is one statement. -/
def BoundWrite.isSingle : BoundWrite → Bool
  | .append _ | .removeLast => true
  | .clear | .reassign _ | .indexWrite .. => false

namespace Env

/-- Whether a statement without parts is one in target text, if it writes to no bound
collection. -/
def isSingleUnbound (env : Env) : Stmt → Bool
  | .declare decl => !decl.isFilledLater
  | .assignIndex a => env.passes opensNoBlock a.array
  | .assignMember a => env.passes opensNoBlock a.object
  | .evaluate e => env.passes isSingleCode e
  | _ => true

/-- Whether a statement without parts is one in target text. -/
def isSingleLeaf (env : Env) (loops : LoopTable) (stmt : Stmt) : Bool :=
  match env.boundWrite? loops stmt with
  | some (_, write) => write.isSingle
  | none => env.isSingleUnbound stmt

end Env

namespace Stmt

mutual

/-- Whether a statement is one in target text. -/
def isSingle (env : Env) (loops : LoopTable) : Stmt → Bool
  | .block _ => true
  | .branch _ thenBranch elseBranch =>
    thenBranch.isSingle env loops && isSingleOption env loops elseBranch
  | .forRange _ _ _ body => body.isSingle env loops
  | .forEach _ _ body => body.isSingle env loops
  | stmt => env.isSingleLeaf loops stmt

/-- Whether a statement that may be missing is one in target text. -/
def isSingleOption (env : Env) (loops : LoopTable) : Option Stmt → Bool
  | none => true
  | some stmt => stmt.isSingle env loops

end

/-- The texts that a statement brings into the code, apart from its expressions and its parts. -/
def IsTidy : Stmt → Prop
  | .declare decl => IsTypeName decl.typeName ∧ IsVariable decl.name
  | .assign a => IsVariable a.name ∧ ∀ name ∈ a.targetType, IsTypeName name
  | .assignIndex a => ∀ op ∈ a.compoundOp, Quiet op.toList
  | .assignMember a => Quiet a.field.toList ∧ ∀ op ∈ a.compoundOp, Quiet op.toList
  | .forRange counter _ _ _ => Quiet counter.toList
  | .forEach item _ _ => Quiet item.toList
  | _ => True

/-- All statements in a list are tidy, and their expressions are. -/
def AllTidy (nodes : List Stmt) : Prop :=
  Each (fun stmt => stmt.IsTidy ∧ ∀ e ∈ stmt.expressions, Expr.AllTidy e.nodes) nodes

end Stmt

/-- The texts that the bound collections bring into the code. -/
def LoopTable.IsTidy (loops : LoopTable) : Prop :=
  ∀ (name : String) (info : BoundCollection), loops[name]? = some info → info.IsTidy

/-! ## Statements without parts

The lemmas on the forms of statements are put together here.  What is excluded is that the statement
writes to a bound collection. -/

namespace Env

variable {env : Env}

/-- A statement without parts that writes to no bound collection. -/
theorem yields_unbound (henv : env.IsTidy) {stmt : Stmt} (hleaf : stmt.nodes = [stmt])
    (h : Stmt.AllTidy stmt.nodes) :
    (env.stmtText ∅ stmt).Yields (Settled (env.isSingleUnbound stmt)) := by
  rw [hleaf] at h
  obtain ⟨htidy, hexpr⟩ := h.head
  cases stmt, hleaf using Stmt.leafCases with
  | declare decl =>
    rw [stmtText]
    refine (yields_declText henv htidy.1 htidy.2 fun e he => ?_).bind fun t ht =>
      Lowered.yields_pure ht.line
    exact hexpr e (Option.mem_toList.2 he)
  | assign a =>
    rw [stmtText]
    exact yields_assignmentText henv htidy.1.quiet htidy.2 (hexpr _ List.mem_cons_self)
  | assignIndex a =>
    rw [stmtText]
    exact yields_indexAssignmentText henv (hexpr _ List.mem_cons_self)
      (hexpr _ (by simp [Stmt.expressions])) (hexpr _ (by simp [Stmt.expressions])) htidy
  | assignMember a =>
    rw [stmtText]
    exact yields_memberAssignmentText henv (hexpr _ List.mem_cons_self) htidy.1
      (hexpr _ (by simp [Stmt.expressions])) htidy.2
  | ret value =>
    cases value with
    | none =>
      rw [stmtText]
      have hreturn : Settled true ("return" ++ "" ++ ";\n") := settled_return Even.nil
      exact Lowered.yields_pure hreturn
    | some e =>
      rw [stmtText]
      refine (yields_exprText henv (hexpr _ List.mem_cons_self)).bind fun code hcode => ?_
      have hreturn : Settled true ("return" ++ (" " ++ code) ++ ";\n") :=
        settled_return (Even.text rfl hcode.even)
      rw [← String.append_assoc] at hreturn
      exact Lowered.yields_pure hreturn
  | evaluate e =>
    rw [stmtText, expressionText_empty]
    exact yields_plainStatementText henv (hexpr _ List.mem_cons_self)
  | emptyBlock =>
    rw [stmtText, bodyText]
    exact Lowered.yields_pure (settled_block Even.nil)

end Env

/-! ## Writes to bound collections

A plan is made from the codes of its operands, which are terms.  Which plans are one statement is
known from their steps. -/

/-- The codes of the operands of a write to the collection that `storage` names. -/
def BoundWrite.IsSound (storage : String) : BoundWrite → Prop
  | .append item => item.Yields fun t => Even [] t.toList
  | .removeLast | .clear => True
  | .reassign value =>
    (value.Yields fun t => Even [] t.toList) ∧ ∀ k, elsePart? (storage.toList ++ ' ' :: k) = none
  | .indexWrite operands op => operands.Yields fun (index, value) =>
    Even [] index.toList ∧ Settled true (assignText (storage ++ "[" ++ index ++ "]") value op)

theorem BoundWrite.yields_plan {write : BoundWrite} {info : BoundCollection} {storage : String}
    (hinfo : info.IsTidy) (hstorage : Even [] storage.toList) (h : write.IsSound storage) :
    (write.plan info).Yields fun plan => Settled write.isSingle (plan.render info storage) := by
  cases write with
  | append item =>
    exact Lowered.Yields.bind h fun code hcode =>
      Lowered.yields_pure (BoundCollection.settled_appendPlan hinfo hstorage hcode)
  | removeLast =>
    exact Lowered.yields_pure (BoundCollection.settled_removeLastPlan hinfo hstorage)
  | clear => exact Lowered.yields_pure (BoundCollection.settled_clearPlan hinfo hstorage)
  | reassign value =>
    exact Lowered.Yields.bind h.1 fun code hcode =>
      Lowered.yields_pure (BoundCollection.settled_reassignPlan hinfo hstorage hcode h.2)
  | indexWrite operands op =>
    exact Lowered.Yields.bind h fun pair hpair =>
      Lowered.yields_pure (BoundCollection.settled_indexWritePlan hinfo hstorage hpair.1 hpair.2)

namespace Env

variable {env : Env} {loops : LoopTable}

theorem isSound_methodWrite (henv : env.IsTidy) {method storage : String} {args : List (Arg Expr)}
    {write : BoundWrite} (h : env.methodWrite? method args = some write)
    (hargs : Expr.AllTidy (Expr.argNodes args)) : write.IsSound storage := by
  unfold methodWrite? at h
  split at h
  · rename_i item
    cases h
    rw [Expr.argNodes] at hargs
    exact Arg.yields_text (yields_lower henv item.value hargs.left)
  · cases h
    trivial
  · cases h
    trivial
  · cases h

/-- A tidy statement that writes to a bound collection names it without brackets, and the operands
of the write are sound. -/
theorem isSound_boundWrite (henv : env.IsTidy) {stmt : Stmt} {name : String} {write : BoundWrite}
    (h : env.boundWrite? loops stmt = some (name, write)) (htidy : Stmt.AllTidy [stmt]) :
    Quiet name.toList ∧ write.IsSound (env.scope.read name) := by
  obtain ⟨htexts, hexpr⟩ := htidy.head
  obtain ⟨info, -, ⟨a, rfl, rfl, -, rfl⟩ | ⟨a, rfl, harray, rfl⟩ |
    ⟨call, method, rfl, hsplit, hwrite⟩⟩ := boundWrite?_cases h
  · obtain ⟨hname, htype⟩ := htexts
    have hvalue := yields_reassignValue henv htype (hexpr _ List.mem_cons_self)
    exact ⟨hname.quiet, hvalue.mono fun _ ht => ht.body,
      env.scope.elsePart?_read_append hname (by decide)⟩
  · have hname : Quiet name.toList := by
      have hident := hexpr a.array List.mem_cons_self
      rw [harray, Expr.nodes] at hident
      exact hident.head
    refine ⟨hname, ?_⟩
    refine (yields_exprText henv (hexpr _ (by simp [Stmt.expressions]))).bind fun index hindex => ?_
    refine (yields_exprText henv (hexpr _ (by simp [Stmt.expressions]))).bind fun code hcode =>
      Lowered.yields_pure ⟨hindex.body, ?_⟩
    have hsettled := settled_elementText (env.scope.isTerm_read hname) hindex.body
      (isTerm_movedIf a.isMove hcode).even (forall_compoundOperator htexts)
    rwa [blockRest?_eq_none (env.scope.firstChar?_read_ne hname)] at hsettled
  · obtain ⟨callName, args, line⟩ := call
    have hcall := hexpr (.call ⟨callName, args, line⟩) List.mem_cons_self
    rw [Expr.nodes] at hcall
    exact ⟨(quiet_of_splitReceiver hcall.head hsplit).1, isSound_methodWrite henv hwrite hcall.tail⟩

/-! ## The tree

A branch, a loop and a block are put around texts that are settled by induction.  The block is the
one form that does not ask whether its parts are single. -/

theorem yields_leaf (henv : env.IsTidy) (hloops : LoopTable.IsTidy loops) {stmt : Stmt}
    (hleaf : stmt.nodes = [stmt]) (h : Stmt.AllTidy stmt.nodes) :
    (env.stmtText loops stmt).Yields (Settled (env.isSingleLeaf loops stmt)) := by
  unfold isSingleLeaf
  cases hwrite : env.boundWrite? loops stmt with
  | none =>
    rw [stmtText_of_boundWrite_eq_none hleaf hwrite]
    exact yields_unbound henv hleaf h
  | some found =>
    obtain ⟨name, write⟩ := found
    obtain ⟨info, hinfo, htext⟩ := stmtText_of_boundWrite hwrite
    rw [hleaf] at h
    obtain ⟨hname, hsound⟩ := isSound_boundWrite henv hwrite h
    rw [htext]
    refine (write.yields_plan (hloops name info hinfo) (env.scope.isTerm_read hname).body
      hsound).bind fun plan hplan => ?_
    exact Lowered.yields_pure hplan

theorem even_stripParens {code : String} (h : IsTerm code) :
    Even [] (Text.stripParens code).toList := by
  rw [Text.stripParens, String.toList_ofList]
  exact h.strippable.even h.body

theorem even_rangeHead {counter start stop : String} (hcounter : Quiet counter.toList)
    (hstart : Even [] start.toList) (hstop : Even [] stop.toList) :
    Even [] ("int " ++ counter ++ " = " ++ start ++ "; " ++ counter ++ " < " ++ stop ++ "; " ++
      counter ++ "++").toList := by
  have hname := hcounter.even.body
  exact Even.text (Even.text (Even.text (Even.text (Even.text (Even.text (Even.text (Even.text
    (Even.text (Even.text rfl hname) rfl) hstart) rfl) hname) rfl) hstop) rfl) hname) rfl

theorem toList_forRange (counter start stop code : String) :
    ("for (int " ++ counter ++ " = " ++ start ++ "; " ++ counter ++ " < " ++ stop ++ "; " ++
      counter ++ "++) " ++ code).toList =
      'f' :: 'o' :: 'r' :: ' ' :: '(' :: ("int " ++ counter ++ " = " ++ start ++ "; " ++ counter ++
        " < " ++ stop ++ "; " ++ counter ++ "++").toList ++ ')' :: ' ' :: code.toList := by
  simp only [String.toList_append, List.append_assoc, List.cons_append]
  rfl

theorem settled_forRange {counter start stop code : String} {single : Bool}
    (hcounter : Quiet counter.toList) (hstart : Even [] start.toList) (hstop : Even [] stop.toList)
    (h : Settled single code) :
    Settled single ("for (int " ++ counter ++ " = " ++ start ++ "; " ++ counter ++ " < " ++ stop ++
      "; " ++ counter ++ "++) " ++ code) :=
  settled_loop (even_rangeHead hcounter hstart hstop) (toList_forRange ..) h

theorem even_eachHead {item collection : String} (hitem : Quiet item.toList)
    (hcollection : Even [] collection.toList) :
    Even [] ("auto& " ++ item ++ " : " ++ collection).toList :=
  Even.text (Even.text (Even.text rfl hitem.even.body) rfl) hcollection

theorem toList_forEach (item collection code : String) :
    ("for (auto& " ++ item ++ " : " ++ collection ++ ") " ++ code).toList =
      'f' :: 'o' :: 'r' :: ' ' :: '(' :: ("auto& " ++ item ++ " : " ++ collection).toList ++
        ')' :: ' ' :: code.toList := by
  simp only [String.toList_append, List.append_assoc, List.cons_append]
  rfl

theorem settled_forEach {item collection code : String} {single : Bool} (hitem : Quiet item.toList)
    (hcollection : Even [] collection.toList) (h : Settled single code) :
    Settled single ("for (auto& " ++ item ++ " : " ++ collection ++ ") " ++ code) :=
  settled_loop (even_eachHead hitem hcollection) (toList_forEach ..) h

mutual

/-- **Every tidy statement is settled.**  The induction is on the statement: a branch is one
statement if its branches are, a loop if its body is, and a block in any case. -/
theorem yields_stmtText (henv : env.IsTidy) (hloops : LoopTable.IsTidy loops) :
    (stmt : Stmt) → Stmt.AllTidy stmt.nodes →
      (env.stmtText loops stmt).Yields (Settled (stmt.isSingle env loops))
  | .declare decl, h => yields_leaf henv hloops (by rw [Stmt.nodes]) h
  | .assign a, h => yields_leaf henv hloops (by rw [Stmt.nodes]) h
  | .assignIndex a, h => yields_leaf henv hloops (by rw [Stmt.nodes]) h
  | .assignMember a, h => yields_leaf henv hloops (by rw [Stmt.nodes]) h
  | .ret value, h => yields_leaf henv hloops (by rw [Stmt.nodes]) h
  | .evaluate e, h => yields_leaf henv hloops (by rw [Stmt.nodes]) h
  | .block body, h => by
    rw [Stmt.nodes] at h
    rw [stmtText, Stmt.isSingle]
    exact (yields_bodyText henv hloops body h.tail).bind fun code hcode =>
      Lowered.yields_pure (settled_block hcode)
  | .branch condition thenBranch elseBranch, h => by
    rw [Stmt.nodes] at h
    rw [stmtText, Stmt.isSingle]
    refine (yields_exprText henv (h.head.2 _ List.mem_cons_self)).bind fun test htest => ?_
    refine (yields_stmtText henv hloops thenBranch h.tail.left).bind fun first hfirst => ?_
    exact yields_elseText henv hloops (even_stripParens htest) hfirst elseBranch h.tail.right
  | .forRange counter first limit body, h => by
    rw [Stmt.nodes] at h
    rw [stmtText, Stmt.isSingle]
    refine (yields_exprText henv (h.head.2 _ List.mem_cons_self)).bind fun start hstart => ?_
    refine (yields_exprText henv (h.head.2 limit (by simp [Stmt.expressions]))).bind
      fun stop hstop => ?_
    exact (yields_stmtText henv hloops body h.tail).bind fun code hcode =>
      Lowered.yields_pure (settled_forRange h.head.1 hstart.body hstop.body hcode)
  | .forEach item items body, h => by
    rw [Stmt.nodes] at h
    rw [stmtText, Stmt.isSingle]
    refine (yields_exprText henv (h.head.2 _ List.mem_cons_self)).bind fun list hlist => ?_
    exact (yields_stmtText henv hloops body h.tail).bind fun code hcode =>
      Lowered.yields_pure (settled_forEach h.head.1 hlist.body hcode)

theorem yields_bodyText (henv : env.IsTidy) (hloops : LoopTable.IsTidy loops) :
    (body : List Stmt) → Stmt.AllTidy (Stmt.listNodes body) →
      (env.bodyText loops body).Yields fun t => Even [] t.toList
  | [], _ => by
    rw [bodyText]
    exact Lowered.yields_pure Even.nil
  | stmt :: body, h => by
    rw [Stmt.listNodes] at h
    rw [bodyText]
    refine (yields_stmtText henv hloops stmt h.left).bind fun first hfirst => ?_
    exact (yields_bodyText henv hloops body h.right).bind fun rest hrest =>
      Lowered.yields_pure (hfirst.even.text hrest)

theorem yields_elseText (henv : env.IsTidy) (hloops : LoopTable.IsTidy loops) {test first : String}
    {single : Bool} (htest : Even [] test.toList) (hfirst : Settled single first) :
    (elseBranch : Option Stmt) → Stmt.AllTidy (Stmt.optionNodes elseBranch) →
      (env.elseText loops ("if (" ++ test ++ ") " ++ first) elseBranch).Yields
        (Settled (single && Stmt.isSingleOption env loops elseBranch))
  | none, _ => by
    rw [elseText, Stmt.isSingleOption, Bool.and_true]
    exact Lowered.yields_pure (settled_branch htest hfirst)
  | some stmt, h => by
    rw [Stmt.optionNodes] at h
    rw [elseText, Stmt.isSingleOption]
    exact (yields_stmtText henv hloops stmt h).bind fun other hother =>
      Lowered.yields_pure (settled_branchElse htest hfirst hother)

end

end Env

/-- **Which statements stay guarded.**  The text of a statement is one statement, so that a branch
or a loop in front of it guards all of it, in exactly the cases that `Stmt.isSingle` accepts. -/
theorem stmtText_isSingle_iff {env : Env} {loops : LoopTable} {stmt : Stmt} {text : String}
    (henv : env.IsTidy) (hloops : LoopTable.IsTidy loops) (hstmt : Stmt.AllTidy stmt.nodes)
    (htext : (env.stmtText loops stmt).result = .ok text) :
    IsSingle text.toList ↔ stmt.isSingle env loops = true :=
  (Env.yields_stmtText henv hloops stmt hstmt text htext).isSingle_iff

/-! ## A guarded call

Two calls on a bound collection behind the same test.  The removal of the last item is a branch and
stays guarded; the clear is a sequence of steps and does not. -/

theorem Schema.isTidy_empty : Schema.empty.IsTidy := by
  constructor
  · intro name type h
    simp [Schema.empty, Schema.get?] at h
  · intro name type h
    simp [Schema.empty, Schema.get?] at h

theorem LoopTable.isTidy_single {name : String} {info : BoundCollection} (h : info.IsTidy) :
    LoopTable.IsTidy (NameMap.ofEntries [(name, info)]) := by
  intro other found hfound
  have hinsert : (if name = other then some info else none) = some found := by
    simpa [NameMap.ofEntries, Std.ExtTreeMap.getElem?_insert] using hfound
  split at hinsert
  · cases hinsert
    exact h
  · cases hinsert

/-- A component without members, with no types but the built-in ones. -/
def Env.bare : Env := ⟨Scope.ofComponent "" "App" ∅, Schema.empty, .default⟩

theorem Env.isTidy_bare : Env.bare.IsTidy := ⟨⟨by decide, by decide⟩, Schema.isTidy_empty⟩

/-- A loop over `xs` that makes one view for each item. -/
def LoopTable.rows : LoopTable := NameMap.ofEntries [("xs", .ofLoop 0 "x" "make_x(x);")]

theorem LoopTable.isTidy_rows : LoopTable.IsTidy LoopTable.rows := by
  have hcode : Even [] "make_x(x);".toList := rfl
  exact LoopTable.isTidy_single ⟨fun name hname => (nomatch hname), by decide, hcode⟩

/-- A call without arguments behind the test `done`. -/
def Stmt.guardedCall (name : String) : Stmt :=
  .branch (.ident "done") (.evaluate (.call ⟨name, [], 1⟩)) none

theorem Stmt.allTidy_call {name : String} (hname : Quiet name.toList) :
    AllTidy (Stmt.evaluate (.call ⟨name, [], 1⟩)).nodes := by
  rw [nodes]
  refine List.forall_mem_singleton.2 ⟨trivial, fun e he => ?_⟩
  obtain rfl : e = .call ⟨name, [], 1⟩ := by simpa [expressions] using he
  rw [Expr.nodes, Expr.argNodes]
  exact List.forall_mem_singleton.2 hname

theorem Stmt.allTidy_branch {name : String} {thenBranch : Stmt} {elseBranch : Option Stmt}
    (hname : Quiet name.toList) (hthen : AllTidy thenBranch.nodes)
    (helse : AllTidy (optionNodes elseBranch)) :
    AllTidy (Stmt.branch (.ident name) thenBranch elseBranch).nodes := by
  rw [nodes]
  refine List.forall_mem_cons.2 ⟨⟨trivial, fun e he => ?_⟩,
    List.forall_mem_append.2 ⟨hthen, helse⟩⟩
  obtain rfl : e = .ident name := by simpa [expressions] using he
  rw [Expr.nodes]
  exact List.forall_mem_singleton.2 hname

theorem Stmt.allTidy_guardedCall {name : String} (hname : Quiet name.toList) :
    AllTidy (guardedCall name).nodes := by
  refine allTidy_branch (by decide) (allTidy_call hname) ?_
  rw [optionNodes]
  exact fun node hnode => absurd hnode List.not_mem_nil

theorem Env.result_guardedCall {loops : LoopTable} {name text : String}
    (h : (Env.bare.stmtText loops (.evaluate (.call ⟨name, [], 1⟩))).result = .ok text) :
    (Env.bare.stmtText loops (.guardedCall name)).result = .ok ("if (done) " ++ text) := by
  have htest : (Env.bare.exprText (.ident "done")).result = .ok "done" := by rfl
  have hguard : "if (" ++ Text.stripParens "done" ++ ") " = "if (done) " := by rfl
  rw [Stmt.guardedCall, stmtText, ← hguard]
  simp only [Lowered.result_bind, htest, h, elseText]
  rfl

/-- The call `xs.pop()` stays in the branch it stands in. -/
theorem stmtText_isSingle_iff_pop :
    let text := "if (done) " ++ ("if (!xs.empty()) \x7b\n" ++
      "xs.back()._remove_view();\nxs.pop_back();\n" ++
      "if (_loop_0_parent.is_valid()) \x7b\n_loop_0_count--;\n\x7d\n\x7d\n")
    Env.bare.IsTidy ∧ LoopTable.IsTidy LoopTable.rows ∧
      Stmt.AllTidy (Stmt.guardedCall "xs.pop").nodes ∧
      (Env.bare.stmtText LoopTable.rows (.guardedCall "xs.pop")).result = .ok text ∧
      IsSingle text.toList := by
  intro text
  have hstmt : Stmt.AllTidy (Stmt.guardedCall "xs.pop").nodes :=
    Stmt.allTidy_guardedCall (by decide)
  have htext : (Env.bare.stmtText LoopTable.rows (.guardedCall "xs.pop")).result = .ok text :=
    Env.result_guardedCall rfl
  exact ⟨Env.isTidy_bare, LoopTable.isTidy_rows, hstmt, htext,
    (stmtText_isSingle_iff Env.isTidy_bare LoopTable.isTidy_rows hstmt htext).2 rfl⟩

/-- The call `xs.clear()` does not: if the test fails, only the first of its steps is skipped. -/
theorem guarded_clear_not_isSingle :
    let text := "if (done) " ++ ("for (auto& _v : xs) \x7b _v._remove_view(); \x7d\n" ++
      "_loop_0_count = 0;\nxs.clear();\n")
    (Env.bare.stmtText LoopTable.rows (.guardedCall "xs.clear")).result = .ok text ∧
      ¬IsSingle text.toList := by
  intro text
  have hstmt : Stmt.AllTidy (Stmt.guardedCall "xs.clear").nodes :=
    Stmt.allTidy_guardedCall (by decide)
  have htext : (Env.bare.stmtText LoopTable.rows (.guardedCall "xs.clear")).result = .ok text :=
    Env.result_guardedCall rfl
  have hsettled : Settled false text :=
    Env.yields_stmtText Env.isTidy_bare LoopTable.isTidy_rows _ hstmt text htext
  exact ⟨htext, fun h => Bool.false_ne_true (hsettled.isSingle_iff.1 h)⟩

end UiLowering
