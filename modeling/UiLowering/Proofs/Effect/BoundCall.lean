import UiLowering.Proofs.Call.Route
import UiLowering.Proofs.Effect.BoundWrite
import UiLowering.Proofs.Effect.WritePlace
import UiLowering.Proofs.Target.Line

/-!
# Calls that change bound collections, as statements and inside expressions

A call that changes a bound collection has a plan.  The lowering looks for the plan where the call
is a statement by itself, at any depth of statements, and then the text of the plan is a part of the
text of the body.  Inside an expression it does not look: there the call is the one step of its plan
that changes the storage (`BoundWrite.storageStep`), and the view is not told.

The plan belongs to a statement, and a call inside an expression has no statement of its own.  So
the theorem distinguishes by position.  For a statement the text of the plan is found in the text of
the body, whatever is around it.  For a call inside an expression the whole body is lowered as if
the collection was not bound, provided that no statement writes to it as well.
-/

set_option autoImplicit false

namespace UiLowering

/-! ## Parts of a text

The text of a statement is laid out again when it becomes the body of a loop or a branch, and blanks
at its end may be lost then.  A part is therefore a part up to such blanks. -/

theorem Text.trimEndChars_trimEndChars (cs : List Char) :
    trimEndChars (trimEndChars cs) = trimEndChars cs := by
  obtain ⟨after, hblank, hcs⟩ := Target.exists_trimEndChars cs
  have htrim : trimEndChars (trimEndChars cs ++ after) = trimEndChars (trimEndChars cs) :=
    Target.trimEndChars_append_of_blank hblank
  rw [← htrim, ← hcs]

/-- A text holds another one, up to the blanks at the end of the latter. -/
def Text.HasPart (text part : String) : Prop := trimEndChars part.toList <:+: text.toList

namespace Text.HasPart

variable {text part : String}

theorem refl (text : String) : HasPart text text := by
  obtain ⟨after, -, htext⟩ := Target.exists_trimEndChars text.toList
  exact ⟨[], after, htext.symm⟩

theorem between (h : HasPart text part) (before after : String) :
    HasPart (before ++ text ++ after) part := by
  rw [HasPart, String.toList_append, String.toList_append]
  exact List.IsInfix.trans h ⟨before.toList, after.toList, rfl⟩

theorem behind (h : HasPart text part) (before : String) : HasPart (before ++ text) part := by
  have hpart := h.between before ""
  rwa [String.append_empty] at hpart

theorem ahead (h : HasPart text part) (after : String) : HasPart (text ++ after) part := by
  have hpart := h.between "" after
  rwa [String.empty_append] at hpart

/-- A part does not reach into the blanks at the end of the text. -/
theorem trimEnd (h : HasPart text part) : HasPart (Text.trimEnd text) part := by
  rw [HasPart, Text.trimEnd, String.toList_ofList]
  by_cases hpart : ∃ c ∈ part.toList, isBlank c = false
  · obtain ⟨before, after, htext⟩ := h
    rw [← htext]
    by_cases hafter : ∃ c ∈ after, isBlank c = false
    · rw [Target.trimEndChars_append_of_not_blank hafter]
      exact ⟨before, trimEndChars after, rfl⟩
    · have hblank : ∀ c ∈ after, isBlank c = true := by simpa using hafter
      rw [Target.trimEndChars_append_of_blank hblank, Target.trimEndChars_append_of_not_blank
        (Target.exists_mem_trimEndChars hpart), trimEndChars_trimEndChars]
      exact (List.suffix_append before (trimEndChars part.toList)).isInfix
  · have hblank : ∀ c ∈ part.toList, isBlank c = true := by simpa using hpart
    have hnil : trimEndChars ([] ++ part.toList) = trimEndChars [] :=
      Target.trimEndChars_append_of_blank hblank
    rw [List.nil_append] at hnil
    rw [hnil]
    exact List.nil_infix

end Text.HasPart

/-! ## The texts of the statements of a body

By induction on the tree, each statement has its own text, and the text of the whole holds it. -/

namespace Env

variable {env : Env} {loops : LoopTable}

/-- The text of a statement has its place in a text. -/
def PartOf (env : Env) (loops : LoopTable) (text : String) (stmt : Stmt) : Prop :=
  ∃ part, (env.stmtText loops stmt).result = .ok part ∧ Text.HasPart text part

theorem PartOf.mono {text other : String} {stmt : Stmt} (h : env.PartOf loops text stmt)
    (hparts : ∀ part, Text.HasPart text part → Text.HasPart other part) :
    env.PartOf loops other stmt := by
  obtain ⟨part, hresult, hpart⟩ := h
  exact ⟨part, hresult, hparts part hpart⟩

theorem partOf_self {stmt : Stmt} {text : String}
    (h : (env.stmtText loops stmt).result = .ok text) : env.PartOf loops text stmt :=
  ⟨text, h, .refl text⟩

-- By induction on the tree.  A branch in front of an `else` loses the blanks at its end, which is
-- why a part is only kept up to blanks at its end.

mutual

/-- The texts of the statements inside a statement are parts of its text. -/
theorem each_partOf_stmtText :
    (root : Stmt) → {text : String} → (env.stmtText loops root).result = .ok text →
      Each (env.PartOf loops text) root.nodes
  | .declare _, _, h | .assign _, _, h | .assignIndex _, _, h | .assignMember _, _, h
  | .ret _, _, h | .evaluate _, _, h => by
    rw [Stmt.nodes]
    exact List.forall_mem_singleton.2 (partOf_self h)
  | .block body, text, h => by
    have hself := partOf_self h
    rw [stmtText, Lowered.result_bind_eq_ok_iff] at h
    obtain ⟨code, hcode, hreturn⟩ := h
    cases hreturn
    rw [Stmt.nodes]
    refine List.forall_mem_cons.2 ⟨hself, fun stmt hstmt => ?_⟩
    exact (each_partOf_bodyText body hcode stmt hstmt).mono fun part hpart =>
      hpart.between "\x7b\n" "\x7d\n"
  | .branch condition thenBranch elseBranch, text, h => by
    have hself := partOf_self h
    simp only [stmtText, Lowered.result_bind_eq_ok_iff] at h
    obtain ⟨test, -, first, hfirst, helse⟩ := h
    obtain ⟨hkept, hother⟩ := each_partOf_elseText elseBranch helse
    rw [Stmt.nodes]
    refine List.forall_mem_cons.2 ⟨hself, List.forall_mem_append.2 ⟨fun stmt hstmt => ?_, hother⟩⟩
    exact (each_partOf_stmtText thenBranch hfirst stmt hstmt).mono fun part hpart =>
      hkept part (hpart.behind _)
  | .forRange counter first limit body, text, h => by
    have hself := partOf_self h
    simp only [stmtText, Lowered.result_bind_eq_ok_iff] at h
    obtain ⟨start, -, stop, -, code, hcode, hreturn⟩ := h
    cases hreturn
    rw [Stmt.nodes]
    refine List.forall_mem_cons.2 ⟨hself, fun stmt hstmt => ?_⟩
    exact (each_partOf_stmtText body hcode stmt hstmt).mono fun part hpart => hpart.behind _
  | .forEach item items body, text, h => by
    have hself := partOf_self h
    simp only [stmtText, Lowered.result_bind_eq_ok_iff] at h
    obtain ⟨collection, -, code, hcode, hreturn⟩ := h
    cases hreturn
    rw [Stmt.nodes]
    refine List.forall_mem_cons.2 ⟨hself, fun stmt hstmt => ?_⟩
    exact (each_partOf_stmtText body hcode stmt hstmt).mono fun part hpart => hpart.behind _

theorem each_partOf_bodyText :
    (body : List Stmt) → {text : String} → (env.bodyText loops body).result = .ok text →
      Each (env.PartOf loops text) (Stmt.listNodes body)
  | [], _, _ => by
    rw [Stmt.listNodes]
    exact List.forall_mem_nil _
  | stmt :: body, text, h => by
    simp only [bodyText, Lowered.result_bind_eq_ok_iff] at h
    obtain ⟨first, hfirst, rest, hrest, hreturn⟩ := h
    cases hreturn
    rw [Stmt.listNodes]
    refine List.forall_mem_append.2 ⟨fun node hnode => ?_, fun node hnode => ?_⟩
    · exact (each_partOf_stmtText stmt hfirst node hnode).mono fun part hpart => hpart.ahead rest
    · exact (each_partOf_bodyText body hrest node hnode).mono fun part hpart => hpart.behind first

theorem each_partOf_elseText :
    (elseBranch : Option Stmt) → {code text : String} →
      (env.elseText loops code elseBranch).result = .ok text →
      (∀ part, Text.HasPart code part → Text.HasPart text part) ∧
        Each (env.PartOf loops text) (Stmt.optionNodes elseBranch)
  | none, code, text, h => by
    cases h
    rw [Stmt.optionNodes]
    exact ⟨fun part hpart => hpart, List.forall_mem_nil _⟩
  | some stmt, code, text, h => by
    rw [elseText, Lowered.result_bind_eq_ok_iff] at h
    obtain ⟨other, hother, hreturn⟩ := h
    cases hreturn
    rw [Stmt.optionNodes]
    refine ⟨fun part hpart => (hpart.trimEnd.ahead _).ahead other, fun node hnode => ?_⟩
    exact (each_partOf_stmtText stmt hother node hnode).mono fun part hpart => hpart.behind _

end

/-! ## What the loop table is asked for

The table is asked once for each statement that may write to a collection, under the name of that
collection.  Tables that agree in these entries give the same text.  Erasing the entry of a
collection that is never written to as a statement changes nothing. -/

/-- What is written to one bound collection is decided by its own entry in the table. -/
theorem boundWrite?_of_getElem? {other : LoopTable} {stmt : Stmt} {name : String}
    {write : BoundWrite} (h : env.boundWrite? loops stmt = some (name, write))
    (hsame : other[name]? = loops[name]?) : env.boundWrite? other stmt = some (name, write) := by
  obtain ⟨info, hinfo, hcases⟩ := boundWrite?_cases h
  rw [hinfo] at hsame
  have hbound : other.contains name = true := by
    rw [← Std.ExtTreeMap.isSome_getElem?_eq_contains, hsame]
    rfl
  obtain ⟨a, rfl, rfl, href, rfl⟩ | ⟨a, rfl, harray, rfl⟩ | ⟨call, method, rfl, hsplit, hwrite⟩ :=
    hcases
  · simp [boundWrite?, hsame, href]
  · simp only [boundWrite?, harray, hbound, if_true]
  · simp only [boundWrite?, hsplit, hbound, if_true, hwrite, Option.map_some]

/-- Two tables have the same entry for the collection that a statement writes to, if it does. -/
def SameEntry (env : Env) (loops other : LoopTable) (stmt : Stmt) : Prop :=
  ∀ name write, env.boundWrite? loops stmt = some (name, write) ∨
    env.boundWrite? other stmt = some (name, write) → other[name]? = loops[name]?

/-- The step for statements without parts: the table is asked for the collection that the statement
writes to, and for nothing else. -/
theorem stmtText_eq_of_sameEntry {other : LoopTable} {stmt : Stmt} (hleaf : stmt.nodes = [stmt])
    (h : env.SameEntry loops other stmt) : env.stmtText other stmt = env.stmtText loops stmt := by
  -- A write under one table is the same write under the other, so that there are only two cases.
  cases hwrite : env.boundWrite? loops stmt with
  | some found =>
    obtain ⟨name, write⟩ := found
    have hsame := h name write (Or.inl hwrite)
    obtain ⟨info, hinfo, htext⟩ := stmtText_of_boundWrite hwrite
    obtain ⟨info', hinfo', htext'⟩ := stmtText_of_boundWrite (boundWrite?_of_getElem? hwrite hsame)
    have hinfos : info' = info := Option.some.inj ((hinfo'.symm.trans hsame).trans hinfo)
    rw [htext, htext', hinfos]
  | none =>
    cases hother : env.boundWrite? other stmt with
    | some found =>
      obtain ⟨name, write⟩ := found
      have hsame := h name write (Or.inr hother)
      rw [boundWrite?_of_getElem? hother hsame.symm] at hwrite
      cases hwrite
    | none =>
      rw [stmtText_of_boundWrite_eq_none hleaf hwrite, stmtText_of_boundWrite_eq_none hleaf hother]

mutual

/-- The table is asked for the collections that statements write to, and for nothing else. -/
theorem stmtText_eq_of_each_sameEntry {other : LoopTable} :
    (stmt : Stmt) → Each (env.SameEntry loops other) stmt.nodes →
      env.stmtText other stmt = env.stmtText loops stmt
  | .declare _, h | .assign _, h | .assignIndex _, h | .assignMember _, h | .ret _, h
  | .evaluate _, h => by
    rw [Stmt.nodes] at h
    exact stmtText_eq_of_sameEntry (by rw [Stmt.nodes]) h.head
  | .block body, h => by
    rw [Stmt.nodes] at h
    rw [stmtText, stmtText, bodyText_eq_of_each_sameEntry body h.tail]
  | .branch condition thenBranch elseBranch, h => by
    rw [Stmt.nodes] at h
    have helse (code : String) := elseText_eq_of_each_sameEntry code elseBranch h.tail.right
    simp only [stmtText, stmtText_eq_of_each_sameEntry thenBranch h.tail.left, helse]
  | .forRange counter first limit body, h => by
    rw [Stmt.nodes] at h
    rw [stmtText, stmtText, stmtText_eq_of_each_sameEntry body h.tail]
  | .forEach item items body, h => by
    rw [Stmt.nodes] at h
    rw [stmtText, stmtText, stmtText_eq_of_each_sameEntry body h.tail]

theorem bodyText_eq_of_each_sameEntry {other : LoopTable} :
    (body : List Stmt) → Each (env.SameEntry loops other) (Stmt.listNodes body) →
      env.bodyText other body = env.bodyText loops body
  | [], _ => by rw [bodyText, bodyText]
  | stmt :: body, h => by
    rw [Stmt.listNodes] at h
    rw [bodyText, bodyText, stmtText_eq_of_each_sameEntry stmt h.left,
      bodyText_eq_of_each_sameEntry body h.right]

theorem elseText_eq_of_each_sameEntry {other : LoopTable} (code : String) :
    (elseBranch : Option Stmt) → Each (env.SameEntry loops other) (Stmt.optionNodes elseBranch) →
      env.elseText other code elseBranch = env.elseText loops code elseBranch
  | none, _ => by rw [elseText, elseText]
  | some stmt, h => by
    rw [Stmt.optionNodes] at h
    rw [elseText, elseText, stmtText_eq_of_each_sameEntry stmt h]

end

/-- A collection that no statement writes to may as well not be bound. -/
theorem bodyText_erase {body : List Stmt} {name : String}
    (h : ∀ stmt ∈ Stmt.listNodes body, ∀ write, env.boundWrite? loops stmt ≠ some (name, write)) :
    env.bodyText (loops.erase name) body = env.bodyText loops body := by
  refine bodyText_eq_of_each_sameEntry body fun stmt hstmt found write hwrite => ?_
  have hother : name ≠ found := by
    rintro rfl
    rcases hwrite with hwrite | hwrite
    -- The entry is asked for under the full table, which the assumption excludes.
    · exact h stmt hstmt write hwrite
    · obtain ⟨info, hinfo, -⟩ := boundWrite?_cases hwrite
      simp at hinfo
  simp [Std.ExtTreeMap.getElem?_erase, hother]

end Env

/-! ## Calls inside expressions

Where a call is a part of an expression it goes through the shortcut of its method.  The shortcut
writes the very step of the plan that changes the storage, so the data is changed and the view is
not. -/

/-- The step of the plan of a write that changes the storage. -/
def BoundWrite.storageStep : BoundWrite → Lowered ViewStep
  | .append item => do
    let code ← item
    return .append code
  | .removeLast => pure .shrinkByOne
  | .clear => pure .clearStorage
  | .reassign value => do
    let code ← value
    return .assign code
  | .indexWrite operands compoundOp => do
    let (index, value) ← operands
    return .writeElement index value compoundOp

namespace Template

theorem expand_push (info : BoundCollection) (storage item : String) :
    expand "$\x7bthis\x7d.push_back($\x7b0\x7d)" storage [item] ++ ";\n" =
      (ViewStep.append item).render info storage := by
  show _ = storage ++ ".push_back(" ++ item ++ ");\n"
  rw [← String.toList_inj]
  simp [expand, expandChars, placeholder?, value?, expandAfterKey, index?, String.toList_append]

theorem expand_pop (info : BoundCollection) (storage : String) :
    expand "$\x7bthis\x7d.pop_back()" storage [] ++ ";\n" =
      ViewStep.shrinkByOne.render info storage := by
  show _ = storage ++ ".pop_back();\n"
  rw [← String.toList_inj]
  simp [expand, expandChars, placeholder?, value?, expandAfterKey, String.toList_append]

theorem expand_clear (info : BoundCollection) (storage : String) :
    expand "$\x7bthis\x7d.clear()" storage [] ++ ";\n" =
      ViewStep.clearStorage.render info storage := by
  show _ = storage ++ ".clear();\n"
  rw [← String.toList_inj]
  simp [expand, expandChars, placeholder?, value?, expandAfterKey, String.toList_append]

end Template

namespace Env

variable {env : Env}

/-- A method with a plan has a shortcut, and the shortcut is the step of the plan that changes the
storage. -/
theorem exists_shortcut_of_methodWrite? {method : String} {args : List (Arg Expr)}
    {write : BoundWrite} (h : env.methodWrite? method args = some write) (info : BoundCollection)
    (storage : String) :
    ∃ shortcut, Shortcut.find? .collection method args.length = some shortcut ∧
      (do
        let codes ← argTexts (args.map env.codedArg)
        return Template.expand shortcut.template storage codes ++ ";\n") =
      do
        let step ← write.storageStep
        return step.render info storage := by
  unfold methodWrite? at h
  split at h
  case h_1 item =>
    cases h
    refine ⟨_, rfl, ?_⟩
    simp only [argTexts, List.map_cons, List.map_nil, Lowered.all, BoundWrite.storageStep,
      bind_assoc, pure_bind, Template.expand_push info]
  case h_2 =>
    cases h
    refine ⟨_, rfl, ?_⟩
    simp only [argTexts, List.map_nil, Lowered.all, BoundWrite.storageStep, pure_bind,
      Template.expand_pop info]
  case h_3 =>
    cases h
    refine ⟨_, rfl, ?_⟩
    simp only [argTexts, List.map_nil, Lowered.all, BoundWrite.storageStep, pure_bind,
      Template.expand_clear info]
  case h_4 => cases h

/-! ### The text of such a call

A receiver that is declared as a collection goes to the shortcuts before anything else, so the
schema has no say in it. -/

/-- Inside an expression, a call that changes a declared collection is the step of its plan that
changes the storage, whether or not the collection is bound. -/
theorem exprText_of_boundWrite {loops : LoopTable} {call : Call Expr} {name : String}
    {write : BoundWrite} (h : env.boundWrite? loops (.evaluate (.call call)) = some (name, write))
    (hfamily : env.familyOf? name = some .collection) (info : BoundCollection) :
    (do
      let code ← env.exprText (.call call)
      return code ++ ";\n") =
    do
      let step ← write.storageStep
      return step.render info (env.scope.read name) := by
  obtain ⟨-, -, ⟨a, hstmt, -⟩ | ⟨a, hstmt, -⟩ | ⟨found, method, hstmt, hsplit, hwrite⟩⟩ :=
    boundWrite?_cases h
  · cases hstmt
  · cases hstmt
  cases hstmt
  obtain ⟨shortcut, hfind, hstep⟩ :=
    exists_shortcut_of_methodWrite? hwrite info (env.scope.read name)
  rw [exprText_of_shortcut hsplit hfamily hfind, ← hstep]
  simp only [bind_assoc, pure_bind]

end Env

/-- **Plans and positions.**  A call that changes a bound collection, at any depth of a body, stands
inside an expression, or it is a statement: then it is lowered to its plan, and the text of the plan
is a part of the text of the body.  A collection that no statement writes to is lowered as if it was
not bound, whatever calls there are inside expressions.  If it is declared as a collection, such a
call is the step of the plan that changes the storage, and nothing else of the plan. -/
theorem boundCall_planned_or_nested (env : Env) (loops : LoopTable) (body : List Stmt) :
    (∀ stmt ∈ Stmt.listNodes body, ∀ root ∈ stmt.expressions, ∀ e ∈ root.nodes, ∀ name write,
      env.boundWrite? loops (.evaluate e) = some (name, write) →
      e ∈ stmt.innerNodes ∨
      stmt = .evaluate e ∧ ∃ info, loops[name]? = some info ∧
        (env.stmtText loops stmt = do
          let plan ← write.plan info
          return plan.render info (env.scope.read name)) ∧
        ∀ text, (env.bodyText loops body).result = .ok text →
          ∃ plan : ViewPlan, (write.plan info).result = .ok plan ∧
            Text.HasPart text (plan.render info (env.scope.read name))) ∧
    (∀ name, (∀ stmt ∈ Stmt.listNodes body, ∀ write,
        env.boundWrite? loops stmt ≠ some (name, write)) →
      env.bodyText (loops.erase name) body = env.bodyText loops body) ∧
    ∀ call name write info, env.boundWrite? loops (.evaluate (.call call)) = some (name, write) →
      env.familyOf? name = some .collection →
      (do
        let code ← env.exprText (.call call)
        return code ++ ";\n") =
      do
        let step ← write.storageStep
        return step.render info (env.scope.read name) := by
  refine ⟨?_, fun name => Env.bodyText_erase, fun call name write info hwrite hfamily =>
    Env.exprText_of_boundWrite hwrite hfamily info⟩
  intro stmt hstmt root hroot e he name write hwrite
  rcases Stmt.exists_node_iff.1 ⟨root, hroot, e, he, rfl⟩ with ⟨node, hnode, rfl⟩ | ⟨_, rfl, rfl⟩
  · exact Or.inl hnode
  · obtain ⟨info, hinfo, hplan⟩ := Env.stmtText_of_boundWrite hwrite
    refine Or.inr ⟨rfl, info, hinfo, hplan, fun text htext => ?_⟩
    obtain ⟨part, hpart, htext⟩ := Env.each_partOf_bodyText body htext _ hstmt
    rw [hplan, Lowered.result_bind_eq_ok_iff] at hpart
    obtain ⟨plan, hresult, hrender⟩ := hpart
    cases hrender
    exact ⟨plan, hresult, htext⟩

/-- In a block, the call that clears the collection is lowered to its plan.  In a return statement,
the call that removes the last element is lowered as if the collection was not bound. -/
theorem boundCall_planned_or_nested_clear :
    let env : Env :=
      ⟨(Scope.ofComponent "" "App" ∅).declareMember "xs" "int[]", Schema.empty, .default⟩
    let loops : LoopTable := NameMap.ofEntries [("xs", .ofLoop 0 "x" "make_x(x);")]
    let clear : Expr := .call ⟨"xs.clear", [], 1⟩
    let pop : Call Expr := ⟨"xs.pop", [], 1⟩
    (∃ text, (env.bodyText loops [.block [.evaluate clear]]).result = .ok text ∧
      Text.HasPart text
        "for (auto& _v : xs) \x7b _v._remove_view(); \x7d\n_loop_0_count = 0;\nxs.clear();\n") ∧
    env.bodyText (loops.erase "xs") [.ret (some (.call pop))] =
      env.bodyText loops [.ret (some (.call pop))] ∧
    (do
      let code ← env.exprText (.call pop)
      return code ++ ";\n") = (pure "xs.pop_back();\n" : Lowered String) := by
  intro env loops clear pop
  have hclear : env.boundWrite? loops (.evaluate clear) = some ("xs", .clear) := by rfl
  have hpop : env.boundWrite? loops (.evaluate (.call ⟨"xs.pop", [], 1⟩)) =
      some ("xs", .removeLast) := by rfl
  have hfamily : env.familyOf? "xs" = some .collection := by
    have htype : env.receiverType? "xs" = some "int[]" := by decide +kernel
    rw [Env.familyOf?, htype]
    rfl
  refine ⟨?_, ?_, ?_⟩
  · obtain ⟨text, htext⟩ := Lowered.exists_ok_of_isOk
      (show (env.bodyText loops [.block [.evaluate clear]]).result.isOk = true by decide +kernel)
    refine ⟨text, htext, ?_⟩
    obtain ⟨hplanned, -, -⟩ := boundCall_planned_or_nested env loops [.block [.evaluate clear]]
    have hnodes : Stmt.evaluate clear ∈ Stmt.listNodes [.block [.evaluate clear]] := by
      simp [Stmt.listNodes, Stmt.nodes]
    have hself : clear ∈ clear.nodes := by
      rw [Expr.nodes_eq_cons]
      exact List.mem_cons_self
    rcases hplanned _ hnodes clear List.mem_cons_self clear hself "xs" .clear hclear with
      hinner | ⟨-, info, hinfo, -, hpart⟩
    · simp [Stmt.innerNodes, clear, Expr.nodes, Expr.argNodes] at hinner
    · obtain ⟨plan, hplan, hrendered⟩ := hpart text htext
      cases hplan
      cases hinfo
      exact hrendered
  · obtain ⟨-, hnested, -⟩ := boundCall_planned_or_nested env loops [.ret (some (.call pop))]
    refine hnested "xs" fun stmt hstmt write => ?_
    obtain rfl : stmt = .ret (some (.call pop)) := by
      simpa [Stmt.listNodes, Stmt.nodes] using hstmt
    intro hwrite
    cases hwrite
  · obtain ⟨-, -, hbare⟩ := boundCall_planned_or_nested env loops []
    exact hbare pop "xs" .removeLast (.ofLoop 0 "x" "make_x(x);") hpop hfamily

/-- In the branches of a conditional expression, neither call goes through its plan. -/
theorem nested_boundCall_not_planned :
    let env : Env :=
      ⟨(Scope.ofComponent "" "App" ∅).declareMember "xs" "int[]", Schema.empty, .default⟩
    let loops : LoopTable := NameMap.ofEntries [("xs", .ofLoop 0 "x" "make_x(x);")]
    let clear : Expr := .call ⟨"xs.clear", [], 1⟩
    let pop : Expr := .call ⟨"xs.pop", [], 1⟩
    env.boundWrite? loops (.evaluate clear) = some ("xs", .clear) ∧
      env.boundWrite? loops (.evaluate pop) = some ("xs", .removeLast) ∧
      (env.stmtText loops (.evaluate (.conditional (.ident "done") clear pop))).result.toOption =
        some "(done ? xs.clear() : xs.pop_back());\n" := by
  intro env loops clear pop
  exact ⟨rfl, rfl, by decide +kernel⟩

end UiLowering
