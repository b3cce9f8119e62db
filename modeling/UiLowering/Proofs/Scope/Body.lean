import UiLowering.Lower.Definition
import UiLowering.Proofs.Scope.Spelled

/-!
# Bodies that are spelled out

A body is lowered like the same body spelled out, statement by statement (`bodyText_spellOut`), and
so is a method.  The table of bound collections goes with the scope: a collection is found under the
text that reads it.

Beyond its expressions a statement asks the surroundings for three things: the text and the type of
what it assigns, the entry of the loop table for the collection that it writes to, and the types
that its literals are expected to have.  Each has a section of its own, and the induction over the
statements only puts them together.
-/

set_option autoImplicit false

namespace UiLowering

open Lowered (Alike alike_refl)

/-! ## Expected types

A declaration hands its type down to the literal behind it, and spelling out has to commute with
that.  It does because the one changes names of types and the other names of variables. -/

namespace Expr

variable {reading : Reading}

mutual

theorem withExpectedType_spellOut (typeName : String) (bound : List String) :
    (e : Expr) → (e.withExpectedType typeName).spellOut reading bound =
      (e.spellOut reading bound).withExpectedType typeName
  | .record ⟨none, fields⟩ => by
    simp only [withExpectedType, spellOut]
  | .array ⟨elements, elementType⟩ => by
    simp only [withExpectedType, spellOut]
    split
    · rw [spellOut, withExpectedTypes_spellOut]
    · rw [spellOut]
  | .record ⟨some _, _⟩ | .int _ | .float _ | .bool _ | .str _ | .ident _ | .binary ..
  | .unary .. | .trailing .. | .conditional .. | .call _ | .member .. | .index .. | .fill ..
  | .enumValue _ | .construct .. | .select _ | .reference _ | .move _ => by
    simp only [withExpectedType, spellOut]

theorem withExpectedTypes_spellOut (typeName : String) (bound : List String) :
    (es : List Expr) → spellOutList reading bound (withExpectedTypes typeName es) =
      withExpectedTypes typeName (spellOutList reading bound es)
  | [] => by simp only [withExpectedTypes, spellOutList]
  | e :: es => by
    simp only [withExpectedTypes, spellOutList, withExpectedType_spellOut typeName bound e,
      withExpectedTypes_spellOut typeName bound es]

end

mutual

theorem occurrences_withExpectedType (typeName : String) (bound : List String) :
    (e : Expr) → (e.withExpectedType typeName).occurrences bound = e.occurrences bound
  | .record ⟨none, fields⟩ => by
    simp only [withExpectedType, occurrences]
  | .array ⟨elements, elementType⟩ => by
    rw [withExpectedType]
    split
    · rw [occurrences, occurrences, listOccurrences_withExpectedTypes]
    · rfl
  | .record ⟨some _, _⟩ | .int _ | .float _ | .bool _ | .str _ | .ident _ | .binary ..
  | .unary .. | .trailing .. | .conditional .. | .call _ | .member .. | .index .. | .fill ..
  | .enumValue _ | .construct .. | .select _ | .reference _ | .move _ => by
    simp only [withExpectedType]

theorem listOccurrences_withExpectedTypes (typeName : String) (bound : List String) :
    (es : List Expr) →
      listOccurrences bound (withExpectedTypes typeName es) = listOccurrences bound es
  | [] => by rw [withExpectedTypes]
  | e :: es => by
    rw [withExpectedTypes, listOccurrences, listOccurrences,
      occurrences_withExpectedType typeName bound e,
      listOccurrences_withExpectedTypes typeName bound es]

end

theorem spellOutArgs_eq_map (bound : List String) (args : List (Arg Expr)) :
    spellOutArgs reading bound args = args.map fun arg =>
      ⟨arg.name, arg.value.spellOut reading bound, arg.byReference, arg.byMove⟩ := by
  induction args with
  | nil => rw [spellOutArgs, List.map_nil]
  | cons arg args ih => rw [spellOutArgs, ih, List.map_cons]

theorem length_spellOutList (bound : List String) (es : List Expr) :
    (spellOutList reading bound es).length = es.length := by
  induction es with
  | nil => rw [spellOutList]
  | cons e es ih => rw [spellOutList, List.length_cons, List.length_cons, ih]

end Expr

/-! ## Bound collections

A statement that writes to a collection looks it up by the text of its receiver.  In the scope
without pointers this text is the spelled-out one, so the second table has its entries under
these. -/

/-- Two tables have the same bound collections, the second under the texts that read them in a
scope.  No path leads to a bound collection. -/
structure LoopTable.SpelledBy (scope : Scope) (loops loops' : LoopTable) : Prop where
  read : ∀ name, Text.IsSimple name → loops'[scope.read name]? = loops[name]?
  path : ∀ name : String, '.' ∈ name.toList → loops[name]? = none ∧ loops'[name]? = none

variable {a b : Scope} {schema : Schema} {options : Options} {loops loops' : LoopTable}

namespace Env

open UiLowering.Expr (NamesSimple follows_spellOut)

variable {bound : List String}

/-! ## Declarations

A declaration has one form for each kind of initializer.  In each of them the texts of the parts are
alike, so what is put around them is the same. -/

theorem fillDeclText_spellOut (hscope : a.SpelledBy b) (decl : VarDecl)
    (initializer : Option Expr) {value count : Expr}
    (hvalue : NamesSimple (value.occurrences bound))
    (hcount : NamesSimple (count.occurrences bound)) :
    ((Env.mk a schema options).fillDeclText decl value count).Alike Eq
      ((Env.mk b schema options).fillDeclText { decl with initializer := initializer }
        (value.spellOut a.reading bound) (count.spellOut a.reading bound)) := by
  have hcode : ((Env.mk a schema options).exprText count).Alike Eq
      ((Env.mk b schema options).exprText (count.spellOut a.reading bound)) :=
    exprText_spellOut hscope hcount
  simp only [fillDeclText, TypeName.elementForm?_eq hscope.agree, typeText_eq hscope.agree]
  -- The element type is lowered on both sides alike, whether or not it is found in the type name.
  cases TypeName.elementForm? b schema decl.typeName
  all_goals
    refine Lowered.Alike.bind_eq (alike_refl _) fun element => ?_
    refine (exprText_spellOut hscope hvalue).bind_eq fun valueCode => ?_
    cases count with
    | int n => rw [Expr.spellOut]
    | _ =>
      rw [Expr.spellOut] at hcode ⊢
      exact hcode.bind_eq fun countCode => alike_refl _

theorem plainDeclText_spellOut (hscope : a.SpelledBy b) (decl : VarDecl)
    (hsimple : NamesSimple (Expr.optionOccurrences bound decl.initializer)) :
    ((Env.mk a schema options).plainDeclText decl).Alike Eq
      ((Env.mk b schema options).plainDeclText
        { decl with
          initializer := Expr.spellOutOption a.reading bound decl.initializer }) := by
  unfold plainDeclText
  rw [typeText_eq hscope.agree]
  cases hvalue : decl.initializer with
  | none => rw [Expr.spellOutOption]
  | some value =>
    rw [hvalue, Expr.optionOccurrences] at hsimple
    rw [Expr.spellOutOption]
    refine Lowered.Alike.bind_eq (alike_refl _) fun typeText => ?_
    exact (exprText_spellOut hscope hsimple).bind_eq fun code => alike_refl _

theorem arrayDeclText_spellOut (hscope : a.SpelledBy b) (decl : VarDecl)
    (initializer : Option Expr) (element : String) (elementType : Option String)
    {elements : List Expr} (hsimple : NamesSimple (Expr.listOccurrences bound elements)) :
    ((Env.mk a schema options).arrayDeclText decl element ⟨elements, elementType⟩).Alike Eq
      ((Env.mk b schema options).arrayDeclText { decl with initializer := initializer } element
        ⟨Expr.spellOutList a.reading bound elements, elementType⟩) := by
  have htyped : NamesSimple
      (Expr.listOccurrences bound (Expr.withExpectedTypes element elements)) := by
    rw [Expr.listOccurrences_withExpectedTypes]
    exact hsimple
  unfold arrayDeclText arrayLitText ArrayLit.withElementType
  rw [typeText_eq hscope.agree, Expr.length_spellOutList, ← Expr.withExpectedTypes_spellOut]
  refine Lowered.Alike.bind_eq (alike_refl _) fun elementText => ?_
  exact (arrayText_alike (lowerList_spellOut hscope bound _ htyped)).bind_eq fun code =>
    alike_refl _

theorem declText_spellOut (hscope : a.SpelledBy b) (decl : VarDecl)
    (hsimple : NamesSimple (Expr.optionOccurrences bound decl.initializer)) :
    ((Env.mk a schema options).declText decl).Alike Eq
      ((Env.mk b schema options).declText
        { decl with
          initializer := Expr.spellOutOption a.reading bound decl.initializer }) := by
  have hplain : ((Env.mk a schema options).plainDeclText decl).Alike Eq
      ((Env.mk b schema options).plainDeclText
        { decl with initializer := Expr.spellOutOption a.reading bound decl.initializer }) :=
    plainDeclText_spellOut hscope decl hsimple
  unfold declText
  cases hinit : decl.initializer with
  | none =>
    rw [hinit, Expr.spellOutOption] at hplain
    rw [Expr.spellOutOption]
    exact hplain
  | some value =>
    rw [hinit, Expr.optionOccurrences] at hsimple
    rw [hinit, Expr.spellOutOption] at hplain
    rw [Expr.spellOutOption]
    cases value with
    | fill value count =>
      rw [Expr.occurrences] at hsimple
      rw [Expr.spellOut]
      exact fillDeclText_spellOut hscope decl _ hsimple.left hsimple.right
    | array literal =>
      obtain ⟨elements, elementType⟩ := literal
      rw [Expr.occurrences] at hsimple
      rw [Expr.spellOut] at hplain ⊢
      dsimp only
      split
      · exact arrayDeclText_spellOut hscope decl _ _ elementType hsimple
      · exact hplain
    | _ =>
      rw [Expr.spellOut] at hplain ⊢
      exact hplain

/-! ## Assignments

The target of an assignment is an occurrence as well.  Its text and the type that is expected of the
value are both found under the name that is spelled out. -/

theorem assignedText_eq (hscope : a.SpelledBy b) (targetType : Option String) (code : String) :
    (Env.mk b schema options).assignedText targetType code =
      (Env.mk a schema options).assignedText targetType code := by
  simp only [assignedText, typeText_eq hscope.agree]

theorem assignmentText_spellOut (hscope : a.SpelledBy b)
    (hloops : LoopTable.SpelledBy a loops loops') (w : Assignment)
    (hname : Text.IsSimple w.name) (hvalue : NamesSimple (w.value.occurrences bound)) :
    ((Env.mk a schema options).assignmentText loops w).Alike Eq
      ((Env.mk b schema options).assignmentText loops'
        { w with
          name := a.reading.spelled ⟨w.name, .target, bound⟩
          value := w.value.spellOut a.reading bound }) := by
  have htarget : a.reading.spelled ⟨w.name, .target, bound⟩ = a.read w.name :=
    Scope.spelled_reading rfl w.name bound
  unfold assignmentText
  simp only [htarget, hscope.read, hloops.read w.name hname, assignedText_eq hscope]
  refine (exprText_spellOut hscope hvalue).bind_eq fun code => ?_
  exact Lowered.Alike.bind_eq (alike_refl _) fun value => alike_refl _

theorem boundTo?_spellOut (hloops : LoopTable.SpelledBy a loops loops') {e : Expr}
    (hsimple : NamesSimple (e.occurrences bound)) :
    boundTo? loops' (e.spellOut a.reading bound) = boundTo? loops e := by
  cases e with
  | ident name =>
    rw [Expr.occurrences] at hsimple
    rw [Expr.spellOut, boundTo?, boundTo?, Scope.spelled_reading rfl, hloops.read name hsimple.head]
  | _ => rw [Expr.spellOut]; rfl

theorem indexAssignmentText_spellOut (hscope : a.SpelledBy b)
    (hloops : LoopTable.SpelledBy a loops loops') (w : IndexAssignment)
    (harray : NamesSimple (w.array.occurrences bound))
    (hposition : NamesSimple (w.position.occurrences bound))
    (hvalue : NamesSimple (w.value.occurrences bound)) :
    ((Env.mk a schema options).indexAssignmentText loops w).Alike Eq
      ((Env.mk b schema options).indexAssignmentText loops'
        { w with
          array := w.array.spellOut a.reading bound
          position := w.position.spellOut a.reading bound
          value := w.value.spellOut a.reading bound }) := by
  unfold indexAssignmentText
  simp only [boundTo?_spellOut hloops harray]
  refine (exprText_spellOut hscope harray).bind_eq fun target => ?_
  refine (exprText_spellOut hscope hposition).bind_eq fun index => ?_
  exact (exprText_spellOut hscope hvalue).bind_eq fun code => alike_refl _

theorem memberAssignmentText_spellOut (hscope : a.SpelledBy b) (w : MemberAssignment)
    (hobject : NamesSimple (w.object.occurrences bound))
    (hvalue : NamesSimple (w.value.occurrences bound)) :
    ((Env.mk a schema options).memberAssignmentText w).Alike Eq
      ((Env.mk b schema options).memberAssignmentText
        { w with
          object := w.object.spellOut a.reading bound
          value := w.value.spellOut a.reading bound }) :=
  (exprText_spellOut hscope hobject).bind_eq fun _ =>
    (exprText_spellOut hscope hvalue).bind_eq fun _ => alike_refl _

/-! ## Expressions as statements

A call may be a write to a bound collection, and it is one on both sides or on neither.  The plan is
found under the receiver and carried out on the storage that the receiver names, and both are
spelled out alike. -/

theorem codedArg_spellOut (hscope : a.SpelledBy b) {arg : Arg Expr}
    (hsimple : NamesSimple (arg.value.occurrences bound)) :
    Arg.Follows a ((Env.mk a schema options).codedArg arg)
      ((Env.mk b schema options).codedArg
        ⟨arg.name, arg.value.spellOut a.reading bound, arg.byReference, arg.byMove⟩) :=
  ⟨rfl, rfl, rfl, follows_spellOut hsimple (lower_spellOut hscope bound arg.value hsimple)⟩

/-- A bound collection is found under the receiver that is spelled out. -/
theorem getElem?_spelledPath (hloops : LoopTable.SpelledBy a loops loops') {receiver : String}
    (hroot : Text.IsSimple (Text.rootOf receiver)) :
    loops'[a.reading.spelledPath bound (.receiver receiver) receiver]? = loops[receiver]? := by
  by_cases hdot : '.' ∈ receiver.toList
  · have hdot' : '.' ∈ (a.reading.spelledPath bound (.receiver receiver) receiver).toList := by
      rw [Reading.spelledPath, String.toList_append]
      exact List.mem_append_right _ (Scope.dot_mem_restOf hdot)
    rw [(hloops.path receiver hdot).1, (hloops.path _ hdot').2]
  · rw [Scope.rootOf_eq_self hdot] at hroot
    rw [Scope.spelledPath_reading (by simp [Site.isType, hdot]), readPath_of_not_mem a hdot,
      hloops.read receiver hroot]

/-- The storage of a bound collection is what its receiver is spelled out as. -/
theorem read_spelledPath (hscope : a.SpelledBy b) (hloops : LoopTable.SpelledBy a loops loops')
    {receiver : String} {info : BoundCollection} (hinfo : loops[receiver]? = some info) :
    b.read (a.reading.spelledPath bound (.receiver receiver) receiver) = a.read receiver := by
  have hdot : '.' ∉ receiver.toList := by
    intro hdot
    rw [(hloops.path receiver hdot).1] at hinfo
    cases hinfo
  rw [hscope.read, Scope.spelledPath_reading (by simp [Site.isType, hdot]),
    readPath_of_not_mem a hdot]

/-- What changes a bound collection changes it spelled out as well, by the same plan. -/
theorem collectionCall?_spellOut (hscope : a.SpelledBy b)
    (hloops : LoopTable.SpelledBy a loops loops') {name : String} {args : List (Arg Expr)}
    (line : UInt32) (hreceiver : NamesSimple (receiverOccurrences bound name))
    (hargs : NamesSimple (Expr.argOccurrences bound args)) :
    Option.Rel (Alike Eq) ((Env.mk a schema options).collectionCall? loops ⟨name, args, line⟩)
      ((Env.mk b schema options).collectionCall? loops'
        ⟨a.reading.spelledCall bound name, Expr.spellOutArgs a.reading bound args, line⟩) := by
  unfold collectionCall?
  cases hsplit : splitReceiver name with
  | none =>
    have hsame : a.reading.spelledCall bound name = name := by rw [Reading.spelledCall, hsplit]
    simp only [hsame, hsplit]
    exact .none
  | some parts =>
    obtain ⟨receiver, method⟩ := parts
    have hroot : Text.IsSimple (Text.rootOf receiver) := isSimple_rootOf hsplit hreceiver
    simp only [splitReceiver_spelledCall hsplit, Option.bind_eq_bind, Option.bind_some,
      getElem?_spelledPath hloops hroot]
    cases hinfo : loops[receiver]? with
    | none => exact .none
    | some info =>
      simp only [Option.bind_some, read_spelledPath hscope hloops hinfo]
      split
      · rw [Expr.argOccurrences] at hargs
        exact .some ((codedArg_spellOut hscope hargs.left).textAlike.bind_eq fun code =>
          alike_refl _)
      · exact .some (alike_refl _)
      · exact .some (alike_refl _)
      · rename_i hpush hpop hclear
        -- No plan fits the arguments that are spelled out, for there are as many of them.
        rw [Expr.spellOutArgs_eq_map]
        split
        · rename_i hsingle
          obtain ⟨item, hitem, -⟩ := List.map_eq_singleton_iff.1 hsingle
          exact (hpush item rfl hitem).elim
        · rename_i hnil
          exact (hpop rfl (List.map_eq_nil_iff.1 hnil)).elim
        · rename_i hnil
          exact (hclear rfl (List.map_eq_nil_iff.1 hnil)).elim
        · exact .none

theorem expressionText_spellOut (hscope : a.SpelledBy b)
    (hloops : LoopTable.SpelledBy a loops loops') {e : Expr}
    (hsimple : NamesSimple (e.occurrences bound)) :
    ((Env.mk a schema options).expressionText loops e).Alike Eq
      ((Env.mk b schema options).expressionText loops' (e.spellOut a.reading bound)) := by
  have hplain : ((Env.mk a schema options).plainStatementText e).Alike Eq
      ((Env.mk b schema options).plainStatementText (e.spellOut a.reading bound)) :=
    (exprText_spellOut hscope hsimple).bind_eq fun code => alike_refl _
  unfold expressionText
  cases e with
  | call call =>
    obtain ⟨name, args, line⟩ := call
    rw [Expr.occurrences] at hsimple
    rw [Expr.spellOut] at hplain ⊢
    have hcall : Option.Rel (Alike Eq)
        ((Env.mk a schema options).collectionCall? loops ⟨name, args, line⟩)
        ((Env.mk b schema options).collectionCall? loops'
          ⟨a.reading.spelledCall bound name, Expr.spellOutArgs a.reading bound args, line⟩) :=
      collectionCall?_spellOut hscope hloops line hsimple.left hsimple.right
    dsimp only
    generalize (Env.mk a schema options).collectionCall? loops _ = text at hcall ⊢
    generalize (Env.mk b schema options).collectionCall? loops' _ = text' at hcall ⊢
    cases hcall with
    | none => exact hplain
    | some htext => exact htext
  | _ =>
    rw [Expr.spellOut] at hplain ⊢
    exact hplain

/-! ## The tree

The recursion is that of the lowering.  What is bound around a statement grows on the way down, but
the reading of the scope does not look at it. -/

mutual

/-- A statement has the text of the same statement spelled out, or both have none. -/
theorem stmtText_spellOut (hscope : a.SpelledBy b) (hloops : LoopTable.SpelledBy a loops loops')
    (bound : List String) :
    (stmt : Stmt) → NamesSimple (stmt.occurrences bound) →
      ((Env.mk a schema options).stmtText loops stmt).Alike Eq
        ((Env.mk b schema options).stmtText loops' (stmt.spellOut a.reading bound))
  | .declare decl, hsimple => by
    rw [Stmt.occurrences] at hsimple
    rw [Stmt.spellOut, stmtText, stmtText]
    exact (declText_spellOut hscope decl hsimple).bind_eq fun code => alike_refl _
  | .assign w, hsimple => by
    rw [Stmt.occurrences] at hsimple
    rw [Stmt.spellOut, stmtText, stmtText]
    exact assignmentText_spellOut hscope hloops w hsimple.head hsimple.tail
  | .assignIndex w, hsimple => by
    rw [Stmt.occurrences] at hsimple
    rw [Stmt.spellOut, stmtText, stmtText]
    exact indexAssignmentText_spellOut hscope hloops w hsimple.left.left hsimple.left.right
      hsimple.right
  | .assignMember w, hsimple => by
    rw [Stmt.occurrences] at hsimple
    rw [Stmt.spellOut, stmtText, stmtText]
    exact memberAssignmentText_spellOut hscope w hsimple.left hsimple.right
  | .ret none, _ => by
    rw [Stmt.spellOut, Expr.spellOutOption, stmtText, stmtText]
  | .ret (some value), hsimple => by
    rw [Stmt.occurrences, Expr.optionOccurrences] at hsimple
    rw [Stmt.spellOut, Expr.spellOutOption, stmtText, stmtText]
    exact (exprText_spellOut hscope hsimple).bind_eq fun code => alike_refl _
  | .evaluate e, hsimple => by
    rw [Stmt.occurrences] at hsimple
    rw [Stmt.spellOut, stmtText, stmtText]
    exact expressionText_spellOut hscope hloops hsimple
  | .block body, hsimple => by
    rw [Stmt.occurrences] at hsimple
    rw [Stmt.spellOut, stmtText, stmtText]
    exact (bodyText_spellOut hscope hloops bound body hsimple).bind_eq fun code => alike_refl _
  | .branch condition thenBranch elseBranch, hsimple => by
    rw [Stmt.occurrences] at hsimple
    rw [Stmt.spellOut, stmtText, stmtText]
    refine (exprText_spellOut hscope hsimple.left.left).bind_eq fun test => ?_
    refine (stmtText_spellOut hscope hloops bound thenBranch hsimple.left.right).bind_eq
      fun first => ?_
    exact elseText_spellOut hscope hloops bound _ elseBranch hsimple.right
  | .forRange counter first limit body, hsimple => by
    rw [Stmt.occurrences] at hsimple
    rw [Stmt.spellOut, stmtText, stmtText]
    refine (exprText_spellOut hscope hsimple.left.left).bind_eq fun start => ?_
    refine (exprText_spellOut hscope hsimple.left.right).bind_eq fun stop => ?_
    exact (stmtText_spellOut hscope hloops (counter :: bound) body hsimple.right).bind_eq
      fun code => alike_refl _
  | .forEach item items body, hsimple => by
    rw [Stmt.occurrences] at hsimple
    rw [Stmt.spellOut, stmtText, stmtText]
    refine (exprText_spellOut hscope hsimple.left).bind_eq fun collection => ?_
    exact (stmtText_spellOut hscope hloops (item :: bound) body hsimple.right).bind_eq
      fun code => alike_refl _

/-- A body has the text of the same body spelled out, or both have none. -/
theorem bodyText_spellOut (hscope : a.SpelledBy b) (hloops : LoopTable.SpelledBy a loops loops')
    (bound : List String) :
    (body : List Stmt) → NamesSimple (Stmt.bodyOccurrences bound body) →
      ((Env.mk a schema options).bodyText loops body).Alike Eq
        ((Env.mk b schema options).bodyText loops' (Stmt.spellOutBody a.reading bound body))
  | [], _ => by rw [Stmt.spellOutBody, bodyText, bodyText]
  | stmt :: body, hsimple => by
    rw [Stmt.bodyOccurrences] at hsimple
    rw [Stmt.spellOutBody, bodyText, bodyText]
    refine (stmtText_spellOut hscope hloops bound stmt hsimple.left).bind_eq fun first => ?_
    exact (bodyText_spellOut hscope hloops (stmt.boundNames ++ bound) body hsimple.right).bind_eq
      fun rest => alike_refl _

theorem elseText_spellOut (hscope : a.SpelledBy b) (hloops : LoopTable.SpelledBy a loops loops')
    (bound : List String) (code : String) :
    (elseBranch : Option Stmt) → NamesSimple (Stmt.optionOccurrences bound elseBranch) →
      ((Env.mk a schema options).elseText loops code elseBranch).Alike Eq
        ((Env.mk b schema options).elseText loops' code
          (Stmt.spellOutOption a.reading bound elseBranch))
  | none, _ => by rw [Stmt.spellOutOption, elseText, elseText]
  | some stmt, hsimple => by
    rw [Stmt.optionOccurrences] at hsimple
    rw [Stmt.spellOutOption, elseText, elseText]
    exact (stmtText_spellOut hscope hloops bound stmt hsimple).bind_eq fun other => alike_refl _

end

/-- A method has the text of the same method spelled out, or both have none. -/
theorem methodText_spellOut (hscope : a.SpelledBy b) (hloops : LoopTable.SpelledBy a loops loops')
    (method : Method) (injected : String) (hsimple : NamesSimple method.occurrences) :
    ((Env.mk a schema options).methodText loops method injected).Alike Eq
      ((Env.mk b schema options).methodText loops' (method.spellOut a.reading) injected) := by
  have hparams : (Env.mk b schema options).paramText = (Env.mk a schema options).paramText := by
    funext param
    simp only [paramText, typeText_eq hscope.agree]
  unfold methodText
  rw [hparams, typeText_eq hscope.agree]
  refine Lowered.Alike.bind_eq (alike_refl _) fun params => ?_
  refine (bodyText_spellOut hscope hloops method.paramNames method.body hsimple).bind_eq
    fun body => ?_
  exact alike_refl _

end Env

end UiLowering
