import UiLowering.Proofs.Target.Guarded
import UiLowering.Proofs.Target.Layout

/-!
# Which `else` stays with its branch

The text of a statement is cut along the statements inside it (`Env.layout`), so that each branch of
the source has a place in it.  In front of an `else` there are no braces unless the source has a
block there, so a branch keeps its `else` only if the statement before it leaves no branch open.
`Stmt.isClosed` says which statements do not.  Those that do are:

* a branch without `else`, a branch one of whose statements leaves a branch open, and a loop around
  such a statement;
* the removal of the last item of a bound collection, since its plan begins with a branch;
* the statements that fall apart, which no `else` may follow at all.

`else_stays_iff` states that there are no others.  It asks of the texts of statements without parts
that they do not begin with the word `else`, nor, unless they are plans, with `if` or `for`.

The counterexample is the familiar one: a branch with an `else`, whose first statement is a branch
without one.  Its text has no braces around the inner branch, so the `else` moves inside.  The
theorem also covers the cases that are not seen in the source, where the first statement is a call
and its plan begins with a branch.
-/

set_option autoImplicit false

namespace UiLowering

open Target

/-! ## The parts of a text

`Env.layout` follows the recursion of `Env.stmtText` and keeps the texts of the parts apart.  Beside
it stands what is said on the source alone: `isClosed` asks which plans are used and what has an
`else`, and no text is involved. -/

/-- The text of a result; a fault has none. -/
def Lowered.text (x : Lowered String) : String :=
  match x.result with
  | .ok text => text
  | .error _ => ""

theorem Lowered.text_of_result {x : Lowered String} {t : String} (h : x.result = .ok t) :
    x.text = t := by
  rw [Lowered.text, h]

/-- Whether the plan of a write leaves no branch open. -/
def BoundWrite.isClosed : BoundWrite → Bool
  | .append _ => true
  | .removeLast | .clear | .reassign _ | .indexWrite .. => false

namespace Env

/-- Whether the text of a statement without parts leaves no branch open. -/
def isClosedLeaf (env : Env) (loops : LoopTable) (stmt : Stmt) : Bool :=
  match env.boundWrite? loops stmt with
  | some (_, write) => write.isClosed
  | none => env.isSingleUnbound stmt

mutual

/-- The text of a statement by its parts. -/
def layout (env : Env) (loops : LoopTable) : Stmt → Layout
  | .block body => .block (env.layoutAll loops body)
  | .branch condition thenBranch elseBranch =>
    .branch (Text.stripParens (env.exprText condition).text).toList (env.layout loops thenBranch)
      (env.layoutOption loops elseBranch)
  | .forRange counter first limit body =>
    .loop ("int " ++ counter ++ " = " ++ (env.exprText first).text ++ "; " ++ counter ++ " < " ++
      (env.exprText limit).text ++ "; " ++ counter ++ "++").toList (env.layout loops body)
  | .forEach item items body =>
    .loop ("auto& " ++ item ++ " : " ++ (env.exprText items).text).toList (env.layout loops body)
  | stmt => .leaf (env.stmtText loops stmt).text.toList (env.isClosedLeaf loops stmt)

/-- The text of a statement that may be missing. -/
def layoutOption (env : Env) (loops : LoopTable) : Option Stmt → Option Layout
  | none => none
  | some stmt => some (env.layout loops stmt)

/-- The texts of the statements of a body. -/
def layoutAll (env : Env) (loops : LoopTable) : List Stmt → List Layout
  | [] => []
  | stmt :: body => env.layout loops stmt :: env.layoutAll loops body

end

end Env

namespace Stmt

mutual

/-- Whether the text of a statement leaves no branch open. -/
def isClosed (env : Env) (loops : LoopTable) : Stmt → Bool
  | .block _ => true
  | .branch _ thenBranch elseBranch =>
    thenBranch.isClosed env loops && isClosedOption env loops elseBranch
  | .forRange _ _ _ body => body.isClosed env loops
  | .forEach _ _ body => body.isClosed env loops
  | stmt => env.isClosedLeaf loops stmt

/-- Whether the `else` of a branch closes it: there has to be one. -/
def isClosedOption (env : Env) (loops : LoopTable) : Option Stmt → Bool
  | none => false
  | some stmt => stmt.isClosed env loops

end

/-- For a branch, whether its first statement leaves no branch open, if it has an `else`. -/
def first? (env : Env) (loops : LoopTable) : Stmt → Option (Option Bool)
  | .branch _ thenBranch elseBranch =>
    some (elseBranch.map fun _ => thenBranch.isClosed env loops)
  | _ => none

end Stmt

/-- The text of a statement without parts does not begin with the word `else`.  Nor does it begin
with `if` or `for`, unless it is a plan. -/
def Env.AvoidsKeywords (env : Env) (loops : LoopTable) (stmt : Stmt) : Prop :=
  stmt.nodes = [stmt] →
    let word := firstWord (env.stmtText loops stmt).text.toList
    word ≠ ['e', 'l', 's', 'e'] ∧
      (env.boundWrite? loops stmt = none → word ≠ ['i', 'f'] ∧ word ≠ ['f', 'o', 'r'])

/-! ## Statements without parts

The text of a leaf may be anything that the lowering writes for an expression.  That it leaves no
branch open is seen from its first word: a text that is one statement and begins neither with `if`
nor with `for` has no branch to leave open.  Plans are the exception and are looked at one by
one. -/

theorem Target.Settled.firstWord_trimEndChars {single : Bool} {t : String}
    (h : Settled single t) : firstWord (Text.trimEndChars t.toList) = firstWord t.toList := by
  have hword := firstWord_append h.settles.exists_mark (endBlanks t.toList)
  rw [trimEndChars_append_endBlanks] at hword
  exact hword.symm

/-- The plan that removes the last item begins with a branch that has no `else`. -/
theorem BoundCollection.seals_removeLastPlan {info : BoundCollection} {storage : String}
    (hinfo : info.IsTidy) (hstorage : Even [] storage.toList) :
    Seals false (Text.trimEndChars (info.removeLastPlan.render info storage).toList) := by
  let steps : ViewPlan :=
    [.removeLastView info.isOnlyChild, .shrinkByOne, .ifAttached [.decrementCount]]
  let test := '!' :: storage.toList ++ ".empty()".toList
  have htest : Even [] test := Even.append (Even.append (a := ['!']) rfl hstorage) rfl
  have hsteps : Even [] ('\n' :: (steps.render info storage).toList) := by
    refine Even.append (a := ['\n']) rfl (ViewStep.even_renderAll hinfo hstorage steps ?_)
    simp [steps, ViewStep.operandsAll, ViewStep.operands]
  have hchars : (info.removeLastPlan.render info storage).toList =
      branchText test ('{' :: '\n' :: (steps.render info storage).toList) ++ ['}', '\n'] := by
    rw [removeLastPlan, render_singleton]
    change ("if (!" ++ storage ++ ".empty()) \x7b\n" ++ steps.render info storage ++
      "\x7d\n").toList = _
    simp only [test, branchText, String.toList_append, List.append_assoc, List.cons_append]
    rfl
  have hend : Text.trimEndChars ['}', '\n'] = ['}'] := rfl
  rw [hchars, trimEndChars_append_of_not_blank ⟨'}', List.mem_cons_self, rfl⟩, hend,
    branchText_append]
  have hblock : Settles true ('{' :: '\n' :: (steps.render info storage).toList ++ ['}']) :=
    ⟨0, stands_block hsteps rfl⟩
  exact hblock.seals_branch htest

/-- A plan leaves no branch open if it is the one that appends an item: this is a block. -/
theorem BoundWrite.seals_plan {write : BoundWrite} {info : BoundCollection} {storage : String}
    (hinfo : info.IsTidy) (hstorage : Even [] storage.toList) (h : write.IsSound storage) :
    (write.plan info).Yields fun plan =>
      Seals write.isClosed (Text.trimEndChars (plan.render info storage).toList) := by
  have hplan := write.yields_plan hinfo hstorage h
  cases write with
  | append item =>
    refine Lowered.Yields.bind h fun code hcode => Lowered.yields_pure ?_
    have hsettled : Settled true ((BoundCollection.appendPlan code).render info storage) :=
      BoundCollection.settled_appendPlan hinfo hstorage hcode
    have hfirst : firstChar? ((BoundCollection.appendPlan code).render info storage).toList =
        some '{' := by
      rw [BoundCollection.appendPlan, BoundCollection.render_singleton]
      exact firstChar?_text (firstChar?_text rfl)
    have hword := firstWord_of_firstChar? hfirst rfl
    rw [← hsettled.firstWord_trimEndChars] at hword
    exact stands_zero_of_firstWord hsettled.settles (by simp [hword]) (by simp [hword])
  | removeLast => exact Lowered.yields_pure (BoundCollection.seals_removeLastPlan hinfo hstorage)
  | clear => exact hplan.mono fun _ hsettled => Or.inl hsettled.settles
  | reassign value => exact hplan.mono fun _ hsettled => Or.inl hsettled.settles
  | indexWrite operands op => exact hplan.mono fun _ hsettled => Or.inl hsettled.settles

namespace Env

variable {env : Env} {loops : LoopTable}

theorem yields_exprText_text (henv : env.IsTidy) {e : Expr} (h : Expr.AllTidy e.nodes) :
    (env.exprText e).Yields fun code => IsTerm code ∧ (env.exprText e).text = code :=
  fun code hcode => ⟨yields_exprText henv h code hcode, Lowered.text_of_result hcode⟩

theorem layout_leaf {stmt : Stmt} (hleaf : stmt.nodes = [stmt]) (hblock : stmt ≠ .block []) :
    env.layout loops stmt =
      .leaf (env.stmtText loops stmt).text.toList (env.isClosedLeaf loops stmt) := by
  cases stmt, hleaf using Stmt.leafCases with
  | emptyBlock => exact absurd rfl hblock
  | _ => rw [layout] <;> simp

/-- Whether the text of a statement without parts leaves a branch open. -/
theorem seals_leaf (henv : env.IsTidy) (hloops : LoopTable.IsTidy loops) {stmt : Stmt}
    (hleaf : stmt.nodes = [stmt]) (h : Stmt.AllTidy stmt.nodes)
    (hwords : env.AvoidsKeywords loops stmt) :
    (env.stmtText loops stmt).Yields fun t =>
      Seals (env.isClosedLeaf loops stmt) (Text.trimEndChars t.toList) := by
  intro text htext
  have hsettled := yields_leaf henv hloops hleaf h text htext
  unfold isClosedLeaf
  cases hwrite : env.boundWrite? loops stmt with
  | none =>
    rw [isSingleLeaf, hwrite] at hsettled
    have hword := (hwords hleaf).2 hwrite
    rw [Lowered.text_of_result htext, ← hsettled.firstWord_trimEndChars] at hword
    change Seals (env.isSingleUnbound stmt) _
    cases hsingle : env.isSingleUnbound stmt with
    | true =>
      rw [hsingle] at hsettled
      exact stands_zero_of_firstWord hsettled.settles hword.1 hword.2
    | false =>
      rw [hsingle] at hsettled
      exact Or.inl hsettled.settles
  | some found =>
    obtain ⟨name, write⟩ := found
    obtain ⟨info, hinfo, heq⟩ := stmtText_of_boundWrite hwrite
    rw [hleaf] at h
    obtain ⟨hname, hsound⟩ := isSound_boundWrite henv hwrite h
    have hyields : (env.stmtText loops stmt).Yields fun t =>
        Seals write.isClosed (Text.trimEndChars t.toList) := by
      rw [heq]
      exact (write.seals_plan (hloops name info hinfo) (env.scope.isTerm_read hname).body
        hsound).bind fun plan hplan => Lowered.yields_pure hplan
    exact hyields text htext

theorem isOf_leaf (henv : env.IsTidy) (hloops : LoopTable.IsTidy loops) {stmt : Stmt}
    (hleaf : stmt.nodes = [stmt]) (hblock : stmt ≠ .block []) (h : Stmt.AllTidy stmt.nodes)
    (hwords : Each (env.AvoidsKeywords loops) stmt.nodes) :
    (env.stmtText loops stmt).Yields fun t => (env.layout loops stmt).IsOf t.toList := by
  intro text htext
  rw [hleaf] at hwords
  have hsettled := yields_leaf henv hloops hleaf h text htext
  have hseals := seals_leaf henv hloops hleaf h hwords.head text htext
  have hword := (hwords.head hleaf).1
  rw [Lowered.text_of_result htext, ← hsettled.firstWord_trimEndChars] at hword
  rw [layout_leaf hleaf hblock, Lowered.text_of_result htext]
  exact Layout.IsOf.leaf hsettled.even hseals hword

/-! ## The tree

The induction is that of the lowering.  In each case the layout lemma for this form of statement is
applied to the layouts of the parts. -/

mutual

/-- **The layout of a statement is one of its text.** -/
theorem isOf_stmtText (henv : env.IsTidy) (hloops : LoopTable.IsTidy loops) :
    (stmt : Stmt) → Stmt.AllTidy stmt.nodes → Each (env.AvoidsKeywords loops) stmt.nodes →
      (env.stmtText loops stmt).Yields fun t => (env.layout loops stmt).IsOf t.toList
  | .declare _, h, hwords | .assign _, h, hwords | .assignIndex _, h, hwords
  | .assignMember _, h, hwords | .ret _, h, hwords | .evaluate _, h, hwords =>
    isOf_leaf henv hloops (by rw [Stmt.nodes]) (by simp) h hwords
  | .block body, h, hwords => by
    rw [Stmt.nodes] at h hwords
    rw [stmtText, layout]
    refine (isOf_bodyText henv hloops body h.tail hwords.tail).bind fun code hcode => ?_
    have hchars : ("\x7b\n" ++ code ++ "\x7d\n").toList =
        '{' :: '\n' :: Layout.partsText (env.layoutAll loops body) ++ ['}', '\n'] := by
      rw [hcode.2, String.toList_append, String.toList_append]
      rfl
    refine Lowered.yields_pure ?_
    rw [hchars]
    exact Layout.IsOf.block hcode.1
  | .branch condition thenBranch elseBranch, h, hwords => by
    rw [Stmt.nodes] at h hwords
    rw [stmtText, layout]
    refine (yields_exprText_text henv (h.head.2 _ List.mem_cons_self)).bind fun test htest => ?_
    refine (isOf_stmtText henv hloops thenBranch h.tail.left hwords.tail.left).bind
      fun first hfirst => ?_
    rw [htest.2]
    exact isOf_elseText henv hloops (even_stripParens htest.1) hfirst elseBranch h.tail.right
      hwords.tail.right
  | .forRange counter first limit body, h, hwords => by
    rw [Stmt.nodes] at h hwords
    rw [stmtText, layout]
    refine (yields_exprText_text henv (h.head.2 _ List.mem_cons_self)).bind fun start hstart => ?_
    refine (yields_exprText_text henv (h.head.2 limit (by simp [Stmt.expressions]))).bind
      fun stop hstop => ?_
    refine (isOf_stmtText henv hloops body h.tail hwords.tail).bind fun code hcode =>
      Lowered.yields_pure ?_
    rw [hstart.2, hstop.2, toList_forRange]
    exact hcode.loop (even_rangeHead h.head.1 hstart.1.body hstop.1.body)
  | .forEach item items body, h, hwords => by
    rw [Stmt.nodes] at h hwords
    rw [stmtText, layout]
    refine (yields_exprText_text henv (h.head.2 _ List.mem_cons_self)).bind fun list hlist => ?_
    refine (isOf_stmtText henv hloops body h.tail hwords.tail).bind fun code hcode =>
      Lowered.yields_pure ?_
    rw [hlist.2, toList_forEach]
    exact hcode.loop (even_eachHead h.head.1 hlist.1.body)

theorem isOf_bodyText (henv : env.IsTidy) (hloops : LoopTable.IsTidy loops) :
    (body : List Stmt) → Stmt.AllTidy (Stmt.listNodes body) →
      Each (env.AvoidsKeywords loops) (Stmt.listNodes body) →
        (env.bodyText loops body).Yields fun t => Layout.AllSound (env.layoutAll loops body) ∧
          Layout.partsText (env.layoutAll loops body) = t.toList
  | [], _, _ => by
    rw [bodyText, layoutAll, Layout.AllSound, Layout.partsText]
    exact Lowered.yields_pure ⟨trivial, rfl⟩
  | stmt :: body, h, hwords => by
    rw [Stmt.listNodes] at h hwords
    rw [bodyText, layoutAll, Layout.AllSound, Layout.partsText]
    refine (isOf_stmtText henv hloops stmt h.left hwords.left).bind fun first hfirst => ?_
    refine (isOf_bodyText henv hloops body h.right hwords.right).bind fun rest hrest =>
      Lowered.yields_pure ⟨⟨hfirst.sound, hrest.1⟩, ?_⟩
    rw [hrest.2, String.toList_append, ← hfirst.text_eq, Layout.text]

theorem isOf_elseText (henv : env.IsTidy) (hloops : LoopTable.IsTidy loops) {test first : String}
    {layout : Layout} (htest : Even [] test.toList) (hfirst : layout.IsOf first.toList) :
    (elseBranch : Option Stmt) → Stmt.AllTidy (Stmt.optionNodes elseBranch) →
      Each (env.AvoidsKeywords loops) (Stmt.optionNodes elseBranch) →
        (env.elseText loops ("if (" ++ test ++ ") " ++ first) elseBranch).Yields fun t =>
          (Layout.branch test.toList layout (env.layoutOption loops elseBranch)).IsOf t.toList
  | none, _, _ => by
    rw [elseText, layoutOption]
    refine Lowered.yields_pure ?_
    rw [toList_branch]
    exact hfirst.branch htest
  | some stmt, h, hwords => by
    rw [Stmt.optionNodes] at h hwords
    rw [elseText, layoutOption]
    refine (isOf_stmtText henv hloops stmt h hwords).bind fun other hother =>
      Lowered.yields_pure ?_
    have hchars : (Text.trimEnd ("if (" ++ test ++ ") " ++ first) ++ " else " ++ other).toList =
        Text.trimEndChars (branchText test.toList first.toList) ++
          Target.elseText other.toList := by
      rw [String.toList_append, String.toList_append, Text.trimEnd, String.toList_ofList,
        toList_branch, List.append_assoc]
      rfl
    rw [hchars]
    exact hfirst.branchElse htest hother

end

/-! ## The branches of the source

It remains to compare two computations on trees of the same shape, the one on the layout and the one
on the source. -/

mutual

theorem isClosed_layout : (stmt : Stmt) →
    (env.layout loops stmt).isClosed = stmt.isClosed env loops
  | .declare _ | .assign _ | .assignIndex _ | .assignMember _ | .ret _ | .evaluate _ => by
    simp [layout, Layout.isClosed, Stmt.isClosed]
  | .block body => by rw [layout, Layout.isClosed, Stmt.isClosed]
  | .branch condition thenBranch elseBranch => by
    rw [layout, Layout.isClosed, Stmt.isClosed, isClosed_layout thenBranch,
      isClosed_layoutOption elseBranch]
  | .forRange counter first limit body => by
    rw [layout, Layout.isClosed, Stmt.isClosed, isClosed_layout body]
  | .forEach item items body => by
    rw [layout, Layout.isClosed, Stmt.isClosed, isClosed_layout body]

theorem isClosed_layoutOption : (elseBranch : Option Stmt) →
    Layout.isClosedOption (env.layoutOption loops elseBranch) =
      Stmt.isClosedOption env loops elseBranch
  | none => by rw [layoutOption, Layout.isClosedOption, Stmt.isClosedOption]
  | some stmt => by
    rw [layoutOption, Layout.isClosedOption, Stmt.isClosedOption, isClosed_layout stmt]

end

mutual

/-- The branches of the layout are those of the source, in the same order. -/
theorem firsts_layout : (stmt : Stmt) →
    (env.layout loops stmt).firsts = stmt.nodes.filterMap (Stmt.first? env loops)
  | .declare _ | .assign _ | .assignIndex _ | .assignMember _ | .ret _ | .evaluate _ => by
    simp [layout, Layout.firsts, Stmt.nodes, Stmt.first?]
  | .block body => by
    rw [layout, Layout.firsts, partsFirsts_layoutAll body, Stmt.nodes]
    rfl
  | .branch condition thenBranch none => by
    rw [layout, Layout.firsts, layoutOption, Layout.optionFirsts, firsts_layout thenBranch,
      Stmt.nodes, Stmt.optionNodes, List.append_nil, List.append_nil]
    rfl
  | .branch condition thenBranch (some elseBranch) => by
    rw [layout, Layout.firsts, layoutOption, Layout.optionFirsts, firsts_layout thenBranch,
      firsts_layout elseBranch, isClosed_layout, Stmt.nodes, Stmt.optionNodes,
      ← List.filterMap_append]
    rfl
  | .forRange counter first limit body => by
    rw [layout, Layout.firsts, firsts_layout body, Stmt.nodes]
    rfl
  | .forEach item items body => by
    rw [layout, Layout.firsts, firsts_layout body, Stmt.nodes]
    rfl

theorem partsFirsts_layoutAll : (body : List Stmt) →
    Layout.partsFirsts (env.layoutAll loops body) =
      (Stmt.listNodes body).filterMap (Stmt.first? env loops)
  | [] => by rw [layoutAll, Layout.partsFirsts, Stmt.listNodes, List.filterMap_nil]
  | stmt :: body => by
    rw [layoutAll, Layout.partsFirsts, firsts_layout stmt, partsFirsts_layoutAll body,
      Stmt.listNodes, List.filterMap_append]

end

theorem some_false_mem_firsts_iff (stmt : Stmt) :
    some false ∈ (env.layout loops stmt).firsts ↔
      ∃ condition thenBranch elseBranch,
        .branch condition thenBranch (some elseBranch) ∈ stmt.nodes ∧
          thenBranch.isClosed env loops = false := by
  rw [firsts_layout, List.mem_filterMap]
  constructor
  · rintro ⟨node, hnode, hfirst⟩
    cases node with
    | branch condition thenBranch elseBranch =>
      rw [Stmt.first?, Option.some.injEq, Option.map_eq_some_iff] at hfirst
      obtain ⟨other, rfl, hclosed⟩ := hfirst
      exact ⟨condition, thenBranch, other, hnode, hclosed⟩
    | _ => cases hfirst
  · rintro ⟨condition, thenBranch, elseBranch, hnode, hclosed⟩
    exact ⟨_, hnode, by rw [Stmt.first?, hclosed, Option.map_some]⟩

end Env

/-- **Which `else` stays with its branch.**  The text of a statement can be cut along the statement,
so that each branch of the source has its place in it.  A branch with an `else` has the same one in
the text exactly if its first statement leaves no branch open.  If this holds of all of them, then
every branch of the text has its own `else`, or none if it has none in the source. -/
theorem else_stays_iff {env : Env} {loops : LoopTable} {stmt : Stmt} {text : String}
    (henv : env.IsTidy) (hloops : LoopTable.IsTidy loops) (hstmt : Stmt.AllTidy stmt.nodes)
    (hwords : Each (env.AvoidsKeywords loops) stmt.nodes)
    (htext : (env.stmtText loops stmt).result = .ok text) :
    let layout := env.layout loops stmt
    layout.text = text.toList ∧ (∀ place ∈ layout.branches, place.IsIn text.toList) ∧
      List.Forall₂ Place.IsDecidedBy layout.branches
        (stmt.nodes.filterMap (Stmt.first? env loops)) ∧
      (layout.KeepsElse ↔ ∀ condition thenBranch elseBranch,
        .branch condition thenBranch (some elseBranch) ∈ stmt.nodes →
          thenBranch.isClosed env loops = true) := by
  intro layout
  have hlayout : layout.IsOf text.toList :=
    Env.isOf_stmtText henv hloops stmt hstmt hwords text htext
  refine ⟨hlayout.text_eq, ?_, ?_, ?_⟩
  · rw [← hlayout.text_eq]
    exact layout.isIn_of_mem_places layout.gap
  · rw [← Env.firsts_layout]
    exact Layout.isDecidedBy_branches hlayout.sound
  · rw [Layout.keepsElse_iff hlayout.sound, Env.some_false_mem_firsts_iff]
    simp

/-! ## A branch in front of an `else`

The shortest instances: an `else` behind a branch without one, with and without a block around the
inner branch. -/

/-- A statement behind the test `ready`, with a call of `y` as its `else`. -/
def Stmt.withElse (first : Stmt) : Stmt :=
  .branch (.ident "ready") first (some (.evaluate (.call ⟨"y", [], 1⟩)))

theorem Stmt.allTidy_withElse {first : Stmt} (h : AllTidy first.nodes) :
    AllTidy (withElse first).nodes := by
  refine allTidy_branch (by decide) h ?_
  rw [optionNodes]
  exact allTidy_call (by decide)

theorem Stmt.allTidy_block {stmt : Stmt} (h : AllTidy stmt.nodes) :
    AllTidy (Stmt.block [stmt]).nodes := by
  rw [nodes, listNodes, listNodes, List.append_nil]
  exact List.forall_mem_cons.2 ⟨⟨trivial, fun e he => (nomatch he)⟩, h⟩

theorem Env.avoidsKeywords_branch {env : Env} {loops : LoopTable} {condition : Expr}
    {thenBranch : Stmt} {elseBranch : Option Stmt}
    (hthen : Each (env.AvoidsKeywords loops) thenBranch.nodes)
    (helse : Each (env.AvoidsKeywords loops) (Stmt.optionNodes elseBranch)) :
    Each (env.AvoidsKeywords loops) (Stmt.branch condition thenBranch elseBranch).nodes := by
  rw [Stmt.nodes]
  refine List.forall_mem_cons.2 ⟨fun hleaf => ?_, List.forall_mem_append.2 ⟨hthen, helse⟩⟩
  simp [Stmt.nodes, Stmt.nodes_ne_nil] at hleaf

theorem Env.avoidsKeywords_block {env : Env} {loops : LoopTable} {stmt : Stmt}
    (h : Each (env.AvoidsKeywords loops) stmt.nodes) :
    Each (env.AvoidsKeywords loops) (Stmt.block [stmt]).nodes := by
  rw [Stmt.nodes, Stmt.listNodes, Stmt.listNodes, List.append_nil]
  refine List.forall_mem_cons.2 ⟨fun hleaf => ?_, h⟩
  simp [Stmt.nodes, Stmt.listNodes, Stmt.nodes_ne_nil] at hleaf

theorem Env.avoidsKeywords_call {env : Env} {loops : LoopTable} {e : Expr} {text : String}
    (htext : (env.stmtText loops (.evaluate e)).result = .ok text)
    (hword : firstWord text.toList ∉ [['e', 'l', 's', 'e'], ['i', 'f'], ['f', 'o', 'r']]) :
    Each (env.AvoidsKeywords loops) (Stmt.evaluate e).nodes := by
  rw [Stmt.nodes]
  refine List.forall_mem_singleton.2 fun _ => ?_
  rw [Lowered.text_of_result htext]
  simp only [List.mem_cons, List.not_mem_nil, or_false, not_or] at hword
  exact ⟨hword.1, fun _ => hword.2⟩

/-- In a block, the branch without `else` leaves the `else` behind it alone. -/
theorem else_stays_iff_block :
    let stmt := Stmt.withElse (.block [.guardedCall "x"])
    let text := "if (ready) \x7b\nif (done) x();\n\x7d else y();\n"
    Env.bare.IsTidy ∧ LoopTable.IsTidy LoopTable.rows ∧ Stmt.AllTidy stmt.nodes ∧
      Each (Env.bare.AvoidsKeywords LoopTable.rows) stmt.nodes ∧
      (Env.bare.stmtText LoopTable.rows stmt).result = .ok text ∧
      (Env.bare.layout LoopTable.rows stmt).KeepsElse := by
  intro stmt text
  have hstmt : Stmt.AllTidy stmt.nodes :=
    Stmt.allTidy_withElse (Stmt.allTidy_block (Stmt.allTidy_guardedCall (by decide)))
  have hx : (Env.bare.stmtText LoopTable.rows (.evaluate (.call ⟨"x", [], 1⟩))).result =
      .ok "x();\n" := by rfl
  have hy : (Env.bare.stmtText LoopTable.rows (.evaluate (.call ⟨"y", [], 1⟩))).result =
      .ok "y();\n" := by rfl
  have hwords : Each (Env.bare.AvoidsKeywords LoopTable.rows) stmt.nodes := by
    refine Env.avoidsKeywords_branch (Env.avoidsKeywords_block (Env.avoidsKeywords_branch
      (Env.avoidsKeywords_call hx (by decide)) ?_)) ?_
    · rw [Stmt.optionNodes]
      exact fun node hnode => absurd hnode List.not_mem_nil
    · rw [Stmt.optionNodes]
      exact Env.avoidsKeywords_call hy (by decide)
  have htext : (Env.bare.stmtText LoopTable.rows stmt).result = .ok text := by rfl
  refine ⟨Env.isTidy_bare, LoopTable.isTidy_rows, hstmt, hwords, htext, ?_⟩
  refine (else_stays_iff Env.isTidy_bare LoopTable.isTidy_rows hstmt hwords htext).2.2.2.2 ?_
  intro condition thenBranch elseBranch hbranch
  obtain ⟨-, rfl, -⟩ : condition = .ident "ready" ∧ thenBranch = .block [.guardedCall "x"] ∧
      elseBranch = .evaluate (.call ⟨"y", [], 1⟩) := by
    simpa [stmt, Stmt.withElse, Stmt.guardedCall, Stmt.nodes, Stmt.listNodes,
      Stmt.optionNodes] using hbranch
  rw [Stmt.isClosed]

/-- Without the block, the branch has no `else`, and the branch inside it has. -/
theorem nested_else_moves :
    let text := "if (ready) if (done) x(); else y();\n"
    (Env.bare.stmtText LoopTable.rows (.withElse (.guardedCall "x"))).result = .ok text ∧
      (∀ other, ¬TakesElse text.toList other) ∧
      TakesElse "if (done) x(); else y();\n".toList " y();\n".toList := by
  intro text
  have hx : Seals true ("x()".toList ++ [';']) := stands_clause rfl rfl
  have hy : Seals true ("y()".toList ++ [';']) := stands_clause rfl rfl
  have hdone : Even [] "done".toList := rfl
  have hready : Even [] "ready".toList := rfl
  have hline : elsePart? ['\n'] = none := rfl
  obtain ⟨single, hsettles⟩ := (hx.branchElse hdone hy).settles
  obtain ⟨other, hother⟩ := hy.settles
  refine ⟨by rfl, ?_, ?_⟩
  · have hchars : text.toList = branchText "ready".toList
        (branchText "done".toList ("x()".toList ++ [';'] ++ elseText ("y()".toList ++ [';'])) ++
          ['\n']) := by
      decide
    rw [hchars]
    exact not_takesElse hready hsettles hline
  · exact (takesElse_iff hdone hx hother (closable_of_elsePart?_eq_none hline)).2 rfl

end UiLowering
