import UiLowering.Lower.Stmt
import UiLowering.Proofs.Formatter.Values
import UiLowering.Proofs.Schema.Index

/-!
# Blocks where a value is expected

A call with an argument that needs the formatter may become a block, whatever stands around it.  As
a statement by itself the block is emitted as it is.  Where a value is expected there must be none:
`Env.ValueText` lists the texts that stand in such places, and none of them begins with a block if
and only if none of the expressions there is a call that becomes one.
-/

set_option autoImplicit false

namespace UiLowering

/-! ## Places of values

An expression that is a statement by itself may be a block.  Everywhere else, and in all parts of
every expression, a value is expected.  The expressions that are lowered are not always those of the
source, since an array takes the type of its elements from the declaration. -/

/-- The value of a variable as it is lowered: an array takes the type of its elements from the
declaration. -/
def VarDecl.lowered? (decl : VarDecl) : Option Expr :=
  match decl.initializer, Text.dropEnd? "[]" (Text.trim decl.typeName) with
  | some (.array literal), some element => some (.array (literal.withElementType element))
  | value, _ => value

namespace Stmt

/-- The expressions that a statement lowers, without those of the statements inside it. -/
def lowered : Stmt → List Expr
  | .declare decl => decl.lowered?.toList
  | stmt => stmt.expressions

/-- Those of them that stand where a value is expected.  An expression that is a statement by itself
does not, but its parts do. -/
def values : Stmt → List Expr
  | .evaluate e => e.parts
  | stmt => stmt.lowered

/-- All expressions in a statement and the statements inside it. -/
def exprNodes (stmt : Stmt) : List Expr :=
  stmt.nodes.flatMap fun inner => inner.lowered.flatMap Expr.nodes

/-- All expressions in a statement that stand where a value is expected. -/
def valueNodes (stmt : Stmt) : List Expr :=
  stmt.nodes.flatMap fun inner => inner.values.flatMap Expr.nodes

variable {stmt inner : Stmt} {e part : Expr}

theorem mem_valueNodes (hinner : inner ∈ stmt.nodes) (he : e ∈ inner.values)
    (hpart : part ∈ e.nodes) : part ∈ stmt.valueNodes :=
  List.mem_flatMap.2 ⟨inner, hinner, List.mem_flatMap.2 ⟨e, he, hpart⟩⟩

/-- An expression of a statement stands where a value is expected, or is a statement by itself. -/
theorem mem_values_or_evaluate (h : e ∈ inner.lowered) :
    e ∈ inner.values ∨ inner = .evaluate e := by
  cases inner with
  | evaluate root =>
    rw [List.mem_singleton.1 h]
    exact .inr rfl
  | _ => exact .inl h

/-- The parts of an expression stand where a value is expected. -/
theorem mem_valueNodes_of_mem_parts (he : e ∈ stmt.exprNodes) (hpart : part ∈ e.parts) :
    part ∈ stmt.valueNodes := by
  obtain ⟨inner, hinner, hlowered⟩ := List.mem_flatMap.1 he
  obtain ⟨root, hroot, hnode⟩ := List.mem_flatMap.1 hlowered
  have hparts {child : Expr} (hchild : e ∈ child.nodes) : part ∈ child.nodes :=
    Expr.mem_nodes_trans hchild (Expr.mem_nodes_of_mem_parts hpart)
  rcases mem_values_or_evaluate hroot with hvalue | rfl
  · exact mem_valueNodes hinner hvalue (hparts hnode)
  · rcases Expr.mem_nodes_iff.1 hnode with rfl | ⟨child, hchild, hmem⟩
    · exact mem_valueNodes hinner hpart part.mem_nodes_self
    · exact mem_valueNodes hinner hchild (hparts hmem)

theorem mem_exprNodes_of_mem_valueNodes (h : e ∈ stmt.valueNodes) : e ∈ stmt.exprNodes := by
  obtain ⟨inner, hinner, hvalues⟩ := List.mem_flatMap.1 h
  obtain ⟨root, hroot, hnode⟩ := List.mem_flatMap.1 hvalues
  refine List.mem_flatMap.2 ⟨inner, hinner, ?_⟩
  cases inner with
  | evaluate whole =>
    exact List.mem_flatMap.2 ⟨whole, List.mem_singleton.2 rfl,
      Expr.mem_nodes_iff.2 (.inr ⟨root, hroot, hnode⟩)⟩
  | _ => exact List.mem_flatMap.2 ⟨root, hroot, hnode⟩

/-- With an expression its nodes stand where a value is expected. -/
theorem mem_valueNodes_of_mem_nodes (he : e ∈ stmt.valueNodes) (hpart : part ∈ e.nodes) :
    part ∈ stmt.valueNodes := by
  obtain ⟨inner, hinner, hvalues⟩ := List.mem_flatMap.1 he
  obtain ⟨root, hroot, hnode⟩ := List.mem_flatMap.1 hvalues
  exact mem_valueNodes hinner hroot (Expr.mem_nodes_trans hnode hpart)

end Stmt

/-! ## Texts of values

The inductive predicate names the texts that are put into the places of values, in the form in which
they are put there: a condition has lost its parentheses, and an argument may stand for a
callback. -/

/-- The texts that stand in a statement where a value is expected: those of expressions, of
conditions without their parentheses, of arguments for their parameters, and of the pieces of string
literals. -/
inductive Env.ValueText (env : Env) (stmt : Stmt) : String → Prop where
  | node {e : Expr} {text : String} : e ∈ stmt.valueNodes →
      (env.exprText e).result = .ok text → ValueText env stmt text
  | condition {test : Expr} {thenBranch : Stmt} {elseBranch : Option Stmt} {text : String} :
      .branch test thenBranch elseBranch ∈ stmt.nodes →
      (env.exprText test).result = .ok text → ValueText env stmt (Text.stripParens text)
  | argument {call : Call Expr} {arg : Arg Expr} {param : Option ApiParam} {text : String} :
      .call call ∈ stmt.exprNodes → arg ∈ call.args →
      ((env.codedArg arg).textFor env param).result = .ok text → ValueText env stmt text
  | piece {raw text : String} : .str raw ∈ stmt.exprNodes → text ∈ env.literalParts raw →
      ValueText env stmt text

section

variable {env : Env} {stmt : Stmt}

/-- Without block calls the texts of values have semicolons only behind brackets. -/
theorem Env.ValueText.sheltered (henv : env.LacksSemicolons)
    (hnames : ∀ node ∈ stmt.exprNodes, node.LacksSemicolons)
    (hcalls : ∀ e ∈ stmt.valueNodes, env.isBlockCall e = false) {text : String}
    (h : env.ValueText stmt text) : Sheltered text.toList := by
  have hvalues {e : Expr} (he : e ∈ stmt.valueNodes) : (env.coded e).IsSheltered :=
    isSheltered_of_nodes henv
      (fun node hnode => hnames node
        (Stmt.mem_exprNodes_of_mem_valueNodes (Stmt.mem_valueNodes_of_mem_nodes he hnode)))
      fun node hnode => hcalls node (Stmt.mem_valueNodes_of_mem_nodes he hnode)
  cases h with
  | node he htext => exact (hvalues he).value _ htext
  | @condition test _ _ _ hbranch htext =>
    have htest : test ∈ stmt.valueNodes :=
      Stmt.mem_valueNodes hbranch List.mem_cons_self test.mem_nodes_self
    exact sheltered_stripParens ((hvalues htest).value _ htext)
  | argument hcall harg htext =>
    have hvalue := hvalues (Stmt.mem_valueNodes_of_mem_parts hcall (List.mem_map_of_mem harg))
    exact Arg.yields_textFor_sheltered env _ hvalue _ htext
  | piece hraw hpiece => exact sheltered_literalParts ((hnames _ hraw).holes _ rfl) _ hpiece

/-- A block is emitted as a statement as it is. -/
theorem Env.result_stmtText_of_block {loops : LoopTable} {call : Call Expr} {text : String}
    (hloops : env.collectionCall? loops call = none)
    (htext : (env.exprText (.call call)).result = .ok text)
    (hblock : Text.startsWith blockHead text = true) :
    (env.stmtText loops (.evaluate (.call call))).result = .ok (text ++ "\n") := by
  have hstarts : Text.startsWith "\x7b webcc::formatter" text = true := by
    have hhead : "\x7b webcc::formatter".toList <+: blockHead.toList :=
      List.isPrefixOf_iff_prefix.1 (by decide)
    exact List.isPrefixOf_iff_prefix.2 (hhead.trans (List.isPrefixOf_iff_prefix.1 hblock))
  rw [stmtText, expressionText]
  simp only [hloops]
  refine Lowered.result_bind_eq_ok_iff.2 ⟨text, htext, ?_⟩
  rw [if_pos hstarts]
  rfl

end

/-! ## A body with a block and a chain

The example for the main result: the hypotheses about names and literals hold of it. -/

theorem lacksSemicolons_canvasEnv : canvasEnv.LacksSemicolons := by
  have htype {name : String} {type : ApiType} (h : canvasEnv.schema.get? name = some type) :
      type = { ApiType.plain "canvas" with methods := [labelMethod] } := by
    rw [canvasEnv, Schema.get?_ofTypes] at h
    exact List.mem_singleton.1 (List.mem_of_find?_eq_some h)
  constructor
  · exact ⟨by decide, by decide⟩
  · intro name type h target htarget
    rw [htype h] at htarget
    cases htarget
  · rintro method ⟨name, type, h, hmethod⟩
    rw [htype h] at hmethod
    rw [List.mem_singleton.1 hmethod]
    decide

theorem lacksSemicolons_chainArg : ∀ node ∈ chainArg.value.nodes, node.LacksSemicolons := by
  have hnodes : chainArg.value.nodes = [chainArg.value, .str "n=", .ident "n"] := by rfl
  have hholes : Expr.holes "n=" = [] := by decide +kernel
  have hliteral : ∀ source, source ∉ Expr.holes "n=" := fun source =>
    hholes ▸ List.not_mem_nil
  rw [hnodes]
  refine List.forall_mem_cons.2 ⟨⟨show Target.Quiet "+".toList by decide, ?_⟩,
    List.forall_mem_cons.2 ⟨⟨?_, ?_⟩,
      List.forall_mem_singleton.2 ⟨show Target.Quiet "n".toList by decide, ?_⟩⟩⟩
  · rintro raw ⟨⟩
  · exact fun source hsource => absurd hsource (hliteral source)
  · rintro raw ⟨rfl⟩ source hsource
    exact absurd hsource (hliteral source)
  · rintro raw ⟨⟩

/-- A call on the canvas as a statement, and a text chain as the result. -/
def labelBody : Stmt := .block [.evaluate (.call labelCall), .ret (some chainArg.value)]

theorem lacksSemicolons_labelBody : ∀ node ∈ labelBody.exprNodes, node.LacksSemicolons := by
  have hnodes : labelBody.exprNodes = .call labelCall :: .int 1 :: (chainArg.value.nodes ++
      .int 2 :: chainArg.value.nodes) := by rfl
  have hcall : (Expr.call labelCall).LacksSemicolons :=
    ⟨show Target.Quiet "layer.label".toList by decide, by rintro raw ⟨⟩⟩
  have hint (n : Int64) : (Expr.int n).LacksSemicolons := ⟨trivial, by rintro raw ⟨⟩⟩
  rw [hnodes]
  refine List.forall_mem_cons.2 ⟨hcall, List.forall_mem_cons.2 ⟨hint 1, ?_⟩⟩
  refine List.forall_mem_append.2 ⟨lacksSemicolons_chainArg, ?_⟩
  exact List.forall_mem_cons.2 ⟨hint 2, lacksSemicolons_chainArg⟩

/-! ## The places of blocks

One direction is that a call which becomes a block gives a text that begins like one.  The other is
that without such calls the text of a value has its semicolons behind brackets, and then it does not
begin like a block. -/

/-- **A block stands where a value is expected exactly if a call that becomes one does.**  The names
in the statement are tidy, and the expressions in its string literals and the templates of the
schema have no semicolons.  No text in a place of a value begins with a block if and only if no
expression in such a place is a call that becomes a block.  A call that becomes a block and is a
statement by itself is emitted as it is, unless it changes a bound collection. -/
theorem formatterBlock_confined_iff {env : Env} {stmt : Stmt} (henv : env.LacksSemicolons)
    (hnames : ∀ node ∈ stmt.exprNodes, node.LacksSemicolons) (loops : LoopTable) :
    ((∀ text, env.ValueText stmt text → Text.startsWith blockHead text = false) ↔
        ∀ e ∈ stmt.valueNodes, env.isBlockCall e = false) ∧
      ∀ call text, env.isBlockCall (.call call) = true →
        (env.exprText (.call call)).result = .ok text → env.collectionCall? loops call = none →
          Text.startsWith blockHead text = true ∧
            (env.stmtText loops (.evaluate (.call call))).result = .ok (text ++ "\n") := by
  refine ⟨⟨fun h e he => ?_, fun hcalls text htext => ?_⟩, fun call text hcall htext hloops => ?_⟩
  · cases hblock : env.isBlockCall e with
    | false => rfl
    | true =>
      obtain ⟨text, htext⟩ := Env.exists_ok_of_isBlockCall hblock
      rw [← h text (.node he htext), Env.startsWith_of_isBlockCall hblock htext]
  · exact (htext.sheltered henv hnames hcalls).not_block
  · have hblock := Env.startsWith_of_isBlockCall hcall htext
    exact ⟨hblock, Env.result_stmtText_of_block hloops htext hblock⟩

/-- The call is emitted as a block, and neither its arguments nor the result begin with one. -/
theorem formatterBlock_confined_iff_label :
    canvasEnv.LacksSemicolons ∧ (∀ node ∈ labelBody.exprNodes, node.LacksSemicolons) ∧
      (∀ text, canvasEnv.ValueText labelBody text → Text.startsWith blockHead text = false) ∧
      ∃ text, Text.startsWith blockHead text = true ∧
        (canvasEnv.stmtText ∅ (.evaluate (.call labelCall))).result = .ok (text ++ "\n") := by
  have hvalues : ∀ e ∈ labelBody.valueNodes, canvasEnv.isBlockCall e = false := by
    have hnodes : labelBody.valueNodes =
        .int 1 :: chainArg.value.nodes ++ .int 2 :: chainArg.value.nodes := by rfl
    rw [hnodes]
    decide +kernel
  have hcall : canvasEnv.isBlockCall (.call labelCall) = true := by decide +kernel
  obtain ⟨text, htext⟩ := Env.exists_ok_of_isBlockCall hcall
  obtain ⟨hiff, hstmt⟩ :=
    formatterBlock_confined_iff lacksSemicolons_canvasEnv lacksSemicolons_labelBody ∅
  exact ⟨lacksSemicolons_canvasEnv, lacksSemicolons_labelBody, hiff.2 hvalues, text,
    hstmt _ text hcall htext (by rfl)⟩

/-- A variable that is set to the value of the same call. -/
def labelDecl : Stmt := .declare (VarDecl.plain "int" "w" (some (.call labelCall)))

/-- The block stands behind the equality sign, where a value is expected. -/
theorem formatterBlock_initialises :
    (canvasEnv.stmtText ∅ labelDecl).result.toOption =
        some ("const int32_t w = \x7b webcc::formatter<512> _fmt; _fmt << (\"n=\"); " ++
          "_fmt << (n); webcc::canvas::label(layer, 1, _fmt.c_str(), 2); \x7d;\n") ∧
      ∃ text, canvasEnv.ValueText labelDecl text ∧ Text.startsWith blockHead text = true := by
  have hcall : canvasEnv.isBlockCall (.call labelCall) = true := by decide +kernel
  have hvalue : .call labelCall ∈ labelDecl.valueNodes :=
    Stmt.mem_valueNodes List.mem_cons_self List.mem_cons_self (Expr.mem_nodes_self _)
  obtain ⟨text, htext⟩ := Env.exists_ok_of_isBlockCall hcall
  refine ⟨by decide +kernel, text, .node hvalue htext, ?_⟩
  exact Env.startsWith_of_isBlockCall hcall htext

end UiLowering
