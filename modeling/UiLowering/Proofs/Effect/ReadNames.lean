import UiLowering.Lower.Stmt
import UiLowering.Proofs.Effect.Agree
import UiLowering.Proofs.Names
import UiLowering.Proofs.Nodes

/-!
# The names a body reads decide its text

`Expr.names` and `Stmt.bodyNames` list the names that an expression or a body may read.  The lists
are conservative: a scope can influence the text of an expression only through its entries for the
names listed, and the text of a body only through those and the entries for the variables that the
body assigns.  So whoever wants to know whether a text has to be made anew after a change of the
scope may ask the lists.

The proof runs the lowering in two scopes side by side.  The induction is on the tree, and what it
carries is that every name a node of the tree reads itself is known to the two scopes alike.

The two scopes have to agree under all names with a dot, since a path is looked up as a whole and
its text is not among the names listed.  No declaration introduces such a name.  What remains are
the entries of members, locals and references under plain names, and the theorem covers a change of
any of them.
-/

set_option autoImplicit false

namespace UiLowering

/-! ## The names of nodes

The lists of names are collected from the nodes of a tree.  So the hypothesis that all of them are
known is handed down to the parts along the list of nodes. -/

/-- All names that the given nodes read themselves are known. -/
def Expr.NamesKnown (known : String → Prop) (nodes : List Expr) : Prop :=
  Each (fun node => ∀ name ∈ node.ownNames, known name) nodes

/-! ## Expressions

The recursion is that of `Env.lower`.  At each node the code of the parts is the same in both
scopes, and the lemmas on single nodes compare what is made of it. -/

section Expressions

open UiLowering.Expr

variable {a b : Scope} {known : String → Prop} {schema : Schema} {options : Options}

namespace Env

mutual

/-- Two scopes that agree on the names an expression reads give it the same code. -/
theorem lower_eq (h : a.AgreeOn b known) :
    (e : Expr) → NamesKnown known e.nodes →
      (Env.mk a schema options).lower e = (Env.mk b schema options).lower e
  | .int _, _ => rfl
  | .float _, _ => rfl
  | .bool _, _ => rfl
  | .str raw, hnames => by
    rw [nodes] at hnames
    rw [lower, lower, literalParts_eq h hnames.head]
  | .ident name, hnames => by
    rw [nodes] at hnames
    have hname : known name := hnames.head name List.mem_cons_self
    rw [lower, lower, (h.symbols name (Or.inr hname)).read_eq]
  | .binary left op right _, hnames => by
    rw [nodes] at hnames
    rw [lower, lower, lower_eq h left hnames.tail.left, lower_eq h right hnames.tail.right]
  | .unary op operand, hnames => by
    rw [nodes] at hnames
    rw [lower, lower, lower_eq h operand hnames.tail]
  | .trailing op operand, hnames => by
    rw [nodes] at hnames
    rw [lower, lower, lower_eq h operand hnames.tail]
  | .conditional condition thenValue elseValue, hnames => by
    rw [nodes] at hnames
    rw [lower, lower, lower_eq h condition hnames.tail.left.left,
      lower_eq h thenValue hnames.tail.left.right, lower_eq h elseValue hnames.tail.right]
  | .call ⟨name, args, line⟩, hnames => by
    rw [nodes] at hnames
    rw [lower, lower, lowerArgs_eq h args hnames.tail, callCode_eq h]
    intro receiver method hsplit
    refine hnames.head _ ?_
    rw [ownNames, hsplit]
    exact List.mem_cons_self
  | .member object field, hnames => by
    rw [nodes] at hnames
    rw [lower, lower, lower_eq h object hnames.tail, memberText_eq h]
    -- Whether the member is a constant of a type depends on the object if that is a name.
    rintro name rfl
    exact hnames.tail.head name List.mem_cons_self
  | .index base position, hnames => by
    rw [nodes] at hnames
    rw [lower, lower, lower_eq h base hnames.tail.left, lower_eq h position hnames.tail.right]
  | .array ⟨elements, _⟩, hnames => by
    rw [nodes] at hnames
    rw [lower, lower, lowerList_eq h elements hnames.tail]
  | .fill value count, hnames => by
    rw [nodes] at hnames
    rw [lower, lower, lower_eq h value hnames.tail.left]
  | .record ⟨typeName, fields⟩, hnames => by
    rw [nodes] at hnames
    rw [lower, lower, lowerFields_eq h fields hnames.tail, recordText_eq h]
  | .enumValue ref, _ => by
    rw [lower, lower, enumText_eq h]
  | .construct component args, hnames => by
    rw [nodes] at hnames
    rw [lower, lower, lowerArgs_eq h args hnames.tail, constructText_eq h]
  | .select ⟨subject, arms, otherwise, line⟩, hnames => by
    rw [nodes] at hnames
    rw [lower, lower, lower_eq h subject hnames.tail.left.left,
      lowerArms_eq h arms hnames.tail.left.right, lowerOption_eq h otherwise hnames.tail.right,
      matchText_eq h]
  | .reference operand, hnames => by
    rw [nodes] at hnames
    rw [lower, lower, lower_eq h operand hnames.tail]
  | .move operand, hnames => by
    rw [nodes] at hnames
    rw [lower, lower, lower_eq h operand hnames.tail]

theorem lowerList_eq (h : a.AgreeOn b known) :
    (es : List Expr) → NamesKnown known (listNodes es) →
      (Env.mk a schema options).lowerList es = (Env.mk b schema options).lowerList es
  | [], _ => rfl
  | e :: es, hnames => by
    rw [listNodes] at hnames
    rw [lowerList, lowerList, lower_eq h e hnames.left, lowerList_eq h es hnames.right]

theorem lowerOption_eq (h : a.AgreeOn b known) :
    (e : Option Expr) → NamesKnown known (optionNodes e) →
      (Env.mk a schema options).lowerOption e = (Env.mk b schema options).lowerOption e
  | none, _ => rfl
  | some e, hnames => by
    rw [optionNodes] at hnames
    rw [lowerOption, lowerOption, lower_eq h e hnames]

theorem lowerArgs_eq (h : a.AgreeOn b known) :
    (args : List (Arg Expr)) → NamesKnown known (argNodes args) →
      (Env.mk a schema options).lowerArgs args = (Env.mk b schema options).lowerArgs args
  | [], _ => rfl
  | ⟨_, value, _, _⟩ :: args, hnames => by
    rw [argNodes] at hnames
    rw [lowerArgs, lowerArgs, lower_eq h value hnames.left, lowerArgs_eq h args hnames.right]

theorem lowerFields_eq (h : a.AgreeOn b known) :
    (fields : List (FieldInit Expr)) → NamesKnown known (fieldNodes fields) →
      (Env.mk a schema options).lowerFields fields = (Env.mk b schema options).lowerFields fields
  | [], _ => rfl
  | ⟨_, value⟩ :: fields, hnames => by
    rw [fieldNodes] at hnames
    rw [lowerFields, lowerFields, lower_eq h value hnames.left,
      lowerFields_eq h fields hnames.right]

theorem lowerPattern_eq (h : a.AgreeOn b known) :
    (pattern : Pattern Expr) → NamesKnown known (patternNodes pattern) →
      (Env.mk a schema options).lowerPattern pattern =
        (Env.mk b schema options).lowerPattern pattern
  | .literal value, hnames => by
    rw [patternNodes] at hnames
    rw [lowerPattern, lowerPattern, lower_eq h value hnames]
  | .enumValue _, _ => rfl
  | .record _ fields, hnames => by
    rw [patternNodes] at hnames
    rw [lowerPattern, lowerPattern, lowerFieldPatterns_eq h fields hnames]

theorem lowerFieldPatterns_eq (h : a.AgreeOn b known) :
    (fields : List (FieldPattern Expr)) → NamesKnown known (fieldPatternNodes fields) →
      (Env.mk a schema options).lowerFieldPatterns fields =
        (Env.mk b schema options).lowerFieldPatterns fields
  | [], _ => rfl
  | ⟨_, value⟩ :: fields, hnames => by
    rw [fieldPatternNodes] at hnames
    rw [lowerFieldPatterns, lowerFieldPatterns, lowerOption_eq h value hnames.left,
      lowerFieldPatterns_eq h fields hnames.right]

theorem lowerArms_eq (h : a.AgreeOn b known) :
    (arms : List (Arm Expr)) → NamesKnown known (armNodes arms) →
      (Env.mk a schema options).lowerArms arms = (Env.mk b schema options).lowerArms arms
  | [], _ => rfl
  | ⟨pattern, body⟩ :: arms, hnames => by
    rw [armNodes] at hnames
    rw [lowerArms, lowerArms, lowerPattern_eq h pattern hnames.left.left,
      lower_eq h body hnames.left.right, lowerArms_eq h arms hnames.right]

end

theorem coded_eq (h : a.AgreeOn b known) {e : Expr} (hnames : NamesKnown known e.nodes) :
    (Env.mk a schema options).coded e = (Env.mk b schema options).coded e := by
  rw [coded, coded, lower_eq h e hnames]

theorem exprText_eq (h : a.AgreeOn b known) {e : Expr} (hnames : NamesKnown known e.nodes) :
    (Env.mk a schema options).exprText e = (Env.mk b schema options).exprText e := by
  rw [exprText, exprText, coded_eq h hnames]

end Env

end Expressions

/-! ## Statements

A statement also consults the scope for the type of the variable it assigns, which is why those
names have to be known too.  An expected type changes the names of types in a literal and no
others. -/

/-- An expected type adds no names. -/
theorem Expr.NamesKnown.withExpectedTypes {known : String → Prop} {es : List Expr}
    (h : NamesKnown known (listNodes es)) (typeName : String) :
    NamesKnown known (listNodes (withExpectedTypes typeName es)) :=
  each_withExpectedTypes (T := fun _ => True) ⟨fun _ h => h, fun h => h, fun _ _ => trivial⟩
    trivial es h

namespace Stmt

/-- All names that the given statements read themselves are known, and the variables they assign
as well. -/
def NamesKnown (known : String → Prop) (nodes : List Stmt) : Prop :=
  Each (fun stmt => (∀ e ∈ stmt.expressions, Expr.NamesKnown known e.nodes) ∧
    ∀ a, stmt = .assign a → known a.name) nodes

end Stmt

namespace Env

variable {a b : Scope} {known : String → Prop} {schema : Schema} {options : Options}

theorem declText_eq (h : a.AgreeOn b known) (decl : VarDecl)
    (hnames : ∀ e ∈ decl.initializer.toList, Expr.NamesKnown known e.nodes) :
    (Env.mk a schema options).declText decl = (Env.mk b schema options).declText decl := by
  have hplain : (Env.mk a schema options).plainDeclText decl =
      (Env.mk b schema options).plainDeclText decl := by
    cases hvalue : decl.initializer with
    | none => simp only [plainDeclText, hvalue, typeText_eq h]
    | some value =>
      have hknown := hnames value (by rw [hvalue]; exact List.mem_cons_self)
      simp only [plainDeclText, hvalue, typeText_eq h, exprText_eq h hknown]
  unfold declText
  split
  · rename_i value count hvalue
    have hknown := hnames (.fill value count) (by rw [hvalue]; exact List.mem_cons_self)
    rw [Expr.nodes] at hknown
    simp only [fillDeclText, TypeName.elementForm?_eq h, typeText_eq h,
      exprText_eq h hknown.tail.left, exprText_eq h hknown.tail.right]
  · rename_i literal hvalue
    have hknown := hnames (.array literal) (by rw [hvalue]; exact List.mem_cons_self)
    rw [Expr.nodes] at hknown
    split
    · rename_i element _
      -- The elements are lowered with the type that the declaration gives them.
      have htyped := Expr.NamesKnown.withExpectedTypes hknown.tail element
      simp only [arrayDeclText, arrayLitText, ArrayLit.withElementType, typeText_eq h,
        lowerList_eq h _ htyped]
    · exact hplain
  · exact hplain

theorem assignmentText_eq (h : a.AgreeOn b known) (loops : LoopTable) (w : Assignment)
    (hname : known w.name) (hvalue : Expr.NamesKnown known w.value.nodes) :
    (Env.mk a schema options).assignmentText loops w =
      (Env.mk b schema options).assignmentText loops w := by
  simp only [assignmentText, assignedText, (h.symbols w.name (Or.inr hname)).read_eq,
    exprText_eq h hvalue, typeText_eq h]

theorem collectionCall?_eq_of_agreeOn (h : a.AgreeOn b known) (loops : LoopTable) (call : Call Expr)
    (hnames : Expr.NamesKnown known (Expr.call call).nodes) :
    (Env.mk a schema options).collectionCall? loops call =
      (Env.mk b schema options).collectionCall? loops call := by
  obtain ⟨name, args, line⟩ := call
  rw [Expr.nodes] at hnames
  unfold collectionCall?
  cases hsplit : splitReceiver name with
  | none => rfl
  | some parts =>
    obtain ⟨receiver, method⟩ := parts
    have hroot : known (Text.rootOf receiver) :=
      hnames.head _ (by rw [Expr.ownNames, hsplit]; exact List.mem_cons_self)
    have hread : a.read receiver = b.read receiver := (h.sameAt_of_rootOf hroot).read_eq
    have hitem : ∀ item, args = [item] →
        (Env.mk a schema options).codedArg item = (Env.mk b schema options).codedArg item := by
      rintro item rfl
      rw [codedArg, codedArg, coded_eq h hnames.tail.left]
    simp only [Option.bind_eq_bind, Option.bind_some, hread]
    split
    · rw [hitem _ rfl]
    · rfl
    · rfl
    · rfl

theorem expressionText_eq (h : a.AgreeOn b known) (loops : LoopTable) (e : Expr)
    (hnames : Expr.NamesKnown known e.nodes) :
    (Env.mk a schema options).expressionText loops e =
      (Env.mk b schema options).expressionText loops e := by
  have hplain : (Env.mk a schema options).plainStatementText e =
      (Env.mk b schema options).plainStatementText e := by
    rw [plainStatementText, plainStatementText, exprText_eq h hnames]
  unfold expressionText
  split
  · rename_i call
    rw [collectionCall?_eq_of_agreeOn h loops call hnames, hplain]
  · exact hplain

mutual

/-- Two scopes that agree on the names a statement reads and assigns give it the same text. -/
theorem stmtText_eq (h : a.AgreeOn b known) (loops : LoopTable) :
    (stmt : Stmt) → Stmt.NamesKnown known stmt.nodes →
      (Env.mk a schema options).stmtText loops stmt = (Env.mk b schema options).stmtText loops stmt
  | .declare decl, hnames => by
    rw [Stmt.nodes] at hnames
    rw [stmtText, stmtText, declText_eq h decl hnames.head.1]
  | .assign w, hnames => by
    rw [Stmt.nodes] at hnames
    rw [stmtText, stmtText, assignmentText_eq h loops w
      (hnames.head.2 w rfl) (hnames.head.1 _ List.mem_cons_self)]
  | .assignIndex w, hnames => by
    rw [Stmt.nodes] at hnames
    have harray := hnames.head.1 w.array (by simp [Stmt.expressions])
    have hposition := hnames.head.1 w.position (by simp [Stmt.expressions])
    have hvalue := hnames.head.1 w.value (by simp [Stmt.expressions])
    simp only [stmtText, indexAssignmentText, exprText_eq h harray, exprText_eq h hposition,
      exprText_eq h hvalue]
  | .assignMember w, hnames => by
    rw [Stmt.nodes] at hnames
    have hobject := hnames.head.1 w.object (by simp [Stmt.expressions])
    have hvalue := hnames.head.1 w.value (by simp [Stmt.expressions])
    simp only [stmtText, memberAssignmentText, exprText_eq h hobject, exprText_eq h hvalue]
  | .ret none, _ => rfl
  | .ret (some value), hnames => by
    rw [Stmt.nodes] at hnames
    rw [stmtText, stmtText, exprText_eq h (hnames.head.1 _ List.mem_cons_self)]
  | .evaluate e, hnames => by
    rw [Stmt.nodes] at hnames
    rw [stmtText, stmtText, expressionText_eq h loops e (hnames.head.1 _ List.mem_cons_self)]
  | .block body, hnames => by
    rw [Stmt.nodes] at hnames
    rw [stmtText, stmtText, bodyText_eq h loops body hnames.tail]
  | .branch condition thenBranch elseBranch, hnames => by
    rw [Stmt.nodes] at hnames
    have helse (code : String) := elseText_eq h loops code elseBranch hnames.tail.right
    simp only [stmtText, exprText_eq h (hnames.head.1 _ List.mem_cons_self),
      stmtText_eq h loops thenBranch hnames.tail.left, helse]
  | .forRange counter first limit body, hnames => by
    rw [Stmt.nodes] at hnames
    have hfirst := hnames.head.1 first (by simp [Stmt.expressions])
    have hlimit := hnames.head.1 limit (by simp [Stmt.expressions])
    simp only [stmtText, exprText_eq h hfirst, exprText_eq h hlimit,
      stmtText_eq h loops body hnames.tail]
  | .forEach item items body, hnames => by
    rw [Stmt.nodes] at hnames
    simp only [stmtText, exprText_eq h (hnames.head.1 _ List.mem_cons_self),
      stmtText_eq h loops body hnames.tail]

theorem bodyText_eq (h : a.AgreeOn b known) (loops : LoopTable) :
    (body : List Stmt) → Stmt.NamesKnown known (Stmt.listNodes body) →
      (Env.mk a schema options).bodyText loops body = (Env.mk b schema options).bodyText loops body
  | [], _ => rfl
  | stmt :: body, hnames => by
    rw [Stmt.listNodes] at hnames
    rw [bodyText, bodyText, stmtText_eq h loops stmt hnames.left,
      bodyText_eq h loops body hnames.right]

theorem elseText_eq (h : a.AgreeOn b known) (loops : LoopTable) (code : String) :
    (elseBranch : Option Stmt) → Stmt.NamesKnown known (Stmt.optionNodes elseBranch) →
      (Env.mk a schema options).elseText loops code elseBranch =
        (Env.mk b schema options).elseText loops code elseBranch
  | none, _ => rfl
  | some stmt, hnames => by
    rw [Stmt.optionNodes] at hnames
    rw [elseText, elseText, stmtText_eq h loops stmt hnames]

end

end Env

/-! ## Scopes that differ elsewhere

The hypothesis of the main result speaks of what the two scopes have in common.  Declaring one more
member, local or reference under a name that is not listed gives such a pair of scopes. -/

/-- The names whose entries can influence the text of a body: those it reads and those it
assigns. -/
def Stmt.Consults (body : List Stmt) (name : String) : Prop :=
  name ∈ Stmt.bodyNames body ∨ ∃ w, Stmt.assign w ∈ Stmt.listNodes body ∧ w.name = name

theorem Stmt.namesKnown_listNodes (body : List Stmt) :
    Stmt.NamesKnown (Stmt.Consults body) (Stmt.listNodes body) := by
  intro stmt hstmt
  constructor
  · intro e he node hnode name hown
    refine Or.inl (NameSet.mem_ofNames.2 ?_)
    refine List.mem_flatMap.2 ⟨stmt, hstmt, List.mem_flatMap.2 ⟨e, he, ?_⟩⟩
    exact List.mem_flatMap.2 ⟨node, hnode, hown⟩
  · rintro w rfl
    exact Or.inr ⟨w, hstmt, rfl⟩

theorem Expr.namesKnown_nodes (e : Expr) : Expr.NamesKnown (· ∈ e.names) e.nodes :=
  fun node hnode _ hown => NameSet.mem_ofNames.2 (List.mem_flatMap.2 ⟨node, hnode, hown⟩)

/-- Whatever is declared under a name without dots outside `known`, the scopes agree on `known`. -/
theorem Scope.agreeOn_declare (scope : Scope) {known : String → Prop} {name : String}
    (typeName : String) (hdots : '.' ∉ name.toList) (hname : ¬known name) :
    scope.AgreeOn
      (((scope.declareMember name typeName).declareLocal name typeName).markReference name)
      known where
  component := rfl
  module := rfl
  localTypes := rfl
  globalTypes := rfl
  arities := rfl
  symbols other hother := by
    have hne : name ≠ other := by
      rintro rfl
      exact hother.elim hdots hname
    constructor
    · simp [declareMember, declareLocal, markReference, Std.ExtTreeMap.getElem?_insert, hne]
    · simp [declareMember, declareLocal, markReference, Std.ExtTreeMap.getElem?_insert, hne]
    · simp [declareMember, declareLocal, markReference, Std.ExtTreeSet.contains_insert, hne]

/-- **The names a text depends on are listed.**  Take two scopes that differ only in the members,
the locals and the references they have under names without dots.  If none of these names is read
or assigned in a body, the body is lowered alike in both, with the same notices and to the same
text or the same fault; and so is an expression that may read none of them. -/
theorem text_eq_of_agreeOn_names (schema : Schema) (options : Options) (loops : LoopTable)
    (a b : Scope) :
    (∀ body : List Stmt, a.AgreeOn b (Stmt.Consults body) →
      (Env.mk a schema options).bodyText loops body =
        (Env.mk b schema options).bodyText loops body) ∧
    ∀ e : Expr, a.AgreeOn b (· ∈ e.names) →
      (Env.mk a schema options).exprText e = (Env.mk b schema options).exprText e := by
  constructor
  · intro body h
    exact Env.bodyText_eq h loops body (Stmt.namesKnown_listNodes body)
  · intro e h
    exact Env.exprText_eq h (Expr.namesKnown_nodes e)

/-- The assignment `total = row.size() + step` is lowered alike whether or not a symbol `size` is
declared, for it reads `row` and `step` only. -/
theorem text_eq_of_agreeOn_names_total :
    let sum : Expr := .binaryOf (.call ⟨"row.size", [], 1⟩) "+" (.ident "step")
    let body : List Stmt := [.assign ⟨"total", sum, none, false⟩]
    let scope : Scope := (Scope.ofComponent "" "App" ∅).markReference "row"
    let other : Scope :=
      ((scope.declareMember "size" "int").declareLocal "size" "int").markReference "size"
    scope.AgreeOn other (Stmt.Consults body) ∧ scope.AgreeOn other (· ∈ sum.names) ∧
      (Env.mk scope Schema.empty Options.default).bodyText ∅ body =
        (Env.mk other Schema.empty Options.default).bodyText ∅ body ∧
      (Env.mk scope Schema.empty Options.default).exprText sum =
        (Env.mk other Schema.empty Options.default).exprText sum := by
  intro sum body scope other
  have hnames : sum.nodes.flatMap Expr.ownNames = ["row", "step"] := by decide
  have hsum : "size" ∉ sum.names := by
    rw [Expr.names, NameSet.mem_ofNames, hnames]
    decide
  have hbody : ¬Stmt.Consults body "size" := by
    rintro (hread | ⟨w, hw, hname⟩)
    · refine hsum (NameSet.mem_ofNames.2 ?_)
      have := NameSet.mem_ofNames.1 hread
      simpa [body, Stmt.listNodes, Stmt.nodes, Stmt.expressions] using this
    · have : w = ⟨"total", sum, none, false⟩ := by
        simpa [body, Stmt.listNodes, Stmt.nodes] using hw
      rw [this] at hname
      exact absurd hname (by decide)
  have hagree : scope.AgreeOn other (Stmt.Consults body) :=
    scope.agreeOn_declare "int" (by decide) hbody
  have hagreeSum : scope.AgreeOn other (· ∈ sum.names) :=
    scope.agreeOn_declare "int" (by decide) hsum
  obtain ⟨htext, hexpr⟩ :=
    text_eq_of_agreeOn_names Schema.empty Options.default ∅ scope other
  exact ⟨hagree, hagreeSum, htext body hagree, hexpr sum hagreeSum⟩

end UiLowering
