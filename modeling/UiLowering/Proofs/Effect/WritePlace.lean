import UiLowering.Effect.Writes
import UiLowering.Proofs.Names
import UiLowering.Proofs.Nodes
import UiLowering.Proofs.Text.Cut

/-!
# Where a body writes, and which writes are reported

`Expr.Changes` and `Stmt.WritesAt` say what a write is, without reference to the report: an
assignment of any kind, a `++` or `--` on something that begins with a variable, and a call of a
method that changes collections on a path that begins with one.  A write of the last two kinds may
be a statement by itself or stand anywhere inside an expression.

The report visits statements only.  So it is exact for the writes that are statements by themselves,
with the exception made for elements of bound collections, and knows nothing of those inside
expressions (`mem_bodyWrites_iff_place`).

The relations are inductive, with one constructor for each way to write, so that the list of ways
can be read without knowing how the report finds them.  That the report misses the writes inside
expressions is then a statement about places, and there is one counterexample for all of them.
-/

set_option autoImplicit false

namespace UiLowering

/-! ## Writes of expressions

What an expression changes by itself does not depend on where it stands.  The relation names the
forms, and the report finds exactly these when it is asked for a single expression. -/

namespace Expr

variable {schema : Schema} {name : String}

/-- An expression that can be assigned to and begins with a variable. -/
inductive HasRoot (name : String) : Expr → Prop where
  | ident : HasRoot name (.ident name)
  | member {object : Expr} {field : String} : HasRoot name object →
      HasRoot name (.member object field)
  | index {base position : Expr} : HasRoot name base → HasRoot name (.index base position)

theorem root?_of_hasRoot {e : Expr} (h : e.HasRoot name) : e.root? = some name := by
  induction h with
  | ident => rfl
  | member _ ih => rw [root?, ih]
  | index _ ih => rw [root?, ih]

theorem hasRoot_of_root? {e : Expr} (h : e.root? = some name) : e.HasRoot name := by
  fun_induction root? e with
  | case1 other =>
    cases h
    exact .ident
  | case2 object field ih => exact .member (ih h)
  | case3 base position ih => exact .index (ih h)
  | case4 => cases h

theorem root?_eq_some_iff {e : Expr} : e.root? = some name ↔ e.HasRoot name :=
  ⟨hasRoot_of_root?, root?_of_hasRoot⟩

/-- The operators that change their operand. -/
def IsStepOp (op : String) : Prop := op = "++" ∨ op = "--"

/-- An expression that changes a variable itself, apart from the expressions inside it. -/
inductive Changes (schema : Schema) (name : String) : Expr → Prop where
  | unary {op : String} {operand : Expr} : IsStepOp op → operand.HasRoot name →
      Changes schema name (.unary op operand)
  | trailing {op : String} {operand : Expr} : IsStepOp op → operand.HasRoot name →
      Changes schema name (.trailing op operand)
  /-- The receiver is a path that begins with the variable. -/
  | call {rest method : String} {args : List (Arg Expr)} {line : UInt32} :
      '.' ∉ name.toList → Text.IsPathRest rest → name ++ rest ≠ "" → '.' ∉ method.toList →
      method ≠ "" → mutatesCollection schema method args.length = true →
      Changes schema name (.call ⟨name ++ rest ++ "." ++ method, args, line⟩)

theorem stepped?_eq_some_iff {op : String} {operand : Expr} :
    (if op == "++" || op == "--" then operand.root? else none) = some name ↔
      IsStepOp op ∧ operand.HasRoot name := by
  rw [← root?_eq_some_iff]
  by_cases hop : IsStepOp op
  · rw [if_pos (by simpa [IsStepOp] using hop)]
    exact (and_iff_right hop).symm
  · rw [if_neg (by simpa [IsStepOp] using hop)]
    exact ⟨fun h => (nomatch h), fun h => absurd h.1 hop⟩

theorem written?_of_changes {e : Expr} (h : e.Changes schema name) :
    e.written? schema = some name := by
  cases h with
  | unary hop hroot => exact stepped?_eq_some_iff.2 ⟨hop, hroot⟩
  | trailing hop hroot => exact stepped?_eq_some_iff.2 ⟨hop, hroot⟩
  | @call rest method args line hname hrest hreceiver hdot hmethod hmutates =>
    have hsplit : splitReceiver (name ++ rest ++ "." ++ method) = some (name ++ rest, method) :=
      splitReceiver_eq_some_iff.2 ⟨rfl, hdot, hreceiver, hmethod⟩
    have hroot : Text.rootOf (name ++ rest) = name :=
      Text.rootOf_eq_iff.2 ⟨hname, rest, hrest, rfl⟩
    rw [written?, hsplit]
    exact (if_pos hmutates).trans (congrArg some hroot)

theorem changes_of_written? {e : Expr} (h : e.written? schema = some name) :
    e.Changes schema name := by
  unfold written? at h
  split at h
  · obtain ⟨hop, hroot⟩ := stepped?_eq_some_iff.1 h
    exact .unary hop hroot
  · obtain ⟨hop, hroot⟩ := stepped?_eq_some_iff.1 h
    exact .trailing hop hroot
  · rename_i call
    obtain ⟨⟨receiver, method⟩, hsplit, hwritten⟩ := Option.bind_eq_some_iff.1 h
    obtain ⟨hname, hdot, hreceiver, hmethod⟩ := splitReceiver_eq_some_iff.1 hsplit
    obtain ⟨hmutates, hroot⟩ := Option.ite_none_right_eq_some.1 hwritten
    obtain ⟨hplain, rest, hrest, rfl⟩ := Text.rootOf_eq_iff.1 (Option.some.inj hroot)
    obtain ⟨callee, args, line⟩ := call
    obtain rfl : callee = name ++ rest ++ "." ++ method := hname
    exact .call hplain hrest hreceiver hdot hmethod hmutates
  · cases h

/-- The report and the relation agree on a single expression. -/
theorem written?_eq_some_iff {e : Expr} : e.written? schema = some name ↔ e.Changes schema name :=
  ⟨changes_of_written?, written?_of_changes⟩

end Expr

/-! ## Writes of statements

A write has a place: it is the statement itself, the expression that is the statement, or an
expression somewhere inside.  The report visits the first two.  The exception for elements of bound
collections is a place of its own. -/

/-- The place of a write in a statement. -/
inductive WritePlace where
  /-- The write is the statement. -/
  | statement
  /-- The statement assigns to an element of an array. -/
  | element (array : Expr)
  /-- The write stands inside an expression of the statement. -/
  | nested

/-- Whether writes at a place are reported. -/
def WritePlace.IsReported (loops : LoopTable) : WritePlace → Prop
  | .statement => True
  | .element array => ∀ name, array = .ident name → loops.contains name = false
  | .nested => False

/-- The places that do not count. -/
theorem WritePlace.not_isReported_iff {loops : LoopTable} {place : WritePlace} :
    ¬place.IsReported loops ↔
      place = .nested ∨
        ∃ name, place = .element (.ident name) ∧ loops.contains name = true := by
  cases place with
  | statement => simp [IsReported]
  | element array => cases array <;> simp [IsReported]
  | nested => simp [IsReported]

namespace Stmt

variable {schema : Schema} {loops : LoopTable} {name : String}

/-- The expressions inside a statement at any depth, without the one that is a statement by
itself. -/
def innerNodes : Stmt → List Expr
  | .evaluate e => e.nodes.tail
  | stmt => stmt.expressions.flatMap Expr.nodes

/-- The statement itself writes a variable at a place, apart from the statements inside it. -/
inductive WritesAt (schema : Schema) (name : String) : Stmt → WritePlace → Prop where
  | assign {a : Assignment} : a.name = name → WritesAt schema name (.assign a) .statement
  | assignIndex {a : IndexAssignment} : a.array.HasRoot name →
      WritesAt schema name (.assignIndex a) (.element a.array)
  | assignMember {a : MemberAssignment} : a.object.HasRoot name →
      WritesAt schema name (.assignMember a) .statement
  | evaluate {e : Expr} : e.Changes schema name → WritesAt schema name (.evaluate e) .statement
  | nested {stmt : Stmt} {e : Expr} : e ∈ stmt.innerNodes → e.Changes schema name →
      WritesAt schema name stmt .nested

theorem isBound_eq_false_iff {array : Expr} :
    array.isBound loops = false ↔ WritePlace.IsReported loops (.element array) := by
  cases array <;> simp [Expr.isBound, WritePlace.IsReported]

/-- The report and the relation agree on a single statement. -/
theorem written?_eq_some_iff {stmt : Stmt} :
    stmt.written? schema loops = some name ↔
      ∃ place : WritePlace, stmt.WritesAt schema name place ∧ place.IsReported loops := by
  constructor
  · intro h
    cases stmt with
    | assign a => exact ⟨.statement, .assign (Option.some.inj h), trivial⟩
    | assignIndex a =>
      obtain ⟨hbound, hroot⟩ := Option.ite_none_left_eq_some.1 h
      exact ⟨.element a.array, .assignIndex (Expr.root?_eq_some_iff.1 hroot),
        isBound_eq_false_iff.1 (by simpa using hbound)⟩
    | assignMember a => exact ⟨.statement, .assignMember (Expr.root?_eq_some_iff.1 h), trivial⟩
    | evaluate e => exact ⟨.statement, .evaluate (Expr.written?_eq_some_iff.1 h), trivial⟩
    | declare _ | ret _ | block _ | branch _ _ _ | forRange _ _ _ _ | forEach _ _ _ => cases h
  · rintro ⟨place, hwrites, hreported⟩
    cases hwrites with
    | assign hname => rw [written?, hname]
    | assignIndex hroot =>
      rw [written?, isBound_eq_false_iff.2 hreported, if_neg Bool.false_ne_true,
        Expr.root?_eq_some_iff.2 hroot]
    | assignMember hroot => rw [written?, Expr.root?_eq_some_iff.2 hroot]
    | evaluate hchanges => rw [written?, Expr.written?_eq_some_iff.2 hchanges]
    | nested => exact hreported.elim

/-- The expressions of a statement, at any depth, are those inside it and the one that it may be. -/
theorem exists_node_iff {stmt : Stmt} {P : Expr → Prop} :
    (∃ e ∈ stmt.expressions, ∃ node ∈ e.nodes, P node) ↔
      (∃ node ∈ stmt.innerNodes, P node) ∨ ∃ e, stmt = .evaluate e ∧ P e := by
  have hflat : (∃ node ∈ stmt.expressions.flatMap Expr.nodes, P node) ↔
      ∃ e ∈ stmt.expressions, ∃ node ∈ e.nodes, P node := by
    constructor
    · rintro ⟨node, hnode, h⟩
      obtain ⟨e, he, hmem⟩ := List.mem_flatMap.1 hnode
      exact ⟨e, he, node, hmem, h⟩
    · rintro ⟨e, he, node, hmem, h⟩
      exact ⟨node, List.mem_flatMap.2 ⟨e, he, hmem⟩, h⟩
  rw [← hflat]
  cases stmt with
  | evaluate e =>
    simp only [expressions, List.flatMap_singleton, innerNodes, evaluate.injEq, exists_eq_left']
    rw [Expr.nodes_eq_cons e, List.exists_mem_cons_iff, List.tail_cons, or_comm]
  | declare _ | assign _ | assignIndex _ | assignMember _ | ret _ | block _ | branch _ _ _
  | forRange _ _ _ _ | forEach _ _ _ => simp [innerNodes]

theorem mem_bodyWrites_iff {body : List Stmt} :
    name ∈ bodyWrites schema loops body ↔
      ∃ stmt ∈ listNodes body,
        ∃ place : WritePlace, stmt.WritesAt schema name place ∧ place.IsReported loops := by
  simp only [bodyWrites, NameSet.mem_ofNames, List.mem_filterMap, written?_eq_some_iff]

/-- A body changes a variable in one of its expressions, at any depth. -/
def ChangesIn (schema : Schema) (body : List Stmt) (name : String) : Prop :=
  ∃ stmt ∈ listNodes body, ∃ e ∈ stmt.expressions, ∃ node ∈ e.nodes, node.Changes schema name

/-- A change in an expression is inside it, or the expression is a statement. -/
theorem changesIn_iff {body : List Stmt} :
    ChangesIn schema body name ↔
      (∃ stmt ∈ listNodes body, stmt.WritesAt schema name .nested) ∨
        ∃ e, .evaluate e ∈ listNodes body ∧ e.Changes schema name := by
  simp only [ChangesIn, exists_node_iff]
  constructor
  · rintro ⟨stmt, hstmt, ⟨node, hnode, hchanges⟩ | ⟨e, rfl, hchanges⟩⟩
    · exact Or.inl ⟨stmt, hstmt, .nested hnode hchanges⟩
    · exact Or.inr ⟨e, hstmt, hchanges⟩
  · rintro (⟨stmt, hstmt, hwrites⟩ | ⟨e, hstmt, hchanges⟩)
    · cases hwrites with
      | nested hnode hchanges => exact ⟨stmt, hstmt, Or.inl ⟨_, hnode, hchanges⟩⟩
    · exact ⟨.evaluate e, hstmt, Or.inr ⟨e, rfl, hchanges⟩⟩

end Stmt

/-- **Reported writes.**  A variable is reported exactly if a statement of the body, at any depth,
writes it at a place that counts.  So a variable that is changed in an expression is missing from
the report exactly if it is changed inside one, and all its other writes are of the same kind or go
to the elements of a bound collection. -/
theorem mem_bodyWrites_iff_place (schema : Schema) (loops : LoopTable) (body : List Stmt)
    (name : String) :
    (name ∈ Stmt.bodyWrites schema loops body ↔
      ∃ stmt ∈ Stmt.listNodes body,
        ∃ place : WritePlace, stmt.WritesAt schema name place ∧ place.IsReported loops) ∧
    (Stmt.ChangesIn schema body name ∧ name ∉ Stmt.bodyWrites schema loops body ↔
      (∃ stmt ∈ Stmt.listNodes body, stmt.WritesAt schema name .nested) ∧
      ∀ stmt ∈ Stmt.listNodes body, ∀ place : WritePlace, stmt.WritesAt schema name place →
        place = .nested ∨
          ∃ collection, place = .element (.ident collection) ∧
            loops.contains collection = true) := by
  refine ⟨Stmt.mem_bodyWrites_iff, ?_⟩
  simp only [Stmt.mem_bodyWrites_iff, ← WritePlace.not_isReported_iff]
  constructor
  · rintro ⟨hchanges, hmissing⟩
    have hnone : ∀ stmt ∈ Stmt.listNodes body, ∀ place : WritePlace,
        stmt.WritesAt schema name place → ¬place.IsReported loops :=
      fun stmt hstmt place hwrites hreported => hmissing ⟨stmt, hstmt, place, hwrites, hreported⟩
    refine ⟨?_, hnone⟩
    rcases Stmt.changesIn_iff.1 hchanges with hnested | ⟨e, he, hchange⟩
    · exact hnested
    · exact absurd trivial (hnone (.evaluate e) he .statement (.evaluate hchange))
  · rintro ⟨hnested, hnone⟩
    refine ⟨Stmt.changesIn_iff.2 (Or.inl hnested), ?_⟩
    rintro ⟨stmt, hstmt, place, hwrites, hreported⟩
    exact hnone stmt hstmt place hwrites hreported

/-- The initial value of a declaration changes `x`, and `x` is not reported. -/
theorem nested_change_not_reported :
    let body : List Stmt := [.declare (.plain "int" "y" (some (.trailing "++" (.ident "x"))))]
    Stmt.ChangesIn Schema.empty body "x" ∧ "x" ∉ Stmt.bodyWrites Schema.empty ∅ body := by
  intro body
  constructor
  · refine ⟨_, List.mem_cons_self, .trailing "++" (.ident "x"), List.mem_cons_self,
      .trailing "++" (.ident "x"), ?_, .trailing (Or.inl rfl) .ident⟩
    rw [Expr.nodes]
    exact List.mem_cons_self
  · simp [body, Stmt.bodyWrites, Stmt.listNodes, Stmt.nodes, Stmt.written?]

end UiLowering
