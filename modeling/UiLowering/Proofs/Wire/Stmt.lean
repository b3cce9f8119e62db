import UiLowering.Proofs.Wire.Expr
import UiLowering.Wire.Stmt

/-!
# Statements that were written are read back

As with expressions: what reads back the statements inside a statement reads back the statement
(`Stmt.finds_entries`), and these are nested less deep.  The expressions of a statement are read
back if they are plain.
-/

set_option autoImplicit false

namespace UiLowering

open Fields Json

/-! ## Declarations

A declaration stands in statements and in components, and is read by the same function in both. -/

theorem finds_varDecl {read : Json → Option Expr} {decl : VarDecl}
    (hread : ∀ e ∈ decl.initializer, read e.toJson = some e) :
    Finds (readVarDecl read) decl.entries decl :=
  (finds_str rfl).bind <| (finds_str rfl).bind <|
    (finds_optionalExpr rfl hread).bind <| (finds_flag rfl).bind <|
    (finds_flag rfl).bind <| (finds_flag rfl).bind <| (finds_flag rfl).bind <| finds_pure _

/-- A declaration that was written is read back. -/
theorem VarDecl.ofJson?_toJson {decl : VarDecl} (h : ∀ e ∈ decl.initializer, e.IsPlain) :
    VarDecl.ofJson? decl.toJson = some decl :=
  record?_obj (finds_varDecl fun e he => (h e he).ofJson?_toJson)

theorem isReadable_optionalExpr (e : Option Expr) :
    (Json.ofOption Expr.toJson e).isReadable = true :=
  isReadable_ofOption fun e _ => e.isReadable_toJson

namespace Stmt

/-! ## The object of a statement

The statements inside a statement are its parts here, and its expressions are leaves.  So the
recursion is the same as for expressions, with fewer kinds of lists. -/

theorem listToJson_eq_map (body : List Stmt) : listToJson body = body.map toJson := by
  induction body with
  | nil => rfl
  | cons stmt body ih => rw [listToJson, ih, List.map_cons]

theorem optionToJson_eq_ofOption (stmt : Option Stmt) :
    optionToJson stmt = .ofOption toJson stmt := by
  cases stmt with
  | none => rfl
  | some stmt => rfl

/-- The fields of a statement. -/
def entries : Stmt → List (String × Json)
  | .declare decl => decl.entries
  | .assign a =>
    [("name", .str a.name), ("value", a.value.toJson), ("targetType", .ofOption .str a.targetType),
      ("isMove", .bool a.isMove)]
  | .assignIndex a =>
    [("array", a.array.toJson), ("index", a.position.toJson), ("value", a.value.toJson),
      ("compoundOp", .ofOption .str a.compoundOp), ("isMove", .bool a.isMove)]
  | .assignMember a =>
    [("object", a.object.toJson), ("member", .str a.field), ("value", a.value.toJson),
      ("compoundOp", .ofOption .str a.compoundOp), ("isMove", .bool a.isMove)]
  | .ret value => [("value", .ofOption Expr.toJson value)]
  | .evaluate e => [("expression", e.toJson)]
  | .block body => [("statements", .arr (body.map toJson))]
  | .branch condition thenBranch elseBranch =>
    [("condition", condition.toJson), ("thenBranch", thenBranch.toJson),
      ("elseBranch", .ofOption toJson elseBranch)]
  | .forRange counter first limit body =>
    [("varName", .str counter), ("start", first.toJson), ("end", limit.toJson),
      ("body", body.toJson)]
  | .forEach item items body =>
    [("varName", .str item), ("iterable", items.toJson), ("body", body.toJson)]

/-- The statements that stand directly in a statement. -/
def parts : Stmt → List Stmt
  | .block body => body
  | .branch _ thenBranch elseBranch => thenBranch :: elseBranch.toList
  | .forRange _ _ _ body | .forEach _ _ body => [body]
  | _ => []

theorem toJson_eq (stmt : Stmt) :
    stmt.toJson = .obj (("type", .str stmt.kind) :: stmt.entries) := by
  cases stmt with
  | block body => rw [toJson, listToJson_eq_map]; rfl
  | branch condition thenBranch elseBranch => rw [toJson, optionToJson_eq_ofOption]; rfl
  | _ => rfl

theorem toJson_ne_null (stmt : Stmt) : stmt.toJson ≠ .null := by
  rw [toJson_eq]
  exact Json.noConfusion

theorem type_notMem_entries (stmt : Stmt) : "type" ∉ stmt.entries.map (·.1) := by
  cases stmt <;> simp [entries, VarDecl.entries]

/-- What reads back the statements inside a statement reads back its fields. -/
theorem finds_entries {read : Json → Option Stmt} {stmt : Stmt}
    (hplain : ∀ e ∈ stmt.expressions, e.IsPlain)
    (h : ∀ part ∈ stmt.parts, read part.toJson = some part) :
    Finds (readStmtOf read stmt.kind) stmt.entries stmt := by
  have hexpr {e : Expr} (he : e ∈ stmt.expressions) : Expr.ofInnerJson? e.toJson = some e :=
    (hplain e he).ofInnerJson?_toJson
  cases stmt with
  | declare decl =>
    exact (finds_varDecl fun e he => hexpr (Option.mem_toList.2 he)).bind <| finds_pure _
  | assign a =>
    have ha : Finds readAssignment (entries (.assign a)) a :=
      (finds_str rfl).bind <| (finds_required rfl (hexpr (by simp [expressions]))).bind <|
        (finds_optionalStr rfl).bind <| (finds_flag rfl).bind <| finds_pure _
    exact ha.bind <| finds_pure _
  | assignIndex a =>
    have ha : Finds readIndexAssignment (entries (.assignIndex a)) a :=
      (finds_required rfl (hexpr (by simp [expressions]))).bind <|
        (finds_required rfl (hexpr (by simp [expressions]))).bind <|
        (finds_required rfl (hexpr (by simp [expressions]))).bind <|
        (finds_optionalStr rfl).bind <| (finds_flag rfl).bind <| finds_pure _
    exact ha.bind <| finds_pure _
  | assignMember a =>
    have ha : Finds readMemberAssignment (entries (.assignMember a)) a :=
      (finds_required rfl (hexpr (by simp [expressions]))).bind <| (finds_str rfl).bind <|
        (finds_required rfl (hexpr (by simp [expressions]))).bind <|
        (finds_optionalStr rfl).bind <| (finds_flag rfl).bind <| finds_pure _
    exact ha.bind <| finds_pure _
  | ret value =>
    exact (finds_optionalExpr rfl fun e he => hexpr (Option.mem_toList.2 he)).bind <| finds_pure _
  | evaluate e => exact (finds_required rfl (hexpr (by simp [expressions]))).bind <| finds_pure _
  | block body => exact (finds_required rfl (list?_map_of_mem h)).bind <| finds_pure _
  | branch condition thenBranch elseBranch =>
    simp only [parts, List.forall_mem_cons, Option.mem_toList] at h
    have helse := readOption_ofOption_of_mem h.2 toJson_ne_null
    exact (finds_required rfl (hexpr (by simp [expressions]))).bind <|
      (finds_required rfl h.1).bind <| (finds_defaulted rfl helse).bind <| finds_pure _
  | forRange counter first limit body =>
    simp only [parts, List.forall_mem_cons] at h
    exact (finds_str rfl).bind <| (finds_required rfl (hexpr (by simp [expressions]))).bind <|
      (finds_required rfl (hexpr (by simp [expressions]))).bind <|
      (finds_required rfl h.1).bind <| finds_pure _
  | forEach item items body =>
    simp only [parts, List.forall_mem_cons] at h
    exact (finds_str rfl).bind <| (finds_required rfl (hexpr (by simp [expressions]))).bind <|
      (finds_required rfl h.1).bind <| finds_pure _

/-! ## What stands inside the object

The depth bounds the recursion of the reader, and the expressions have to be readable as they
stand. -/

/-- A statement inside another is nested less deep. -/
theorem depth_lt_of_mem_parts {stmt part : Stmt} (h : part ∈ stmt.parts) :
    part.toJson.depth < stmt.toJson.depth := by
  rw [toJson_eq stmt]
  cases stmt with
  | block body =>
    calc part.toJson.depth
      _ < (Json.arr (body.map toJson)).depth := depth_lt_arr (List.mem_map.2 ⟨part, h, rfl⟩)
      _ < _ := depth_lt_obj (by simp [entries])
  | branch condition thenBranch elseBranch =>
    simp only [parts, List.mem_cons, Option.mem_toList] at h
    rcases h with rfl | hpart
    · exact depth_lt_obj (by simp [entries])
    · rw [Option.mem_def.1 hpart]
      exact depth_lt_obj (by simp [entries, Json.ofOption])
  | forRange counter first limit body =>
    rw [List.mem_singleton.1 h]
    exact depth_lt_obj (by simp [entries])
  | forEach item items body =>
    rw [List.mem_singleton.1 h]
    exact depth_lt_obj (by simp [entries])
  | _ => cases h

open UiLowering.Expr (isReadable_ofOptionStr)

mutual

/-- The JSON of a statement can be read in all its parts. -/
theorem isReadable_toJson : (stmt : Stmt) → stmt.toJson.isReadable = true
  | .declare _ | .ret _ => by
    simp [toJson, isReadable, entriesReadable, VarDecl.entries, isReadable_optionalExpr]
  | .assign _ | .assignIndex _ | .assignMember _ | .evaluate _ => by
    simp [toJson, isReadable, entriesReadable, Expr.isReadable_toJson, isReadable_ofOptionStr]
  | .block body => by simp [toJson, isReadable, entriesReadable, allReadable_listToJson body]
  | .branch _ thenBranch elseBranch => by
    simp [toJson, isReadable, entriesReadable, Expr.isReadable_toJson,
      isReadable_toJson thenBranch, isReadable_optionToJson elseBranch]
  | .forRange _ _ _ body | .forEach _ _ body => by
    simp [toJson, isReadable, entriesReadable, Expr.isReadable_toJson, isReadable_toJson body]

theorem allReadable_listToJson : (body : List Stmt) → allReadable (listToJson body) = true
  | [] => rfl
  | stmt :: body => by
    simp [listToJson, allReadable, isReadable_toJson stmt, allReadable_listToJson body]

theorem isReadable_optionToJson : (stmt : Option Stmt) → (optionToJson stmt).isReadable = true
  | none => rfl
  | some stmt => isReadable_toJson stmt

end

/-! ## Reading

The expressions of a part are expressions of the whole, so the hypothesis that all of them are plain
is handed down. -/

theorem expressions_subset_allExpressions (stmt : Stmt) :
    stmt.expressions ⊆ stmt.allExpressions :=
  fun _ he => List.mem_flatMap.2 ⟨stmt, stmt.mem_nodes_self, he⟩

/-- The expressions in a part of a statement are expressions in the statement. -/
theorem allExpressions_subset_of_mem_parts {stmt part : Stmt} (h : part ∈ stmt.parts) :
    part.allExpressions ⊆ stmt.allExpressions := by
  have hnodes : ∀ node ∈ part.nodes, node ∈ stmt.nodes := by
    intro node hnode
    cases stmt with
    | block body =>
      rw [nodes]
      exact List.mem_cons_of_mem _ (mem_listNodes_of_mem h hnode)
    | branch condition thenBranch elseBranch =>
      rw [nodes]
      refine List.mem_cons_of_mem _ (List.mem_append.2 ?_)
      rcases List.mem_cons.1 h with rfl | helse
      · exact .inl hnode
      · rw [Option.mem_toList.1 helse, optionNodes]
        exact .inr hnode
    | forRange counter first limit body =>
      rw [List.mem_singleton.1 h] at hnode
      rw [nodes]
      exact List.mem_cons_of_mem _ hnode
    | forEach item items body =>
      rw [List.mem_singleton.1 h] at hnode
      rw [nodes]
      exact List.mem_cons_of_mem _ hnode
    | _ => cases h
  intro e he
  obtain ⟨node, hnode, he⟩ := List.mem_flatMap.1 he
  exact List.mem_flatMap.2 ⟨node, hnodes node hnode, he⟩

theorem ofInnerWithin_toJson {level : Nat} {stmt : Stmt}
    (hplain : ∀ e ∈ stmt.allExpressions, e.IsPlain) (h : stmt.toJson.depth < level) :
    ofInnerWithin level stmt.toJson = some stmt := by
  induction level generalizing stmt with
  | zero => exact absurd h (Nat.not_lt_zero _)
  | succ level ih =>
    have hparts : ∀ part ∈ stmt.parts, ofInnerWithin level part.toJson = some part :=
      fun part hpart => ih (fun e he => hplain e (allExpressions_subset_of_mem_parts hpart he))
        (Nat.lt_of_lt_of_le (depth_lt_of_mem_parts hpart) (Nat.lt_succ_iff.1 h))
    rw [ofInnerWithin, toJson_eq, tagged?_cons stmt.type_notMem_entries]
    exact read_of_finds (finds_entries
      (fun e he => hplain e (stmt.expressions_subset_allExpressions he)) hparts)

/-- **A statement that was written is read back.** -/
theorem ofJson?_toJson {stmt : Stmt} (hplain : ∀ e ∈ stmt.allExpressions, e.IsPlain) :
    ofJson? stmt.toJson = some stmt := by
  have hparts : ∀ part ∈ stmt.parts, ofInnerJson? part.toJson = some part := fun part hpart =>
    ofInnerWithin_toJson (fun e he => hplain e (allExpressions_subset_of_mem_parts hpart he))
      (Nat.lt_succ_self _)
  rw [ofJson?, outerTagged?, if_pos stmt.isReadable_toJson, toJson_eq,
    tagged?_cons stmt.type_notMem_entries]
  exact read_of_finds (finds_entries
    (fun e he => hplain e (stmt.expressions_subset_allExpressions he)) hparts)

theorem bodyOfJson?_listToJson {body : List Stmt}
    (hplain : ∀ stmt ∈ body, ∀ e ∈ stmt.allExpressions, e.IsPlain) :
    bodyOfJson? (.arr (listToJson body)) = some body := by
  rw [bodyOfJson?, listToJson_eq_map]
  exact list?_map_of_mem fun stmt hstmt => ofJson?_toJson (hplain stmt hstmt)

end Stmt

end UiLowering
