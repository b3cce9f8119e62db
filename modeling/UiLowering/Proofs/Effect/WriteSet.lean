import UiLowering.Proofs.Effect.WritePlace

/-!
# The report of a body as a union

The report on a body is the union of what its statements write directly, over all statements that
are nested in it (`bodyWrites_union`).  `Stmt.Within` says which statements these are and
`Stmt.WritesDirectly` what each of them contributes, both without reference to the traversal.

So the report depends neither on the order of the statements nor on the blocks, branches and loops
they stand in: bodies that can be regrouped into each other have the same report.  A further bound
collection can do no more than take its own name out of the report.
-/

set_option autoImplicit false

namespace UiLowering.Stmt

variable {schema : Schema} {loops more : LoopTable} {name : String} {body : List Stmt}
  {stmt node : Stmt}

/-! ## Nested statements

The traversal lists the statements in a body in some order.  For a union only membership matters,
and `Within` says by rules which statements are meant. -/

/-- A statement stands in a body, in it directly or in a statement of it at any depth. -/
inductive Within (body : List Stmt) : Stmt → Prop where
  | here {stmt : Stmt} : stmt ∈ body → Within body stmt
  | block {inner : List Stmt} {stmt : Stmt} : Within body (.block inner) → stmt ∈ inner →
      Within body stmt
  | thenBranch {condition : Expr} {thenBranch : Stmt} {elseBranch : Option Stmt} :
      Within body (.branch condition thenBranch elseBranch) → Within body thenBranch
  | elseBranch {condition : Expr} {thenBranch elseBranch : Stmt} :
      Within body (.branch condition thenBranch (some elseBranch)) → Within body elseBranch
  | forRange {counter : String} {first limit : Expr} {inner : Stmt} :
      Within body (.forRange counter first limit inner) → Within body inner
  | forEach {item : String} {items : Expr} {inner : Stmt} :
      Within body (.forEach item items inner) → Within body inner

mutual

theorem within_of_mem_nodes :
    (stmt : Stmt) → Within body stmt → ∀ node ∈ stmt.nodes, Within body node
  | .block inner, hstmt => by
    rw [nodes, List.forall_mem_cons]
    exact ⟨hstmt, within_of_mem_listNodes inner fun _ hinner => .block hstmt hinner⟩
  | .branch condition thenBranch elseBranch, hstmt => by
    rw [nodes, List.forall_mem_cons, List.forall_mem_append]
    refine ⟨hstmt, within_of_mem_nodes thenBranch (.thenBranch hstmt), ?_⟩
    refine within_of_mem_optionNodes elseBranch ?_
    rintro stmt rfl
    exact .elseBranch hstmt
  | .forRange _ _ _ inner, hstmt => by
    rw [nodes, List.forall_mem_cons]
    exact ⟨hstmt, within_of_mem_nodes inner (.forRange hstmt)⟩
  | .forEach _ _ inner, hstmt => by
    rw [nodes, List.forall_mem_cons]
    exact ⟨hstmt, within_of_mem_nodes inner (.forEach hstmt)⟩
  | .declare _, hstmt | .assign _, hstmt | .assignIndex _, hstmt | .assignMember _, hstmt
  | .ret _, hstmt | .evaluate _, hstmt => by
    rw [nodes, List.forall_mem_singleton]
    exact hstmt

theorem within_of_mem_listNodes :
    (stmts : List Stmt) → (∀ stmt ∈ stmts, Within body stmt) →
      ∀ node ∈ listNodes stmts, Within body node
  | [], _ => by simp [listNodes]
  | stmt :: stmts, hstmts => by
    obtain ⟨hstmt, hstmts⟩ := List.forall_mem_cons.1 hstmts
    rw [listNodes, List.forall_mem_append]
    exact ⟨within_of_mem_nodes stmt hstmt, within_of_mem_listNodes stmts hstmts⟩

theorem within_of_mem_optionNodes :
    (stmt : Option Stmt) → (∀ inner, stmt = some inner → Within body inner) →
      ∀ node ∈ optionNodes stmt, Within body node
  | none, _ => by simp [optionNodes]
  | some stmt, hstmt => within_of_mem_nodes stmt (hstmt stmt rfl)

end

/-- With a statement, the traversal of the body reaches everything inside it. -/
theorem nodes_subset_of_within (h : Within body stmt) : stmt.nodes ⊆ listNodes body := by
  induction h with
  | here hmem => exact fun _ hnode => mem_listNodes_of_mem hmem hnode
  | block _ hmem ih =>
    intro node hnode
    refine ih ?_
    rw [nodes]
    exact List.mem_cons_of_mem _ (mem_listNodes_of_mem hmem hnode)
  | thenBranch _ ih =>
    intro node hnode
    refine ih ?_
    rw [nodes]
    exact List.mem_cons_of_mem _ (List.mem_append_left _ hnode)
  | elseBranch _ ih =>
    intro node hnode
    refine ih ?_
    rw [nodes, optionNodes]
    exact List.mem_cons_of_mem _ (List.mem_append_right _ hnode)
  | forRange _ ih => exact fun _ hnode => ih (List.mem_cons_of_mem _ hnode)
  | forEach _ ih => exact fun _ hnode => ih (List.mem_cons_of_mem _ hnode)

/-- The traversal of a body reaches the statements within it and no others. -/
theorem mem_listNodes_iff_within : stmt ∈ listNodes body ↔ Within body stmt :=
  ⟨within_of_mem_listNodes body (fun _ hstmt => .here hstmt) stmt,
    fun h => nodes_subset_of_within h stmt.mem_nodes_self⟩

/-! ## Direct writes

Each statement contributes at most one name, that of the variable it writes by itself.  The bound
collections enter through a single exception, so adding one can only remove its own name. -/

/-- What a statement writes by itself, apart from the statements inside it.  An element of a bound
collection that is named directly does not count. -/
inductive WritesDirectly (schema : Schema) (loops : LoopTable) (name : String) : Stmt → Prop where
  | assign {a : Assignment} : a.name = name → WritesDirectly schema loops name (.assign a)
  | assignIndex {a : IndexAssignment} : a.array.HasRoot name →
      (∀ collection, a.array = .ident collection → loops.contains collection = false) →
      WritesDirectly schema loops name (.assignIndex a)
  | assignMember {a : MemberAssignment} : a.object.HasRoot name →
      WritesDirectly schema loops name (.assignMember a)
  /-- A `++`, a `--` or a call that changes collections, as a statement by itself. -/
  | evaluate {e : Expr} : e.Changes schema name → WritesDirectly schema loops name (.evaluate e)

theorem written?_eq_some_iff_writesDirectly :
    stmt.written? schema loops = some name ↔ stmt.WritesDirectly schema loops name := by
  rw [written?_eq_some_iff]
  constructor
  · rintro ⟨place, hwrites, hreported⟩
    cases hwrites with
    | assign hname => exact .assign hname
    | assignIndex hroot => exact .assignIndex hroot hreported
    | assignMember hroot => exact .assignMember hroot
    | evaluate hchanges => exact .evaluate hchanges
    | nested => exact hreported.elim
  · intro h
    cases h with
    | assign hname => exact ⟨.statement, .assign hname, trivial⟩
    | assignIndex hroot hunbound => exact ⟨_, .assignIndex hroot, hunbound⟩
    | assignMember hroot => exact ⟨.statement, .assignMember hroot, trivial⟩
    | evaluate hchanges => exact ⟨.statement, .evaluate hchanges, trivial⟩

theorem mem_bodyWrites_iff_within :
    name ∈ bodyWrites schema loops body ↔
      ∃ stmt, Within body stmt ∧ stmt.WritesDirectly schema loops name := by
  simp only [bodyWrites, NameSet.mem_ofNames, List.mem_filterMap, mem_listNodes_iff_within,
    written?_eq_some_iff_writesDirectly]

/-- What a statement writes among many bound collections, it writes among fewer. -/
theorem WritesDirectly.of_fewerBound (h : stmt.WritesDirectly schema more name)
    (hmore : ∀ name, loops.contains name = true → more.contains name = true) :
    stmt.WritesDirectly schema loops name := by
  cases h with
  | assign hname => exact .assign hname
  | assignIndex hroot hunbound =>
    refine .assignIndex hroot fun collection harray => Bool.eq_false_iff.2 fun hbound => ?_
    exact Bool.false_ne_true ((hunbound collection harray).symm.trans (hmore collection hbound))
  | assignMember hroot => exact .assignMember hroot
  | evaluate hchanges => exact .evaluate hchanges

/-- With more bound collections a statement writes the same, unless its variable is one of those
that were added. -/
theorem WritesDirectly.of_moreBound (h : stmt.WritesDirectly schema loops name) :
    stmt.WritesDirectly schema more name ∨
      more.contains name = true ∧ loops.contains name = false := by
  cases h with
  | assign hname => exact .inl (.assign hname)
  | @assignIndex a hroot hunbound =>
    by_cases hbound : ∀ collection, a.array = .ident collection → more.contains collection = false
    · exact .inl (.assignIndex hroot hbound)
    · simp only [not_forall] at hbound
      obtain ⟨collection, harray, hmore⟩ := hbound
      -- the array is the variable itself
      rw [harray] at hroot
      cases hroot
      exact .inr ⟨by simpa using hmore, hunbound name harray⟩
  | assignMember hroot => exact .inl (.assignMember hroot)
  | evaluate hchanges => exact .inl (.evaluate hchanges)

/-! ## Regrouped bodies

The rules of `Regrouped` permute statements and open or close blocks, branches and loops.  A branch
or a loop writes nothing by itself, whatever its condition holds, so it can be replaced by its
parts. -/

/-- Bodies of the same statements, apart from their order and from the blocks, branches and loops
they stand in, at any depth. -/
inductive Regrouped : List Stmt → List Stmt → Prop where
  | reorder {body other : List Stmt} : body.Perm other → Regrouped body other
  | symm {body other : List Stmt} : Regrouped body other → Regrouped other body
  | trans {body other third : List Stmt} : Regrouped body other → Regrouped other third →
      Regrouped body third
  | append {front front' back back' : List Stmt} : Regrouped front front' →
      Regrouped back back' → Regrouped (front ++ back) (front' ++ back')
  | block (body : List Stmt) : Regrouped [.block body] body
  | branch (condition : Expr) (thenBranch : Stmt) (elseBranch : Option Stmt) :
      Regrouped [.branch condition thenBranch elseBranch] (thenBranch :: elseBranch.toList)
  | forRange (counter : String) (first limit : Expr) (body : Stmt) :
      Regrouped [.forRange counter first limit body] [body]
  | forEach (item : String) (items : Expr) (body : Stmt) :
      Regrouped [.forEach item items body] [body]

theorem listNodes_append (front back : List Stmt) :
    listNodes (front ++ back) = listNodes front ++ listNodes back := by
  induction front with
  | nil => rfl
  | cons stmt front ih => rw [List.cons_append, listNodes, ih, listNodes, List.append_assoc]

theorem bodyWrites_append (schema : Schema) (loops : LoopTable) (front back : List Stmt) :
    bodyWrites schema loops (front ++ back) =
      bodyWrites schema loops front ∪ bodyWrites schema loops back := by
  refine Std.ExtTreeSet.ext_mem fun name => ?_
  rw [Std.ExtTreeSet.mem_union_iff]
  simp only [bodyWrites, NameSet.mem_ofNames, listNodes_append, List.filterMap_append,
    List.mem_append]

theorem mem_bodyWrites_iff_exists_mem :
    name ∈ bodyWrites schema loops body ↔
      ∃ stmt ∈ body, name ∈ bodyWrites schema loops [stmt] := by
  induction body with
  | nil => simp [bodyWrites, listNodes]
  | cons stmt body ih =>
    rw [← List.singleton_append, bodyWrites_append, Std.ExtTreeSet.mem_union_iff, ih,
      List.singleton_append, List.exists_mem_cons_iff]

/-- A statement that writes nothing itself contributes what the statements inside it write. -/
theorem bodyWrites_of_written?_eq_none {inner : List Stmt}
    (hnone : stmt.written? schema loops = none) (hnodes : stmt.nodes = stmt :: listNodes inner) :
    bodyWrites schema loops [stmt] = bodyWrites schema loops inner := by
  rw [bodyWrites, listNodes, listNodes, List.append_nil, hnodes, List.filterMap_cons_none hnone,
    bodyWrites]

theorem Regrouped.bodyWrites_eq {other : List Stmt} (h : Regrouped body other) :
    bodyWrites schema loops body = bodyWrites schema loops other := by
  induction h with
  | @reorder body other hperm =>
    refine Std.ExtTreeSet.ext_mem fun name => ?_
    calc name ∈ bodyWrites schema loops body
      _ ↔ ∃ stmt ∈ body, name ∈ bodyWrites schema loops [stmt] := mem_bodyWrites_iff_exists_mem
      _ ↔ ∃ stmt ∈ other, name ∈ bodyWrites schema loops [stmt] := by simp only [hperm.mem_iff]
      _ ↔ name ∈ bodyWrites schema loops other := mem_bodyWrites_iff_exists_mem.symm
  | symm _ ih => exact ih.symm
  | trans _ _ ih ih' => exact ih.trans ih'
  | append _ _ ihfront ihback => rw [bodyWrites_append, ihfront, ihback, bodyWrites_append]
  | block body => exact bodyWrites_of_written?_eq_none rfl (by rw [nodes])
  | branch condition thenBranch elseBranch =>
    refine bodyWrites_of_written?_eq_none rfl ?_
    cases elseBranch <;> simp [nodes, listNodes, optionNodes]
  | forRange counter first limit body =>
    exact bodyWrites_of_written?_eq_none rfl (by simp [nodes, listNodes])
  | forEach item items body =>
    exact bodyWrites_of_written?_eq_none rfl (by simp [nodes, listNodes])

/-! ## The report

The parts above are assembled: the union over all statements, the union of two bodies put together,
and what regrouping and further bound collections do to it. -/

/-- **The report is the union of the direct writes.**  A body writes exactly what the statements
within it write directly.  So a body of two parts writes what either part writes, a regrouped body
writes the same, and more bound collections take nothing out of the report but their own names, and
put nothing in. -/
theorem bodyWrites_union (schema : Schema) (loops : LoopTable) (body : List Stmt) :
    (∀ name, name ∈ bodyWrites schema loops body ↔
      ∃ stmt, Within body stmt ∧ stmt.WritesDirectly schema loops name) ∧
    (∀ rest, bodyWrites schema loops (body ++ rest) =
      bodyWrites schema loops body ∪ bodyWrites schema loops rest) ∧
    (∀ other, Regrouped body other →
      bodyWrites schema loops other = bodyWrites schema loops body) ∧
    ∀ more : LoopTable, (∀ name, loops.contains name = true → more.contains name = true) →
      ∀ name, (name ∈ bodyWrites schema more body → name ∈ bodyWrites schema loops body) ∧
        (name ∈ bodyWrites schema loops body →
          name ∈ bodyWrites schema more body ∨
            more.contains name = true ∧ loops.contains name = false) := by
  refine ⟨fun name => mem_bodyWrites_iff_within, bodyWrites_append schema loops body,
    fun other h => h.bodyWrites_eq.symm, fun more hmore name => ?_⟩
  simp only [mem_bodyWrites_iff_within]
  constructor
  · rintro ⟨stmt, hwithin, hwrites⟩
    exact ⟨stmt, hwithin, hwrites.of_fewerBound hmore⟩
  · rintro ⟨stmt, hwithin, hwrites⟩
    exact hwrites.of_moreBound.imp_left fun h => ⟨stmt, hwithin, h⟩

/-- In a loop, one branch writes an element of `rows` and the other one counts. -/
theorem bodyWrites_union_rows :
    let setRow : Stmt := .assignIndex ⟨.ident "rows", .int 0, .int 1, none, false⟩
    let count : Stmt := .evaluate (.trailing "++" (.member (.ident "stats") "count"))
    let body : List Stmt :=
      [.forEach "item" (.ident "items") (.branch (.ident "found") (.block [setRow]) (some count))]
    let bound : LoopTable := NameMap.ofEntries [("rows", .ofLoop 0 "row" "")]
    (Regrouped body [count, setRow] ∧
      bodyWrites .empty ∅ [count, setRow] = bodyWrites .empty ∅ body) ∧
      ("rows" ∈ bodyWrites .empty ∅ body ∧ "stats" ∈ bodyWrites .empty ∅ body) ∧
      "rows" ∉ bodyWrites .empty bound body ∧ "stats" ∈ bodyWrites .empty bound body := by
  intro setRow count body bound
  obtain ⟨hunion, -, hregroup, hmore⟩ := bodyWrites_union .empty ∅ body
  have hregrouped : Regrouped body [count, setRow] :=
    .trans (.forEach _ _ _) <| .trans (.branch _ _ _) <|
      .trans (.append (.block [setRow]) (.reorder (.refl [count]))) (.reorder (.swap _ _ []))
  have hbranch : Within body (.branch (.ident "found") (.block [setRow]) (some count)) :=
    .forEach (.here List.mem_cons_self)
  have hrows : "rows" ∈ bodyWrites .empty ∅ body :=
    (hunion "rows").2 ⟨setRow, .block (.thenBranch hbranch) List.mem_cons_self,
      .assignIndex .ident fun _ _ => Std.ExtTreeMap.contains_empty⟩
  have hstats : "stats" ∈ bodyWrites .empty ∅ body :=
    (hunion "stats").2 ⟨count, .elseBranch hbranch,
      .evaluate (.trailing (.inl rfl) (.member .ident))⟩
  have hunbound : bound.contains "stats" = false := by decide +kernel
  refine ⟨⟨hregrouped, hregroup _ hregrouped⟩, ⟨hrows, hstats⟩, ?_, ?_⟩
  · have hbound : bound.contains "rows" = true := by decide +kernel
    simp [body, setRow, count, bodyWrites, listNodes, nodes, optionNodes, written?, Expr.isBound,
      hbound, Expr.written?, Expr.root?]
  · have hadded : ∀ name, (∅ : LoopTable).contains name = true → bound.contains name = true := by
      simp
    exact ((hmore bound hadded "stats").2 hstats).resolve_right fun h =>
      Bool.false_ne_true (hunbound.symm.trans h.1)

end UiLowering.Stmt
