import UiLowering.Effect.Reads
import UiLowering.Proofs.Names
import UiLowering.Proofs.Source.Parts

/-!
# Static expressions

What `Expr.isStatic` accepts is computed once and never again, so an expression that it accepts must
not read anything.  `Expr.IsConstant` says form by form which expressions these are, and
`Expr.Runs` which nodes can only be computed by running the program.  An expression is static
exactly if it reads nothing and no node of it runs (`isStatic_iff_reads_nothing`).

A node is judged by its kind alone.  So a condition or an operation of constants is static, and a
call is not, even if it has no arguments and gives the same result each time.  This is why the
theorem needs `Runs` beside the reads: a call of a function without arguments reads nothing.
-/

set_option autoImplicit false

namespace UiLowering

theorem Literal.hasHole_eq_false_iff {raw : String} :
    hasHole raw = false ↔ ∀ source, .hole source ∉ pieces raw := by
  rw [hasHole, List.any_eq_false]
  constructor
  · exact fun h source hmem => h (.hole source) hmem rfl
  · intro h piece hmem
    cases piece with
    | text content => exact Bool.false_ne_true
    | hole source => exact absurd hmem (h source)

namespace Expr

variable {e node : Expr}

/-! ## Constants

`isStatic` tests all nodes of an expression.  The inductive form follows the parts instead, so that
the two are related by induction on the parts. -/

/-- An expression that is put together from literals. -/
inductive IsConstant : Expr → Prop where
  | int (value : Int64) : IsConstant (.int value)
  | float (value : Float) : IsConstant (.float value)
  | bool (value : Bool) : IsConstant (.bool value)
  | enumValue (ref : EnumRef) : IsConstant (.enumValue ref)
  /-- There is no expression in the literal. -/
  | str {raw : String} : (∀ source, .hole source ∉ Literal.pieces raw) → IsConstant (.str raw)
  | binary {left right : Expr} {op : String} {chain : Bool} : IsConstant left → IsConstant right →
      IsConstant (.binary left op right chain)
  | unary {operand : Expr} {op : String} : IsConstant operand → IsConstant (.unary op operand)
  | conditional {condition thenValue elseValue : Expr} : IsConstant condition →
      IsConstant thenValue → IsConstant elseValue →
      IsConstant (.conditional condition thenValue elseValue)
  | array {literal : ArrayLit Expr} : (∀ element ∈ literal.elements, IsConstant element) →
      IsConstant (.array literal)
  | fill {value count : Expr} : IsConstant value → IsConstant count → IsConstant (.fill value count)
  | record {literal : RecordLit Expr} : (∀ field ∈ literal.fields, IsConstant field.value) →
      IsConstant (.record literal)
  /-- The values in the patterns are constants too. -/
  | select {choice : Match Expr} : IsConstant choice.subject →
      (∀ arm ∈ choice.arms, ∀ value ∈ arm.pattern.parts, IsConstant value) →
      (∀ arm ∈ choice.arms, IsConstant arm.body) →
      (∀ value, choice.otherwise = some value → IsConstant value) → IsConstant (.select choice)

/-- An expression is static if it is so by itself and all its parts are. -/
theorem isStatic_iff_parts :
    e.isStatic = true ↔ e.isStaticNode = true ∧ ∀ part ∈ e.parts, part.isStatic = true := by
  simp only [isStatic, List.all_eq_true]
  constructor
  · intro h
    refine ⟨h e e.mem_nodes_self, fun part hpart node hnode => h node ?_⟩
    exact mem_nodes_iff.2 (.inr ⟨part, hpart, hnode⟩)
  · rintro ⟨hself, hparts⟩ node hnode
    rcases mem_nodes_iff.1 hnode with rfl | ⟨part, hpart, hmem⟩
    · exact hself
    · exact hparts part hpart node hmem

theorem isConstant_of_isStatic (h : e.isStatic = true) : e.IsConstant := by
  induction e using partInduction with
  | step e ih =>
    obtain ⟨hself, hparts⟩ := isStatic_iff_parts.1 h
    have hconstant (part : Expr) (hpart : part ∈ e.parts) : part.IsConstant :=
      ih part hpart (hparts part hpart)
    cases e with
    | int value => exact .int value
    | float value => exact .float value
    | bool value => exact .bool value
    | enumValue ref => exact .enumValue ref
    | str raw => exact .str (Literal.hasHole_eq_false_iff.1 (by simpa [isStaticNode] using hself))
    | binary left op right chain =>
      exact .binary (hconstant left (by simp [parts])) (hconstant right (by simp [parts]))
    | unary op operand => exact .unary (hconstant operand (by simp [parts]))
    | conditional condition thenValue elseValue =>
      exact .conditional (hconstant condition (by simp [parts]))
        (hconstant thenValue (by simp [parts])) (hconstant elseValue (by simp [parts]))
    | array literal => exact .array hconstant
    | fill value count =>
      exact .fill (hconstant value (by simp [parts])) (hconstant count (by simp [parts]))
    | record literal =>
      exact .record fun field hfield => hconstant _ (List.mem_map_of_mem hfield)
    | select choice =>
      refine .select (hconstant _ (by simp [parts])) (fun arm harm value hvalue => ?_)
        (fun arm harm => ?_) fun value hvalue => ?_
      · refine hconstant value ?_
        simp only [parts, List.mem_append, List.mem_cons, List.mem_flatMap]
        exact .inl (.inr ⟨arm, harm, .inr hvalue⟩)
      · refine hconstant arm.body ?_
        simp only [parts, List.mem_append, List.mem_cons, List.mem_flatMap]
        exact .inl (.inr ⟨arm, harm, .inl rfl⟩)
      · refine hconstant value ?_
        simp only [parts, List.mem_append, Option.mem_toList]
        exact .inr hvalue
    | ident _ | trailing _ _ | call _ | member _ _ | index _ _ | construct _ _ | reference _
    | move _ => cases hself

theorem isStatic_of_isConstant (h : e.IsConstant) : e.isStatic = true := by
  induction h with
  | int | float | bool | enumValue => rfl
  | str hholes =>
    have hnone := Literal.hasHole_eq_false_iff.2 hholes
    simp [isStatic, nodes, isStaticNode, hnone]
  | binary _ _ ihleft ihright =>
    exact isStatic_iff_parts.2 ⟨rfl, by simp [parts, ihleft, ihright]⟩
  | unary _ ih => exact isStatic_iff_parts.2 ⟨rfl, by simp [parts, ih]⟩
  | conditional _ _ _ ihcondition ihthen ihelse =>
    exact isStatic_iff_parts.2 ⟨rfl, by simp [parts, ihcondition, ihthen, ihelse]⟩
  | array _ ih => exact isStatic_iff_parts.2 ⟨rfl, ih⟩
  | fill _ _ ihvalue ihcount =>
    exact isStatic_iff_parts.2 ⟨rfl, by simp [parts, ihvalue, ihcount]⟩
  | record _ ih => exact isStatic_iff_parts.2 ⟨rfl, List.forall_mem_map.2 ih⟩
  | select _ _ _ _ ihsubject ihpatterns ihbodies ihotherwise =>
    refine isStatic_iff_parts.2 ⟨rfl, fun part hpart => ?_⟩
    simp only [parts, List.cons_append, List.mem_append, List.mem_cons, List.mem_flatMap,
      Option.mem_toList] at hpart
    rcases hpart with rfl | ⟨arm, harm, rfl | hpattern⟩ | hotherwise
    · exact ihsubject
    · exact ihbodies arm harm
    · exact ihpatterns arm harm part hpattern
    · exact ihotherwise part hotherwise

/-! ## Reads

A node reads something, or runs something, or is static by itself.  Reading is collected from all
nodes, so an expression without reads and without nodes that run has only static nodes. -/

/-- A node that takes a run of the program to compute, whether it reads a variable or not. -/
inductive Runs : Expr → Prop where
  /-- There is an expression in the literal. -/
  | str {raw : String} {source : List Char} : .hole source ∈ Literal.pieces raw → Runs (.str raw)
  | trailing (op : String) (operand : Expr) : Runs (.trailing op operand)
  | call (call : Call Expr) : Runs (.call call)
  | member (object : Expr) (field : String) : Runs (.member object field)
  | index (base position : Expr) : Runs (.index base position)
  | construct (component : String) (args : List (Arg Expr)) : Runs (.construct component args)
  | reference (operand : Expr) : Runs (.reference operand)
  | move (operand : Expr) : Runs (.move operand)

/-- A node by itself is static unless it is a variable or runs. -/
theorem isStaticNode_iff :
    node.isStaticNode = true ↔ (∀ name, node ≠ .ident name) ∧ ¬node.Runs := by
  constructor
  · intro h
    constructor
    · rintro name rfl
      cases h
    · intro hruns
      cases hruns with
      | str hmem =>
        have hnone := Literal.hasHole_eq_false_iff.1 (by simpa [isStaticNode] using h)
        exact hnone _ hmem
      | trailing | call | member | index | construct | reference | move => cases h
  · rintro ⟨hident, hruns⟩
    cases node with
    | int _ | float _ | bool _ | enumValue _ | binary _ _ _ | unary _ _ | conditional _ _ _
    | array _ | fill _ _ | record _ | select _ => rfl
    | str raw =>
      have hnone : Literal.hasHole raw = false :=
        Literal.hasHole_eq_false_iff.2 fun source hmem => hruns (.str hmem)
      simp [isStaticNode, hnone]
    | ident name => exact absurd rfl (hident name)
    | trailing op operand => exact absurd (.trailing op operand) hruns
    | call call => exact absurd (.call call) hruns
    | member object field => exact absurd (.member object field) hruns
    | index base position => exact absurd (.index base position) hruns
    | construct component args => exact absurd (.construct component args) hruns
    | reference operand => exact absurd (.reference operand) hruns
    | move operand => exact absurd (.move operand) hruns

theorem holes_eq_nil_of_hasHole_eq_false {raw : String} (h : Literal.hasHole raw = false) :
    holes raw = [] := by
  rw [Literal.hasHole, List.any_eq_false] at h
  rw [holes, List.filter_eq_nil_iff.2 h, List.map_nil]

/-- A node that is static by itself reads neither a name nor a member. -/
theorem own_eq_nil_of_isStaticNode (h : node.isStaticNode = true) :
    node.ownNames = [] ∧ node.ownMembers = [] := by
  cases node with
  | str raw =>
    have hholes : holes raw = [] :=
      holes_eq_nil_of_hasHole_eq_false (by simpa [isStaticNode] using h)
    rw [ownNames, ownMembers, hholes]
    exact ⟨rfl, rfl⟩
  | int _ | float _ | bool _ | enumValue _ | binary _ _ _ | unary _ _ | conditional _ _ _
  | array _ | fill _ _ | record _ | select _ => exact ⟨rfl, rfl⟩
  | ident _ | trailing _ _ | call _ | member _ _ | index _ _ | construct _ _ | reference _
  | move _ => cases h

/-- Nothing is read in an expression all of whose nodes are static. -/
theorem reads_eq_empty_of_isStatic (h : e.isStatic = true) : e.names = ∅ ∧ e.members = ∅ := by
  have hown : ∀ node ∈ e.nodes, node.ownNames = [] ∧ node.ownMembers = [] :=
    fun node hnode => own_eq_nil_of_isStaticNode (List.all_eq_true.1 h node hnode)
  have hnames : e.nodes.flatMap ownNames = [] :=
    List.flatMap_eq_nil_iff.2 fun node hnode => (hown node hnode).1
  have hmembers : e.nodes.flatMap ownMembers = [] :=
    List.flatMap_eq_nil_iff.2 fun node hnode => (hown node hnode).2
  rw [names, hnames, members, hmembers]
  exact ⟨rfl, rfl⟩

/-- A variable in an expression is read. -/
theorem mem_names_of_ident {name : String} (h : .ident name ∈ e.nodes) : name ∈ e.names := by
  rw [names, NameSet.mem_ofNames, List.mem_flatMap]
  exact ⟨.ident name, h, List.mem_cons_self⟩

/-- **Static expressions read nothing.**  An expression is static exactly if it is put together from
literals.  These are the expressions that read neither names nor members and have no node in them
that runs. -/
theorem isStatic_iff_reads_nothing (e : Expr) :
    (e.isStatic = true ↔ e.IsConstant) ∧
      (e.isStatic = true ↔ (e.names = ∅ ∧ e.members = ∅) ∧ ∀ node ∈ e.nodes, ¬node.Runs) := by
  refine ⟨⟨isConstant_of_isStatic, isStatic_of_isConstant⟩, fun h => ?_, ?_⟩
  · refine ⟨reads_eq_empty_of_isStatic h, fun node hnode => ?_⟩
    exact (isStaticNode_iff.1 (List.all_eq_true.1 h node hnode)).2
  · rintro ⟨⟨hnames, -⟩, hruns⟩
    refine List.all_eq_true.2 fun node hnode => isStaticNode_iff.2 ⟨?_, hruns node hnode⟩
    rintro name rfl
    exact Std.ExtTreeSet.not_mem_empty (hnames ▸ mem_names_of_ident hnode)

end Expr

end UiLowering
