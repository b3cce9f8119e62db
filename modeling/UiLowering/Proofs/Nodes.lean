import UiLowering.Source.ElementType
import UiLowering.Source.Nodes
import UiLowering.Source.Stmt

/-!
# Properties of all nodes of a tree

A property of all nodes is one of the node in front and of the nodes of each part, so that a proof
by induction on the tree hands it down along the lists of nodes.  An expected type changes the type
names of literals and nothing else (`Expr.each_withExpectedTypes`).
-/

set_option autoImplicit false

namespace UiLowering

/-- All nodes in a list have a property. -/
def Each {α : Type} (P : α → Prop) (nodes : List α) : Prop := ∀ node ∈ nodes, P node

namespace Each

variable {α : Type} {P : α → Prop} {x : α} {xs ys : List α}

theorem head (h : Each P (x :: xs)) : P x := h x List.mem_cons_self

theorem tail (h : Each P (x :: xs)) : Each P xs :=
  fun node hnode => h node (List.mem_cons_of_mem x hnode)

theorem left (h : Each P (xs ++ ys)) : Each P xs :=
  fun node hnode => h node (List.mem_append_left ys hnode)

theorem right (h : Each P (xs ++ ys)) : Each P ys :=
  fun node hnode => h node (List.mem_append_right xs hnode)

end Each

/-! ## Expected types

A literal hands its expected type down to the literals in it, before it is lowered.  Proofs by
induction on the tree therefore meet elements that are not parts of the node itself.  `KeptByTypes`
names what a property has to satisfy so that this makes no difference. -/

namespace Expr

theorem nodes_eq_cons (e : Expr) : e.nodes = e :: e.nodes.tail := by
  cases e <;> simp [nodes]

/-- A property of nodes that a literal keeps if it gets the name of a type with the property
`T`. -/
structure KeptByTypes (T : String → Prop) (P : Expr → Prop) : Prop where
  record : ∀ {fields : List (FieldInit Expr)} {name : String}, T name →
    P (.record ⟨none, fields⟩) → P (.record ⟨some name, fields⟩)
  array : ∀ {elements typed : List Expr} {elementType inner : Option String},
    P (.array ⟨elements, elementType⟩) → P (.array ⟨typed, inner⟩)
  inner : ∀ {name inner : String}, T name → Text.dropEnd? "[]" name = some inner → T inner

variable {T : String → Prop} {P : Expr → Prop}

mutual

theorem each_withExpectedType (hkept : KeptByTypes T P) {typeName : String} (htype : T typeName) :
    (e : Expr) → Each P e.nodes → Each P (e.withExpectedType typeName).nodes
  | .record ⟨none, fields⟩, h => by
    rw [nodes] at h
    rw [withExpectedType, nodes]
    exact List.forall_mem_cons.2 ⟨hkept.record htype h.head, h.tail⟩
  | .array ⟨elements, elementType⟩, h => by
    rw [withExpectedType]
    split
    · rename_i inner hinner
      rw [nodes] at h
      rw [nodes]
      have helements := each_withExpectedTypes hkept (hkept.inner htype hinner) elements h.tail
      exact List.forall_mem_cons.2 ⟨hkept.array h.head, helements⟩
    · exact h
  | .record ⟨some _, _⟩, h | .int _, h | .float _, h | .bool _, h | .str _, h | .ident _, h
  | .binary .., h | .unary .., h | .trailing .., h | .conditional .., h | .call _, h
  | .member .., h | .index .., h | .fill .., h | .enumValue _, h | .construct .., h
  | .select _, h | .reference _, h | .move _, h => h

/-- What all nodes of the elements of an array have, they have with an expected type too. -/
theorem each_withExpectedTypes (hkept : KeptByTypes T P) {typeName : String}
    (htype : T typeName) :
    (es : List Expr) → Each P (listNodes es) → Each P (listNodes (withExpectedTypes typeName es))
  | [], h => h
  | e :: es, h => by
    rw [listNodes] at h
    rw [withExpectedTypes, listNodes]
    exact List.forall_mem_append.2 ⟨each_withExpectedType hkept htype e h.left,
      each_withExpectedTypes hkept htype es h.right⟩

end

end Expr

/-! ## Statements

The nodes of a statement are the statement and the nodes of the statements in it.  Only the kinds
that `Stmt.leafCases` names can be without inner ones. -/

namespace Stmt

theorem mem_nodes_self (stmt : Stmt) : stmt ∈ stmt.nodes := by
  cases stmt <;> simp [nodes]

theorem mem_listNodes_of_mem {stmts : List Stmt} {stmt node : Stmt} (hstmt : stmt ∈ stmts)
    (hnode : node ∈ stmt.nodes) : node ∈ listNodes stmts := by
  induction stmts with
  | nil => cases hstmt
  | cons first stmts ih =>
    rw [listNodes, List.mem_append]
    rcases List.mem_cons.1 hstmt with rfl | hrest
    · exact .inl hnode
    · exact .inr (ih hrest)

theorem nodes_ne_nil (stmt : Stmt) : stmt.nodes ≠ [] := by
  cases stmt <;> simp [nodes]

/-- The kinds of statements that contain no others. -/
@[elab_as_elim]
theorem leafCases {motive : (stmt : Stmt) → stmt.nodes = [stmt] → Prop}
    (declare : ∀ decl h, motive (.declare decl) h) (assign : ∀ a h, motive (.assign a) h)
    (assignIndex : ∀ a h, motive (.assignIndex a) h)
    (assignMember : ∀ a h, motive (.assignMember a) h) (ret : ∀ value h, motive (.ret value) h)
    (evaluate : ∀ e h, motive (.evaluate e) h) (emptyBlock : ∀ h, motive (.block []) h)
    (stmt : Stmt) (hleaf : stmt.nodes = [stmt]) : motive stmt hleaf := by
  cases stmt with
  | declare decl => exact declare decl hleaf
  | assign a => exact assign a hleaf
  | assignIndex a => exact assignIndex a hleaf
  | assignMember a => exact assignMember a hleaf
  | ret value => exact ret value hleaf
  | evaluate e => exact evaluate e hleaf
  | block body =>
    cases body with
    | nil => exact emptyBlock hleaf
    | cons first rest => simp [nodes, listNodes, nodes_ne_nil] at hleaf
  | branch condition thenBranch elseBranch => simp [nodes, nodes_ne_nil] at hleaf
  | forRange counter first limit body => simp [nodes, nodes_ne_nil] at hleaf
  | forEach item items body => simp [nodes, nodes_ne_nil] at hleaf

end Stmt

end UiLowering
