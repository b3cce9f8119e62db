import UiLowering.Component.Basic
import UiLowering.Proofs.Source.Parts

/-!
# Trees that were built

An operation keeps the mark that says whether it is a text chain, and `Expr.binaryOf` sets it.  A
tree is *built* if every operation in it bears the mark that `binaryOf` gives to its operands.  What
a mark means is known of built trees only: there, and only there, it says what the left operand is.
-/

set_option autoImplicit false

namespace UiLowering

namespace Expr

/-! ## Expressions

A tree can be made with any marks, for the constructor does not check them.  `IsBuilt` asks all
nodes and not only the root, since the mark of an operation depends on that of its left operand.  It
is proved and used part by part (`isBuilt_iff_parts`). -/

/-- The mark of an operation is the one that it gets when it is built. -/
def BearsMark : Expr → Prop
  | .binary left op _ chain => chain = (op == "+" && left.isText)
  | _ => True

/-- Every operation in an expression bears its mark. -/
def IsBuilt (e : Expr) : Prop := Each BearsMark e.nodes

/-- No double stands in an expression. -/
def IsFloatless (e : Expr) : Prop := ∀ value, .float value ∉ e.nodes

/-- An expression that is known from its parts, its names and its numbers alone. -/
structure IsPlain (e : Expr) : Prop where
  isBuilt : e.IsBuilt
  isFloatless : e.IsFloatless

variable {e part : Expr}

theorem IsBuilt.bearsMark (h : e.IsBuilt) : e.BearsMark := h e e.mem_nodes_self

theorem IsBuilt.of_mem_parts (h : e.IsBuilt) (hpart : part ∈ e.parts) : part.IsBuilt :=
  fun node hnode => h node (mem_nodes_iff.2 (.inr ⟨part, hpart, hnode⟩))

/-- A tree is built if its parts are and its root bears its mark. -/
theorem isBuilt_iff_parts : e.IsBuilt ↔ e.BearsMark ∧ ∀ part ∈ e.parts, part.IsBuilt := by
  refine ⟨fun h => ⟨h.bearsMark, fun part => h.of_mem_parts⟩, fun ⟨hmark, hparts⟩ node hnode => ?_⟩
  rcases mem_nodes_iff.1 hnode with rfl | ⟨part, hpart, hnode⟩
  · exact hmark
  · exact hparts part hpart node hnode

theorem IsFloatless.of_mem_parts (h : e.IsFloatless) (hpart : part ∈ e.parts) : part.IsFloatless :=
  fun value hvalue => h value (mem_nodes_iff.2 (.inr ⟨part, hpart, hvalue⟩))

theorem IsPlain.of_mem_parts (h : e.IsPlain) (hpart : part ∈ e.parts) : part.IsPlain :=
  ⟨h.isBuilt.of_mem_parts hpart, h.isFloatless.of_mem_parts hpart⟩

theorem IsPlain.ne_float (h : e.IsPlain) (value : Float) : e ≠ .float value := by
  rintro rfl
  exact h.isFloatless value (mem_nodes_self _)

theorem binary_eq_binaryOf {left right : Expr} {op : String} {chain : Bool}
    (h : (Expr.binary left op right chain).BearsMark) :
    Expr.binary left op right chain = .binaryOf left op right := by
  rw [binaryOf, ← h]

end Expr

/-! ## Statements and definitions

The expressions of a larger tree are gathered from everything inside it, so that a property of all
its expressions is handed down to each statement and each definition in it. -/

/-- The expressions of a statement and of the statements inside it. -/
def Stmt.allExpressions (stmt : Stmt) : List Expr := stmt.nodes.flatMap expressions

/-- The expressions in the body of a method. -/
def Method.allExpressions (method : Method) : List Expr :=
  method.body.flatMap Stmt.allExpressions

/-- The expressions of a component: the defaults of its parameters, the first values of its state
and what stands in its methods. -/
def Component.allExpressions (component : Component) : List Expr :=
  component.params.flatMap (·.defaultValue.toList) ++
    component.state.flatMap (·.initializer.toList) ++
    component.methods.flatMap Method.allExpressions

end UiLowering
