import UiLowering.Source.Expr

/-!
# The element type of an array literal

A declaration with an array type gives its literal the type of the elements.  From there it passes
into the elements: a record without a type takes it, and an inner array takes the type of its own
elements from it, if there is one.
-/

set_option autoImplicit false

namespace UiLowering

namespace Expr

mutual

/-- An element of an array whose elements have the given type. -/
def withExpectedType (typeName : String) : Expr → Expr
  | .record ⟨none, fields⟩ => .record ⟨some typeName, fields⟩
  | .array ⟨elements, elementType⟩ =>
    match Text.dropEnd? "[]" typeName with
    | some inner => .array ⟨withExpectedTypes inner elements, some inner⟩
    | none => .array ⟨elements, elementType⟩
  | e => e

/-- The elements of an array whose elements have the given type. -/
def withExpectedTypes (typeName : String) : List Expr → List Expr
  | [] => []
  | e :: es => e.withExpectedType typeName :: withExpectedTypes typeName es

end

end Expr

/-- An array literal whose elements have the given type. -/
def ArrayLit.withElementType (literal : ArrayLit Expr) (typeName : String) : ArrayLit Expr :=
  ⟨Expr.withExpectedTypes typeName literal.elements, some typeName⟩

end UiLowering
