/-!
# Shortcuts of texts and collections

The common methods of texts and of collections are lowered by fixed templates, whether or not a
schema describes them.
-/

set_option autoImplicit false

namespace UiLowering

/-- The kinds of values whose methods have shortcuts. -/
inductive Family where
  | text
  | collection

/-- A method with a fixed template. -/
structure Shortcut where
  method : String
  arity : Nat
  template : String
  /-- Whether a call changes the contents of the receiver. -/
  mutates : Bool

namespace Shortcut

/-- The shortcuts of texts. -/
def texts : List Shortcut :=
  [⟨"length", 0, "(int32_t)$\x7bthis\x7d.length()", false⟩,
    ⟨"at", 1, "$\x7bthis\x7d.at($\x7b0\x7d)", false⟩,
    ⟨"substr", 2, "$\x7bthis\x7d.substr($\x7b0\x7d, $\x7b1\x7d)", false⟩,
    ⟨"contains", 1, "$\x7bthis\x7d.contains($\x7b0\x7d)", false⟩,
    ⟨"isEmpty", 0, "$\x7bthis\x7d.empty()", false⟩]

/-- The shortcuts of collections. -/
def collections : List Shortcut :=
  [⟨"length", 0, "(int32_t)$\x7bthis\x7d.size()", false⟩,
    ⟨"size", 0, "(int32_t)$\x7bthis\x7d.size()", false⟩,
    ⟨"at", 1, "$\x7bthis\x7d.at($\x7b0\x7d)", false⟩,
    ⟨"contains", 1, "$\x7bthis\x7d.contains($\x7b0\x7d)", false⟩,
    ⟨"isEmpty", 0, "$\x7bthis\x7d.empty()", false⟩,
    ⟨"push", 1, "$\x7bthis\x7d.push_back($\x7b0\x7d)", true⟩,
    ⟨"pop", 0, "$\x7bthis\x7d.pop_back()", true⟩,
    ⟨"clear", 0, "$\x7bthis\x7d.clear()", true⟩]

/-- The shortcuts of a family. -/
def table : Family → List Shortcut
  | .text => texts
  | .collection => collections

/-- The shortcut of a method with the given number of arguments. -/
def find? (family : Family) (method : String) (arity : Nat) : Option Shortcut :=
  (table family).find? fun shortcut => shortcut.method == method && shortcut.arity == arity

end Shortcut

/-- The names under which a schema describes the methods of texts and of arrays. -/
def Family.typeName : Family → String
  | .text => "string"
  | .collection => "array"

end UiLowering
