import UiLowering.Names

/-!
# Bound collections

A collection is bound if a loop of the view renders one item for each of its elements.
-/

set_option autoImplicit false

namespace UiLowering

/-- What the view knows about a bound collection. -/
structure BoundCollection where
  loopId : UInt32
  parentRef : Option String
  itemVar : String
  /-- The code that renders the item in `itemVar`. -/
  creationCode : String
  /-- Whether the items are all that the parent element holds. -/
  isOnlyChild : Bool
  /-- Whether the variable of the loop is the element itself and not a copy. -/
  byReference : Bool

namespace BoundCollection

/-- The variable that holds the parent element. -/
def parent (info : BoundCollection) : String :=
  info.parentRef.getD ("_loop_" ++ toString info.loopId.toNat ++ "_parent")

/-- The variable that holds the number of rendered items. -/
def countVar (info : BoundCollection) : String :=
  "_loop_" ++ toString info.loopId.toNat ++ "_count"

/-- A collection whose items are rendered by reference among other children. -/
def ofLoop (loopId : UInt32) (itemVar creationCode : String) : BoundCollection :=
  ⟨loopId, none, itemVar, creationCode, false, true⟩

end BoundCollection

/-- The bound collections of a component by their variables. -/
abbrev LoopTable := NameMap BoundCollection

end UiLowering
