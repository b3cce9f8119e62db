import UiLowering.Json.Fields
import UiLowering.View.Collection

/-!
# Bound collections in JSON
-/

set_option autoImplicit false

namespace UiLowering

/-- A bound collection as JSON. -/
def BoundCollection.toJson (info : BoundCollection) : Json :=
  .obj [("loopId", .nat info.loopId.toNat), ("parentRef", .ofOption .str info.parentRef),
    ("itemVar", .str info.itemVar), ("itemCreationCode", .str info.creationCode),
    ("isOnlyChild", .bool info.isOnlyChild), ("byReference", .bool info.byReference)]

/-- The bound collections of a component as JSON. -/
def LoopTable.toJson (loops : LoopTable) : Json :=
  .obj (loops.toList.map fun (name, info) => (name, info.toJson))

section

open Fields Json

/-- Reads a bound collection. -/
def BoundCollection.ofJson? : Json → Option BoundCollection := record? do
  let loopId ← required "loopId" uint32?
  let parentRef ← optional "parentRef" str?
  let itemVar ← required "itemVar" str?
  let creationCode ← required "itemCreationCode" str?
  let isOnlyChild ← defaulted "isOnlyChild" false bool?
  let byReference ← defaulted "byReference" true bool?
  return ⟨loopId, parentRef, itemVar, creationCode, isOnlyChild, byReference⟩

/-- Reads the bound collections of a component. -/
def LoopTable.ofJson? (json : Json) : Option LoopTable :=
  (entries? BoundCollection.ofJson? json).map NameMap.ofEntries

end

end UiLowering
