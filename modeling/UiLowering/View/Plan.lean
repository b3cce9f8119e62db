import UiLowering.View.Collection

/-!
# Plans for writes to bound collections

A write to a bound collection has to keep the view in step with the data.  It is first laid down as
a plan, a list of steps, and then written as target text.

An append may move the elements in memory, which breaks the reference every rendered item holds to
itself, so the old items are bound again before the new one is created.  An assignment of a whole
collection takes the old items out of the view while their data can still be reached.  A write to a
single element moves its node and renders nothing anew.
-/

set_option autoImplicit false

namespace UiLowering

/-- A step of a plan. -/
inductive ViewStep where
  | scope (body : List ViewStep)
  | ifAttached (body : List ViewStep)
  | ifNonEmpty (body : List ViewStep)
  | ifRendered (body : List ViewStep)
  | saveOldCount
  | append (item : String)
  | rebindExisting
  | bindNewest
  | createItem
  | incrementCount
  | decrementCount
  | removeLastView (keepDom : Bool)
  | shrinkByOne
  /-- Takes all items out of the view; with `bulk` only their bindings, the elements go with the
  content of the parent. -/
  | teardownAll (bulk : Bool)
  | resetParentContent
  | resetCount
  | clearStorage
  | assign (value : String)
  | countFromSize
  | enterRender
  | createEach
  | exitRenderAndFlush
  | writeElement (index value : String) (compoundOp : Option String)
  | relocateNode (index : String)

/-- A plan. -/
abbrev ViewPlan := List ViewStep

namespace BoundCollection

/-- Takes all items out of the view. -/
def teardown (info : BoundCollection) : ViewPlan :=
  .teardownAll info.isOnlyChild :: if info.isOnlyChild then [.resetParentContent] else []

/-- Appends an item. -/
def appendPlan (item : String) : ViewPlan :=
  [.scope
    [.saveOldCount, .append item,
      .ifAttached [.rebindExisting, .bindNewest, .createItem, .incrementCount]]]

/-- Removes the last item, if there is one. -/
def removeLastPlan (info : BoundCollection) : ViewPlan :=
  [.ifNonEmpty
    [.removeLastView info.isOnlyChild, .shrinkByOne, .ifAttached [.decrementCount]]]

/-- Removes all items. -/
def clearPlan (info : BoundCollection) : ViewPlan :=
  info.teardown ++ [.resetCount, .clearStorage]

/-- Assigns a whole collection. -/
def reassignPlan (info : BoundCollection) (value : String) : ViewPlan :=
  [.ifRendered info.teardown, .assign value, .countFromSize, .enterRender, .createEach,
    .exitRenderAndFlush]

/-- Writes an element. -/
def indexWritePlan (index value : String) (compoundOp : Option String) : ViewPlan :=
  [.writeElement index value compoundOp, .relocateNode index]

end BoundCollection

end UiLowering
