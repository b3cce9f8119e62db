import UiLowering.View.Plan

/-!
# Running a plan

What a plan does to a rendered collection, without the text it is written as.  A `ViewState` keeps
of the collection what the steps look at: for each stored slot whether a view is registered for it,
the live count, whether the parent element exists, and how deep rendering is nested.  Running a step
changes the state and leaves a list of events, each with what it found: a slot that is dropped comes
with the mark of its view, and so does a slot that a view is created for.  Nothing is refused here;
whether a run is sound is read off its events.

The text of a value does not say how many elements it has, so a run takes the size of the assigned
collection from the write that it performs.
-/

set_option autoImplicit false

namespace UiLowering

/-- A rendered collection.  `oldCount` and `newest` are the variables of an append. -/
structure ViewState where
  /-- For each stored slot, whether a view is registered for it. -/
  views : List Bool
  count : Nat
  attached : Bool
  depth : Int
  oldCount : Nat
  newest : Option Nat
deriving DecidableEq

/-- What a step does to a slot, to the count or to the view. -/
inductive ViewEvent where
  | pushed (slot : Nat)
  | rebound (slot : Nat)
  | created (slot : Nat) (hadView : Bool)
  | unregistered (slot : Nat)
  | dropped (slot : Nat) (hadView : Bool)
  | decremented (count : Nat)
  | parentReset
  | flushed
  | written
  | relocated
deriving DecidableEq

namespace ViewState

/-- Creates the view of one slot. -/
def create (s : ViewState) (slot : Nat) : ViewState × List ViewEvent :=
  ({ s with views := s.views.set slot true }, [.created slot (s.views.getD slot false)])

/-- Creates the views of all slots, from the first to the last. -/
def createAll (s : ViewState) : ViewState × List ViewEvent :=
  ({ s with views := s.views.map fun _ => true },
    s.views.zipIdx.map fun (hadView, slot) => .created slot hadView)

/-- Takes the last slot out of the view. -/
def unregisterLast (s : ViewState) : ViewState × List ViewEvent :=
  ({ s with views := s.views.set (s.views.length - 1) false },
    [.unregistered (s.views.length - 1)])

/-- Takes all slots out of the view. -/
def unregisterAll (s : ViewState) : ViewState × List ViewEvent :=
  ({ s with views := s.views.map fun _ => false },
    (List.range s.views.length).map .unregistered)

/-- Drops the last slot, if there is one. -/
def dropLast (s : ViewState) : ViewState × List ViewEvent :=
  ({ s with views := s.views.dropLast },
    (s.views.getLast?.map fun hadView => .dropped (s.views.length - 1) hadView).toList)

/-- Drops all slots and stores `size` new ones, which have no view yet. -/
def replaceAll (s : ViewState) (size : Nat) : ViewState × List ViewEvent :=
  ({ s with views := List.replicate size false },
    s.views.zipIdx.map fun (hadView, slot) => .dropped slot hadView)

end ViewState

namespace ViewStep

mutual

/-- Runs a step; `size` is the number of elements of an assigned collection. -/
@[simp]
def exec (size : Nat) (s : ViewState) : ViewStep → ViewState × List ViewEvent
  | .scope body => execAll size s body
  | .ifAttached body => if s.attached then execAll size s body else (s, [])
  | .ifNonEmpty body => if s.views.isEmpty then (s, []) else execAll size s body
  | .ifRendered body => if 0 < s.count then execAll size s body else (s, [])
  | .saveOldCount => ({ s with oldCount := s.views.length }, [])
  | .append _ => ({ s with views := s.views ++ [false] }, [.pushed s.views.length])
  | .rebindExisting => (s, (List.range s.oldCount).map .rebound)
  | .bindNewest =>
    ({ s with newest := if s.views.isEmpty then none else some (s.views.length - 1) }, [])
  | .createItem =>
    match s.newest with
    | some slot => s.create slot
    | none => (s, [])
  | .incrementCount => ({ s with count := s.count + 1 }, [])
  | .decrementCount => ({ s with count := s.count - 1 }, [.decremented s.count])
  | .removeLastView _ => s.unregisterLast
  | .shrinkByOne => s.dropLast
  | .teardownAll _ => s.unregisterAll
  | .resetParentContent => (s, [.parentReset])
  | .resetCount => ({ s with count := 0 }, [])
  | .clearStorage => s.replaceAll 0
  | .assign _ => s.replaceAll size
  | .countFromSize => ({ s with count := s.views.length }, [])
  | .enterRender => ({ s with depth := s.depth + 1 }, [])
  | .createEach => s.createAll
  | .exitRenderAndFlush =>
    ({ s with depth := s.depth - 1 }, if s.depth - 1 = 0 then [.flushed] else [])
  | .writeElement .. => (s, [.written])
  | .relocateNode _ => (s, [.relocated])

/-- Runs several steps, one after the other. -/
@[simp]
def execAll (size : Nat) (s : ViewState) : List ViewStep → ViewState × List ViewEvent
  | [] => (s, [])
  | step :: steps =>
    let first := exec size s step
    let rest := execAll size first.1 steps
    (rest.1, first.2 ++ rest.2)

end

end ViewStep

/-- A write to a bound collection.  An assignment comes with the size of what is assigned. -/
inductive CollectionWrite where
  | append (item : String)
  | removeLast
  | clear
  | reassign (value : String) (size : Nat)
  | indexWrite (index value : String) (compoundOp : Option String)

namespace CollectionWrite

/-- The plan of a write. -/
def plan (info : BoundCollection) : CollectionWrite → ViewPlan
  | .append item => BoundCollection.appendPlan item
  | .removeLast => info.removeLastPlan
  | .clear => info.clearPlan
  | .reassign value _ => info.reassignPlan value
  | .indexWrite index value compoundOp => BoundCollection.indexWritePlan index value compoundOp

/-- The number of elements that a write assigns. -/
def size : CollectionWrite → Nat
  | .reassign _ size => size
  | _ => 0

/-- Runs the plan of a write. -/
def perform (info : BoundCollection) (s : ViewState) (write : CollectionWrite) :
    ViewState × List ViewEvent :=
  ViewStep.execAll write.size s (write.plan info)

/-- The state after several writes. -/
def run (info : BoundCollection) (s : ViewState) : List CollectionWrite → ViewState
  | [] => s
  | write :: writes => run info (write.perform info s).1 writes

end CollectionWrite

end UiLowering
