import UiLowering.Proofs.View.Exec

/-!
# The view of an attached collection stays in step

While the parent element exists, a bound collection is *rendered*: every stored slot has a view, and
the live count is the number of slots.  What a write does to a rendered collection depends only on
the number of its slots.  Two tables say what it does: `slotsAfter` how many slots there are
afterwards, and `trace` which events there are on the way, in their order.  Running the plan of a
write gives exactly what the tables say (`perform_rendered`), and that nothing unsound happens is
read off the second one.

The guards of the plans are not independent of the invariant.  An assignment takes the old items out
of the view only if the count is not zero.  That is enough because a count of zero means that there
are no slots at all.
-/

set_option autoImplicit false

namespace UiLowering

/-- A collection whose parent element exists and whose slots all have a view. -/
structure ViewState.Rendered (s : ViewState) : Prop where
  attached : s.attached = true
  views : ∀ hasView ∈ s.views, hasView = true
  count : s.count = s.views.length

/-- What no run may leave behind: a slot that is dropped, or rendered anew, while its view is still
registered, or a count that falls below zero. -/
def ViewEvent.IsSound : ViewEvent → Prop
  | .created _ hadView => hadView = false
  | .dropped _ hadView => hadView = false
  | .decremented count => 0 < count
  | _ => True

/-- Taking `slots` items out of the view.  Items that are all that the parent holds leave it by
clearing its content. -/
def BoundCollection.teardownTrace (info : BoundCollection) (slots : Nat) : List ViewEvent :=
  (List.range slots).map .unregistered ++ if info.isOnlyChild then [.parentReset] else []

namespace CollectionWrite

open ViewStep

/-! ## What a write is to do

The two tables are written down without the plans.  In both of them the view that a slot had, where
it is dropped or rendered, is already gone. -/

/-- The number of slots behind a write to a collection with `slots` slots. -/
def slotsAfter (slots : Nat) : CollectionWrite → Nat
  | .append _ => slots + 1
  | .removeLast => slots - 1
  | .clear => 0
  | .reassign _ size => size
  | .indexWrite .. => slots

/-- The events of a write to a rendered collection with `slots` slots, in their order. -/
def trace (info : BoundCollection) (slots : Nat) (depth : Int) :
    CollectionWrite → List ViewEvent
  | .append _ => .pushed slots :: ((List.range slots).map .rebound ++ [.created slots false])
  | .removeLast =>
    if slots = 0 then []
    else [.unregistered (slots - 1), .dropped (slots - 1) false, .decremented slots]
  | .clear => info.teardownTrace slots ++ (List.range slots).map (.dropped · false)
  | .reassign _ size =>
    (if slots = 0 then [] else info.teardownTrace slots) ++
      ((List.range slots).map (.dropped · false) ++
        ((List.range size).map (.created · false) ++ if depth = 0 then [.flushed] else []))
  | .indexWrite .. => [.written, .relocated]

variable (info : BoundCollection) {s : ViewState}

/-- Items that are taken out of the view leave nothing unsound behind. -/
theorem isSound_teardownTrace (slots : Nat) :
    ∀ event ∈ info.teardownTrace slots, event.IsSound := by
  refine List.forall_mem_append.2 ⟨List.forall_mem_map.2 fun _ _ => trivial, ?_⟩
  split
  · exact List.forall_mem_singleton.2 trivial
  · exact List.forall_mem_nil _

/-- A slot is dropped soundly if it has no view any more. -/
theorem isSound_dropped (slots : Nat) :
    ∀ event ∈ (List.range slots).map (ViewEvent.dropped · false), event.IsSound :=
  List.forall_mem_map.2 fun _ _ => rfl

/-- Nothing in the table is unsound. -/
theorem isSound_trace (write : CollectionWrite) (slots : Nat) (depth : Int) :
    ∀ event ∈ write.trace info slots depth, event.IsSound := by
  cases write with
  | append item =>
    refine List.forall_mem_cons.2 ⟨trivial, List.forall_mem_append.2 ⟨?_, ?_⟩⟩
    · exact List.forall_mem_map.2 fun _ _ => trivial
    · exact List.forall_mem_singleton.2 rfl
  | removeLast =>
    rw [trace]
    split
    · exact List.forall_mem_nil _
    · rename_i hslots
      refine List.forall_mem_cons.2 ⟨trivial, List.forall_mem_cons.2 ⟨rfl, ?_⟩⟩
      exact List.forall_mem_singleton.2 (Nat.pos_of_ne_zero hslots)
  | clear =>
    exact List.forall_mem_append.2 ⟨isSound_teardownTrace info slots, isSound_dropped slots⟩
  | reassign value size =>
    refine List.forall_mem_append.2 ⟨?_, List.forall_mem_append.2 ⟨isSound_dropped slots,
      List.forall_mem_append.2 ⟨List.forall_mem_map.2 fun _ _ => rfl, ?_⟩⟩⟩
    · split
      · exact List.forall_mem_nil _
      · exact isSound_teardownTrace info slots
    · split
      · exact List.forall_mem_singleton.2 trivial
      · exact List.forall_mem_nil _
  | indexWrite index value compoundOp =>
    exact List.forall_mem_cons.2 ⟨trivial, List.forall_mem_singleton.2 trivial⟩

/-- Each old slot is bound again between the push and the creation of the new view. -/
theorem sublist_trace_append (item : String) {slots old : Nat} (depth : Int) (h : old < slots) :
    List.Sublist [.pushed slots, .rebound old, .created slots false]
      ((append item).trace info slots depth) := by
  have hrebound : List.Sublist [ViewEvent.rebound old] ((List.range slots).map .rebound) :=
    List.singleton_sublist.2 (List.mem_map_of_mem (List.mem_range.2 h))
  exact (hrebound.append (List.Sublist.refl [ViewEvent.created slots false])).cons_cons _

/-! ## One write at a time

Each plan is run once, from any state in which its guards are known.  An assignment is the only one
whose guard is decided by the invariant and not by the state alone. -/

theorem perform_append (item : String) (h : s.attached = true) :
    (append item).perform info s =
      ({ s with
          views := s.views ++ [true], count := s.count + 1, oldCount := s.views.length,
          newest := some s.views.length },
        (append item).trace info s.views.length s.depth) := by
  simp [perform, plan, size, trace, BoundCollection.appendPlan, ViewState.create, h]

theorem perform_removeLast_nil (h : s.views = []) : removeLast.perform info s = (s, []) := by
  simp [perform, plan, size, BoundCollection.removeLastPlan, h]

theorem perform_removeLast_concat {views : List Bool} {last : Bool} (hs : s.attached = true)
    (h : s.views = views ++ [last]) :
    removeLast.perform info s =
      ({ s with views := views, count := s.count - 1 },
        [.unregistered views.length, .dropped views.length false, .decremented s.count]) := by
  simp [perform, plan, size, BoundCollection.removeLastPlan, ViewState.unregisterLast,
    ViewState.dropLast, h, hs]

theorem execAll_append (size : Nat) (first second : List ViewStep) :
    execAll size s (first ++ second) =
      ((execAll size (execAll size s first).1 second).1,
        (execAll size s first).2 ++ (execAll size (execAll size s first).1 second).2) := by
  induction first generalizing s with
  | nil => simp
  | cons step steps ih => simp [ih]

/-- Taking all items out of the view clears the mark of every slot. -/
theorem execAll_teardown (s : ViewState) (size : Nat) :
    execAll size s info.teardown =
      ({ s with views := List.replicate s.views.length false },
        info.teardownTrace s.views.length) := by
  cases h : info.isOnlyChild <;>
    simp [BoundCollection.teardown, BoundCollection.teardownTrace, ViewState.unregisterAll, h,
      List.map_const']

theorem map_zipIdx_replicate {β : Type} (f : Bool × Nat → β) (hasView : Bool) (n : Nat) :
    (List.replicate n hasView).zipIdx.map f = (List.range n).map fun slot => f (hasView, slot) := by
  refine List.ext_getElem (by simp) fun slot _ _ => ?_
  simp

theorem perform_clear (s : ViewState) :
    clear.perform info s =
      ({ s with views := [], count := 0 }, clear.trace info s.views.length s.depth) := by
  simp [perform, plan, size, trace, BoundCollection.clearPlan, execAll_append, execAll_teardown,
    ViewState.replaceAll, map_zipIdx_replicate]

/-- A teardown that is left out because nothing is rendered makes no difference if there are no
slots then. -/
theorem exec_ifRendered_teardown (size : Nat) (h : s.count = s.views.length) :
    exec size s (.ifRendered info.teardown) =
      ({ s with views := List.replicate s.views.length false },
        if s.views.length = 0 then [] else info.teardownTrace s.views.length) := by
  by_cases hslots : s.views.length = 0
  · have hviews : s.views = [] := List.length_eq_zero_iff.1 hslots
    rw [exec, if_neg (by omega), if_pos hslots, hslots, List.replicate_zero, ← hviews]
  · rw [exec, if_pos (by omega), if_neg hslots, execAll_teardown]

/-- What is assigned replaces all slots and is rendered, with one flush on the outermost level. -/
theorem execAll_render (s : ViewState) (value : String) (n : Nat) :
    execAll n s [.assign value, .countFromSize, .enterRender, .createEach, .exitRenderAndFlush] =
      ({ s with views := List.replicate n true, count := n },
        (s.views.zipIdx.map fun (hadView, slot) => .dropped slot hadView) ++
          ((List.range n).map (.created · false) ++ if s.depth = 0 then [.flushed] else [])) := by
  simp [ViewState.replaceAll, ViewState.createAll, map_zipIdx_replicate]

theorem perform_reassign (value : String) (n : Nat) (h : s.count = s.views.length) :
    (reassign value n).perform info s =
      ({ s with views := List.replicate n true, count := n },
        (reassign value n).trace info s.views.length s.depth) := by
  have hdown := exec_ifRendered_teardown info n h
  rw [perform, plan, size, BoundCollection.reassignPlan, execAll, hdown]
  simp only [execAll_render, map_zipIdx_replicate, trace]

theorem perform_indexWrite (index value : String) (compoundOp : Option String) :
    (indexWrite index value compoundOp).perform info s = (s, [.written, .relocated]) := by
  simp [perform, plan, size, BoundCollection.indexWritePlan]

/-! ## What every write keeps

A write to a rendered collection does what the tables say, and leaves it rendered. -/

theorem perform_rendered (write : CollectionWrite) (h : s.Rendered) :
    (write.perform info s).1.Rendered ∧
      (write.perform info s).1.views.length = write.slotsAfter s.views.length ∧
      (write.perform info s).1.depth = s.depth ∧
      (write.perform info s).2 = write.trace info s.views.length s.depth := by
  cases write with
  | append item =>
    rw [perform_append info item h.attached]
    refine ⟨⟨h.attached, ?_, ?_⟩, List.length_append, rfl, rfl⟩
    · intro hasView hmem
      rcases List.mem_append.1 hmem with hold | hnew
      · exact h.views hasView hold
      · exact List.mem_singleton.1 hnew
    · simp [h.count]
  | removeLast =>
    rcases List.eq_nil_or_concat s.views with hnil | ⟨views, last, hviews⟩
    · rw [perform_removeLast_nil info hnil, hnil]
      exact ⟨h, rfl, rfl, rfl⟩
    · rw [List.concat_eq_append] at hviews
      have hlength : s.views.length = views.length + 1 := by rw [hviews]; simp
      rw [perform_removeLast_concat info h.attached hviews, hlength]
      refine ⟨⟨h.attached, fun hasView hmem => h.views hasView (by simp [hviews, hmem]), ?_⟩,
        rfl, rfl, ?_⟩
      · rw [h.count, hlength]
        rfl
      · rw [h.count, hlength]
        rfl
  | clear =>
    rw [perform_clear]
    exact ⟨⟨h.attached, by simp, rfl⟩, rfl, rfl, rfl⟩
  | reassign value size =>
    rw [perform_reassign info value size h.count]
    exact ⟨⟨h.attached, fun _ hmem => List.eq_of_mem_replicate hmem, by simp⟩,
      List.length_replicate, rfl, rfl⟩
  | indexWrite index value compoundOp =>
    rw [perform_indexWrite]
    exact ⟨h, rfl, rfl, rfl⟩

/-! ## What every run keeps

The state behind a run is rendered again, so the next write finds what it needs. -/

theorem run_rendered (writes : List CollectionWrite) (h : s.Rendered) :
    (run info s writes).Rendered ∧ (run info s writes).depth = s.depth := by
  induction writes generalizing s with
  | nil => exact ⟨h, rfl⟩
  | cons write writes ih =>
    obtain ⟨hstep, -, hdepth, -⟩ := perform_rendered info write h
    obtain ⟨hrun, hrest⟩ := ih hstep
    exact ⟨hrun, hrest.trans hdepth⟩

/-- **The view stays in step with the data.**  Behind any writes to a rendered collection, one more
write leaves it rendered, with the slots that it is to have and with rendering nested as deep as at
the start.  Its events are those of the table, in their order.  So it drops no slot with a
registered view, creates no second view, and never counts below zero; and an append binds each old
slot again after the push and before the new view is created. -/
theorem write_keeps_rendered (info : BoundCollection) (s : ViewState) (h : s.Rendered)
    (earlier : List CollectionWrite) (write : CollectionWrite) :
    let before := run info s earlier
    let after := write.perform info before
    after.1.Rendered ∧ after.1.views.length = write.slotsAfter before.views.length ∧
      after.1.depth = s.depth ∧ after.2 = write.trace info before.views.length before.depth ∧
      (∀ event ∈ after.2, event.IsSound) ∧
      ∀ item, write = append item → ∀ old < before.views.length,
        List.Sublist [.pushed before.views.length, .rebound old,
          .created before.views.length false] after.2 := by
  intro before after
  obtain ⟨hbefore, hdepth⟩ := run_rendered info earlier h
  obtain ⟨hafter, hslots, hkept, htrace⟩ := perform_rendered info write hbefore
  refine ⟨hafter, hslots, hkept.trans hdepth, htrace, ?_, ?_⟩
  · exact htrace ▸ isSound_trace info write _ _
  · rintro item rfl old hold
    rw [htrace]
    exact sublist_trace_append info item _ hold

/-- Two rendered rows are assigned anew, removed, and appended to: the next append still meets a
rendered collection, of one row, and binds this row again before it creates the second. -/
theorem write_keeps_rendered_rows :
    let info := { BoundCollection.ofLoop 3 "row" "make_row(row);" with isOnlyChild := true }
    let start : ViewState := ⟨[true, true], 2, true, 0, 0, none⟩
    let before := run info start [reassign "fresh" 1, removeLast, removeLast, append "a"]
    let after := (append "c").perform info before
    start.Rendered ∧ before.views = [true] ∧
      after.2 = [.pushed 1, .rebound 0, .created 1 false] ∧
      after.1.Rendered ∧ after.1.views.length = (append "c").slotsAfter before.views.length ∧
      after.1.depth = start.depth ∧
      after.2 = (append "c").trace info before.views.length before.depth ∧
      (∀ event ∈ after.2, event.IsSound) ∧
      ∀ item, append "c" = append item → ∀ old < before.views.length,
        List.Sublist [.pushed before.views.length, .rebound old,
          .created before.views.length false] after.2 := by
  intro info start
  have hstart : start.Rendered := ⟨rfl, by decide, rfl⟩
  have hwrite := write_keeps_rendered info start hstart
    [reassign "fresh" 1, removeLast, removeLast, append "a"] (append "c")
  refine ⟨hstart, by decide, by decide, ?_⟩
  exact hwrite

end CollectionWrite

end UiLowering
