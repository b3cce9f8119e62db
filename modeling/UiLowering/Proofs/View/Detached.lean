import Mathlib.Data.List.Induction
import UiLowering.Proofs.View.Rendered

/-!
# The view of a detached collection

While the parent element does not exist, an append stores its element without rendering it, and a
removal leaves the live count alone.  An assignment asks for no parent element: it renders and
counts all it stores.  So the slots with a view stand in front, and those without one behind them
(`ViewState.Detached`).

The count is never smaller than the number of views.  It is that number until a removal takes a slot
that an assignment has rendered, and from then on too large until the next assignment or the next
clear.  `NeverOverdrawn` says of the writes alone that this does not happen.

A collection is detached from the beginning if its element was never created, for instance because
the branch of the view that it stands in was not taken.  The writes are lowered without regard to
that, and the guards in the plans decide at run time.  They are not the same for all writes, and
this is where the count and the views part.

The invariant has two numbers, of rendered and of stored slots, and the count beside them.  That the
rendered slots stand in front is no accident: appends go to the end and removals come from there, so
a rendered slot is removed only when no stored one is left.
-/

set_option autoImplicit false

namespace UiLowering

namespace ViewState

/-- The live count is the number of slots that hold a view, and there are as many slots. -/
def InStep (s : ViewState) : Prop := s.count = s.views.count true ∧ s.count ≤ s.views.length

/-- A collection without parent element.  Its first slots are rendered, and the others are only
stored; the live count is `counted`. -/
structure Detached (counted rendered stored : Nat) (s : ViewState) : Prop where
  attached : s.attached = false
  views : s.views = List.replicate rendered true ++ List.replicate stored false
  count : s.count = counted
  le : rendered ≤ counted

variable {counted rendered stored : Nat} {s : ViewState}

theorem Detached.count_views (h : s.Detached counted rendered stored) :
    s.views.count true = rendered := by
  rw [h.views, List.count_append, List.count_replicate_self, List.count_replicate]
  rfl

theorem Detached.inStep_iff (h : s.Detached counted rendered stored) :
    s.InStep ↔ rendered = counted := by
  rw [InStep, h.count_views, h.count]
  refine ⟨fun hstep => hstep.1.symm, fun heq => ⟨heq.symm, ?_⟩⟩
  rw [h.views, List.length_append, List.length_replicate, heq]
  exact Nat.le_add_right counted _

end ViewState

namespace CollectionWrite

open ViewStep ViewState

variable (info : BoundCollection) {s : ViewState} {counted rendered stored : Nat}

/-! ## One write at a time

The equations of an attached collection do not apply, since the guards that ask for the parent
element fail.  What a write does depends on whether the last slot has a view, so the removal has
three cases. -/

theorem detached_append (item : String) (h : s.Detached counted rendered stored) :
    ((append item).perform info s).1.Detached counted rendered (stored + 1) := by
  have heq : ((append item).perform info s).1 =
      { s with views := s.views ++ [false], oldCount := s.views.length } := by
    simp [perform, plan, size, BoundCollection.appendPlan, h.attached]
  rw [heq]
  refine ⟨h.attached, ?_, h.count, h.le⟩
  rw [h.views, List.append_assoc, ← List.replicate_succ']

/-- Without parent element a removal drops the last slot and leaves the count as it is. -/
theorem perform_removeLast_detached {views : List Bool} {last : Bool} (hs : s.attached = false)
    (h : s.views = views ++ [last]) :
    (removeLast.perform info s).1 = { s with views := views } := by
  simp [perform, plan, size, BoundCollection.removeLastPlan, ViewState.unregisterLast,
    ViewState.dropLast, h, hs]

theorem detached_removeLast_stored (h : s.Detached counted rendered (stored + 1)) :
    (removeLast.perform info s).1.Detached counted rendered stored := by
  have hviews : s.views =
      (List.replicate rendered true ++ List.replicate stored false) ++ [false] := by
    rw [h.views, List.replicate_succ', List.append_assoc]
  rw [perform_removeLast_detached info h.attached hviews]
  exact ⟨h.attached, rfl, h.count, h.le⟩

theorem detached_removeLast_rendered (h : s.Detached counted (rendered + 1) 0) :
    (removeLast.perform info s).1.Detached counted rendered 0 := by
  have hviews : s.views = List.replicate rendered true ++ [true] := by
    rw [h.views, List.replicate_zero, List.append_nil, List.replicate_succ']
  rw [perform_removeLast_detached info h.attached hviews]
  have hle := h.le
  exact ⟨h.attached, by simp, h.count, by omega⟩

theorem detached_removeLast_nil (h : s.Detached counted 0 0) :
    (removeLast.perform info s).1.Detached counted 0 0 := by
  rw [perform_removeLast_nil info h.views]
  exact h

theorem detached_clear (h : s.attached = false) : (clear.perform info s).1.Detached 0 0 0 := by
  rw [perform_clear]
  exact ⟨h, rfl, rfl, Nat.le_refl 0⟩

/-- An assignment renders and counts all it stores, whether or not there is a parent element. -/
theorem detached_reassign (value : String) (n : Nat) (h : s.attached = false) :
    ((reassign value n).perform info s).1.Detached n n 0 := by
  have hdown : ∃ views events,
      exec n s (.ifRendered info.teardown) = ({ s with views := views }, events) := by
    by_cases hcount : 0 < s.count
    · exact ⟨_, _, by rw [exec, if_pos hcount, execAll_teardown]⟩
    · exact ⟨s.views, [], by rw [exec, if_neg hcount]⟩
  obtain ⟨views, events, hdown⟩ := hdown
  have heq : ((reassign value n).perform info s).1 =
      { s with views := List.replicate n true, count := n } := by
    simp [perform, plan, size, BoundCollection.reassignPlan, hdown, -exec]
    simp [ViewState.replaceAll, ViewState.createAll]
  rw [heq]
  exact ⟨h, by simp, rfl, Nat.le_refl n⟩

theorem detached_indexWrite (index value : String) (compoundOp : Option String)
    (h : s.Detached counted rendered stored) :
    ((indexWrite index value compoundOp).perform info s).1.Detached counted rendered stored := by
  rw [perform_indexWrite]
  exact h

/-- Each write leaves a detached collection detached, with the slots with a view in front. -/
theorem exists_detached_perform (write : CollectionWrite)
    (h : s.Detached counted rendered stored) :
    ∃ counted' rendered' stored',
      (write.perform info s).1.Detached counted' rendered' stored' := by
  cases write with
  | append item => exact ⟨_, _, _, detached_append info item h⟩
  | removeLast =>
    rcases stored with _ | stored
    · rcases rendered with _ | rendered
      · exact ⟨_, _, _, detached_removeLast_nil info h⟩
      · exact ⟨_, _, _, detached_removeLast_rendered info h⟩
    · exact ⟨_, _, _, detached_removeLast_stored info h⟩
  | clear => exact ⟨_, _, _, detached_clear info h.attached⟩
  | reassign value n => exact ⟨_, _, _, detached_reassign info value n h.attached⟩
  | indexWrite index value compoundOp =>
    exact ⟨_, _, _, detached_indexWrite info index value compoundOp h⟩

/-! ## Runs

The invariant alone says that the count is not too small.  When it is too large is a question about
the history: a removal overdraws if it takes a slot that was there when the collection was last
assigned.  `LeftOver` counts, along the writes, the slots that the appends have added since. -/

theorem run_append (s : ViewState) (first second : List CollectionWrite) :
    run info s (first ++ second) = run info (run info s first) second := by
  induction first generalizing s with
  | nil => rfl
  | cons write first ih => exact ih (write.perform info s).1

theorem exists_detached_run (writes : List CollectionWrite)
    (h : s.Detached counted rendered stored) :
    ∃ counted' rendered' stored', (run info s writes).Detached counted' rendered' stored' := by
  induction writes generalizing s counted rendered stored with
  | nil => exact ⟨_, _, _, h⟩
  | cons write writes ih =>
    obtain ⟨_, _, _, hstep⟩ := exists_detached_perform info write h
    exact ih hstep

/-! ### Writes that never overdraw

The condition is about writes and not about states: it can be checked on a list of writes without
running them.  Only what has happened since the last assignment counts, because an assignment and a
clear bring the count back in step. -/

/-- The write replaces all slots. -/
def replacesAll : CollectionWrite → Bool
  | .clear | .reassign .. => true
  | _ => false

/-- The write stores one more slot. -/
def isAppend : CollectionWrite → Bool
  | .append _ => true
  | _ => false

/-- The write takes the last slot away. -/
def isRemoval : CollectionWrite → Bool
  | .removeLast => true
  | _ => false

/-- Behind an assignment that is not empty, up to the next write that replaces all slots, there are
at no point more removals than appends. -/
def NeverOverdrawn (writes : List CollectionWrite) : Prop :=
  ∀ (earlier between later : List CollectionWrite) (value : String) (n : Nat),
    writes = earlier ++ reassign value n :: (between ++ later) → 0 < n →
    (∀ write ∈ between, write.replacesAll = false) →
      between.countP isRemoval ≤ between.countP isAppend

theorem countP_concat (p : CollectionWrite → Bool) (writes : List CollectionWrite)
    (write : CollectionWrite) :
    (writes ++ [write]).countP p = writes.countP p + (p write).toNat := by
  rw [List.countP_append, List.countP_singleton]
  cases p write <;> rfl

theorem NeverOverdrawn.of_append {first second : List CollectionWrite}
    (h : NeverOverdrawn (first ++ second)) : NeverOverdrawn first := by
  intro earlier between later value n heq
  refine h earlier between (later ++ second) value n ?_
  rw [heq, List.append_assoc, List.cons_append, List.append_assoc]

/-- As long as the count is in step behind an assignment, what is stored besides it is what the
appends have left over. -/
theorem detached_of_inStep {n : Nat} (hn : 0 < n) (h : s.Detached n n 0)
    (between : List CollectionWrite) (hkeep : ∀ write ∈ between, write.replacesAll = false)
    (hstep : ∀ earlier, earlier <+: between → (run info s earlier).InStep) :
    ∃ stored, (run info s between).Detached n n stored ∧
      between.countP isAppend = between.countP isRemoval + stored := by
  induction between using List.reverseRecOn with
  | nil => exact ⟨0, h, rfl⟩
  | append_singleton between write ih =>
    obtain ⟨stored, hrun, hcount⟩ := ih (fun other hmem => hkeep other (by simp [hmem]))
      fun earlier hearlier => hstep earlier (hearlier.trans (List.prefix_append _ _))
    have hafter := hstep (between ++ [write]) List.prefix_rfl
    have hwrite := hkeep write (by simp)
    rw [run_append] at hafter ⊢
    rw [countP_concat, countP_concat, hcount]
    cases write with
    | append item => exact ⟨stored + 1, detached_append info item hrun, rfl⟩
    | removeLast =>
      rcases stored with _ | stored
      · -- The removal takes a rendered slot, and the count does not notice.
        obtain ⟨rendered, rfl⟩ : ∃ rendered, n = rendered + 1 := ⟨n - 1, by omega⟩
        have hlost := (detached_removeLast_rendered info hrun).inStep_iff.1 hafter
        omega
      · refine ⟨stored, detached_removeLast_stored info hrun, ?_⟩
        show between.countP isRemoval + (stored + 1) = between.countP isRemoval + 1 + stored
        omega
    | clear => cases hwrite
    | reassign value size => cases hwrite
    | indexWrite index value compoundOp =>
      exact ⟨stored, detached_indexWrite info index value compoundOp hrun, rfl⟩

/-- The last write that replaced all slots has left `n` of them, and the appends since then have
left over `stored` more.  Where it has left none, nothing is said of the appends. -/
def LeftOver (writes : List CollectionWrite) (n stored : Nat) : Prop :=
  ∃ front between : List CollectionWrite, writes = front ++ between ∧
    (∀ write ∈ between, write.replacesAll = false) ∧
    (0 < n → (∃ earlier value, front = earlier ++ [reassign value n]) ∧
      between.countP isAppend = between.countP isRemoval + stored)

theorem leftOver_nil (writes : List CollectionWrite) : LeftOver writes 0 0 :=
  ⟨writes, [], (List.append_nil writes).symm, by simp, by simp⟩

theorem leftOver_reassign (writes : List CollectionWrite) (value : String) (n : Nat) :
    LeftOver (writes ++ [reassign value n]) n 0 :=
  ⟨_, [], (List.append_nil _).symm, by simp, fun _ => ⟨⟨writes, value, rfl⟩, rfl⟩⟩

theorem LeftOver.step {writes : List CollectionWrite} {write : CollectionWrite}
    {n stored stored' : Nat} (h : LeftOver writes n stored) (hkeep : write.replacesAll = false)
    (hcount : 0 < n → stored' + write.isRemoval.toNat = stored + write.isAppend.toNat) :
    LeftOver (writes ++ [write]) n stored' := by
  obtain ⟨front, between, rfl, hbetween, hopen⟩ := h
  refine ⟨front, between ++ [write], List.append_assoc .., ?_, fun hn => ⟨(hopen hn).1, ?_⟩⟩
  · simpa [or_imp, forall_and, hkeep] using hbetween
  · have hcount := hcount hn
    rw [countP_concat, countP_concat, (hopen hn).2]
    omega

/-- A removal that finds nothing left over overdraws, unless there is nothing at all. -/
theorem LeftOver.eq_zero {writes : List CollectionWrite} {n : Nat} (h : LeftOver writes n 0)
    (hnever : NeverOverdrawn (writes ++ [removeLast])) : n = 0 := by
  obtain ⟨front, between, rfl, hbetween, hopen⟩ := h
  by_contra hn
  obtain ⟨⟨earlier, value, rfl⟩, hcount⟩ := hopen (Nat.pos_of_ne_zero hn)
  have hle := hnever earlier (between ++ [removeLast]) [] value n (by simp)
    (Nat.pos_of_ne_zero hn) (by simpa [or_imp, forall_and, replacesAll] using hbetween)
  rw [countP_concat, countP_concat, hcount] at hle
  exact Nat.not_succ_le_self _ hle

/-- Writes that never overdraw leave the count in step. -/
theorem exists_detached_of_neverOverdrawn (h : s.Detached 0 0 0) (writes : List CollectionWrite)
    (hnever : NeverOverdrawn writes) :
    ∃ n stored, LeftOver writes n stored ∧ (run info s writes).Detached n n stored := by
  induction writes using List.reverseRecOn with
  | nil => exact ⟨0, 0, leftOver_nil [], h⟩
  | append_singleton writes write ih =>
    obtain ⟨n, stored, hleft, hrun⟩ := ih hnever.of_append
    rw [run_append]
    cases write with
    | append item =>
      exact ⟨n, stored + 1, hleft.step rfl fun _ => rfl, detached_append info item hrun⟩
    | removeLast =>
      rcases stored with _ | stored
      · obtain rfl := hleft.eq_zero hnever
        exact ⟨0, 0, leftOver_nil _, detached_removeLast_nil info hrun⟩
      · exact ⟨n, stored, hleft.step rfl fun _ => rfl, detached_removeLast_stored info hrun⟩
    | clear => exact ⟨0, 0, leftOver_nil _, detached_clear info hrun.attached⟩
    | reassign value size =>
      exact ⟨size, 0, leftOver_reassign writes value size,
        detached_reassign info value size hrun.attached⟩
    | indexWrite index value compoundOp =>
      exact ⟨n, stored, hleft.step rfl fun _ => rfl,
        detached_indexWrite info index value compoundOp hrun⟩

/-- **The live count of a detached collection.**  Along any writes to a collection that was empty
and without parent element at the start, the count is never smaller than the number of slots with a
view.  It is that number all along, and so never exceeds the number of slots, exactly if behind no
assignment there are more removals than appends. -/
theorem detached_inStep_iff (info : BoundCollection) (s : ViewState)
    (hattached : s.attached = false) (hviews : s.views = []) (hcount : s.count = 0)
    (writes : List CollectionWrite) :
    (∀ earlier, earlier <+: writes →
        (run info s earlier).views.count true ≤ (run info s earlier).count) ∧
      ((∀ earlier, earlier <+: writes → (run info s earlier).InStep) ↔ NeverOverdrawn writes) := by
  have hstart : s.Detached 0 0 0 := ⟨hattached, hviews, hcount, Nat.le_refl 0⟩
  refine ⟨fun earlier _ => ?_, fun hstep => ?_, ?_⟩
  · obtain ⟨_, _, _, hrun⟩ := exists_detached_run info earlier hstart
    rw [hrun.count_views, hrun.count]
    exact hrun.le
  · rintro earlier between later value n rfl hn hkeep
    obtain ⟨_, _, _, hrun⟩ := exists_detached_run info earlier hstart
    have hassigned := detached_reassign info value n hrun.attached
    obtain ⟨stored, -, hbalance⟩ := detached_of_inStep info hn hassigned between hkeep
      fun front hfront => by
        have hprefix : earlier ++ reassign value n :: front <+:
            earlier ++ reassign value n :: (between ++ later) :=
          (List.prefix_append_right_inj earlier).2 (List.cons_prefix_cons.2
            ⟨rfl, hfront.trans (List.prefix_append between later)⟩)
        have hfront := hstep _ hprefix
        rwa [run_append] at hfront
    omega
  · rintro hnever earlier ⟨later, rfl⟩
    obtain ⟨n, stored, -, hrun⟩ :=
      exists_detached_of_neverOverdrawn info hstart earlier hnever.of_append
    exact hrun.inStep_iff.2 rfl

/-- Two assigned rows, a row that is appended and removed again, and an element that is written: the
count stays with the two rows. -/
theorem detached_inStep_iff_rows :
    let info := BoundCollection.ofLoop 3 "row" "make_row(row);"
    let start : ViewState := ⟨[], 0, false, 0, 0, none⟩
    let writes := [append "a", removeLast, reassign "fresh" 2, append "b", removeLast,
      indexWrite "0" "c" none]
    NeverOverdrawn writes ∧ ∀ earlier, earlier <+: writes → (run info start earlier).InStep := by
  intro info start writes
  have hiff := (detached_inStep_iff info start rfl rfl rfl writes).2
  have hstep : ∀ k, k ≤ 6 → (run info start (writes.take k)).InStep := by
    unfold InStep
    decide
  have hall : ∀ earlier, earlier <+: writes → (run info start earlier).InStep := by
    intro earlier hearlier
    rw [List.prefix_iff_eq_take.1 hearlier]
    exact hstep _ hearlier.length_le
  exact ⟨hiff.1 hall, hall⟩

/-- Two rows are assigned while there is no parent element, and one is removed: both are still
counted, and only one slot is left. -/
theorem detached_count_exceeds_slots :
    let info := BoundCollection.ofLoop 3 "row" "make_row(row);"
    let after := run info ⟨[], 0, false, 0, 0, none⟩ [reassign "fresh" 2, removeLast]
    after.views = [true] ∧ after.count = 2 ∧ ¬after.InStep := by
  intro info after
  have hviews : after.views = [true] := by decide
  have hcount : after.count = 2 := by decide
  refine ⟨hviews, hcount, fun hstep => ?_⟩
  have hle := hstep.2
  rw [hcount, hviews] at hle
  simp at hle

end CollectionWrite

end UiLowering
