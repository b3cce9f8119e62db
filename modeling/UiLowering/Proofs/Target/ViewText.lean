import UiLowering.Proofs.Target.CallText
import UiLowering.Proofs.Target.Line
import UiLowering.View.Render

/-!
# The texts of plans

The code that renders the items of a bound collection is given as text and is taken as it is; it
has to close its brackets.  Then every step of a plan closes its brackets too, and it can be said
which plans are one statement.  The plans that append an item and that remove the last one are: the
first is a block, the second a branch with a block.  The plans that clear a collection, assign it or
write an element of it are not: only their first step would belong to a branch or a loop in front
of them.

The steps of a plan contain other steps, behind a test or in a scope.  Whether a plan is one
statement is decided on the outermost level alone; for the inner ones it is enough that they close
their brackets, since they stand in braces.
-/

set_option autoImplicit false

namespace UiLowering

open Target

/-- The texts that a bound collection brings into the code. -/
structure BoundCollection.IsTidy (info : BoundCollection) : Prop where
  parentRef : ∀ name ∈ info.parentRef, Quiet name.toList
  itemVar : Quiet info.itemVar.toList
  creationCode : Even [] info.creationCode.toList

namespace BoundCollection

variable {info : BoundCollection}

theorem quiet_countVar (info : BoundCollection) : Quiet info.countVar.toList :=
  Quiet.text (Quiet.text (by decide) (quiet_toString_nat _)) (by decide)

theorem IsTidy.quiet_parent (h : info.IsTidy) : Quiet info.parent.toList := by
  unfold parent
  cases hparent : info.parentRef with
  | none => exact Quiet.text (Quiet.text (by decide) (quiet_toString_nat _)) (by decide)
  | some name => exact h.parentRef name hparent

theorem IsTidy.even_creationCode (h : info.IsTidy) :
    Even [] (Text.endLine info.creationCode).toList := by
  unfold Text.endLine
  split
  · exact h.creationCode
  · exact h.creationCode.text rfl

end BoundCollection

/-! ## Steps

A step is a text with codes put into it.  The lemma on a step asks only that these codes are even,
so it serves all plans. -/

theorem even_keepArg (keep : Bool) : Even [] (keepArg keep).toList := by
  cases keep <;> rfl

theorem even_assignText {target value : String} {op : Option String}
    (htarget : Even [] target.toList) (hvalue : Even [] value.toList)
    (hop : ∀ code ∈ op, Even [] code.toList) : Even [] (assignText target value op).toList := by
  cases op with
  | none => exact Even.text (Even.text (Even.text htarget rfl) hvalue) rfl
  | some code =>
    exact Even.text (Even.text (Even.text (Even.text (Even.text (Even.text (Even.text htarget rfl)
      htarget) rfl) (hop code rfl)) rfl) hvalue) rfl

namespace Target

/-- A text in brackets that other texts open and close. -/
theorem even_between {before inner after : String}
    (hbefore : Walks [] .start before.toList ⟨1, .code⟩) (hinner : Even [] inner.toList)
    (hafter : Walks [] ⟨1, .code⟩ after.toList .start) :
    Even [] (before ++ inner ++ after).toList :=
  Walks.text (Walks.text hbefore hinner.inside) hafter

/-- A test in parentheses, with the brace behind it that opens a block. -/
theorem walks_guard {before test after : String}
    (hbefore : Walks [] .start before.toList ⟨1, .code⟩) (htest : Even [] test.toList)
    (hafter : Walks [] ⟨1, .code⟩ after.toList ⟨1, .code⟩) :
    Walks [] .start (before ++ test ++ after).toList ⟨1, .code⟩ :=
  Walks.text (Walks.text hbefore htest.inside) hafter

end Target

namespace ViewStep

/-! ### What a step takes over

The codes of operands come from elsewhere and are the only texts in a step that are not constant or
named by the collection.  So a hypothesis on the operands of a plan is a hypothesis on its text. -/

mutual

/-- The codes that a step takes over as they are. -/
def operands : ViewStep → List String
  | .scope body | .ifAttached body | .ifNonEmpty body | .ifRendered body => operandsAll body
  | .append item => [item]
  | .assign value => [value]
  | .writeElement index value compoundOp => index :: value :: compoundOp.toList
  | .relocateNode index => [index]
  | _ => []

/-- The codes that several steps take over as they are. -/
def operandsAll : List ViewStep → List String
  | [] => []
  | step :: steps => step.operands ++ operandsAll steps

end

theorem even_relocateText {storage parent index : String} (hstorage : Even [] storage.toList)
    (hparent : Even [] parent.toList) (hindex : Even [] index.toList) :
    Even [] (relocateText storage parent index).toList := by
  -- Read from the end: one bracket is open behind each of the four lines, two inside the last.
  unfold relocateText
  refine Walks.text (Walks.text (Walks.text (q := ⟨1, .code⟩) ?_ rfl) hparent.inside) rfl
  refine Walks.text (Walks.text (q := ⟨1, .code⟩) ?_ rfl) rfl
  refine Walks.text (Walks.text (q := ⟨1, .code⟩) ?_ hstorage.inside) rfl
  refine Walks.text (Walks.text (Walks.text (q := ⟨1, .code⟩) (r := ⟨2, .code⟩) ?_ rfl)
    hstorage.inside) rfl
  refine Walks.text (Walks.text (Walks.text (q := ⟨1, .code⟩) ?_ rfl) hstorage.inside) rfl
  exact walks_guard rfl hindex rfl

theorem firstChar?_relocateText (storage parent index : String) :
    firstChar? (relocateText storage parent index).toList = some '{' := by
  unfold relocateText
  simp only [String.append_assoc]
  exact firstChar?_text rfl

variable {info : BoundCollection} {storage : String}

mutual

/-- Every step closes its brackets. -/
theorem even_render (hinfo : info.IsTidy) (hstorage : Even [] storage.toList) :
    (step : ViewStep) → (∀ code ∈ step.operands, Even [] code.toList) →
      Even [] (render info storage step).toList
  | .scope body, h => by
    rw [operands] at h
    exact even_between rfl (even_renderAll hinfo hstorage body h) rfl
  | .ifAttached body, h => by
    rw [operands] at h
    exact even_between (walks_guard rfl hinfo.quiet_parent.even.body rfl)
      (even_renderAll hinfo hstorage body h) rfl
  | .ifNonEmpty body, h => by
    rw [operands] at h
    exact even_between (walks_guard rfl hstorage rfl) (even_renderAll hinfo hstorage body h) rfl
  | .ifRendered body, h => by
    rw [operands] at h
    exact even_between (walks_guard rfl info.quiet_countVar.even.body rfl)
      (even_renderAll hinfo hstorage body h) rfl
  | .saveOldCount, _ => by
    exact Even.text (Even.text rfl hstorage) rfl
  | .append item, h => by
    exact even_between (Walks.text hstorage rfl) (h item (by simp [operands])) rfl
  | .rebindExisting, _ => by
    exact Even.text (Even.text rfl hstorage) rfl
  | .bindNewest, _ => by
    have hhead : Even [] ("auto& " ++ info.itemVar ++ " = " ++ storage).toList :=
      Even.text (Even.text (Even.text rfl hinfo.itemVar.even.body) rfl) hstorage
    exact even_between (Walks.text hhead rfl) hstorage rfl
  | .createItem, _ => by
    exact hinfo.even_creationCode
  | .incrementCount, _ => by
    exact Even.text info.quiet_countVar.even.body rfl
  | .decrementCount, _ => by
    exact Even.text info.quiet_countVar.even.body rfl
  | .removeLastView keepDom, _ => by
    exact even_between (Walks.text hstorage rfl) (even_keepArg keepDom) rfl
  | .shrinkByOne, _ => by
    exact Even.text hstorage rfl
  | .teardownAll bulk, _ => by
    have hhead : Even [] ("for (auto& _v : " ++ storage ++ ") ").toList :=
      even_between rfl hstorage rfl
    exact Even.text (hhead.text (even_braced (even_between rfl (even_keepArg bulk) rfl))) rfl
  | .resetParentContent, _ => by
    exact even_between rfl hinfo.quiet_parent.even.body rfl
  | .resetCount, _ => by
    exact Even.text info.quiet_countVar.even.body rfl
  | .clearStorage, _ => by
    exact Even.text hstorage rfl
  | .assign value, h => by
    exact Even.text (Even.text (Even.text hstorage rfl) (h value (by simp [operands]))) rfl
  | .countFromSize, _ => by
    exact Even.text (Even.text (Even.text info.quiet_countVar.even.body rfl) hstorage) rfl
  | .enterRender, _ => show Even [] "g_view_depth++;\n".toList from rfl
  | .createEach, _ => by
    have hhead : Walks [] .start ("for (auto& " ++ info.itemVar ++ " : ").toList ⟨1, .code⟩ :=
      walks_guard rfl hinfo.itemVar.even.body rfl
    exact even_between (walks_guard hhead hstorage rfl) hinfo.even_creationCode rfl
  | .exitRenderAndFlush, _ =>
    show Even [] "if (--g_view_depth == 0) webcc::flush();\n".toList from rfl
  | .writeElement index value compoundOp, h => by
    have htarget : Even [] (storage ++ "[" ++ index ++ "]").toList :=
      even_between (Walks.text hstorage rfl) (h index (by simp [operands])) rfl
    refine even_assignText htarget (h value (by simp [operands])) fun code hcode => ?_
    exact h code (by simp [operands, Option.mem_toList.2 hcode])
  | .relocateNode index, h => by
    exact even_relocateText hstorage hinfo.quiet_parent.even.body (h index (by simp [operands]))

theorem even_renderAll (hinfo : info.IsTidy) (hstorage : Even [] storage.toList) :
    (steps : List ViewStep) → (∀ code ∈ operandsAll steps, Even [] code.toList) →
      Even [] (renderAll info storage steps).toList
  | [], _ => by
    exact Even.nil
  | step :: steps, h => by
    rw [operandsAll] at h
    obtain ⟨hstep, hsteps⟩ := List.forall_mem_append.1 h
    exact Even.text (even_render hinfo hstorage step hstep)
      (even_renderAll hinfo hstorage steps hsteps)

end

end ViewStep

/-! ## Plans

A plan is the list of its steps.  It is one statement if it has one step and that is a block or a
branch; with a second step behind the first it falls apart, whatever the steps are. -/

/-- The name of a variable: it has no brackets, quotes and semicolons, it is not blank, and it is
not the word `else`. -/
structure IsVariable (name : String) : Prop where
  quiet : Quiet name.toList
  not_blank : ∃ c ∈ name.toList, Text.isBlank c = false
  not_else : elsePart? name.toList = none

/-- A statement that begins with a variable does not begin with `else`. -/
theorem Scope.elsePart?_read_append (scope : Scope) {name : String} (h : IsVariable name) {c : Char}
    (hc : c ∉ ['e', 'l', 's']) (k : List Char) :
    elsePart? ((scope.read name).toList ++ c :: k) = none := by
  unfold read
  split
  · refine elsePart?_of_firstChar? ?_
    simp only [String.toList_append, List.append_assoc]
    simp [firstChar?, Text.isBlank]
  · exact elsePart?_append h.not_blank h.not_else hc k

namespace BoundCollection

open ViewStep

variable {info : BoundCollection} {storage : String}

theorem render_cons (step : ViewStep) (plan : ViewPlan) :
    ViewPlan.render info storage (step :: plan) =
      render info storage step ++ ViewPlan.render info storage plan := rfl

theorem render_singleton (step : ViewStep) :
    ViewPlan.render info storage [step] = render info storage step :=
  String.append_empty

theorem even_render_teardown (hinfo : info.IsTidy) (hstorage : Even [] storage.toList) :
    Even [] (info.teardown.render info storage).toList := by
  refine even_renderAll hinfo hstorage _ fun code hcode => ?_
  unfold teardown at hcode
  split at hcode <;> simp [operandsAll, operands] at hcode

theorem settled_appendPlan (hinfo : info.IsTidy) (hstorage : Even [] storage.toList) {item : String}
    (hitem : Even [] item.toList) : Settled true ((appendPlan item).render info storage) := by
  rw [appendPlan, render_singleton]
  refine settled_block (even_renderAll hinfo hstorage _ fun code hcode => ?_)
  obtain rfl : code = item := by simpa [operandsAll, operands] using hcode
  exact hitem

theorem settled_removeLastPlan (hinfo : info.IsTidy) (hstorage : Even [] storage.toList) :
    Settled true (info.removeLastPlan.render info storage) := by
  rw [removeLastPlan, render_singleton]
  have htest : Even [] ("!" ++ storage ++ ".empty()").toList :=
    Even.text (Even.text rfl hstorage) rfl
  have hbody : Even [] (renderAll info storage
      [.removeLastView info.isOnlyChild, .shrinkByOne, .ifAttached [.decrementCount]]).toList :=
    even_renderAll hinfo hstorage _ (by simp [operandsAll, operands])
  have hguard := settled_guard _ htest hbody
  have hassoc (code : String) : "if (" ++ ("!" ++ storage ++ ".empty()") ++ ") \x7b\n" ++ code =
      "if (!" ++ storage ++ ".empty()) \x7b\n" ++ code := by
    rw [show "if (!" = "if (" ++ "!" from rfl,
      show ".empty()) \x7b\n" = ".empty()" ++ ") \x7b\n" from rfl]
    simp only [String.append_assoc]
  rw [hassoc] at hguard
  exact hguard

theorem settled_teardownAll (hstorage : Even [] storage.toList) (bulk : Bool) :
    Settled true (render info storage (.teardownAll bulk)) := by
  have hbody : Even [] (" _v._remove_view(" ++ keepArg bulk ++ "); ").toList :=
    even_between rfl (even_keepArg bulk) rfl
  have hhead : Even [] ("auto& _v : ".toList ++ storage.toList) := Even.append rfl hstorage
  refine settled_loop hhead ?_ (settled_braced hbody)
  change ("for (auto& _v : " ++ storage ++ ") " ++ braced _ ++ "\n").toList = _
  simp only [String.toList_append, List.append_assoc]
  rfl

theorem settled_clearPlan (hinfo : info.IsTidy) (hstorage : Even [] storage.toList) :
    Settled false (info.clearPlan.render info storage) := by
  have heven (plan : ViewPlan) (h : operandsAll plan = []) :
      Even [] (plan.render info storage).toList :=
    even_renderAll hinfo hstorage plan (by simp [h])
  rw [clearPlan, teardown, List.cons_append, render_cons]
  have hfirst : Settled true (render info storage (.teardownAll info.isOnlyChild)) :=
    settled_teardownAll hstorage info.isOnlyChild
  split
  · refine hfirst.append_of_firstChar? (c := 'w') (heven _ (by simp [operandsAll, operands])) ?_
      (by decide)
    exact firstChar?_text (firstChar?_text (firstChar?_text rfl))
  · refine hfirst.append_of_firstChar? (c := '_') (heven _ (by simp [operandsAll, operands])) ?_
      (by decide)
    exact firstChar?_text (firstChar?_text (firstChar?_text (firstChar?_text rfl)))

theorem settled_reassignPlan (hinfo : info.IsTidy) (hstorage : Even [] storage.toList)
    {value : String} (hvalue : Even [] value.toList)
    (helse : ∀ k, elsePart? (storage.toList ++ ' ' :: k) = none) :
    Settled false ((info.reassignPlan value).render info storage) := by
  have htest : Even [] (info.countVar ++ " > 0").toList :=
    Even.text info.quiet_countVar.even.body rfl
  have hguard := settled_guard _ htest (even_render_teardown hinfo hstorage)
  have hassoc (code : String) : "if (" ++ (info.countVar ++ " > 0") ++ ") \x7b\n" ++ code =
      "if (" ++ info.countVar ++ " > 0) \x7b\n" ++ code := by
    rw [show " > 0) \x7b\n" = " > 0" ++ ") \x7b\n" from rfl]
    simp only [String.append_assoc]
  rw [hassoc] at hguard
  rw [reassignPlan, render_cons]
  generalize hplan : [ViewStep.countFromSize, .enterRender, .createEach, .exitRenderAndFlush] = plan
  have hrest : ∃ c ∈ ("= " ++ value ++ ";\n" ++ ViewPlan.render info storage plan).toList,
      Text.isBlank c = false := by
    refine ⟨'=', ?_, rfl⟩
    simp [String.toList_append]
  have hchars : (ViewPlan.render info storage (.assign value :: plan)).toList =
      storage.toList ++ [' '] ++
        ("= " ++ value ++ ";\n" ++ ViewPlan.render info storage plan).toList := by
    change (storage ++ " = " ++ value ++ ";\n" ++ ViewPlan.render info storage plan).toList = _
    simp only [String.toList_append, List.append_assoc]
    rfl
  refine Settled.append_of_chars hguard ?_ hchars hrest fun k => ?_
  · refine even_renderAll hinfo hstorage _ fun code hcode => ?_
    obtain rfl : code = value := by simpa [← hplan, operandsAll, operands] using hcode
    exact hvalue
  · rw [List.append_assoc]
    exact helse k

theorem settled_indexWritePlan (hinfo : info.IsTidy) (hstorage : Even [] storage.toList)
    {index value : String} {op : Option String} (hindex : Even [] index.toList)
    (hfirst : Settled true (assignText (storage ++ "[" ++ index ++ "]") value op)) :
    Settled false ((indexWritePlan index value op).render info storage) := by
  rw [indexWritePlan, render_cons, render_singleton]
  refine Settled.append_of_firstChar? (c := '{') hfirst ?_ ?_ (by decide)
  · exact even_relocateText hstorage hinfo.quiet_parent.even.body hindex
  · exact firstChar?_relocateText storage info.parent index

end BoundCollection

end UiLowering
