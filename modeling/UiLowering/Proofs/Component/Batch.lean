import Mathlib.Data.List.FinRange
import Mathlib.Logic.Relation
import UiLowering.Component.Lower
import UiLowering.Proofs.Lowered
import UiLowering.Proofs.Names

/-!
# The order of a batch

All components of a batch are lowered against one set of types, which is the same in every order of
the batch.  So the result of a component depends on the batch as a set, and the results of a batch
come in the order of its components, whatever that is.

The components may also be lowered side by side: a step (`Fills`) puts the result of any component
that has none yet in its slot.  However the steps follow each other, the slots end up with the same
results (`slots_of_run`).

Nothing in the lowering of a component writes to anything that another one reads, and this is what
makes the order irrelevant.  The model has it by construction: a component is a function of itself
and of the set of types.  The steps that fill slots bring the order back in, as an arbitrary
interleaving, to say that nothing is left of it in the end.
-/

set_option autoImplicit false

namespace UiLowering

/-! ## The first fault

A batch reports one fault, that of the first component that fails.  So the fault may depend on the
order of a batch, and success does not. -/

namespace Lowered

variable {α : Type} {x : Lowered α} {xs : List (Lowered α)} {fault : Fault}

theorem result_all_cons_of_error (h : x.result = .error fault) :
    (all (x :: xs)).result = .error fault := by
  rw [all, result_bind, h]
  rfl

theorem result_all_cons_of_ok {value : α} (h : x.result = .ok value) :
    (all (x :: xs)).result = (all xs).result.map (value :: ·) := by
  rw [all, result_bind, h]
  change (all xs >>= fun values => pure (value :: values)).result = _
  rw [result_bind]
  cases (all xs).result with
  | error fault => rfl
  | ok values => rfl

/-- A list of results fails with the fault of the first member that fails. -/
theorem result_all_map_eq_error_iff {β : Type} {f : β → Lowered α} {values : List β} :
    (all (values.map f)).result = .error fault ↔
      ∃ before value after, values = before ++ value :: after ∧
        (∀ other ∈ before, (f other).result.isOk = true) ∧ (f value).result = .error fault := by
  induction values with
  | nil => simp [all]
  | cons first values ih =>
    rw [List.map_cons]
    constructor
    · intro h
      cases hfirst : (f first).result with
      | error found =>
        rw [result_all_cons_of_error hfirst] at h
        cases h
        exact ⟨[], first, values, rfl, by simp, hfirst⟩
      | ok result =>
        have hrest : (all (values.map f)).result = .error fault := by
          rw [result_all_cons_of_ok hfirst] at h
          cases hvalues : (all (values.map f)).result with
          | error found => simpa [hvalues, Except.map] using h
          | ok results => simp [hvalues, Except.map] at h
        obtain ⟨before, value, after, rfl, hbefore, hvalue⟩ := ih.1 hrest
        refine ⟨first :: before, value, after, rfl, List.forall_mem_cons.2 ⟨?_, hbefore⟩, hvalue⟩
        rw [hfirst]
        rfl
    · rintro ⟨before, value, after, heq, hbefore, hvalue⟩
      cases before with
      | nil =>
        obtain ⟨rfl, -⟩ := List.cons.inj heq
        exact result_all_cons_of_error hvalue
      | cons other before =>
        obtain ⟨rfl, hrest⟩ := List.cons.inj heq
        rw [List.forall_mem_cons] at hbefore
        obtain ⟨result, hresult⟩ := exists_ok_of_isOk hbefore.1
        rw [result_all_cons_of_ok hresult, ih.2 ⟨before, value, after, hrest, hbefore.2, hvalue⟩]
        rfl

end Lowered

namespace Component

/-! ## The types of a batch

The one thing that components of a batch share is the set of types that all of them declare.  It is
collected before anything is lowered and is the same in every order, so each component has a result
of its own, at whatever place it stands. -/

/-- The types that a batch knows do not depend on its order. -/
theorem globalTypes_eq_of_perm {components others : List Component}
    (h : components.Perm others) : globalTypes components = globalTypes others := by
  refine Std.ExtTreeSet.ext_mem fun name => ?_
  rw [globalTypes, globalTypes, NameSet.mem_ofNames, NameSet.mem_ofNames]
  exact ((h.map qualifiedName).append (h.flatMap_right moduleTypes)).mem_iff

section Batch

variable (components : List Component) (schema : Schema) (options : Options)

/-- The result of the component at a place of a batch. -/
def resultAt (place : Fin components.length) : Except Fault Output :=
  ((components.get place).lower schema (globalTypes components) options).result

/-- The batch in another order: each place has the component from the place that `order` names. -/
def reordered (order : Equiv.Perm (Fin components.length)) : List Component :=
  List.ofFn (components.get ∘ order)

variable {components schema options}

theorem reordered_perm (order : Equiv.Perm (Fin components.length)) :
    (reordered components order).Perm components := by
  rw [reordered]
  exact (order.ofFn_comp_perm components.get).trans (List.Perm.of_eq (List.ofFn_get components))

theorem reordered_refl : reordered components (Equiv.refl _) = components :=
  List.ofFn_get components

/-- A batch in any order has the results of its components in that order. -/
theorem result_lowerAll_reordered_iff {order : Equiv.Perm (Fin components.length)}
    {outputs : List Output} :
    (lowerAll (reordered components order) schema options).result = .ok outputs ↔
      List.ofFn (resultAt components schema options ∘ order) = outputs.map .ok := by
  rw [lowerAll, Lowered.result_all_eq_ok_iff, globalTypes_eq_of_perm (reordered_perm order),
    List.map_map, reordered, List.map_ofFn]
  rfl

theorem result_lowerAll_iff {outputs : List Output} :
    (lowerAll components schema options).result = .ok outputs ↔
      List.ofFn (resultAt components schema options) = outputs.map .ok := by
  have h : (lowerAll (reordered components (Equiv.refl _)) schema options).result = .ok outputs ↔
      _ := result_lowerAll_reordered_iff
  rw [reordered_refl] at h
  exact h

/-- Where a batch succeeds, each place has its output. -/
theorem ofFn_eq_map_ok_iff {n : Nat} {results : Fin n → Except Fault Output}
    {outputs : List Output} :
    List.ofFn results = outputs.map .ok ↔
      ∃ output : Fin n → Output, outputs = List.ofFn output ∧
        ∀ place, results place = .ok (output place) := by
  constructor
  · intro h
    have hlength : n = outputs.length := by
      simpa using congrArg List.length h
    subst hlength
    refine ⟨outputs.get, (List.ofFn_get outputs).symm, congrFun ?_⟩
    rw [← List.ofFn_inj, h]
    conv => lhs; rw [← List.ofFn_get outputs, List.map_ofFn]
    rfl
  · rintro ⟨output, rfl, hresults⟩
    rw [List.map_ofFn, funext hresults]
    rfl

theorem isOk_lowerAll_reordered (order : Equiv.Perm (Fin components.length)) :
    (lowerAll (reordered components order) schema options).result.isOk = true ↔
      ∀ place, (resultAt components schema options place).isOk = true := by
  constructor
  · intro h place
    obtain ⟨outputs, houtputs⟩ := Lowered.exists_ok_of_isOk h
    obtain ⟨output, -, hresults⟩ := ofFn_eq_map_ok_iff.1 (result_lowerAll_reordered_iff.1 houtputs)
    have hplace := hresults (order.symm place)
    rw [Function.comp_apply, Equiv.apply_symm_apply] at hplace
    rw [hplace]
    rfl
  · intro h
    have hoks : ∀ place, ∃ output, resultAt components schema options place = .ok output :=
      fun place => Lowered.exists_ok_of_isOk (h place)
    choose output houtput using hoks
    have hresult : (lowerAll (reordered components order) schema options).result =
        .ok (List.ofFn (output ∘ order)) :=
      result_lowerAll_reordered_iff.2 <| ofFn_eq_map_ok_iff.2
        ⟨output ∘ order, rfl, fun place => houtput (order place)⟩
    rw [hresult]
    rfl

/-! ## Lowering side by side

A state has one slot for each component, and a step fills an open slot.  What a step preserves is
that every slot is open or holds the result of its own component.  Along a run this is kept by
induction, and full slots then hold what the batch gives in its order. -/

section Slots

variable (components)

/-- For each component of a batch its result, if it has one yet. -/
abbrev Slots := Fin components.length → Option (Except Fault Output)

variable (schema options)

/-- One component that has no result yet is lowered. -/
inductive Fills : Slots components → Slots components → Prop
  | lowered {slots : Slots components} {place : Fin components.length}
    (hopen : slots place = none) :
    Fills slots (Function.update slots place (some (resultAt components schema options place)))

/-- From one state of the slots to another in any number of steps. -/
abbrev Run : Slots components → Slots components → Prop :=
  Relation.ReflTransGen (Fills components schema options)

end Slots

namespace Slots

/-- Before the first step no component has a result. -/
def empty (components : List Component) : Slots components := fun _ => none

/-- All components have been lowered. -/
def IsFull (slots : Slots components) : Prop := ∀ place, slots place ≠ none

/-- The outputs in the order of the batch, if all are there and none is a fault. -/
def outputs? (slots : Slots components) : Option (List Output) :=
  (List.ofFn slots).mapM fun slot => slot.bind Except.toOption

end Slots

/-- What a step keeps: a slot is open or has the result of its own component. -/
theorem slots_of_fills {slots next : Slots components}
    (hstep : Fills components schema options slots next)
    (h : ∀ place, slots place = none ∨
      slots place = some (resultAt components schema options place))
    (place : Fin components.length) :
    next place = none ∨ next place = some (resultAt components schema options place) := by
  cases hstep with
  | @lowered filled hopen =>
    by_cases heq : place = filled
    · subst heq
      exact Or.inr (Function.update_self ..)
    · rw [Function.update_of_ne heq]
      exact h place

/-- After any steps a slot is open or has the result of its own component. -/
theorem slots_of_run {slots : Slots components}
    (hrun : Run components schema options (Slots.empty components) slots)
    (place : Fin components.length) :
    slots place = none ∨ slots place = some (resultAt components schema options place) := by
  induction hrun generalizing place with
  | refl => exact Or.inl rfl
  | tail _ hstep ih => exact slots_of_fills hstep ih place

/-- As long as a slot is open there is a step, so the places of any list can be filled. -/
theorem exists_run_filling (slots : Slots components) (places : List (Fin components.length)) :
    ∃ final, Run components schema options slots final ∧ (∀ place ∈ places, final place ≠ none) ∧
      ∀ place, slots place ≠ none → final place ≠ none := by
  induction places with
  | nil => exact ⟨slots, .refl, by simp, fun _ h => h⟩
  | cons first places ih =>
    obtain ⟨middle, hrun, hplaces, hkept⟩ := ih
    by_cases hopen : middle first = none
    · have hupdate : ∀ place, middle place ≠ none →
          Function.update middle first (some (resultAt components schema options first)) place ≠
            none := by
        intro place hplace
        by_cases heq : place = first
        · subst heq
          exact absurd hopen hplace
        · rwa [Function.update_of_ne heq]
      refine ⟨_, hrun.tail (.lowered hopen), List.forall_mem_cons.2 ⟨?_, ?_⟩, ?_⟩
      · rw [Function.update_self]
        exact Option.some_ne_none _
      · exact fun place hplace => hupdate place (hplaces place hplace)
      · exact fun place hplace => hupdate place (hkept place hplace)
    · exact ⟨middle, hrun, List.forall_mem_cons.2 ⟨hopen, hplaces⟩, hkept⟩

theorem toOption_result_all {α : Type} (xs : List (Lowered α)) :
    (Lowered.all xs).result.toOption = (xs.map (·.result)).mapM Except.toOption := by
  induction xs with
  | nil => rfl
  | cons x xs ih =>
    rw [List.map_cons, List.mapM_cons, ← ih]
    cases hx : x.result with
    | error fault =>
      rw [Lowered.result_all_cons_of_error hx]
      rfl
    | ok value =>
      rw [Lowered.result_all_cons_of_ok hx]
      cases (Lowered.all xs).result with
      | error fault => rfl
      | ok values => rfl

/-- Full slots hold, in the order of the batch, what lowering one component after another gives. -/
theorem outputs?_of_run {slots : Slots components}
    (hrun : Run components schema options (Slots.empty components) slots) (hfull : slots.IsFull) :
    slots.outputs? = (lowerAll components schema options).result.toOption := by
  have hslots : slots = some ∘ resultAt components schema options := funext fun place =>
    (slots_of_run hrun place).resolve_left (hfull place)
  have hresults : List.ofFn (resultAt components schema options) = (components.map fun component =>
      component.lower schema (globalTypes components) options).map (·.result) := by
    conv => rhs; rw [← List.ofFn_get components]
    rw [List.map_ofFn, List.map_ofFn, List.ofFn_get]
    rfl
  rw [Slots.outputs?, hslots, ← List.map_ofFn, List.mapM_map, lowerAll, toOption_result_all,
    ← hresults]
  rfl

end Batch

/-- **The order of a batch does not matter.**  In another order it succeeds just as well, with the
outputs in that order.  Lowered side by side, its components can always be finished and then give
the outputs of lowering them one after another; if that fails, then with the fault of the first
component that fails. -/
theorem lowerAll_anyOrder (components : List Component) (schema : Schema) (options : Options) :
    (∀ order : Equiv.Perm (Fin components.length),
      (lowerAll (reordered components order) schema options).result.isOk =
          (lowerAll components schema options).result.isOk ∧
        ∀ outputs, (lowerAll components schema options).result = .ok outputs →
          ∃ output : Fin components.length → Output, outputs = List.ofFn output ∧
            (lowerAll (reordered components order) schema options).result =
              .ok (List.ofFn (output ∘ order))) ∧
      (∀ slots, Run components schema options (Slots.empty components) slots →
        (∃ final, Run components schema options slots final ∧ final.IsFull) ∧
          (slots.IsFull → slots.outputs? = (lowerAll components schema options).result.toOption)) ∧
      ∀ fault, (lowerAll components schema options).result = .error fault ↔
        ∃ before component after, components = before ++ component :: after ∧
          (∀ other ∈ before,
            (other.lower schema (globalTypes components) options).result.isOk = true) ∧
          (component.lower schema (globalTypes components) options).result = .error fault := by
  refine ⟨fun order => ⟨?_, fun outputs houtputs => ?_⟩, fun slots hrun => ⟨?_, ?_⟩,
    fun fault => ?_⟩
  · have hsame : (lowerAll (reordered components (Equiv.refl _)) schema options).result.isOk =
        true ↔ _ := isOk_lowerAll_reordered (Equiv.refl _)
    rw [reordered_refl] at hsame
    exact Bool.eq_iff_iff.2 ((isOk_lowerAll_reordered order).trans hsame.symm)
  · obtain ⟨output, rfl, hresults⟩ := ofFn_eq_map_ok_iff.1 (result_lowerAll_iff.1 houtputs)
    refine ⟨output, rfl, result_lowerAll_reordered_iff.2 (ofFn_eq_map_ok_iff.2 ⟨_, rfl, ?_⟩)⟩
    exact fun place => hresults (order place)
  · obtain ⟨final, hfinal, hfull, -⟩ := exists_run_filling slots (List.finRange components.length)
    exact ⟨final, hfinal, fun place => hfull place (List.mem_finRange place)⟩
  · exact outputs?_of_run hrun
  · exact Lowered.result_all_map_eq_error_iff

/-- Two components in both orders and side by side. -/
theorem lowerAll_anyOrder_two :
    let batch := [plain "A", plain "B"]
    ∃ output : Fin 2 → Output,
      (lowerAll batch Schema.empty .default).result = .ok (List.ofFn output) ∧
        (lowerAll (reordered batch (Equiv.swap 0 1)) Schema.empty .default).result =
          .ok (List.ofFn (output ∘ Equiv.swap 0 1)) ∧
        ∃ final : Slots batch, Run batch Schema.empty .default (Slots.empty batch) final ∧
          final.IsFull ∧ final.outputs? = some (List.ofFn output) := by
  intro batch
  obtain ⟨outputs, houtputs⟩ := Lowered.exists_ok_of_isOk
    (show (lowerAll batch Schema.empty .default).result.isOk = true by decide +kernel)
  obtain ⟨horder, hruns, -⟩ := lowerAll_anyOrder batch Schema.empty .default
  obtain ⟨output, rfl, hswapped⟩ := (horder (Equiv.swap 0 1)).2 outputs houtputs
  obtain ⟨final, hfinal, hfull⟩ := (hruns (Slots.empty batch) .refl).1
  refine ⟨output, houtputs, hswapped, final, hfinal, hfull, ?_⟩
  rw [(hruns final hfinal).2 hfull, houtputs]
  rfl

end Component

end UiLowering
