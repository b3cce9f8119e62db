import UiLowering.Proofs.Call.Route
import UiLowering.Proofs.Call.Selected
import UiLowering.Proofs.Nodes

/-!
# Callbacks that are given by value

A call that goes to a method of the schema gives each of its arguments for a parameter of this
method; if the receiver is passed as first argument, the arguments start with the second parameter.
`Env.callee?` says which method it is and how many parameters the receiver takes.

Whatever way a call goes to its method, the callbacks are checked before any argument is lowered.
So a call that is lowered gives all of them by reference (`Env.not_takesByValue_of_lowered`), and
one that gives a callback by value is refused.
-/

set_option autoImplicit false

namespace UiLowering

/-! ## The method that is called

A way of `Route.select` names a method of the schema or none.  A call without receiver finds its
method by name.  Both cases are put into one function, so that what is said below about callbacks
does not depend on how the method was found. -/

/-- A method of the schema that a call goes to, and the number of parameters that the receiver
takes. -/
structure Callee where
  method : ApiMethod
  skipped : Nat

/-- The parameters that are left for the arguments. -/
def Callee.params (callee : Callee) : List ApiParam := callee.method.params.drop callee.skipped

/-- The argument of a call for a callback parameter is not a reference. -/
def Callee.TakesByValue (callee : Callee) (call : Call Expr) (param : ApiParam) : Prop :=
  ∃ i arg, call.args[i]? = some arg ∧ callee.method.params[i + callee.skipped]? = some param ∧
    param.isCallback = true ∧ arg.byReference = false

/-- The method that a way leads to. -/
def Route.callee? : Route → Option Callee
  | .intrinsic method | .staticTemplate method | .valueTemplate method => some ⟨method, 0⟩
  | .function method _ _ passesReceiver => some ⟨method, if passesReceiver then 1 else 0⟩
  | .enumSize | .shortcut _ | .unknownStatic | .unknownMember => none

namespace Env

/-- A call with the code of its arguments. -/
def codedCall (env : Env) (call : Call Expr) : Call Coded :=
  ⟨call.name, call.args.map env.codedArg, call.line⟩

/-- The method of the schema that a call goes to. -/
def callee? (env : Env) (call : Call Expr) : Option Callee :=
  match splitReceiver call.name with
  | some (receiver, method) => (Route.select env receiver method call.args.length).callee?
  | none => (globalFunction? env (env.codedCall call)).map fun found => ⟨found.method, 0⟩

end Env

/-! ## Callees belong to the schema

This is read off the list of ways in `Route.Selected`: every way that names a method says that the
schema has it. -/

namespace Route

variable {env : Env} {receiver method : String} {argc : Nat} {callee : Callee}

/-- Whatever way a call with a receiver goes, its callee belongs to the schema. -/
theorem hasMethod_of_select (h : (select env receiver method argc).callee? = some callee) :
    env.schema.HasMethod callee.method := by
  have hselected := selected_select env receiver method argc
  generalize select env receiver method argc = route at h hselected
  cases hselected with
  | intrinsic _ hmethod | staticTemplate _ hmethod | valueTemplate hmethod | function hmethod =>
    cases h
    exact hmethod
  | enumSize | shortcut | unknownStatic | unknownMember => cases h

end Route

theorem Env.hasMethod_of_callee? {env : Env} {call : Call Expr} {callee : Callee}
    (h : env.callee? call = some callee) : env.schema.HasMethod callee.method := by
  unfold callee? at h
  split at h
  · exact Route.hasMethod_of_select h
  · obtain ⟨found, hfound, rfl⟩ := Option.map_eq_some_iff.1 h
    obtain ⟨-, hlookup⟩ := Option.ite_none_left_eq_some.1 hfound
    exact (Schema.hasMethod_of_lookupFunction hlookup).1

/-! ## The check

The check goes through parameters and arguments side by side, as two lists.  `TakesByValue` speaks
of positions instead.  The lemmas here go from one to the other, in both directions: the check
refuses a callback given by value, and it refuses nothing else. -/

theorem refusedCallback?_eq_some {params : List ApiParam} {args : List (Arg Coded)}
    {param : ApiParam} (h : refusedCallback? params args = some param) :
    ∃ (i : Nat) (arg : Arg Coded), args[i]? = some arg ∧ params[i]? = some param ∧
      param.isCallback = true ∧ arg.byReference = false := by
  obtain ⟨pair, hpair, hfound⟩ := List.exists_of_findSome?_eq_some h
  obtain ⟨hrefused, heq⟩ := Option.ite_none_right_eq_some.1 hfound
  cases heq
  obtain ⟨i, hi⟩ := List.mem_iff_getElem?.1 hpair
  obtain ⟨harg, hparam⟩ := List.getElem?_zip_eq_some.1 hi
  simp only [Bool.and_eq_true, Bool.not_eq_true'] at hrefused
  exact ⟨i, pair.1, harg, hparam, hrefused⟩

theorem refusedCallback?_eq_none {params : List ApiParam} {args : List (Arg Coded)}
    (h : refusedCallback? params args = none) {i : Nat} {arg : Arg Coded} {param : ApiParam}
    (harg : args[i]? = some arg) (hparam : params[i]? = some param)
    (hcallback : param.isCallback = true) : arg.byReference = true := by
  have hmem : (arg, param) ∈ args.zip params :=
    List.mem_iff_getElem?.2 ⟨i, List.getElem?_zip_eq_some.2 ⟨harg, hparam⟩⟩
  have hnone := List.findSome?_eq_none_iff.1 h (arg, param) hmem
  simpa [hcallback] using hnone

namespace Callee

variable {env : Env} {callee : Callee} {call : Call Expr} {param : ApiParam}

theorem takesByValue_of_refused
    (h : refusedCallback? callee.params (env.codedCall call).args = some param) :
    callee.TakesByValue call param := by
  obtain ⟨i, coded, hcoded, hparam, hcallback, hvalue⟩ := refusedCallback?_eq_some h
  have hmap : (call.args.map env.codedArg)[i]? = some coded := hcoded
  rw [List.getElem?_map, Option.map_eq_some_iff] at hmap
  obtain ⟨arg, harg, rfl⟩ := hmap
  rw [params, List.getElem?_drop, Nat.add_comm] at hparam
  exact ⟨i, arg, harg, hparam, hcallback, hvalue⟩

theorem not_takesByValue_of_not_refused
    (h : refusedCallback? callee.params (env.codedCall call).args = none) :
    ¬callee.TakesByValue call param := by
  rintro ⟨i, arg, harg, hparam, hcallback, hvalue⟩
  have hcoded : (env.codedCall call).args[i]? = some (env.codedArg arg) := by
    rw [Env.codedCall, List.getElem?_map, harg, Option.map_some]
  rw [Nat.add_comm, ← List.getElem?_drop] at hparam
  have href := refusedCallback?_eq_none h hcoded hparam hcallback
  rw [Env.codedArg, hvalue] at href
  cases href

/-- The check fails for a callback that is given by value. -/
theorem faults_checkCallbacks {P : Fault → Prop}
    (h : ∀ param, callee.TakesByValue call param →
      P (.callbackByValue call.name param.name call.line)) :
    (checkCallbacks (env.codedCall call) callee.params).Faults P := by
  unfold checkCallbacks
  split
  · rename_i param hrefused
    intro fault hfault
    cases hfault
    exact h param (takesByValue_of_refused hrefused)
  · exact Lowered.faults_pure ()

/-- After the check no callback is given by value. -/
theorem not_takesByValue_of_check
    (h : (checkCallbacks (env.codedCall call) callee.params).result = .ok ()) :
    ¬callee.TakesByValue call param := by
  unfold checkCallbacks at h
  split at h
  · cases h
  · rename_i hnone
    exact not_takesByValue_of_not_refused hnone

theorem check_of_not_takesByValue (h : ∀ param, ¬callee.TakesByValue call param) :
    (checkCallbacks (env.codedCall call) callee.params).result = .ok () := by
  rw [checkCallbacks]
  cases hrefused : refusedCallback? callee.params (env.codedCall call).args with
  | none => rfl
  | some param => exact absurd (takesByValue_of_refused hrefused) (h param)

end Callee

/-! ## Calls that are lowered

Each way to a method of the schema begins with the check, so its success can be taken from the
success of the whole.  The five ways differ in what they do behind it, which does not matter
here. -/

/-- A call that goes to a method of the schema passes the check first, whatever its way. -/
theorem check_of_routeCode {env : Env} {call : Call Coded} {receiver method text : String}
    {route : Route} {callee : Callee} (hcallee : route.callee? = some callee)
    (h : (routeCode env call receiver method route).result = .ok text) :
    (checkCallbacks call callee.params).result = .ok () := by
  cases route with
  | enumSize => cases hcallee
  | shortcut shortcut => cases hcallee
  | intrinsic found =>
    cases hcallee
    obtain ⟨_, hcheck, -⟩ := Lowered.result_bind_eq_ok_iff.1 h
    exact hcheck
  | staticTemplate found =>
    cases hcallee
    obtain ⟨_, hcheck, -⟩ := Lowered.result_bind_eq_ok_iff.1 h
    exact hcheck
  | valueTemplate found =>
    cases hcallee
    obtain ⟨_, hcheck, -⟩ := Lowered.result_bind_eq_ok_iff.1 h
    exact hcheck
  | function found space function passesReceiver =>
    cases hcallee
    obtain ⟨_, hcheck, -⟩ := Lowered.result_bind_eq_ok_iff.1 h
    cases passesReceiver with
    | true => exact hcheck
    | false => exact hcheck
  | unknownStatic => cases hcallee
  | unknownMember => cases hcallee

theorem Env.exprText_codedCall (env : Env) (call : Call Expr) :
    env.exprText (.call call) = callCode env (env.codedCall call) :=
  exprText_call call

/-- **No callback is missed.**  A call that is lowered through a method of the schema gives all
callbacks by reference. -/
theorem Env.not_takesByValue_of_lowered {env : Env} {call : Call Expr} {callee : Callee}
    {text : String} (hcallee : env.callee? call = some callee)
    (h : (env.exprText (.call call)).result = .ok text) (param : ApiParam) :
    ¬callee.TakesByValue call param := by
  suffices hcheck : (checkCallbacks (env.codedCall call) callee.params).result = .ok () from
    Callee.not_takesByValue_of_check hcheck
  rw [exprText_codedCall, callCode] at h
  unfold callee? at hcallee
  rw [codedCall, List.length_map] at h
  split at hcallee
  · rename_i receiver method hsplit
    simp only [hsplit] at h
    exact check_of_routeCode hcallee h
  · rename_i hsplit
    simp only [hsplit] at h
    obtain ⟨found, hfound, rfl⟩ := Option.map_eq_some_iff.1 hcallee
    rw [codedCall] at hfound
    rw [plainCode, hfound] at h
    obtain ⟨noted, -, h⟩ := Lowered.result_bind_eq_ok_iff.1 h
    obtain ⟨_, hcheck, -⟩ := Lowered.result_bind_eq_ok_iff.1 h
    exact hcheck

end UiLowering
