import UiLowering.Proofs.Call.Method

/-!
# What is known of the way a call goes

`Route.select` tries its ways one after the other.  `Route.Selected` lists the ways that it may
choose, each with what the choice promises: a shortcut is one of the family of the receiver, a
method belongs to the schema, a function is called with as many values as the schema declares
parameters, and the ways of types are chosen for types only.  What has to be known of a chosen way
is read off this list; no other proof goes through the ways again.
-/

set_option autoImplicit false

namespace UiLowering

theorem Shortcut.mem_table_of_find? {family : Family} {method : String} {argc : Nat}
    {found : Shortcut} (h : find? family method argc = some found) :
    found ∈ table family ∧ found.arity = argc := by
  have hmatch := List.find?_some h
  simp only [Bool.and_eq_true, beq_iff_eq] at hmatch
  exact ⟨List.mem_of_find?_eq_some h, hmatch.2⟩

namespace Route

/-- The ways that a call with `argc` arguments may go, with what is known of them. -/
inductive Selected (env : Env) (receiver method : String) (argc : Nat) : Route → Prop where
  | enumSize : Selected env receiver method argc .enumSize
  | shortcut {family : Family} {found : Shortcut} : env.familyOf? receiver = some family →
      Shortcut.find? family method argc = some found →
      Selected env receiver method argc (.shortcut found)
  | intrinsic {found : ApiMethod} : env.isStaticReceiver receiver = true →
      env.schema.HasMethod found → Selected env receiver method argc (.intrinsic found)
  | staticTemplate {found : ApiMethod} : env.isStaticReceiver receiver = true →
      env.schema.HasMethod found → Selected env receiver method argc (.staticTemplate found)
  | valueTemplate {found : ApiMethod} : env.schema.HasMethod found →
      Selected env receiver method argc (.valueTemplate found)
  | function {found : ApiMethod} {space function : String} {passes : Bool} :
      env.schema.HasMethod found → found.mapping = .function →
      found.target? = some (space, function) → found.params.length = argc + passes.toNat →
      Selected env receiver method argc (.function found space function passes)
  | unknownStatic : env.isStaticReceiver receiver = true →
      Selected env receiver method argc .unknownStatic
  | unknownMember : Selected env receiver method argc .unknownMember

variable {env : Env} {receiver method : String} {argc : Nat} {route : Route} {found : ApiMethod}

/-! ## One way at a time

Each way of `select` gives routes of its own kinds. -/

theorem selected_of_viaShortcut? (h : viaShortcut? env receiver method argc = some route) :
    route.Selected env receiver method argc := by
  obtain ⟨family, hfamily, hfind⟩ := Option.bind_eq_some_iff.1 h
  obtain ⟨shortcut, hshortcut, rfl⟩ := Option.map_eq_some_iff.1 hfind
  exact .shortcut hfamily hshortcut

theorem selected_of_viaStatic? (h : viaStatic? env receiver method argc = some route) :
    route.Selected env receiver method argc := by
  obtain ⟨hstatic, hfind⟩ := Option.ite_none_right_eq_some.1 h
  obtain ⟨found, hfound, hroute⟩ := List.exists_of_findSome?_eq_some hfind
  have hmethod := Schema.hasMethod_of_mem_methodsNamed hfound
  rw [staticRoute?] at hroute
  cases hmapping : found.mapping with
  | intrinsic =>
    simp only [hmapping, Option.ite_none_right_eq_some] at hroute
    obtain ⟨-, hroute⟩ := hroute
    cases hroute
    exact .intrinsic hstatic hmethod
  | template =>
    simp only [hmapping, Option.ite_none_right_eq_some] at hroute
    obtain ⟨-, hroute⟩ := hroute
    cases hroute
    exact .staticTemplate hstatic hmethod
  | function =>
    simp only [hmapping] at hroute
    cases hroute

theorem selected_of_viaValueTemplate?
    (h : viaValueTemplate? env receiver method argc = some route) :
    route.Selected env receiver method argc := by
  obtain ⟨-, hfind⟩ := Option.ite_none_left_eq_some.1 h
  obtain ⟨family, -, hroute⟩ := List.exists_of_findSome?_eq_some hfind
  cases hlookup : env.schema.lookupMethod family.typeName method (some argc) with
  | none =>
    simp only [hlookup] at hroute
    cases hroute
  | some found =>
    simp only [hlookup, Option.ite_none_right_eq_some] at hroute
    obtain ⟨-, hroute⟩ := hroute
    cases hroute
    exact .valueTemplate
      (Schema.hasMethod_of_mem_methodsNamed (List.mem_of_find?_eq_some hlookup))

theorem length_params_of_passesReceiver {owner : Option String}
    (h : env.passesReceiver owner argc found = true) :
    found.mapping = .function ∧ found.params.length = argc + 1 := by
  rw [Env.passesReceiver] at h
  split at h
  · rename_i first others hmapping hparams
    simp only [Bool.and_eq_true, beq_iff_eq] at h
    exact ⟨hmapping, by rw [hparams, List.length_cons, h.1.1]⟩
  · cases h

/-- The chosen method is mapped to a function, and has as many parameters as are passed. -/
theorem length_params_of_chosen? {passes : Bool}
    (h : chosen? env receiver method argc = some (found, passes)) :
    found.mapping = .function ∧ found.params.length = argc + passes.toNat := by
  rw [chosen?] at h
  split at h
  · rename_i choice hchoice
    cases h
    obtain ⟨-, hfind⟩ := Option.ite_none_left_eq_some.1 hchoice
    exact length_params_of_passesReceiver (List.find?_some hfind)
  · obtain ⟨-, hmap⟩ := Option.ite_none_right_eq_some.1 h
    obtain ⟨choice, hchoice, hpair⟩ := Option.map_eq_some_iff.1 hmap
    cases hpair
    simpa using List.find?_some hchoice

theorem selected_of_viaFunction? (h : viaFunction? env receiver method argc = some route) :
    route.Selected env receiver method argc := by
  obtain ⟨-, hrest⟩ := Option.ite_none_left_eq_some.1 h
  obtain ⟨⟨choice, passes⟩, hchosen, hrest⟩ := Option.bind_eq_some_iff.1 hrest
  obtain ⟨target, htarget, hroute⟩ := Option.bind_eq_some_iff.1 hrest
  cases hroute
  obtain ⟨hmapping, hlength⟩ := length_params_of_chosen? hchosen
  exact .function (hasMethod_of_chosen? hchosen) hmapping htarget hlength

/-! ## All ways

The first way that answers is taken, and the method call at the end is always there. -/

theorem selected_select (env : Env) (receiver method : String) (argc : Nat) :
    (select env receiver method argc).Selected env receiver method argc := by
  rw [select]
  split
  · exact .enumSize
  cases hshortcut : viaShortcut? env receiver method argc with
  | some route => exact selected_of_viaShortcut? hshortcut
  | none =>
  cases hstatic : viaStatic? env receiver method argc with
  | some route => exact selected_of_viaStatic? hstatic
  | none =>
  cases htemplate : viaValueTemplate? env receiver method argc with
  | some route => exact selected_of_viaValueTemplate? htemplate
  | none =>
  cases hfunction : viaFunction? env receiver method argc with
  | some route => exact selected_of_viaFunction? hfunction
  | none =>
    by_cases hreceiver : env.isStaticReceiver receiver = true
    · simp only [hreceiver, if_true]
      exact .unknownStatic hreceiver
    · simp only [hreceiver]
      exact .unknownMember

end Route

end UiLowering
