import UiLowering.Call.Route

/-!
# Methods of the schema that calls go to

Whatever a call is looked up by, the method that is found belongs to a type of the schema.

What is known of a schema is asked of all its methods.  To use it for the method that a call goes
to, it has to be seen that the search ends in one of them, along the ancestors of a type, through
the index of functions, or among the candidates for a receiver of unknown type.
-/

set_option autoImplicit false

namespace UiLowering

namespace Schema

variable {schema : Schema} {method : ApiMethod}

/-- A method of one of the types. -/
def HasMethod (schema : Schema) (method : ApiMethod) : Prop :=
  ∃ name type, schema.get? name = some type ∧ method ∈ type.methods

theorem hasMethod_of_mem_collectMethods {name : String} (fuel : Nat) {type? : Option ApiType}
    (htype : ∀ type ∈ type?, ∃ key, schema.get? key = some type)
    (h : method ∈ schema.collectMethods name fuel type?) : schema.HasMethod method := by
  induction fuel generalizing type? with
  | zero => cases h
  | succ fuel ih =>
    cases type? with
    | none => cases h
    | some type =>
      rw [collectMethods] at h
      rcases List.mem_append.1 h with hown | hparent
      · obtain ⟨key, hkey⟩ := htype type rfl
        exact ⟨key, type, hkey, (List.mem_filter.1 hown).1⟩
      · refine ih (fun parent hparent => ?_) hparent
        obtain ⟨key, -, hkey⟩ := Option.bind_eq_some_iff.1 hparent
        exact ⟨key, hkey⟩

theorem hasMethod_of_mem_methodsNamed {typeName name : String}
    (h : method ∈ schema.methodsNamed typeName name) : schema.HasMethod method :=
  hasMethod_of_mem_collectMethods _ (fun _ htype => ⟨typeName, htype⟩) h

theorem exists_get?_of_mem_typeList {type : ApiType} (h : type ∈ schema.typeList) :
    ∃ name, schema.get? name = some type := by
  obtain ⟨⟨name, found⟩, hentry, rfl⟩ := List.mem_map.1 h
  exact ⟨name, Std.ExtTreeMap.mem_toList_iff_getElem?_eq_some.1 hentry⟩

theorem hasMethod_of_lookupFunction {name : String} {arity : Option Nat} {found : Function}
    (h : schema.lookupFunction name arity = some found) :
    schema.HasMethod found.method ∧ found.method.target? = some (found.space, found.function) := by
  obtain ⟨entry, -, hentry⟩ := List.exists_of_findSome?_eq_some h
  simp only [functionAt?, Option.bind_eq_bind, Option.bind_eq_some_iff] at hentry
  obtain ⟨type, htype, method, hmethod, ⟨space, function⟩, htarget, htakes⟩ := hentry
  split at htakes
  · cases htakes
    exact ⟨⟨entry.1, type, htype, List.mem_of_getElem? hmethod⟩, htarget⟩
  · cases htakes

end Schema

namespace Route

variable {env : Env} {receiver method : String} {argc : Nat}

theorem hasMethod_of_mem_candidates {found : ApiMethod}
    (h : found ∈ candidates env receiver method) : env.schema.HasMethod found := by
  unfold candidates at h
  split at h
  · exact Schema.hasMethod_of_mem_methodsNamed h
  · obtain ⟨type, htype, hfound⟩ := List.mem_flatMap.1 h
    obtain ⟨name, hname⟩ := Schema.exists_get?_of_mem_typeList (List.mem_filter.1 htype).1
    exact ⟨name, type, hname, (List.mem_filter.1 hfound).1⟩

theorem hasMethod_of_chosen? {found : ApiMethod} {passes : Bool}
    (h : chosen? env receiver method argc = some (found, passes)) : env.schema.HasMethod found := by
  suffices hmem : found ∈ candidates env receiver method from hasMethod_of_mem_candidates hmem
  unfold chosen? at h
  dsimp only at h
  split at h
  · rename_i choice hchoice
    cases h
    split at hchoice
    · cases hchoice
    · exact List.mem_of_find?_eq_some hchoice
  · split at h
    · obtain ⟨choice, hchoice, hpair⟩ := Option.map_eq_some_iff.1 h
      cases hpair
      exact List.mem_of_find?_eq_some hchoice
    · cases h

end Route

end UiLowering
