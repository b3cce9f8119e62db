import UiLowering.Proofs.Schema.Index
import UiLowering.Proofs.Wire.Schema

/-!
# What a schema that was written and read back still answers

A schema is written without its index, with the types in the order of their names, and read by
adding them in this order.  So all that is asked of the types is answered as before
(`followAlias_congr`, `hasAncestor_congr`, `collectMethods_congr`), but a function may be looked for
in another order.  `lookupFunction_typeList` says when the order makes no difference: the function
that was found has to be one of the type whose name comes first.
-/

set_option autoImplicit false

namespace UiLowering.Schema

/-! ## The types in the order of their names

The tree map lists its types in strictly ascending order of their names.  So no name comes twice,
and all types of the list are standing. -/

theorem name_of_mem_toList {history : List ApiType} {entry : String × ApiType}
    (h : entry ∈ (ofTypes history).types.toList) : entry.2.name = entry.1 :=
  name_of_get?_ofTypes (Std.ExtTreeMap.mem_toList_iff_getElem?_eq_some.1 h)

theorem mem_typeList_iff {history : List ApiType} {type : ApiType} :
    type ∈ (ofTypes history).typeList ↔ (ofTypes history).get? type.name = some type := by
  rw [typeList, List.mem_map, get?, ← Std.ExtTreeMap.mem_toList_iff_getElem?_eq_some]
  constructor
  · rintro ⟨entry, hentry, rfl⟩
    rw [name_of_mem_toList hentry]
    exact hentry
  · intro hentry
    exact ⟨(type.name, type), hentry, rfl⟩

theorem lt_of_compare_eq_lt {a b : String} (h : compare a b = .lt) : a < b := by
  change compareOfLessAndEq a b = .lt at h
  unfold compareOfLessAndEq at h
  split at h
  · assumption
  · split at h <;> cases h

theorem ordered_typeList (history : List ApiType) :
    (ofTypes history).typeList.Pairwise fun a b => a.name < b.name := by
  refine List.pairwise_map.2 (List.Pairwise.imp_of_mem ?_ Std.ExtTreeMap.ordered_keys_toList)
  intro a b ha hb hlt
  rw [name_of_mem_toList ha, name_of_mem_toList hb]
  exact lt_of_compare_eq_lt hlt

theorem standing_typeList (history : List ApiType) :
    standing (ofTypes history).typeList = (ofTypes history).typeList := by
  refine standing_eq_self (List.pairwise_map.2 ((ordered_typeList history).imp ?_))
  exact fun hlt => String.ne_of_lt hlt

/-! ## Questions about the types

Aliases, ancestors and methods are found by walks that ask the schema for the type of a name and for
nothing else.  Two schemas that have the same types give the same answers, whatever their indexes
are. -/

/-- Adding the types of a schema in the order of their names gives the same types. -/
theorem get?_ofTypes_typeList (history : List ApiType) (name : String) :
    (ofTypes (ofTypes history).typeList).get? name = (ofTypes history).get? name := by
  refine Option.ext fun type => ?_
  have hstored : (ofTypes (ofTypes history).typeList).get? type.name = some type ↔
      (ofTypes history).get? type.name = some type := by
    rw [← mem_standing_iff, standing_typeList, mem_typeList_iff]
  constructor
  · intro h
    cases name_of_get?_ofTypes h
    exact hstored.1 h
  · intro h
    cases name_of_get?_ofTypes h
    exact hstored.2 h

section

variable {first second : Schema} (h : ∀ name, first.get? name = second.get? name)

include h

theorem followAlias_congr (fuel : Nat) (name : String) :
    first.followAlias fuel name = second.followAlias fuel name := by
  induction fuel generalizing name with
  | zero => rfl
  | succ fuel ih => simp only [followAlias, h, ih]

theorem hasAncestor_congr (base : String) (fuel : Nat) (type : Option ApiType) :
    first.hasAncestor base fuel type = second.hasAncestor base fuel type := by
  induction fuel generalizing type with
  | zero => rfl
  | succ fuel ih =>
    cases type with
    | none => rfl
    | some type => simp only [hasAncestor, h, ih]

theorem collectMethods_congr (method : String) (fuel : Nat) (type : Option ApiType) :
    first.collectMethods method fuel type = second.collectMethods method fuel type := by
  induction fuel generalizing type with
  | zero => rfl
  | succ fuel ih =>
    cases type with
    | none => rfl
    | some type => rw [collectMethods, collectMethods, ih, funext h]

theorem methodsNamed_congr (typeName method : String) :
    first.methodsNamed typeName method = second.methodsNamed typeName method := by
  rw [methodsNamed, methodsNamed, h, collectMethods_congr h]

end

/-! ## Looking up a function

This is the one question that depends on the order in which the types were added.  After reading
that is the order of the names, so the answer is the first function by the name of its type.  The
lookup is written as a search through the types to compare the two orders. -/

/-- The first function of a type that answers. -/
def answer? (name : String) (arity : Option Nat) (type : ApiType) : Option Function :=
  (functionsOf type).find? (answers name arity)

theorem typeName_of_answer? {name : String} {arity : Option Nat} {type : ApiType}
    {found : Function} (h : answer? name arity type = some found) : found.typeName = type.name :=
  (mem_functionsOf_iff.1 (List.mem_of_find?_eq_some h)).1

theorem lookupFunction_eq_findSome? (history : List ApiType) (name : String)
    (arity : Option Nat) :
    (ofTypes history).lookupFunction name arity =
      (standing history).findSome? (answer? name arity) := by
  rw [lookupFunction_ofTypes, List.find?_flatMap]
  rfl

/-- Whether the function that is found belongs to the first type, by name, that has one. -/
def FindsFirst (schema : Schema) (name : String) (arity : Option Nat) : Prop :=
  ∀ found, schema.lookupFunction name arity = some found →
    ∀ type, schema.get? type.name = some type → (answer? name arity type).isSome →
      found.typeName ≤ type.name

/-- In the order of the names it does. -/
theorem findsFirst_ofTypes_typeList (history : List ApiType) (name : String)
    (arity : Option Nat) : (ofTypes (ofTypes history).typeList).FindsFirst name arity := by
  intro found hfound type htype hanswer
  rw [← mem_standing_iff, standing_typeList] at htype
  rw [lookupFunction_eq_findSome?, standing_typeList] at hfound
  obtain ⟨before, owner, after, hlist, howner, hbefore⟩ := List.findSome?_eq_some_iff.1 hfound
  have hordered := ordered_typeList history
  rw [hlist] at htype hordered
  rw [typeName_of_answer? howner]
  rcases List.mem_append.1 htype with hmem | hmem
  · rw [hbefore type hmem] at hanswer
    exact absurd hanswer (by decide)
  · rcases List.mem_cons.1 hmem with rfl | hmem
    · exact String.le_refl _
    · have hafter := (List.pairwise_append.1 hordered).2.1
      exact String.not_lt.1 (String.lt_asymm (List.rel_of_pairwise_cons hafter hmem))

/-- A function that is found first by name does not depend on the order in which the types were
added. -/
theorem lookupFunction_eq_of_findsFirst {first second : List ApiType}
    (htypes : ∀ name, (ofTypes first).get? name = (ofTypes second).get? name)
    {name : String} {arity : Option Nat} (hfirst : (ofTypes first).FindsFirst name arity)
    (hsecond : (ofTypes second).FindsFirst name arity) :
    (ofTypes first).lookupFunction name arity = (ofTypes second).lookupFunction name arity := by
  have hmem : ∀ type, type ∈ standing first ↔ type ∈ standing second := by
    intro type
    rw [mem_standing_iff, mem_standing_iff, htypes]
  cases hleft : (ofTypes first).lookupFunction name arity with
  | none =>
    rw [lookupFunction_eq_findSome?, List.findSome?_eq_none_iff] at hleft
    rw [lookupFunction_eq_findSome?, eq_comm, List.findSome?_eq_none_iff]
    exact fun type htype => hleft type ((hmem type).2 htype)
  | some found =>
    have hfound := hleft
    rw [lookupFunction_eq_findSome?] at hfound
    obtain ⟨owner, howner, hanswer⟩ := List.exists_of_findSome?_eq_some hfound
    cases hright : (ofTypes second).lookupFunction name arity with
    | none =>
      rw [lookupFunction_eq_findSome?, List.findSome?_eq_none_iff] at hright
      rw [hright owner ((hmem owner).1 howner)] at hanswer
      cases hanswer
    | some other =>
      have hother := hright
      rw [lookupFunction_eq_findSome?] at hother
      obtain ⟨holder, hholder, hreply⟩ := List.exists_of_findSome?_eq_some hother
      -- each of the two types comes no later than the other, so they have one name
      have hle := hfirst found hleft holder (mem_standing_iff.1 ((hmem holder).2 hholder))
        (Option.isSome_of_eq_some hreply)
      have hge := hsecond other hright owner (mem_standing_iff.1 ((hmem owner).1 howner))
        (Option.isSome_of_eq_some hanswer)
      rw [typeName_of_answer? hanswer] at hle
      rw [typeName_of_answer? hreply] at hge
      have hsame : owner = holder := by
        have hstored := mem_standing_iff.1 ((hmem owner).1 howner)
        rw [String.le_antisymm hle hge, mem_standing_iff.1 hholder] at hstored
        exact (Option.some.inj hstored).symm
      rw [← hanswer, ← hreply, hsame]

theorem findsFirst_congr {first second : Schema} {name : String} {arity : Option Nat}
    (htypes : ∀ name, first.get? name = second.get? name)
    (hlookup : first.lookupFunction name arity = second.lookupFunction name arity)
    (h : first.FindsFirst name arity) : second.FindsFirst name arity := by
  intro found hfound type htype
  rw [← hlookup] at hfound
  rw [← htypes] at htype
  exact h found hfound type htype

/-- **Looking up a function in the order of the names** gives what it gave before if that was the
first function by the name of its type, and only then. -/
theorem lookupFunction_typeList (history : List ApiType) (name : String) (arity : Option Nat) :
    (ofTypes (ofTypes history).typeList).lookupFunction name arity =
        (ofTypes history).lookupFunction name arity ↔
      (ofTypes history).FindsFirst name arity := by
  have htypes := get?_ofTypes_typeList history
  have hfirst := findsFirst_ofTypes_typeList history name arity
  exact ⟨fun h => findsFirst_congr htypes h hfirst, lookupFunction_eq_of_findsFirst htypes hfirst⟩

/-! ## The schema that is read back

The types are written and read by any two functions of which the second undoes the first; what a
schema then answers does not depend on them.  The JSON of this library is one such pair. -/

/-- What is read back is the schema of the types in the order of their names. -/
theorem readWith_writeWith {τ : Type} {write : List ApiType → τ}
    {read : τ → Option (List ApiType)} (hread : ∀ types, read (write types) = some types)
    (schema : Schema) :
    readWith read (schema.writeWith write) = some (ofTypes schema.typeList) := by
  rw [readWith, writeWith, hread, Option.map_some]

/-- **A schema that is written and read back**, in any form from which its types can be read.  What
was written for a schema can be read, and the schema that is read answers all questions about types
and methods as before.  A function is found as before if it was the first one by the name of its
type, and only then. -/
theorem restored_answers {τ : Type} (write : List ApiType → τ) (read : τ → Option (List ApiType))
    (hread : ∀ types, read (write types) = some types) (history : List ApiType) :
    ∃ restored, readWith read ((ofTypes history).writeWith write) = some restored ∧
      (∀ name, restored.get? name = (ofTypes history).get? name) ∧
      (∀ name, restored.resolveAlias name = (ofTypes history).resolveAlias name) ∧
      (∀ name, restored.isHandle name = (ofTypes history).isHandle name) ∧
      (∀ derived base,
        restored.inheritsFrom derived base = (ofTypes history).inheritsFrom derived base) ∧
      (∀ typeName method,
        restored.methodsNamed typeName method = (ofTypes history).methodsNamed typeName method) ∧
      (∀ typeName method arity, restored.lookupMethod typeName method arity =
        (ofTypes history).lookupMethod typeName method arity) ∧
      ∀ name arity,
        restored.lookupFunction name arity = (ofTypes history).lookupFunction name arity ↔
          (ofTypes history).FindsFirst name arity := by
  have htypes := get?_ofTypes_typeList history
  refine ⟨_, readWith_writeWith hread _, htypes, followAlias_congr htypes maxLinks, ?_, ?_,
    methodsNamed_congr htypes, ?_, lookupFunction_typeList history⟩
  · intro name
    rw [isHandle, isHandle, htypes]
  · intro derived base
    rw [inheritsFrom, inheritsFrom, htypes, hasAncestor_congr htypes]
  · intro typeName method arity
    rw [lookupMethod, lookupMethod, methodsNamed_congr htypes]

/-- Two types with a function of one name, not in the order of their names. -/
def unordered : List ApiType :=
  [{ ApiType.plain "B" with methods := [.plain "f" .function "b::f"] },
    { ApiType.plain "A" with methods := [.plain "f" .function "a::f"] }]

/-- The text of the two types can be read, and the schema that is read has the same methods. -/
theorem restored_answers_unordered :
    (∀ types, typesOfText? (typesText types) = some types) ∧
      ∃ restored, readWith typesOfText? ((ofTypes unordered).writeWith typesText) = some restored ∧
        (∀ name, restored.get? name = (ofTypes unordered).get? name) ∧
        (restored.lookupMethod "B" "f" none).map (·.mappingValue) = some "b::f" := by
  obtain ⟨restored, hrestored, htypes, -, -, -, -, hmethod, -⟩ :=
    restored_answers typesText typesOfText? typesOfText?_typesText unordered
  refine ⟨typesOfText?_typesText, restored, hrestored, htypes, ?_⟩
  rw [hmethod]
  decide +kernel

/-- Another function is found once the two are read back. -/
theorem restored_lookup_differs :
    ∃ restored, readWith typesOfText? ((ofTypes unordered).writeWith typesText) = some restored ∧
      ((ofTypes unordered).lookupFunction "f" none).map (·.space) = some "b" ∧
      (restored.lookupFunction "f" none).map (·.space) = some "a" :=
  ⟨_, readWith_writeWith typesOfText?_typesText _, by decide +kernel, by decide +kernel⟩

end UiLowering.Schema
