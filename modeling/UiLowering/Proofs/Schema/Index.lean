import Mathlib.Data.List.Induction
import Mathlib.Data.List.Nodup
import UiLowering.Proofs.Names
import UiLowering.Schema.Lookup

/-!
# The index of functions after any history

A schema arises from adding types one after another, and a type takes the place of an earlier one of
its name.  `standing` lists the types that are left of such a history, in the order in which they
were added last.

The index is brought up to date with each type: the entries of the old type are taken out of all
lists and those of the new one are put at their ends.  `getD_functions_ofTypes` says what this comes
to: under each key stand the entries of the standing types, type after type.  From there it follows
that the index has the methods that are stored now and no others, each once, and that a function is
looked for in the order in which the types were added last.
-/

set_option autoImplicit false

namespace UiLowering.Schema

/-! ## The types that are left of a history

The index refers to types by name and to methods by position, so replacing a type would leave
entries that point into another one.  `standing` says, by the history alone, which types an entry
can be about. -/

/-- The types that no later one of the same name replaces, in the order in which they were
added. -/
def standing : List ApiType → List ApiType
  | [] => []
  | type :: later =>
    if later.any (·.name == type.name) then standing later else type :: standing later

theorem standing_subset (history : List ApiType) : standing history ⊆ history := by
  induction history with
  | nil => exact List.Subset.refl []
  | cons type later ih =>
    rw [standing]
    split
    · exact fun found hfound => List.mem_cons_of_mem type (ih hfound)
    · exact List.cons_subset_cons type ih

theorem nodup_names_standing (history : List ApiType) :
    ((standing history).map (·.name)).Nodup := by
  induction history with
  | nil => exact List.nodup_nil
  | cons type later ih =>
    rw [standing]
    split
    · exact ih
    · rename_i hlast
      rw [List.map_cons, List.nodup_cons]
      refine ⟨fun hmem => hlast ?_, ih⟩
      obtain ⟨other, hother, hname⟩ := List.mem_map.1 hmem
      exact List.any_eq_true.2 ⟨other, standing_subset later hother, beq_iff_eq.2 hname⟩

/-- A type that is added takes the place of the one of its name and comes last. -/
theorem standing_concat (history : List ApiType) (type : ApiType) :
    standing (history ++ [type]) = (standing history).filter (·.name != type.name) ++ [type] := by
  induction history with
  | nil => rfl
  | cons first later ih =>
    rw [List.cons_append, standing, standing, ih, List.any_append]
    by_cases hlater : later.any (·.name == first.name) = true
    · simp [hlater]
    · by_cases hname : type.name = first.name
      · simp [hlater, hname]
      · simp [hlater, hname, Ne.symm hname]

/-- The names of the types of a history stay where they are if no name comes twice. -/
theorem standing_eq_self {history : List ApiType} (h : (history.map (·.name)).Nodup) :
    standing history = history := by
  induction history with
  | nil => rfl
  | cons type later ih =>
    rw [List.map_cons, List.nodup_cons] at h
    have hlast : ¬later.any (·.name == type.name) = true := by
      intro hany
      obtain ⟨other, hother, hname⟩ := List.any_eq_true.1 hany
      exact h.1 (List.mem_map.2 ⟨other, hother, beq_iff_eq.1 hname⟩)
    rw [standing, if_neg hlast, ih h.2]

theorem ofTypes_concat (history : List ApiType) (type : ApiType) :
    ofTypes (history ++ [type]) = (ofTypes history).insert type := by
  rw [ofTypes, List.foldl_concat, ofTypes]

/-! ## The types of a schema

The map from names to types is the easy half: adding overwrites, so the type of a name is the one
that was added last. -/

/-- The type of a name is the standing one. -/
theorem get?_ofTypes (history : List ApiType) (name : String) :
    (ofTypes history).get? name = (standing history).find? (·.name == name) := by
  induction history using List.reverseRecOn with
  | nil => simp [ofTypes, empty, get?, standing]
  | append_singleton history type ih =>
    rw [ofTypes_concat, standing_concat, List.find?_append, get?, insert,
      Std.ExtTreeMap.getElem?_insert]
    rw [get?] at ih
    by_cases hname : type.name = name
    · have hnone : ((standing history).filter (·.name != type.name)).find? (·.name == name) =
          none := by
        rw [List.find?_eq_none]
        intro other hother
        rw [List.mem_filter, hname] at hother
        simpa using hother.2
      rw [hnone]
      simp [hname]
    · have hsame : ((standing history).filter (·.name != type.name)).find? (·.name == name) =
          (standing history).find? (·.name == name) := by
        rw [List.find?_filter]
        refine congrArg (List.find? · _) (funext fun other => ?_)
        by_cases hother : other.name = name
        · simp [hother, Ne.symm hname]
        · simp [hother]
      simp [hname, hsame, ih]

/-- The stored types are the standing ones. -/
theorem mem_standing_iff {history : List ApiType} {type : ApiType} :
    type ∈ standing history ↔ (ofTypes history).get? type.name = some type := by
  rw [get?_ofTypes]
  constructor
  · intro hmem
    cases hfind : (standing history).find? (·.name == type.name) with
    | none => exact absurd (beq_self_eq_true type.name) (List.find?_eq_none.1 hfind type hmem)
    | some found =>
      have hname : found.name = type.name := by simpa using List.find?_some hfind
      rw [List.inj_on_of_nodup_map (nodup_names_standing history) (List.mem_of_find?_eq_some hfind)
        hmem hname]
  · exact List.mem_of_find?_eq_some

theorem name_of_get?_ofTypes {history : List ApiType} {name : String} {type : ApiType}
    (h : (ofTypes history).get? name = some type) : type.name = name := by
  rw [get?_ofTypes] at h
  simpa using List.find?_some h

/-! ## The entries of a type

A type can map several methods to functions of one name, and it has one entry for each.  The
position tells the entries of a type apart. -/

/-- The entries that a type has under a key, by the positions of its methods. -/
def entriesFor (key : String) (type : ApiType) : List (String × Nat) :=
  (mappedFunctions type).filterMap fun (function, i) =>
    if function == key then some (type.name, i) else none

theorem mem_mappedFunctions_iff {type : ApiType} {key : String} {i : Nat} :
    (key, i) ∈ mappedFunctions type ↔ ∃ method space function, type.methods[i]? = some method ∧
      method.target? = some (space, function) ∧ Text.snakeCase function = key := by
  simp only [mappedFunctions, List.mem_filterMap, Prod.exists, List.mem_zipIdx_iff_getElem?,
    Option.map_eq_some_iff, Prod.mk.injEq]
  constructor
  · rintro ⟨method, j, hmethod, space, function, htarget, hkey, rfl⟩
    exact ⟨method, space, function, hmethod, htarget, hkey⟩
  · rintro ⟨method, space, function, hmethod, htarget, hkey⟩
    exact ⟨method, i, hmethod, space, function, htarget, hkey, rfl⟩

theorem mem_entriesFor_iff {key owner : String} {type : ApiType} {i : Nat} :
    (owner, i) ∈ entriesFor key type ↔ owner = type.name ∧ (key, i) ∈ mappedFunctions type := by
  simp only [entriesFor, List.mem_filterMap, Prod.exists, Option.ite_none_right_eq_some, beq_iff_eq,
    Option.some.injEq, Prod.mk.injEq]
  constructor
  · rintro ⟨function, j, hmem, rfl, rfl, rfl⟩
    exact ⟨rfl, hmem⟩
  · rintro ⟨rfl, hmem⟩
    exact ⟨key, i, hmem, rfl, rfl, rfl⟩

theorem nodup_entriesFor (key : String) (type : ApiType) : (entriesFor key type).Nodup := by
  have hpositions : type.methods.zipIdx.Pairwise fun a b => a.2 ≠ b.2 := by
    refine List.pairwise_map.1 ?_
    rw [List.zipIdx_map_snd]
    exact List.nodup_range'
  have hmapped : (mappedFunctions type).Pairwise fun a b => a.2 ≠ b.2 := by
    refine hpositions.filterMap _ fun a b hab c hc d hd => ?_
    obtain ⟨-, -, rfl⟩ := Option.map_eq_some_iff.1 hc
    obtain ⟨-, -, rfl⟩ := Option.map_eq_some_iff.1 hd
    exact hab
  refine hmapped.filterMap _ fun a b hab c hc d hd hcd => hab ?_
  obtain ⟨-, hc⟩ := Option.ite_none_right_eq_some.1 hc
  obtain ⟨-, hd⟩ := Option.ite_none_right_eq_some.1 hd
  cases hc
  cases hd
  exact (Prod.mk.inj hcd).2

/-! ## One more type

Adding a type filters every list of the index and then appends to some.  The lemma on one step says
what becomes of the list under one key.  It says the same of a history that `standing_concat` says
of the types, and this is what carries the induction. -/

theorem getD_withEntry (functions : NameMap (List (String × Nat))) (key function : String)
    (entry : String × Nat) :
    (withEntry functions function entry).getD key [] =
      functions.getD key [] ++ if function == key then [entry] else [] := by
  rw [withEntry, Std.ExtTreeMap.getD_insert]
  by_cases h : function = key
  · simp [h]
  · simp [h]

theorem getD_foldl_withEntry (entries : List (String × Nat)) (owner key : String)
    (functions : NameMap (List (String × Nat))) :
    (entries.foldl (fun functions (function, i) => withEntry functions function (owner, i))
        functions).getD key [] =
      functions.getD key [] ++ entries.filterMap fun (function, i) =>
        if function == key then some (owner, i) else none := by
  induction entries generalizing functions with
  | nil => simp
  | cons entry entries ih =>
    rw [List.foldl_cons, ih, getD_withEntry, List.append_assoc, List.filterMap_cons]
    by_cases h : entry.1 = key
    · simp [h]
    · simp [h]

theorem getD_withoutOwner (functions : NameMap (List (String × Nat))) (owner key : String) :
    (withoutOwner functions owner).getD key [] =
      (functions.getD key []).filter fun entry => entry.1 != owner := by
  rw [withoutOwner, Std.ExtTreeMap.getD_map, Std.ExtTreeMap.getD_eq_getD_getElem?]
  cases functions[key]? with
  | none => rfl
  | some entries => rfl

/-- **One more type.**  Its entries come last, and those of the type it replaces are gone. -/
theorem getD_functions_insert (schema : Schema) (type : ApiType) (key : String) :
    (schema.insert type).functions.getD key [] =
      (schema.functions.getD key []).filter (fun entry => entry.1 != type.name) ++
        entriesFor key type := by
  rw [insert, getD_foldl_withEntry, getD_withoutOwner, entriesFor]

/-- The entries of a type go with it. -/
theorem filter_flatMap_entriesFor (types : List ApiType) (key owner : String) :
    (types.flatMap (entriesFor key)).filter (fun entry => entry.1 != owner) =
      (types.filter (·.name != owner)).flatMap (entriesFor key) := by
  induction types with
  | nil => rfl
  | cons type types ih =>
    rw [List.flatMap_cons, List.filter_append, ih, List.filter_cons]
    by_cases hname : type.name = owner
    · have hnone : (entriesFor key type).filter (fun entry => entry.1 != owner) = [] := by
        refine List.filter_eq_nil_iff.2 fun entry hentry => ?_
        simp [(mem_entriesFor_iff.1 hentry).1, hname]
      simp [hname, hnone]
    · have hall : (entriesFor key type).filter (fun entry => entry.1 != owner) =
          entriesFor key type := by
        refine List.filter_eq_self.2 fun entry hentry => ?_
        simp [(mem_entriesFor_iff.1 hentry).1, hname]
      simp [hname, hall]

/-- **The index after any history.**  The induction is on the history, from its end: the last type
was added to the schema of the types before it. -/
theorem getD_functions_ofTypes (history : List ApiType) (key : String) :
    (ofTypes history).functions.getD key [] = (standing history).flatMap (entriesFor key) := by
  induction history using List.reverseRecOn with
  | nil => simp [ofTypes, empty, standing]
  | append_singleton history type ih =>
    rw [ofTypes_concat, getD_functions_insert, ih, filter_flatMap_entriesFor, standing_concat,
      List.flatMap_append, List.flatMap_singleton]

theorem nodup_functions (history : List ApiType) (key : String) :
    ((ofTypes history).functions.getD key []).Nodup := by
  rw [getD_functions_ofTypes, List.nodup_flatMap]
  refine ⟨fun type _ => nodup_entriesFor key type, ?_⟩
  refine (List.pairwise_map.1 (nodup_names_standing history)).imp fun hne => ?_
  rintro ⟨owner, i⟩ hfirst hsecond
  exact hne ((mem_entriesFor_iff.1 hfirst).1.symm.trans (mem_entriesFor_iff.1 hsecond).1)

theorem mem_functions_iff {history : List ApiType} {key owner : String} {i : Nat} :
    (owner, i) ∈ (ofTypes history).functions.getD key [] ↔
      ∃ type, (ofTypes history).get? owner = some type ∧ (key, i) ∈ mappedFunctions type := by
  simp only [getD_functions_ofTypes, List.mem_flatMap, mem_entriesFor_iff, mem_standing_iff]
  constructor
  · rintro ⟨type, htype, rfl, hmem⟩
    exact ⟨type, htype, hmem⟩
  · rintro ⟨type, htype, hmem⟩
    have hname := name_of_get?_ofTypes htype
    exact ⟨type, hname ▸ htype, hname.symm, hmem⟩

/-! ## Looking up a function

The index has its entries under names in snake case, and a name is turned into snake case before it
is looked up, so one list serves both spellings.  `answers` says which functions count, and the
lookup is the search for the first of these among the functions of the standing types. -/

/-- The functions that the methods of a type are mapped to, in the order of the methods. -/
def functionsOf (type : ApiType) : List Function :=
  type.methods.filterMap fun method =>
    method.target?.map fun target => ⟨type.name, target.1, target.2, method⟩

/-- Whether a function answers to a name, in camel case or in snake case, and takes the given number
of arguments. -/
def answers (name : String) (arity : Option Nat) (found : Function) : Bool :=
  Text.snakeCase found.function == Text.snakeCase name && takes arity found.method

/-- The entries of a stored type lead to those of its functions that answer. -/
theorem filterMap_functionAt? {schema : Schema} {type : ApiType}
    (htype : schema.get? type.name = some type) (name : String) (arity : Option Nat) :
    (entriesFor (Text.snakeCase name) type).filterMap (schema.functionAt? arity) =
      (functionsOf type).filter (answers name arity) := by
  have hmethods : functionsOf type = type.methods.zipIdx.filterMap fun entry =>
      entry.1.target?.map fun target => ⟨type.name, target.1, target.2, entry.1⟩ := by
    rw [functionsOf]
    nth_rewrite 1 [← List.zipIdx_map_fst 0 type.methods]
    rw [List.filterMap_map]
    rfl
  rw [hmethods, entriesFor, mappedFunctions, List.filterMap_filterMap, List.filterMap_filterMap,
    List.filter_filterMap]
  refine List.filterMap_congr fun entry hmem => ?_
  obtain ⟨method, i⟩ := entry
  have hmethod : type.methods[i]? = some method := List.mem_zipIdx_iff_getElem?.1 hmem
  cases htarget : method.target? with
  | none => simp [htarget]
  | some target =>
    by_cases hname : Text.snakeCase target.2 = Text.snakeCase name
    · simp [functionAt?, htype, hmethod, htarget, answers, hname, Option.filter]
    · simp [htarget, answers, hname, Option.filter]

/-- **Looking up a function after any history.** -/
theorem lookupFunction_ofTypes (history : List ApiType) (name : String) (arity : Option Nat) :
    (ofTypes history).lookupFunction name arity =
      ((standing history).flatMap functionsOf).find? (answers name arity) := by
  rw [lookupFunction, getD_functions_ofTypes, ← List.head?_filterMap, List.filterMap_flatMap,
    ← List.head?_filter, List.filter_flatMap]
  refine congrArg List.head? (List.flatMap_congr fun type htype => ?_)
  exact filterMap_functionAt? (mem_standing_iff.1 htype) name arity

theorem mem_functionsOf_iff {type : ApiType} {found : Function} :
    found ∈ functionsOf type ↔ found.typeName = type.name ∧ found.method ∈ type.methods ∧
      found.method.target? = some (found.space, found.function) := by
  simp only [functionsOf, List.mem_filterMap, Option.map_eq_some_iff, Prod.exists]
  constructor
  · rintro ⟨method, hmethod, space, function, htarget, rfl⟩
    exact ⟨rfl, hmethod, htarget⟩
  · rintro ⟨hname, hmethod, htarget⟩
    refine ⟨found.method, hmethod, found.space, found.function, htarget, ?_⟩
    rw [← hname]

/-- No function is found exactly if no stored type has one that answers. -/
theorem lookupFunction_eq_none_iff {history : List ApiType} {name : String} {arity : Option Nat} :
    (ofTypes history).lookupFunction name arity = none ↔
      ∀ owner type, (ofTypes history).get? owner = some type →
        ∀ found ∈ functionsOf type, answers name arity found = false := by
  simp only [lookupFunction_ofTypes, List.find?_eq_none, List.mem_flatMap, Bool.not_eq_true]
  constructor
  · intro h owner type htype found hfound
    have hstands := mem_standing_iff.2 (name_of_get?_ofTypes htype ▸ htype)
    exact h found ⟨type, hstands, hfound⟩
  · rintro h found ⟨type, htype, hfound⟩
    exact h type.name type (mem_standing_iff.1 htype) found hfound

/-- **The index is exact after any history.**  Under each key it has the methods of the stored types
that are mapped to a function of this name, each once.  A function is looked for in the order in
which the types were added last, and in each type in the order of the methods; it is missed only if
no stored type has it. -/
theorem functions_exact (history : List ApiType) :
    (∀ key, ((ofTypes history).functions.getD key []).Nodup ∧
      ∀ owner i, (owner, i) ∈ (ofTypes history).functions.getD key [] ↔
        ∃ type method space function, (ofTypes history).get? owner = some type ∧
          type.methods[i]? = some method ∧ method.target? = some (space, function) ∧
          Text.snakeCase function = key) ∧
    (∀ type, type ∈ standing history ↔ (ofTypes history).get? type.name = some type) ∧
    ∀ name arity,
      (ofTypes history).lookupFunction name arity =
        ((standing history).flatMap functionsOf).find? (answers name arity) ∧
      ((ofTypes history).lookupFunction name arity = none →
        ∀ owner type method space function, (ofTypes history).get? owner = some type →
          method ∈ type.methods → method.target? = some (space, function) →
          Text.snakeCase function = Text.snakeCase name → takes arity method = false) := by
  refine ⟨fun key => ⟨nodup_functions history key, fun owner i => ?_⟩, fun _ => mem_standing_iff,
    fun name arity => ⟨lookupFunction_ofTypes history name arity, ?_⟩⟩
  · rw [mem_functions_iff]
    simp only [mem_mappedFunctions_iff]
    constructor
    · rintro ⟨type, htype, method, space, function, h⟩
      exact ⟨type, method, space, function, htype, h⟩
    · rintro ⟨type, method, space, function, htype, h⟩
      exact ⟨type, htype, method, space, function, h⟩
  · intro hnone owner type method space function htype hmethod htarget hname
    have hanswer := lookupFunction_eq_none_iff.1 hnone owner type htype
      ⟨type.name, space, function, method⟩ (mem_functionsOf_iff.2 ⟨rfl, hmethod, htarget⟩)
    simpa [answers, hname] using hanswer

end UiLowering.Schema
