import Mathlib.Data.List.Nodup
import UiLowering.Names

/-!
# Members of sets and entries of tables of names

A set that is filled from a list has the members of the list; a table has for each name the last
entry of the list.  Where no name comes twice, the order of the entries does not matter.

Scopes, schemas and tables of bound collections are built by inserting names one after another.  The
lemmas say what is found in such a set or table in terms of the list that it was filled from, so
that no proof has to look into the trees that the containers consist of.
-/

set_option autoImplicit false

namespace UiLowering

theorem mem_foldl_insert {α : Type} {cmp : α → α → Ordering} [Std.TransCmp cmp]
    [Std.LawfulEqCmp cmp] (elements : List α) (set : Std.ExtTreeSet α cmp) (element : α) :
    element ∈ elements.foldl (fun set element => set.insert element) set ↔
      element ∈ set ∨ element ∈ elements := by
  induction elements generalizing set with
  | nil => simp
  | cons first elements ih =>
    rw [List.foldl_cons, ih, Std.ExtTreeSet.mem_insert, Std.LawfulEqCmp.compare_eq_iff_eq,
      List.mem_cons, or_assoc, or_left_comm, eq_comm]

@[simp] theorem NameSet.mem_ofNames {names : List String} {name : String} :
    name ∈ NameSet.ofNames names ↔ name ∈ names := by
  rw [NameSet.ofNames, mem_foldl_insert]
  simp

namespace NameMap

variable {α : Type}

/-- The value of the last entry for a name. -/
def last? (entries : List (String × α)) (name : String) : Option α :=
  (entries.reverse.find? fun entry => entry.1 == name).map (·.2)

theorem last?_append (first rest : List (String × α)) (name : String) :
    last? (first ++ rest) name = (last? rest name).or (last? first name) := by
  simp only [last?, List.reverse_append, List.find?_append, Option.map_or]

theorem last?_singleton (entry : String × α) (name : String) :
    last? [entry] name = if entry.1 = name then some entry.2 else none := by
  by_cases h : entry.1 = name
  · simp [last?, h]
  · simp [last?, h]

theorem isSome_last?_iff {entries : List (String × α)} {name : String} :
    (last? entries name).isSome ↔ name ∈ entries.map (·.1) := by
  simp [last?]

theorem mem_of_last?_eq_some {entries : List (String × α)} {name : String} {value : α}
    (h : last? entries name = some value) : (name, value) ∈ entries := by
  obtain ⟨⟨key, found⟩, hfind, rfl⟩ := Option.map_eq_some_iff.1 h
  have hkey : key = name := by simpa using List.find?_some hfind
  subst hkey
  exact List.mem_reverse.1 (List.mem_of_find?_eq_some hfind)

theorem getElem?_foldl_insert (entries : List (String × α)) (table : NameMap α) (name : String) :
    (entries.foldl (fun table (key, value) => table.insert key value) table)[name]? =
      (last? entries name).or table[name]? := by
  induction entries generalizing table with
  | nil => rfl
  | cons entry entries ih =>
    rw [List.foldl_cons, ih, ← List.singleton_append, last?_append, last?_singleton,
      Std.ExtTreeMap.getElem?_insert, Option.or_assoc]
    by_cases h : entry.1 = name
    · simp [h]
    · simp [h]

@[simp] theorem getElem?_ofEntries {entries : List (String × α)} {name : String} :
    (ofEntries entries)[name]? = last? entries name := by
  rw [ofEntries, getElem?_foldl_insert]
  simp

/-- A table is the table of its own entries. -/
theorem ofEntries_toList (table : NameMap α) : ofEntries table.toList = table := by
  refine Std.ExtTreeMap.ext_getElem? fun name => ?_
  rw [getElem?_ofEntries]
  refine Option.ext fun value => ⟨fun h => ?_, fun h => ?_⟩
  · exact Std.ExtTreeMap.mem_toList_iff_getElem?_eq_some.1 (mem_of_last?_eq_some h)
  · have hmem := Std.ExtTreeMap.mem_toList_iff_getElem?_eq_some.2 h
    obtain ⟨other, hother⟩ := Option.isSome_iff_exists.1
      (isSome_last?_iff.2 (List.mem_map.2 ⟨_, hmem, rfl⟩))
    have hvalue := Std.ExtTreeMap.mem_toList_iff_getElem?_eq_some.1 (mem_of_last?_eq_some hother)
    rw [hother, ← hvalue, h]

theorem insert_comm (table : NameMap α) {first second : String} (h : first ≠ second)
    (value other : α) :
    (table.insert first value).insert second other =
      (table.insert second other).insert first value := by
  refine Std.ExtTreeMap.ext_getElem? fun name => ?_
  simp only [Std.ExtTreeMap.getElem?_insert, Std.LawfulEqCmp.compare_eq_iff_eq]
  by_cases hfirst : first = name
  · subst hfirst
    simp [h.symm]
  · simp [hfirst]

/-- Entries for different names can be put down in any order. -/
theorem foldl_insert_eq_of_perm {entries others : List (String × α)} (hperm : entries.Perm others)
    (hnames : (entries.map (·.1)).Nodup) (table : NameMap α) :
    entries.foldl (fun table (key, value) => table.insert key value) table =
      others.foldl (fun table (key, value) => table.insert key value) table := by
  refine hperm.foldl_eq' (fun entry hentry other hother table => ?_) table
  by_cases h : entry.1 = other.1
  · rw [List.inj_on_of_nodup_map hnames hentry hother h]
  · exact insert_comm table h entry.2 other.2

end NameMap

end UiLowering
