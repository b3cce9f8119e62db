import Mathlib.Data.List.Nodup
import Mathlib.Data.List.Perm.Subperm
import UiLowering.Schema.Lookup

/-!
# Ancestors and their methods

Two walks go up the links of a type.  `inheritsFrom` asks whether a name is met behind one of the
first sixteen links; `methodsNamed` collects the methods of the first sixteen types, the type itself
being the first.  So the walk for the methods ends one link earlier: an ancestor that is met behind
the sixteenth link and not before counts as one, but what it stores is not seen.

`ancestor?` says where the links lead, and both walks are described by it (`inheritsFrom_iff`,
`mem_methodsNamed_iff`).  `inherited_methods_visible_iff` compares the two.  Seventeen different
types are needed for the walks to differ (`lt_size_of_ancestor?`), because a walk that comes to a
name twice has met everything before.
-/

set_option autoImplicit false

namespace UiLowering.Schema

variable {schema : Schema} {derived base name : String} {method : ApiMethod} {m n : Nat}

/-! ## Where the links lead

`ancestor?` counts links and has no limit, so it can be reasoned about by adding numbers.  The two
walks have a limit each and differ in where they look first: at the type behind the first link, or
at the type itself. -/

/-- The name of the type that a type extends. -/
def parentOf? (schema : Schema) (name : String) : Option String :=
  (schema.get? name).bind (·.parent)

/-- The name that `n` links lead to. -/
def ancestor? (schema : Schema) : Nat → String → Option String
  | 0, name => some name
  | n + 1, name => (schema.parentOf? name).bind (schema.ancestor? n)

/-- The methods that a type stores itself. -/
def methodsOf (schema : Schema) (name : String) : List ApiMethod :=
  (schema.get? name).elim [] (·.methods)

theorem ancestor?_succ (schema : Schema) (n : Nat) (name : String) :
    schema.ancestor? (n + 1) name = (schema.parentOf? name).bind (schema.ancestor? n) := rfl

theorem ancestor?_add (schema : Schema) (m n : Nat) (name : String) :
    schema.ancestor? (m + n) name = (schema.ancestor? m name).bind (schema.ancestor? n) := by
  induction m generalizing name with
  | zero => rw [Nat.zero_add, ancestor?, Option.bind_some]
  | succ m ih =>
    rw [Nat.add_right_comm, ancestor?_succ, ancestor?_succ, Option.bind_assoc]
    exact congrArg _ (funext ih)

/-- The walk up the links looks at the names that they lead to. -/
theorem hasAncestor_iff (fuel : Nat) (name : String) :
    schema.hasAncestor base fuel (schema.get? name) = true ↔
      ∃ n < fuel, schema.ancestor? (n + 1) name = some base := by
  induction fuel generalizing name with
  | zero => simp [hasAncestor]
  | succ fuel ih =>
    simp only [Nat.exists_lt_succ_left, ancestor?_succ schema _ name, parentOf?]
    cases schema.get? name with
    | none => simp [hasAncestor]
    | some type =>
      rw [hasAncestor]
      cases hparent : type.parent with
      | none => simp [hparent]
      | some parent => simp [hparent, ih, ancestor?]

theorem inheritsFrom_iff :
    schema.inheritsFrom derived base = true ↔
      ∃ n < maxLinks, schema.ancestor? (n + 1) derived = some base :=
  hasAncestor_iff maxLinks derived

theorem mem_collectMethods_iff (fuel : Nat) (typeName : String) :
    method ∈ schema.collectMethods name fuel (schema.get? typeName) ↔
      method.name = name ∧ ∃ n < fuel, ∃ key, schema.ancestor? n typeName = some key ∧
        method ∈ schema.methodsOf key := by
  induction fuel generalizing typeName with
  | zero => simp [collectMethods]
  | succ fuel ih =>
    simp only [Nat.exists_lt_succ_left, ancestor?_succ schema _ typeName, parentOf?]
    have hfirst : (∃ key, schema.ancestor? 0 typeName = some key ∧
        method ∈ schema.methodsOf key) ↔ method ∈ schema.methodsOf typeName := by
      simp [ancestor?]
    rw [hfirst, methodsOf]
    cases schema.get? typeName with
    | none => simp [collectMethods]
    | some type =>
      rw [collectMethods, List.mem_append, List.mem_filter, beq_iff_eq]
      cases hparent : type.parent with
      | none =>
        have hnone : schema.collectMethods name fuel none = [] := by cases fuel <;> rfl
        simp [hparent, hnone, and_comm]
      | some parent =>
        simp only [hparent, Option.bind_some, ih, Option.elim_some]
        tauto

/-- A type sees the methods of the first sixteen types on its way up, itself included. -/
theorem mem_methodsNamed_iff :
    method ∈ schema.methodsNamed derived name ↔
      method.name = name ∧ ∃ n < maxLinks, ∃ key, schema.ancestor? n derived = some key ∧
        method ∈ schema.methodsOf key :=
  mem_collectMethods_iff maxLinks derived

theorem isSome_lookupMethod_iff {typeName : String} {arity : Option Nat} :
    (schema.lookupMethod typeName name arity).isSome = true ↔
      ∃ method ∈ schema.methodsNamed typeName name, takes arity method = true :=
  List.find?_isSome

/-! ## A walk that comes to a name twice

Links may form a cycle, and then the walk goes round it until the limit.  It meets no name that it
has not met on its first round.  So if a name is met behind `n` links and not before, the names on
the way are all different, and there are at least as many types. -/

/-- Behind a name that is met twice there is nothing that was not met before. -/
theorem exists_lt_of_ancestor?_eq {i j : Nat} (hij : i < j) (hjn : j ≤ n)
    (hsame : schema.ancestor? i derived = schema.ancestor? j derived)
    (hbase : schema.ancestor? n derived = some base) :
    ∃ k < n, schema.ancestor? k derived = some base := by
  refine ⟨i + (n - j), by omega, ?_⟩
  rw [ancestor?_add, hsame, ← ancestor?_add, Nat.add_sub_cancel' hjn, hbase]

/-- Every name on the way to a stored type is stored. -/
theorem exists_stored_of_le {type : ApiType} (hbase : schema.ancestor? n derived = some base)
    (hstored : schema.get? base = some type) {k : Nat} (hk : k ≤ n) :
    ∃ key, schema.ancestor? k derived = some key ∧ key ∈ schema.types.keys := by
  suffices hget : ∃ key found, schema.ancestor? k derived = some key ∧
      schema.get? key = some found by
    obtain ⟨key, found, hkey, hfound⟩ := hget
    refine ⟨key, hkey, Std.ExtTreeMap.mem_keys.2 ?_⟩
    exact Std.ExtTreeMap.mem_iff_isSome_getElem?.2 (Option.isSome_of_mem hfound)
  obtain ⟨rest, rfl⟩ := Nat.exists_eq_add_of_le hk
  rw [ancestor?_add] at hbase
  obtain ⟨key, hkey, hrest⟩ := Option.bind_eq_some_iff.1 hbase
  cases rest with
  | zero =>
    cases hrest
    exact ⟨base, type, hkey, hstored⟩
  | succ rest =>
    obtain ⟨parent, hparent, -⟩ := Option.bind_eq_some_iff.1 hrest
    obtain ⟨found, hfound, -⟩ := Option.bind_eq_some_iff.1 hparent
    exact ⟨key, found, hkey, hfound⟩

/-- If a stored type is met behind `n` links and not before, there are more than `n` types. -/
theorem lt_size_of_ancestor? {type : ApiType} (hbase : schema.ancestor? n derived = some base)
    (hstored : schema.get? base = some type)
    (hfirst : ∀ k < n, schema.ancestor? k derived ≠ some base) : n < schema.types.size := by
  let way := (List.range (n + 1)).map fun k => schema.ancestor? k derived
  have hordered : ∀ i j, i < j → j ≤ n →
      schema.ancestor? i derived ≠ schema.ancestor? j derived := by
    intro i j hij hj hsame
    obtain ⟨k, hk, hmet⟩ := exists_lt_of_ancestor?_eq hij hj hsame hbase
    exact hfirst k hk hmet
  have hnodup : way.Nodup := by
    refine List.Nodup.map_on (fun i hi j hj hsame => ?_) List.nodup_range
    rw [List.mem_range] at hi hj
    rcases Nat.lt_trichotomy i j with hij | hij | hij
    · exact absurd hsame (hordered i j hij (by omega))
    · exact hij
    · exact absurd hsame.symm (hordered j i hij (by omega))
  have hsubset : way ⊆ schema.types.keys.map some := by
    intro step hstep
    obtain ⟨k, hk, rfl⟩ := List.mem_map.1 hstep
    rw [List.mem_range] at hk
    obtain ⟨key, hkey, hmem⟩ := exists_stored_of_le hbase hstored (Nat.le_of_lt_succ hk)
    exact List.mem_map.2 ⟨key, hmem, hkey.symm⟩
  have hlength := (List.subperm_of_subset hnodup hsubset).length_le
  rw [List.length_map, List.length_map, List.length_range, Std.ExtTreeMap.length_keys] at hlength
  exact hlength

/-! ## Which inherited methods are seen

The two walks disagree on one ancestor at most, the one behind the sixteenth link.  Its methods are
still seen if it stores none, or if a type that is met earlier stores the same. -/

/-- What one type stores is seen from another. -/
def Shows (schema : Schema) (derived base : String) : Prop :=
  ∀ method ∈ schema.methodsOf base, method ∈ schema.methodsNamed derived method.name

theorem shows_of_ancestor? (hn : n < maxLinks) (hbase : schema.ancestor? n derived = some base) :
    schema.Shows derived base :=
  fun _ hmethod => mem_methodsNamed_iff.2 ⟨rfl, n, hn, base, hbase, hmethod⟩

/-- An ancestor is met behind fifteen links or fewer, or else behind the sixteenth. -/
theorem met_or_ancestor?_maxLinks (h : schema.inheritsFrom derived base = true) :
    (∃ n < maxLinks, schema.ancestor? n derived = some base) ∨
      (∀ n < maxLinks, schema.ancestor? n derived ≠ some base) ∧
        schema.ancestor? maxLinks derived = some base := by
  by_cases hmet : ∃ n < maxLinks, schema.ancestor? n derived = some base
  · exact Or.inl hmet
  · have hnot : ∀ n < maxLinks, schema.ancestor? n derived ≠ some base :=
      fun n hn hbase => hmet ⟨n, hn, hbase⟩
    obtain ⟨n, hn, hbase⟩ := inheritsFrom_iff.1 h
    rcases Nat.lt_or_eq_of_le hn with hlt | heq
    · exact absurd hbase (hnot (n + 1) hlt)
    · exact Or.inr ⟨hnot, heq ▸ hbase⟩

/-- In a schema of at most sixteen types every inherited method is seen. -/
theorem shows_of_size_le (h : schema.inheritsFrom derived base = true)
    (hsize : schema.types.size ≤ maxLinks) : schema.Shows derived base := by
  rcases met_or_ancestor?_maxLinks h with ⟨n, hn, hbase⟩ | ⟨hfirst, hbase⟩
  · exact shows_of_ancestor? hn hbase
  · intro method hmethod
    cases hstored : schema.get? base with
    | none =>
      rw [methodsOf, hstored] at hmethod
      cases hmethod
    | some type =>
      exact absurd (lt_size_of_ancestor? hbase hstored hfirst) (Nat.not_lt.2 hsize)

/-- **Which inherited methods are seen.**  What an ancestor stores is seen exactly if the ancestor
is met behind fifteen links or fewer, or if it is met behind the sixteenth and each of its methods
is stored by a nearer type as well.  In a schema of at most sixteen types that is always so. -/
theorem inherited_methods_visible_iff (h : schema.inheritsFrom derived base = true) :
    (schema.Shows derived base ↔
      (∃ n < maxLinks, schema.ancestor? n derived = some base) ∨
      schema.ancestor? maxLinks derived = some base ∧
        ∀ method ∈ schema.methodsOf base, ∃ n < maxLinks, ∃ nearer, nearer ≠ base ∧
          schema.ancestor? n derived = some nearer ∧ method ∈ schema.methodsOf nearer) ∧
    (schema.types.size ≤ maxLinks → schema.Shows derived base) ∧
    (schema.Shows derived base → ∀ name arity, ∀ method ∈ schema.methodsOf base,
      schema.lookupMethod base name arity = some method →
        (schema.lookupMethod derived name arity).isSome = true) := by
  refine ⟨⟨fun hshows => ?_, ?_⟩, shows_of_size_le h, ?_⟩
  · rcases met_or_ancestor?_maxLinks h with hmet | ⟨hfirst, hbase⟩
    · exact Or.inl hmet
    · refine Or.inr ⟨hbase, fun method hmethod => ?_⟩
      obtain ⟨-, n, hn, nearer, hnearer, hstored⟩ := mem_methodsNamed_iff.1 (hshows method hmethod)
      exact ⟨n, hn, nearer, fun heq => hfirst n hn (heq ▸ hnearer), hnearer, hstored⟩
  · rintro (⟨n, hn, hbase⟩ | ⟨-, hrepeated⟩)
    · exact shows_of_ancestor? hn hbase
    · intro method hmethod
      obtain ⟨n, hn, nearer, -, hnearer, hstored⟩ := hrepeated method hmethod
      exact mem_methodsNamed_iff.2 ⟨rfl, n, hn, nearer, hnearer, hstored⟩
  · intro hshows name arity method hmethod hlookup
    have hname : method.name = name :=
      (mem_methodsNamed_iff.1 (List.mem_of_find?_eq_some hlookup)).1
    exact isSome_lookupMethod_iff.2
      ⟨method, hname ▸ hshows method hmethod, List.find?_some hlookup⟩

/-- Types of which each extends the next one; the last stores the methods. -/
def descent (methods : List ApiMethod) : List String → List ApiType
  | [] => []
  | [last] => [{ ApiType.plain last with methods := methods }]
  | name :: parent :: rest =>
    { ApiType.plain name with parent := some parent } :: descent methods (parent :: rest)

/-- A method without parameters that is mapped to a function. -/
def drawMethod : ApiMethod := .plain "draw" .function "canvas::draw"

/-- Sixteen links lead from `a` to `q`. -/
def longDescent : Schema :=
  ofTypes (descent [drawMethod]
    ["a", "b", "c", "d", "e", "f", "g", "h", "i", "j", "k", "l", "m", "n", "o", "p", "q"])

/-- Fifteen links are followed to the method, from `b` on. -/
theorem inherited_methods_visible_fifteen :
    longDescent.inheritsFrom "b" "q" = true ∧ longDescent.ancestor? 15 "b" = some "q" ∧
      longDescent.Shows "b" "q" := by
  have hinherits : longDescent.inheritsFrom "b" "q" = true := by decide +kernel
  have hlinks : longDescent.ancestor? 15 "b" = some "q" := by decide +kernel
  have hshows := (inherited_methods_visible_iff hinherits).1.2 (Or.inl ⟨15, by decide, hlinks⟩)
  exact ⟨hinherits, hlinks, hshows⟩

/-- The sixteenth ancestor counts as one, but its method is not seen. -/
theorem sixteenth_ancestor_unseen :
    longDescent.inheritsFrom "a" "q" = true ∧ drawMethod ∈ longDescent.methodsOf "q" ∧
      longDescent.lookupMethod "q" "draw" (some 0) = some drawMethod ∧
      drawMethod ∉ longDescent.methodsNamed "a" "draw" ∧
      longDescent.lookupMethod "a" "draw" (some 0) = none := by
  have hstored : longDescent.methodsOf "q" = [drawMethod] := rfl
  have hnone : longDescent.methodsNamed "a" "draw" = [] := rfl
  refine ⟨by decide +kernel, ?_, rfl, ?_, ?_⟩
  · rw [hstored]
    exact List.mem_singleton_self drawMethod
  · rw [hnone]
    exact List.not_mem_nil
  · rw [lookupMethod, hnone, List.find?_nil]

end UiLowering.Schema
