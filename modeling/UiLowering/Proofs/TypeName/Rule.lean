import Mathlib.Data.List.TakeWhile
import UiLowering.TypeName.Resolve

/-!
# The rules for type names

The name of a collection is the name of its element with brackets behind it.  It can be taken apart
in one way only, so that all functions that do so find the same element.

`Rule` lists what a trimmed name can be: one constructor for each way through `step`, with what the
name has to be for it.  What is proved about all steps is proved by cases on their rules.
-/

set_option autoImplicit false

namespace UiLowering

theorem Text.dropEnd?_eq_some_iff {tail s base : String} :
    dropEnd? tail s = some base ↔ s = base ++ tail := by
  rw [dropEnd?]
  constructor
  · intro h
    split at h
    · rename_i hends
      obtain ⟨before, hbefore⟩ := List.isSuffixOf_iff_suffix.1 hends
      cases h
      rw [← String.toList_inj, String.toList_append, String.toList_ofList, ← hbefore,
        List.length_append, Nat.add_sub_cancel, List.take_left]
    · cases h
  · rintro rfl
    have hends : endsWith tail (base ++ tail) = true := by
      rw [endsWith, List.isSuffixOf_iff_suffix, String.toList_append]
      exact List.suffix_append _ _
    rw [if_pos hends, String.toList_append, List.length_append, Nat.add_sub_cancel, List.take_left,
      String.ofList_toList]

namespace TypeName

/-! ## Collections

`step`, `isCollection` and `elementName?` each look for the element of a collection.  That they
agree follows from a characterization of the searches by the concatenation of element and
brackets. -/

/-- The sizes that an array may be given. -/
def IsSize (size : String) : Prop :=
  size ≠ "" ∧ ∀ c ∈ size.toList, Text.isDecimalDigit c = true

instance : DecidablePred IsSize := fun size =>
  decidable_of_iff (size ≠ "" ∧ size.toList.all Text.isDecimalDigit = true)
    (by rw [List.all_eq_true, IsSize])

/-- The name of an array of the given size. -/
def sizedName (element size : String) : String := element ++ "[" ++ size ++ "]"

theorem toList_sizedName (element size : String) :
    (sizedName element size).toList = element.toList ++ ('[' :: (size.toList ++ [']'])) := by
  simp [sizedName, String.toList_append]

theorem fixedArray?_eq_some_iff {name element size : String} :
    fixedArray? name = some (element, size) ↔
      name = sizedName element size ∧ IsSize size ∧ element ≠ "" ∧ '\n' ∉ element.toList := by
  constructor
  · intro h
    unfold fixedArray? at h
    split at h
    · rename_i rest hrest
      have hdigits : ∀ c ∈ rest.takeWhile Text.isDecimalDigit, Text.isDecimalDigit c = true :=
        fun c hc => List.mem_takeWhile_imp hc
      split at h
      · rename_i before hbefore
        dsimp only at h
        split at h
        · cases h
        · rename_i hparts
          cases h
          simp only [Bool.or_eq_true, List.isEmpty_iff, List.contains_iff_mem, not_or] at hparts
          obtain ⟨⟨hsize, helement⟩, hline⟩ := hparts
          refine ⟨?_, ⟨?_, ?_⟩, ?_, ?_⟩
          · have hsplit : rest = rest.takeWhile Text.isDecimalDigit ++ '[' :: before := by
              rw [← hbefore, List.takeWhile_append_dropWhile]
            rw [← String.toList_inj, toList_sizedName, String.toList_ofList, String.toList_ofList]
            calc name.toList = (']' :: rest).reverse := by rw [← hrest, List.reverse_reverse]
              _ = (']' :: (rest.takeWhile Text.isDecimalDigit ++ '[' :: before)).reverse := by
                rw [← hsplit]
              _ = _ := by simp
          · simpa using hsize
          · simpa using hdigits
          · simpa using helement
          · simpa using hline
      · cases h
    · cases h
  · rintro ⟨rfl, ⟨hsize, hdigits⟩, helement, hline⟩
    have hdigits' : ∀ c ∈ size.toList.reverse, Text.isDecimalDigit c = true :=
      fun c hc => hdigits c (List.mem_reverse.1 hc)
    have hbracket : ¬Text.isDecimalDigit '[' = true := by decide
    have hreverse : (sizedName element size).toList.reverse =
        ']' :: (size.toList.reverse ++ '[' :: element.toList.reverse) := by
      rw [toList_sizedName]
      simp
    unfold fixedArray?
    rw [hreverse]
    simp only [List.takeWhile_append_of_pos hdigits', List.dropWhile_append_of_pos hdigits',
      List.takeWhile_cons_of_neg hbracket, List.dropWhile_cons_of_neg hbracket, List.append_nil,
      List.reverse_reverse, String.ofList_toList]
    rw [if_neg (by simp [hsize, helement, hline])]

/-- The name of an array of a given size is not that of an array of any length. -/
theorem dropEnd?_sizedName {element size : String} (h : IsSize size) :
    Text.dropEnd? "[]" (sizedName element size) = none := by
  rw [Option.eq_none_iff_forall_ne_some]
  intro base hbase
  have hchars := congrArg (List.reverse ∘ String.toList) (Text.dropEnd?_eq_some_iff.1 hbase)
  simp only [Function.comp_apply, toList_sizedName, String.toList_append] at hchars
  -- The character before the closing bracket is a digit of the size in one reading and the opening
  -- bracket in the other.
  obtain ⟨digits, last, hdigits⟩ := (List.eq_nil_or_concat size.toList).resolve_left
    (fun hnil => h.1 (String.toList_eq_nil_iff.1 hnil))
  have hlast : Text.isDecimalDigit last = true := h.2 last (by rw [hdigits]; simp)
  rw [hdigits] at hchars
  obtain ⟨rfl, -⟩ : last = '[' ∧
      digits.reverse ++ '[' :: element.toList.reverse = base.toList.reverse := by
    simpa using hchars
  exact absurd hlast (by decide)

/-- A name is that of a collection if and only if it has an element. -/
theorem isCollection_eq_isSome (name : String) :
    isCollection name = (elementName? name).isSome := by
  rw [isCollection, elementName?, Text.dropEnd?]
  by_cases hends : Text.endsWith "[]" (Text.trim name) = true
  · rw [if_pos hends, hends]
    rfl
  · rw [if_neg hends, Bool.eq_false_iff.2 hends, Option.isSome_map, Bool.false_or]

theorem getLast?_brackets (element : String) :
    (element ++ "[]").toList.getLast? = some ']' := by
  simp

theorem getLast?_sizedName (element size : String) :
    (sizedName element size).toList.getLast? = some ']' := by
  rw [toList_sizedName, ← List.cons_append, ← List.append_assoc, List.getLast?_concat]

/-- What does not end in a bracket is not the name of a collection. -/
theorem not_collection_of_getLast? {name : String} (h : name.toList.getLast? ≠ some ']') :
    Text.dropEnd? "[]" name = none ∧ fixedArray? name = none := by
  constructor
  · rw [Option.eq_none_iff_forall_ne_some]
    intro base hbase
    rw [Text.dropEnd?_eq_some_iff.1 hbase] at h
    exact h (getLast?_brackets base)
  · rw [Option.eq_none_iff_forall_ne_some]
    rintro ⟨element, size⟩ hfixed
    rw [(fixedArray?_eq_some_iff.1 hfixed).1] at h
    exact h (getLast?_sizedName element size)

/-! ## Rules

The definition of `step` is a sequence of tests, and what a later test may assume is spread over the
earlier ones.  `Rule` gathers it once: each constructor has all that is known of the name when its
rule applies. -/

variable {scope : Scope} {schema : Schema} {name : String}

/-- The rules for names that are neither collections nor primitive nor second names. -/
inductive NamedRule (scope : Scope) (schema : Schema) (name : String) : Step → Prop
  | localType (h : scope.isLocalType name = true) :
      NamedRule scope schema name (.known (Text.qualify scope.component name))
  | moduleType (hmodule : Text.qualify scope.module name ≠ name)
      (hglobal : scope.isGlobalType (Text.qualify scope.module name) = true) :
      NamedRule scope schema name (.known (Text.qualify scope.module name))
  | path (h : Text.isQualifiedPath name = true) :
      NamedRule scope schema name (.known (flatten name))
  | handle (hpath : Text.isQualifiedPath name = false) (h : schema.isHandle name = true) :
      NamedRule scope schema name (.known ("webcc::" ++ name))
  | companion {base : String} (hpath : Text.isQualifiedPath name = false)
      (hname : name = base ++ "Meta") (hbase : base ≠ "") :
      NamedRule scope schema name (.companion base)
  | unresolved (hpath : Text.isQualifiedPath name = false) :
      NamedRule scope schema name .unresolved

/-- The rules for trimmed names. -/
inductive Rule (scope : Scope) (schema : Schema) (name : String) : Step → Prop
  | empty (h : name = "") : Rule scope schema name (.known "")
  | vector {element : String} (h : name = element ++ "[]") :
      Rule scope schema name (.vector element)
  | fixed {element size : String} (h : name = sizedName element size) (hsize : IsSize size) :
      Rule scope schema name (.fixed element size)
  | target (h : name ∈ targetPrimitives) : Rule scope schema name (.known name)
  | primitive {target : String} (h : primitive? name = some target) :
      Rule scope schema name (.known target)
  | synonym (h : schema.resolveAlias name ≠ name) :
      Rule scope schema name (.synonym (schema.resolveAlias name))
  | named {next : Step} (halias : schema.resolveAlias name = name)
      (h : NamedRule scope schema name next) : Rule scope schema name next

theorem namedRule_namedStep (scope : Scope) (schema : Schema) (name : String) :
    NamedRule scope schema name (namedStep scope schema name) := by
  unfold namedStep
  split
  · rename_i hlocal
    exact .localType hlocal
  · dsimp only
    split
    · rename_i hmodule
      rw [Bool.and_eq_true, bne_iff_ne] at hmodule
      exact .moduleType hmodule.1 hmodule.2
    · split
      · rename_i hpath
        exact .path hpath
      · rename_i hpath
        rw [Bool.not_eq_true] at hpath
        split
        · rename_i hhandle
          exact .handle hpath hhandle
        · split
          · rename_i base hbase
            split
            · exact .unresolved hpath
            · rename_i hempty
              exact .companion hpath (Text.dropEnd?_eq_some_iff.1 hbase) (by simpa using hempty)
          · exact .unresolved hpath

theorem rule_step (scope : Scope) (schema : Schema) (name : String) :
    Rule scope schema name (step scope schema name) := by
  unfold step
  split
  · rename_i hempty
    exact .empty (by simpa using hempty)
  · split
    · rename_i element helement
      exact .vector (Text.dropEnd?_eq_some_iff.1 helement)
    · split
      · rename_i element size hfixed
        obtain ⟨hname, hsize, -⟩ := fixedArray?_eq_some_iff.1 hfixed
        exact .fixed hname hsize
      · split
        · rename_i htarget
          exact .target (List.contains_iff_mem.1 htarget)
        · split
          · rename_i target hprimitive
            exact .primitive hprimitive
          · dsimp only
            split
            · rename_i halias
              exact .synonym (by simpa using halias)
            · rename_i halias
              exact .named (by simpa using halias) (namedRule_namedStep scope schema name)

end TypeName

end UiLowering
