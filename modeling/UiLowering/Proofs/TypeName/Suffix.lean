import UiLowering.Proofs.Text.Trim
import UiLowering.Proofs.TypeName.Ends

/-!
# Array suffixes

A type name may have any number of suffixes `[]` and `[n]` behind it.  Each of them is one array
around what stands before it, so the form of the whole is that of the name, wrapped once for each
suffix from left to right.  The element of an array is found at the same place by all functions that
look for it.

The order of the suffixes is easy to get wrong: `T[3][]` is an array of any length of arrays of
three.  The text of the type is nested the other way round than the suffixes are written, and the
theorem says so by a fold from the left.
-/

set_option autoImplicit false

namespace UiLowering.TypeName

/-- The brackets behind the name of an element type. -/
inductive ArraySuffix where
  | any
  | sized (size : String) (isSize : IsSize size)

namespace ArraySuffix

/-- A suffix as it is written. -/
def text : ArraySuffix → String
  | .any => "[]"
  | .sized size _ => "[" ++ size ++ "]"

/-- The form of an array with elements of the given form. -/
def wrap : ArraySuffix → TypeForm → TypeForm
  | .any, element => .vector element
  | .sized size _, element => .fixed element size

/-- The target text of an array with elements of the given type. -/
def wrapText : ArraySuffix → String → String
  | .any, element => "webcc::vector<" ++ element ++ ">"
  | .sized size _, element => "webcc::array<" ++ element ++ ", " ++ size ++ ">"

/-- The step that a suffix makes of a name. -/
def step : ArraySuffix → String → Step
  | .any, element => .vector element
  | .sized size _, element => .fixed element size

@[simp] theorem text_wrap (suffix : ArraySuffix) (element : TypeForm) :
    (suffix.wrap element).text = suffix.wrapText element.text := by
  cases suffix <;> rfl

theorem exists_toList_text (suffix : ArraySuffix) :
    ∃ cs, suffix.text.toList = cs ++ [']'] := by
  cases suffix with
  | any => exact ⟨['['], rfl⟩
  | sized size _ => exact ⟨'[' :: size.toList, by simp [text]⟩

theorem newline_not_mem_text (suffix : ArraySuffix) : '\n' ∉ suffix.text.toList := by
  cases suffix with
  | any => decide
  | sized size hsize =>
    have hdigits : '\n' ∉ size.toList := fun hmem => absurd (hsize.2 _ hmem) (by decide)
    simp [text, hdigits]

end ArraySuffix

/-! ## One suffix

A name with a suffix is trimmed before the suffix is taken off, so blanks in front of the element
are lost on the way.  They do not matter for the form, which is the same for a name and its trimmed
form. -/

variable {scope : Scope} {schema : Schema} {name base : String} {form : TypeForm}

/-- A name that can be that of an element: it is not blank and stands on one line. -/
structure IsElementName (name : String) : Prop where
  notBlank : ∃ c ∈ name.toList, Text.isBlank c = false
  oneLine : '\n' ∉ name.toList

theorem IsElementName.append (h : IsElementName name) (suffix : ArraySuffix) :
    IsElementName (name ++ suffix.text) := by
  obtain ⟨c, hc, hblank⟩ := h.notBlank
  refine ⟨⟨c, ?_, hblank⟩, ?_⟩
  · rw [String.toList_append]
    exact List.mem_append_left _ hc
  · rw [String.toList_append, List.mem_append, not_or]
    exact ⟨h.oneLine, suffix.newline_not_mem_text⟩

section Cut

variable {element size : String}

theorem dropEnd?_append_any :
    Text.dropEnd? "[]" (element ++ ArraySuffix.text .any) = some element :=
  Text.dropEnd?_eq_some_iff.2 rfl

theorem append_sized (hsize : IsSize size) :
    element ++ ArraySuffix.text (.sized size hsize) = sizedName element size := by
  rw [ArraySuffix.text, sizedName, ← String.append_assoc, ← String.append_assoc]

theorem dropEnd?_append_sized (hsize : IsSize size) :
    Text.dropEnd? "[]" (element ++ ArraySuffix.text (.sized size hsize)) = none := by
  rw [append_sized, dropEnd?_sizedName hsize]

theorem fixedArray?_append_sized (helement : element ≠ "") (hline : '\n' ∉ element.toList)
    (hsize : IsSize size) :
    fixedArray? (element ++ ArraySuffix.text (.sized size hsize)) = some (element, size) :=
  fixedArray?_eq_some_iff.2 ⟨append_sized hsize, hsize, helement, hline⟩

end Cut

/-- Before a suffix stands the element, for the steps of a name and for `elementName?`. -/
theorem exists_element (h : IsElementName name) (scope : Scope) (schema : Schema)
    (suffix : ArraySuffix) :
    ∃ element, Text.trim element = Text.trim name ∧
      step scope schema (Text.trim (name ++ suffix.text)) = suffix.step element ∧
      elementName? (name ++ suffix.text) = some element := by
  obtain ⟨cs, hcs⟩ := suffix.exists_toList_text
  obtain ⟨element, htrim, hsame, hne, hmem⟩ :=
    Text.exists_trim_append h.notBlank ⟨cs, ']', hcs, by decide⟩
  have hline : '\n' ∉ element.toList := fun hmem' => h.oneLine (hmem _ hmem')
  have hempty : (element ++ suffix.text == "") = false := by simp [hne]
  refine ⟨element, hsame, ?_, ?_⟩
  · rw [htrim, step, hempty]
    cases suffix with
    | any => simp [dropEnd?_append_any, ArraySuffix.step]
    | sized size hsize =>
      simp [dropEnd?_append_sized hsize, fixedArray?_append_sized hne hline hsize,
        ArraySuffix.step]
  · rw [elementName?, htrim]
    cases suffix with
    | any => rw [dropEnd?_append_any]
    | sized size hsize =>
      rw [dropEnd?_append_sized hsize, fixedArray?_append_sized hne hline hsize, Option.map_some]

/-- A form depends on the trimmed name only. -/
theorem Resolves.of_trim_eq {other : String} (h : Resolves scope schema name form)
    (htrim : Text.trim name = Text.trim other) : Resolves scope schema other form := by
  cases h with
  | known hstep => exact .known (htrim ▸ hstep)
  | vector hstep hform => exact .vector (htrim ▸ hstep) hform
  | fixed hstep hform => exact .fixed (htrim ▸ hstep) hform
  | synonym hstep hform => exact .synonym (htrim ▸ hstep) hform
  | companion hstep hform hbase => exact .companion (htrim ▸ hstep) hform hbase
  | companionOfItself hstep hform hbase =>
    rw [htrim] at hstep ⊢
    exact .companionOfItself hstep hform hbase
  | unresolved hstep =>
    rw [htrim] at hstep ⊢
    exact .unresolved hstep

theorem Resolves.append (h : Resolves scope schema name form) (hname : IsElementName name)
    (suffix : ArraySuffix) : Resolves scope schema (name ++ suffix.text) (suffix.wrap form) := by
  obtain ⟨element, htrim, hstep, -⟩ := exists_element hname scope schema suffix
  have helement : Resolves scope schema element form := h.of_trim_eq htrim.symm
  cases suffix with
  | any => exact .vector hstep helement
  | sized size _ => exact .fixed hstep helement

/-! ## Any number of suffixes

The last suffix is taken off first and becomes the outermost array.  The induction is therefore on
the list of suffixes from its end. -/

/-- A name with suffixes behind it. -/
def suffixed (base : String) (suffixes : List ArraySuffix) : String :=
  suffixes.foldl (fun name suffix => name ++ suffix.text) base

theorem suffixed_concat (base : String) (front : List ArraySuffix) (last : ArraySuffix) :
    suffixed base (front ++ [last]) = suffixed base front ++ last.text :=
  List.foldl_concat _ _ _ _

theorem IsElementName.suffixed (h : IsElementName base) (suffixes : List ArraySuffix) :
    IsElementName (suffixed base suffixes) := by
  induction suffixes generalizing base with
  | nil => exact h
  | cons suffix suffixes ih => exact ih (h.append suffix)

theorem Resolves.suffixed (h : Resolves scope schema base form) (hbase : IsElementName base)
    (suffixes : List ArraySuffix) :
    Resolves scope schema (suffixed base suffixes)
      (suffixes.foldl (fun form suffix => suffix.wrap form) form) := by
  induction suffixes generalizing base form with
  | nil => exact h
  | cons suffix suffixes ih => exact ih (h.append hbase suffix) (hbase.append suffix)

theorem text_foldl_wrap (suffixes : List ArraySuffix) (form : TypeForm) :
    (suffixes.foldl (fun form suffix => suffix.wrap form) form).text =
      suffixes.foldl (fun text suffix => suffix.wrapText text) form.text := by
  induction suffixes generalizing form with
  | nil => rfl
  | cons suffix suffixes ih => rw [List.foldl_cons, ih, ArraySuffix.text_wrap, List.foldl_cons]

/-- **Each suffix is one array around what stands before it.**  A name with suffixes has a form if
the name without them has one.  Its text is that of the name, wrapped from the first suffix outward
to the last.  If there is a suffix, the name is one of a collection, whose element is what stands
before the last suffix.  And only the names of collections have elements. -/
theorem resolve_suffixed (hbase : IsElementName base) (hends : Ends scope schema base)
    (suffixes : List ArraySuffix) :
    Ends scope schema (suffixed base suffixes) ∧
      (resolve scope schema (suffixed base suffixes)).text =
        suffixes.foldl (fun text suffix => suffix.wrapText text) (resolve scope schema base).text ∧
      (∀ front last, suffixes = front ++ [last] →
        isCollection (suffixed base suffixes) = true ∧
          elementForm? scope schema (suffixed base suffixes) =
            some (resolve scope schema (suffixed base front))) ∧
      ∀ name, isCollection name = (elementForm? scope schema name).isSome := by
  have hform := hends.resolves.suffixed hbase suffixes
  refine ⟨⟨_, hform⟩, by rw [hform.resolve_eq, text_foldl_wrap], ?_, ?_⟩
  · rintro front last rfl
    have hfront := hends.resolves.suffixed hbase front
    obtain ⟨element, htrim, -, helement⟩ :=
      exists_element (hbase.suffixed front) scope schema last
    rw [suffixed_concat, isCollection_eq_isSome, elementForm?, helement, Option.map_some,
      (hfront.of_trim_eq htrim.symm).resolve_eq, hfront.resolve_eq]
    exact ⟨rfl, rfl⟩
  · intro name
    rw [elementForm?, Option.isSome_map, isCollection_eq_isSome]

theorem resolve_suffixed_local :
    let scope := (Scope.ofComponent "" "Physics" ∅).declareType "Vector3"
    IsElementName " Vector3 " ∧ Ends scope .empty " Vector3 " ∧
      (resolve scope .empty " Vector3 [][8]").text =
        "webcc::array<webcc::vector<Physics_Vector3>, 8>" ∧
      isCollection " Vector3 [][8]" = true ∧
      elementForm? scope .empty " Vector3 [][8]" = some (resolve scope .empty " Vector3 []") := by
  intro scope
  have hbase : IsElementName " Vector3 " := ⟨⟨'V', by decide, by decide⟩, by decide⟩
  have hends : Ends scope .empty " Vector3 " := by decide +kernel
  have htext : (resolve scope .empty " Vector3 ").text = "Physics_Vector3" := by decide +kernel
  have hsize : IsSize "8" := by decide
  obtain ⟨-, hwrapped, helement, -⟩ := resolve_suffixed hbase hends [.any, .sized "8" hsize]
  rw [htext] at hwrapped
  exact ⟨hbase, hends, hwrapped, helement [.any] (.sized "8" hsize) rfl⟩

end UiLowering.TypeName
