import UiLowering.Env
import UiLowering.Proofs.Target.TypeText
import UiLowering.Proofs.Text.Cut

/-!
# Plain names and paths as types

A plain name is what a declaration introduces: no path, no array, and nothing to trim.  As a type
name it skips all rules for collections, so that its meaning is a matter of the scope alone unless
it is primitive or the schema knows it.  The same holds for a path of plain names.  Such a path
loses its marks where it is flattened, and keeps them under every other rule.

The lemmas are about characters, because trimming, cutting and flattening are.  They are collected
here so that the modules on the names of components and enumerations can speak of names and paths
only.
-/

set_option autoImplicit false

namespace UiLowering

/-! ## Plain names

The class of plain characters is chosen so that none of the functions on names finds anything to do:
there is nothing to trim, to cut or to flatten. -/

namespace Text

/-- The characters of plain names.  All of them stay when a type name is trimmed, taken for an array
or flattened. -/
def isPlainChar (c : Char) : Bool :=
  !isBlank c && c != '.' && c != ':' && c != '[' && c != ']'

/-- A name without blanks, dots, colons and brackets. -/
def IsPlain (name : String) : Prop := name ≠ "" ∧ ∀ c ∈ name.toList, isPlainChar c = true

instance : DecidablePred IsPlain := fun name =>
  decidable_of_iff (name ≠ "" ∧ name.toList.all isPlainChar = true)
    (by rw [List.all_eq_true, IsPlain])

theorem not_isBlank_of_isPlainChar {c : Char} (h : isPlainChar c = true) : isBlank c = false := by
  simp only [isPlainChar, Bool.and_eq_true, Bool.not_eq_true'] at h
  exact h.1.1.1.1

theorem ne_of_isPlainChar {c d : Char} (h : isPlainChar c = true) (hd : isPlainChar d = false) :
    c ≠ d := by
  rintro rfl
  rw [h] at hd
  cases hd

theorem trimChars_of_not_blank {cs : List Char} (h : ∀ c ∈ cs, isBlank c = false) :
    trimChars cs = cs := by
  have hkeep (cs : List Char) (h : ∀ c ∈ cs, isBlank c = false) : cs.dropWhile isBlank = cs := by
    cases cs with
    | nil => rfl
    | cons c cs => rw [List.dropWhile_cons_of_neg (by simp [h c List.mem_cons_self])]
  rw [trimChars, hkeep cs h, trimEndChars,
    hkeep cs.reverse fun c hc => h c (List.mem_reverse.1 hc), List.reverse_reverse]

theorem trim_of_not_blank {s : String} (h : ∀ c ∈ s.toList, isBlank c = false) : trim s = s := by
  rw [trim, trimChars_of_not_blank h, String.ofList_toList]

theorem IsPlain.not_mem {name : String} {c : Char} (h : IsPlain name) (hc : isPlainChar c = false) :
    c ∉ name.toList :=
  fun hmem => ne_of_isPlainChar (h.2 c hmem) hc rfl

theorem IsPlain.trim_eq {name : String} (h : IsPlain name) : trim name = name :=
  trim_of_not_blank fun c hc => not_isBlank_of_isPlainChar (h.2 c hc)

theorem flattenChars_append {cs : List Char} (h : ∀ c ∈ cs, isPlainChar c = true)
    (rest : List Char) : flattenChars (cs ++ rest) = cs ++ flattenChars rest := by
  induction cs with
  | nil => rfl
  | cons c cs ih =>
    have hc := h c List.mem_cons_self
    have hdot : c ≠ '.' := ne_of_isPlainChar hc (by decide)
    have hcolon : c ≠ ':' := ne_of_isPlainChar hc (by decide)
    rw [List.cons_append, flattenChars, ih fun d hd => h d (List.mem_cons_of_mem c hd),
      List.cons_append]
    · exact fun _ hc' => absurd hc' hcolon
    · exact hdot

/-! ## Paths

A path is given by its names and the marks between them.  Plain names have none of the characters of
a mark, so the marks are found again in the text.  Flattening replaces each of them by an underscore
and keeps the names. -/

/-- What stands between two names of a path. -/
inductive PathMark where
  | dot
  | colons

/-- A mark as it is written. -/
def PathMark.text : PathMark → String
  | .dot => "."
  | .colons => "::"

/-- Plain names with marks between them. -/
inductive IsPlainPath : String → Prop
  | name {name : String} (h : IsPlain name) : IsPlainPath name
  | join {first rest : String} (h : IsPlain first) (mark : PathMark) (hrest : IsPlainPath rest) :
      IsPlainPath (first ++ mark.text ++ rest)

variable {name first : String}

theorem IsPlain.exists_concat (h : IsPlain name) :
    ∃ cs c, name.toList = cs ++ [c] ∧ isPlainChar c = true := by
  obtain ⟨cs, c, hname⟩ := (List.eq_nil_or_concat name.toList).resolve_left
    (fun hnil => h.1 (String.toList_eq_nil_iff.1 hnil))
  rw [List.concat_eq_append] at hname
  exact ⟨cs, c, hname, h.2 c (by rw [hname]; simp)⟩

theorem IsPlain.append {rest : String} (h : IsPlain name)
    (hrest : ∀ c ∈ rest.toList, isPlainChar c = true) : IsPlain (name ++ rest) := by
  refine ⟨by simp [h.1], fun c hc => ?_⟩
  rw [String.toList_append, List.mem_append] at hc
  exact hc.elim (h.2 c) (hrest c)

theorem IsPlain.companion (h : IsPlain name) : IsPlain (name ++ "Meta") :=
  h.append (List.all_eq_true.1 (by decide))

theorem IsPlain.isQualifiedPath_eq (h : IsPlain name) : isQualifiedPath name = false := by
  have hcolons : cutColonsChars name.toList = none := by
    rw [Option.eq_none_iff_forall_ne_some]
    rintro ⟨before, after⟩ hcut
    have hcolon : ':' ∈ name.toList := by simp [eq_append_of_cutColonsChars hcut]
    exact h.not_mem (by decide) hcolon
  have hdot : '.' ∉ name.toList := h.not_mem (by decide)
  rw [isQualifiedPath, cutColons, hcolons]
  simpa using hdot

theorem isQualifiedPath_join (first rest : String) (mark : PathMark) :
    isQualifiedPath (first ++ mark.text ++ rest) = true := by
  cases mark with
  | dot => simp [isQualifiedPath, PathMark.text]
  | colons =>
    have hcut := isSome_cutColonsChars_append first.toList rest.toList
    simp [isQualifiedPath, cutColons, PathMark.text, hcut]

theorem IsPlain.flattenChars_eq (h : IsPlain name) : flattenChars name.toList = name.toList := by
  have hflat := flattenChars_append h.2 []
  rwa [List.append_nil, flattenChars, List.append_nil] at hflat

theorem flattenChars_join (h : IsPlain first) (mark : PathMark) (rest : String) :
    flattenChars (first ++ mark.text ++ rest).toList =
      first.toList ++ '_' :: flattenChars rest.toList := by
  rw [String.toList_append, String.toList_append, List.append_assoc, flattenChars_append h.2]
  cases mark <;> simp [PathMark.text, flattenChars]

namespace IsPlainPath

theorem isPlainChar_or (h : IsPlainPath name) {c : Char} (hc : c ∈ name.toList) :
    isPlainChar c = true ∨ c = '.' ∨ c = ':' := by
  induction h with
  | name h => exact Or.inl (h.2 c hc)
  | join hfirst mark _ ih =>
    rw [String.toList_append, String.toList_append, List.mem_append, List.mem_append] at hc
    rcases hc with (hc | hc) | hc
    · exact Or.inl (hfirst.2 c hc)
    · cases mark <;> simp [PathMark.text] at hc <;> simp [hc]
    · exact ih hc

theorem exists_concat (h : IsPlainPath name) :
    ∃ cs c, name.toList = cs ++ [c] ∧ isPlainChar c = true := by
  induction h with
  | name h => exact h.exists_concat
  | @join first rest _ mark _ ih =>
    obtain ⟨cs, c, hrest, hc⟩ := ih
    refine ⟨first.toList ++ mark.text.toList ++ cs, c, ?_, hc⟩
    rw [String.toList_append, String.toList_append, hrest, List.append_assoc _ cs]

/-- A flattened path is a plain name. -/
theorem plain_flattenChars (h : IsPlainPath name) :
    IsPlain (String.ofList (flattenChars name.toList)) := by
  induction h with
  | name h => rwa [h.flattenChars_eq, String.ofList_toList]
  | join hfirst mark _ ih =>
    rw [flattenChars_join hfirst, String.ofList_append, String.ofList_toList]
    refine hfirst.append fun c hc => ?_
    rw [String.toList_ofList, List.mem_cons] at hc
    rcases hc with rfl | hc
    · decide
    · exact ih.2 c (by rwa [String.toList_ofList])

/-- What is not a plain name is recognised as a path, and has an underscore when it is flattened. -/
theorem plain_or_path (h : IsPlainPath name) :
    IsPlain name ∨ isQualifiedPath name = true ∧ '_' ∈ flattenChars name.toList := by
  cases h with
  | name h => exact Or.inl h
  | @join first rest hfirst mark _ =>
    refine Or.inr ⟨isQualifiedPath_join first rest mark, ?_⟩
    rw [flattenChars_join hfirst]
    simp

theorem plain_of_not_path (h : IsPlainPath name) (hpath : isQualifiedPath name = false) :
    IsPlain name := by
  rcases h.plain_or_path with hplain | ⟨hqualified, -⟩
  · exact hplain
  · rw [hpath] at hqualified
    cases hqualified

theorem ne_empty (h : IsPlainPath name) : name ≠ "" := by
  rintro rfl
  obtain ⟨cs, c, hname, -⟩ := h.exists_concat
  simp at hname

theorem not_mem (h : IsPlainPath name) {c : Char} (hc : isPlainChar c = false) (hdot : c ≠ '.')
    (hcolon : c ≠ ':') : c ∉ name.toList := by
  intro hmem
  rcases h.isPlainChar_or hmem with hplain | rfl | rfl
  · rw [hc] at hplain
    cases hplain
  · exact hdot rfl
  · exact hcolon rfl

theorem trim_eq (h : IsPlainPath name) : trim name = name := by
  refine trim_of_not_blank fun c hc => ?_
  rcases h.isPlainChar_or hc with hplain | rfl | rfl
  · exact not_isBlank_of_isPlainChar hplain
  · decide
  · decide

end IsPlainPath

end Text

/-! ## Names that are no collections

For such a name `step` has come past all rules that look at brackets and at primitive types.  If
what is left decides in one step, the limit on the number of steps is of no concern. -/

namespace TypeName

/-- The name of a primitive type, in the component language or in the target language. -/
def IsPrimitive (name : String) : Prop := name ∈ targetPrimitives ∨ (primitive? name).isSome

instance : DecidablePred IsPrimitive := fun name =>
  inferInstanceAs (Decidable (name ∈ targetPrimitives ∨ (primitive? name).isSome = true))

variable {scope : Scope} {schema : Schema} {name : String}

/-- What is neither a collection nor primitive is a second name or looked up in the scope. -/
theorem step_of_not_isPrimitive (hname : name ≠ "")
    (hbracket : name.toList.getLast? ≠ some ']') (hprimitive : ¬IsPrimitive name) :
    step scope schema name =
      if schema.resolveAlias name = name then namedStep scope schema name
      else .synonym (schema.resolveAlias name) := by
  obtain ⟨htarget, hsource⟩ := not_or.1 hprimitive
  have hnone : primitive? name = none := Option.not_isSome_iff_eq_none.1 hsource
  obtain ⟨hvector, hfixed⟩ := not_collection_of_getLast? hbracket
  by_cases halias : schema.resolveAlias name = name
  · simp [step, hname, hvector, hfixed, htarget, hnone, halias]
  · simp [step, hname, hvector, hfixed, htarget, hnone, halias]

theorem step_eq_namedStep (hname : name ≠ "") (hbracket : ']' ∉ name.toList)
    (hprimitive : ¬IsPrimitive name) (halias : schema.resolveAlias name = name) :
    step scope schema name = namedStep scope schema name := by
  rw [step_of_not_isPrimitive hname (fun hlast => hbracket (List.mem_of_getLast? hlast)) hprimitive,
    if_pos halias]

theorem resolveAlias_eq_self (h : schema.get? name = none) : schema.resolveAlias name = name := by
  simp [Schema.resolveAlias, Schema.maxLinks, Schema.followAlias, h]

theorem le_foldr_add (weight : ApiType → Nat) (types : List ApiType) (start : Nat) :
    start ≤ types.foldr (fun type limit => weight type + limit) start := by
  induction types with
  | nil => exact Nat.le_refl start
  | cons type types ih => exact Nat.le_trans ih (Nat.le_add_left _ _)

theorem exists_stepLimit_eq_succ (schema : Schema) (name : String) :
    ∃ fuel, stepLimit schema name = fuel + 1 := by
  have hle := le_foldr_add (fun type => (type.aliasOf.map (·.length + 1)).getD 0) schema.typeList
    (name.length + 2)
  refine Nat.exists_eq_succ_of_ne_zero ?_
  rw [stepLimit]
  omega

/-- A name that is known after one step is resolved. -/
theorem resolve_of_step {text : String} (h : step scope schema (Text.trim name) = .known text) :
    resolve scope schema name = .known text := by
  obtain ⟨fuel, hfuel⟩ := exists_stepLimit_eq_succ schema name
  simp only [resolve, hfuel, form?, h, Option.getD_some]

end TypeName

theorem Env.typeText_of_step {env : Env} {name text : String}
    (h : TypeName.step env.scope env.schema (Text.trim name) = .known text) :
    env.typeText name = pure text := by
  rw [typeText, TypeName.resolve_of_step h]
  rfl

end UiLowering
