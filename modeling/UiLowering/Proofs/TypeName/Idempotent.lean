import UiLowering.Proofs.Names
import UiLowering.Proofs.Schema.Index
import UiLowering.Proofs.TypeName.Suffix

/-!
# Resolving a resolved name

A target text is either a plain name or belongs to the runtime.  Both stand for themselves, provided
that the scope and the schema know types under words only.  A text of the runtime is a path that is
left alone.  A plain name that the resolution made is no word, for it has an underscore where two
names were joined, or it is named like the companion of a type that stands for itself.

Without the condition on words the statement fails in two ways.  A type of the schema may be named
like the result of a resolution and stand for something else.  Or the module and the name of one
type may be joined to the name of another.  Both are excluded by names without underscores, and the
second name of a type is free to stand for anything, as long as it is a path.
-/

set_option autoImplicit false

namespace UiLowering.TypeName

/-! ## Names

A resolved name may be resolved again only if nobody knows a type under it.  The resolution joins
names with an underscore, so it is enough that the names of types have none; `IsWord` and
`KnowsWords` say so of the scope and the schema. -/

/-- Letters and digits, and not named like a companion. -/
structure IsWord (name : String) : Prop where
  alphanum : ∀ c ∈ name.toList, c.isAlphanum = true
  notCompanion : Text.endsWith "Meta" name = false

instance : DecidablePred IsWord := fun name =>
  decidable_of_iff (name.toList.all Char.isAlphanum = true ∧ Text.endsWith "Meta" name = false)
    ⟨fun h => ⟨List.all_eq_true.1 h.1, h.2⟩, fun h => ⟨List.all_eq_true.2 h.1, h.2⟩⟩

/-- A path of plain names with any number of array suffixes. -/
def IsTypePath (name : String) : Prop :=
  ∃ path suffixes, Text.IsPlainPath path ∧ name = suffixed path suffixes

/-- The scope and the schema know types under words only, and what is put before a word is plain. -/
structure KnowsWords (scope : Scope) (schema : Schema) : Prop where
  component : scope.component ≠ "" → Text.IsPlain scope.component
  module : scope.module ≠ "" → Text.IsPlain scope.module
  localTypes : ∀ name, scope.localTypes.contains name = true → IsWord name
  moduleTypes : scope.module ≠ "" →
    ∀ name, scope.isGlobalType (scope.module ++ "_" ++ name) = true → IsWord name
  schemaTypes : ∀ name, (schema.get? name).isSome = true → IsWord name
  aliases : ∀ target ∈ schema.aliasTargets, IsTypePath target

/-- The type name is its own target text. -/
def StandsForItself (scope : Scope) (schema : Schema) (name : String) : Prop :=
  ∃ form, Resolves scope schema name form ∧ form.text = name

/-- A text of the runtime that is not taken for an array. -/
def IsRuntimeText (text : String) : Prop :=
  (∃ rest, text = "webcc::" ++ rest) ∧
    ∃ cs c, text.toList = cs ++ [c] ∧ Text.isBlank c = false ∧ c ≠ ']'

variable {scope : Scope} {schema : Schema} {name base : String}

/-! ## Names that nobody knows

With the scope and the schema out of the way, few rules are left.  A path is flattened, and any
other name stays as it is or is taken for the companion of another one.  The latter is why the
argument goes by induction on the length of the name. -/

/-- Neither the scope nor the schema knows a type of the name. -/
structure IsUnknown (scope : Scope) (schema : Schema) (name : String) : Prop where
  notLocal : scope.isLocalType name = false
  notModule : Text.qualify scope.module name = name ∨
    scope.isGlobalType (Text.qualify scope.module name) = false
  notInSchema : schema.get? name = none

theorem KnowsWords.isUnknown (h : KnowsWords scope schema) (hname : ¬IsWord name) :
    IsUnknown scope schema name := by
  refine ⟨?_, ?_, ?_⟩
  · rw [← Bool.not_eq_true, Scope.isLocalType, Bool.and_eq_true]
    exact fun hlocal => hname (h.localTypes name hlocal.2)
  · by_cases hmodule : scope.module = ""
    · left
      rw [hmodule]
      rfl
    · right
      rw [Text.qualify, if_neg (by simpa using hmodule), ← Bool.not_eq_true]
      exact fun hglobal => hname (h.moduleTypes hmodule name hglobal)
  · rw [← Option.not_isSome_iff_eq_none]
    exact fun hsome => hname (h.schemaTypes name hsome)

/-- The rules that are left for a name that nobody knows, if it is neither empty nor the name of a
collection or a primitive type of the component language. -/
theorem IsUnknown.step_cases (h : IsUnknown scope schema name) (hne : name ≠ "")
    (hlast : name.toList.getLast? ≠ some ']') (hprimitive : primitive? name = none) :
    step scope schema name = .known name ∨
      (Text.isQualifiedPath name = true ∧ step scope schema name = .known (flatten name)) ∨
      (Text.isQualifiedPath name = false ∧ ((step scope schema name = .unresolved) ∨
        ∃ base, base ≠ "" ∧ name = base ++ "Meta" ∧ step scope schema name = .companion base)) := by
  have hrule := rule_step scope schema name
  generalize step scope schema name = next at hrule ⊢
  cases hrule with
  | empty hempty => exact absurd hempty hne
  | vector hname => exact absurd (hname ▸ getLast?_brackets _) hlast
  | fixed hname => exact absurd (hname ▸ getLast?_sizedName _ _) hlast
  | target => exact Or.inl rfl
  | primitive htarget =>
    rw [hprimitive] at htarget
    cases htarget
  | synonym halias => exact absurd (resolveAlias_eq_self h.notInSchema) halias
  | named _ hnamed =>
    cases hnamed with
    | localType hlocal =>
      rw [h.notLocal] at hlocal
      cases hlocal
    | moduleType hmodule hglobal =>
      rw [h.notModule.resolve_left hmodule] at hglobal
      cases hglobal
    | path hpath => exact Or.inr (Or.inl ⟨hpath, rfl⟩)
    | handle _ hhandle =>
      rw [Schema.isHandle, h.notInSchema] at hhandle
      cases hhandle
    | companion hpath hname hbase => exact Or.inr (Or.inr ⟨hpath, Or.inr ⟨_, hbase, hname, rfl⟩⟩)
    | unresolved hpath => exact Or.inr (Or.inr ⟨hpath, Or.inl rfl⟩)

theorem alphanum_of_primitive? {target : String} (h : primitive? name = some target) :
    name.toList.all (fun c => c.isLower || c.isDigit) = true := by
  unfold primitive? at h
  split at h <;> first | rfl | cases h

/-- No primitive type of the component language has a character in its name that is neither a small
letter nor a digit. -/
theorem primitive?_eq_none {c : Char} (hc : c ∈ name.toList)
    (hother : (c.isLower || c.isDigit) = false) : primitive? name = none := by
  rw [Option.eq_none_iff_forall_ne_some]
  intro target htarget
  rw [List.all_eq_true.1 (alphanum_of_primitive? htarget) c hc] at hother
  cases hother

/-- An unknown plain name stands for itself, if it is not named like the companion of a type that
does not. -/
theorem standsForItself_of_plain (h : IsUnknown scope schema name) (hplain : Text.IsPlain name)
    (hprimitive : primitive? name = none)
    (hbase : ∀ base, base ≠ "" → name = base ++ "Meta" → StandsForItself scope schema base) :
    StandsForItself scope schema name := by
  have hlast : name.toList.getLast? ≠ some ']' :=
    fun hlast => hplain.not_mem (by decide) (List.mem_of_getLast? hlast)
  have htrim := hplain.trim_eq
  rcases h.step_cases hplain.1 hlast hprimitive with hstep | ⟨hpath, -⟩ | ⟨-, hstep | hcompanion⟩
  · exact ⟨.known name, .known (htrim.symm ▸ hstep), rfl⟩
  · rw [hplain.isQualifiedPath_eq] at hpath
    cases hpath
  · exact ⟨_, .unresolved (htrim.symm ▸ hstep), htrim⟩
  · obtain ⟨base, hne, hname, hstep⟩ := hcompanion
    obtain ⟨form, hform, htext⟩ := hbase base hne hname
    exact ⟨_, .companionOfItself (htrim.symm ▸ hstep) hform htext, htrim⟩

/-- Names that were joined with an underscore stand for themselves. -/
theorem standsForItself_of_underscore (hwords : KnowsWords scope schema)
    (hplain : Text.IsPlain name) (hmark : '_' ∈ name.toList) :
    StandsForItself scope schema name := by
  induction hlength : name.length using Nat.strong_induction_on generalizing name with
  | _ n ih =>
    have hunknown := hwords.isUnknown fun hword => absurd (hword.alphanum '_' hmark) (by decide)
    refine standsForItself_of_plain hunknown hplain (primitive?_eq_none hmark (by decide)) ?_
    rintro base hne rfl
    -- the underscore is not one of the last four characters
    rw [String.toList_append, List.mem_append] at hmark
    refine ih base.length ?_ ⟨hne, fun c hc => hplain.2 c ?_⟩ (hmark.resolve_right (by decide)) rfl
    · rw [← hlength]
      exact Text.length_lt_append _ (by decide)
    · rw [String.toList_append]
      exact List.mem_append_left _ hc

/-- The companion of a type that stands for itself stands for itself. -/
theorem standsForItself_companion (hwords : KnowsWords scope schema) (hplain : Text.IsPlain base)
    (hbase : StandsForItself scope schema base) :
    StandsForItself scope schema (base ++ "Meta") := by
  have hcompanion : Text.dropEnd? "Meta" (base ++ "Meta") = some base :=
    Text.dropEnd?_eq_some_iff.2 rfl
  have hunknown : IsUnknown scope schema (base ++ "Meta") := by
    refine hwords.isUnknown fun hword => ?_
    rw [Text.dropEnd?, hword.notCompanion] at hcompanion
    cases hcompanion
  have hcapital : 'M' ∈ (base ++ "Meta").toList := by simp
  refine standsForItself_of_plain hunknown hplain.companion
    (primitive?_eq_none hcapital (by decide)) fun other _ hother => ?_
  rw [hother, Text.dropEnd?_eq_some_iff.2 rfl] at hcompanion
  rwa [Option.some.inj hcompanion]

/-! ## Texts of the runtime

These have a path in front that is neither a name of the component language nor a second name.  They
are recognized by what they begin with and end in. -/

theorem isRuntimeText_append {rest : String} {cs : List Char} {c : Char}
    (hrest : rest.toList = cs ++ [c]) (hblank : Text.isBlank c = false) (hbracket : c ≠ ']') :
    IsRuntimeText ("webcc::" ++ rest) := by
  refine ⟨⟨rest, rfl⟩, "webcc::".toList ++ cs, c, ?_, hblank, hbracket⟩
  rw [String.toList_append, hrest, List.append_assoc]

theorem isRuntimeText_vector (element : String) :
    IsRuntimeText ("webcc::vector<" ++ element ++ ">") := by
  have htext : "webcc::vector<" ++ element ++ ">" = "webcc::" ++ ("vector<" ++ element ++ ">") := by
    rw [← String.append_assoc, ← String.append_assoc]
    rfl
  rw [htext]
  exact isRuntimeText_append (String.toList_append ..) (by decide) (by decide)

theorem isRuntimeText_array (element size : String) :
    IsRuntimeText ("webcc::array<" ++ element ++ ", " ++ size ++ ">") := by
  have htext : "webcc::array<" ++ element ++ ", " ++ size ++ ">" =
      "webcc::" ++ ("array<" ++ element ++ ", " ++ size ++ ">") := by
    rw [← String.append_assoc, ← String.append_assoc, ← String.append_assoc,
      ← String.append_assoc]
    rfl
  rw [htext]
  exact isRuntimeText_append (String.toList_append ..) (by decide) (by decide)

theorem IsRuntimeText.companion (h : IsRuntimeText base) : IsRuntimeText (base ++ "Meta") := by
  obtain ⟨⟨rest, rfl⟩, -⟩ := h
  have hend : (rest ++ "Meta").toList = (rest ++ "Met").toList ++ ['a'] := by simp
  rw [String.append_assoc]
  exact isRuntimeText_append hend (by decide) (by decide)

theorem standsForItself_of_runtime (hwords : KnowsWords scope schema) (h : IsRuntimeText name) :
    StandsForItself scope schema name := by
  obtain ⟨⟨rest, rfl⟩, cs, c, hend, hblank, hbracket⟩ := h
  have hcolon : ':' ∈ ("webcc::" ++ rest).toList := by simp
  have hunknown := hwords.isUnknown fun hword => absurd (hword.alphanum ':' hcolon) (by decide)
  have hbegin : ("webcc::" ++ rest).toList = 'w' :: ("ebcc::" ++ rest).toList := by simp
  have htrim := Text.trim_eq_self hbegin hend (by decide) hblank
  have hpath : Text.isQualifiedPath ("webcc::" ++ rest) = true :=
    Text.isQualifiedPath_join "webcc" rest .colons
  have hflat : flatten ("webcc::" ++ rest) = "webcc::" ++ rest := by
    rw [flatten, if_pos]
    simp [Text.startsWith]
  rcases hunknown.step_cases (by simp) (by simpa [hend] using hbracket)
    (primitive?_eq_none hcolon (by decide)) with hstep | ⟨-, hstep⟩ | ⟨hother, -⟩
  · exact ⟨_, .known (htrim.symm ▸ hstep), rfl⟩
  · rw [hflat] at hstep
    exact ⟨_, .known (htrim.symm ▸ hstep), rfl⟩
  · rw [hpath] at hother
    cases hother

theorem standsForItself_of_mem_targetPrimitives (h : name ∈ targetPrimitives) :
    StandsForItself scope schema name := by
  have hnames : ∀ name ∈ targetPrimitives,
      name ≠ "" ∧ name.toList.getLast? ≠ some ']' ∧ Text.trim name = name := by decide
  obtain ⟨hne, hlast, htrim⟩ := hnames name h
  obtain ⟨hvector, hfixed⟩ := not_collection_of_getLast? hlast
  have hstep : step scope schema name = .known name := by simp [step, hne, hvector, hfixed, h]
  exact ⟨_, .known (htrim.symm ▸ hstep), rfl⟩

/-! ## Resolved paths

The induction is on the steps that lead to the form.  Each rule either goes on with another path, or
ends in one of the texts above. -/

/-- A path either has no suffix or is taken for an array. -/
theorem IsTypePath.path_or_suffix (h : IsTypePath name) (scope : Scope) (schema : Schema) :
    Text.IsPlainPath name ∨
      ∃ suffix element, step scope schema (Text.trim name) = ArraySuffix.step suffix element := by
  obtain ⟨path, suffixes, hpath, rfl⟩ := h
  rcases List.eq_nil_or_concat suffixes with rfl | ⟨front, last, rfl⟩
  · exact Or.inl hpath
  · obtain ⟨cs, c, hpath', hc⟩ := hpath.exists_concat
    have helement : IsElementName path :=
      ⟨⟨c, by rw [hpath']; simp, Text.not_isBlank_of_isPlainChar hc⟩,
        hpath.not_mem (by decide) (by decide) (by decide)⟩
    obtain ⟨element, -, hstep, -⟩ :=
      exists_element (helement.suffixed front) scope schema last
    refine Or.inr ⟨last, element, ?_⟩
    rw [← hstep, List.concat_eq_append, suffixed_concat]

/-! ### Settled texts

What the induction carries is more than that a text stands for itself.  The text may become the
element of an array or the base of a companion, and what is built from it has to be settled
again. -/

/-- The text of a type, in which nothing is left to resolve. -/
def IsSettled (scope : Scope) (schema : Schema) (text : String) : Prop :=
  (Text.IsPlain text ∨ IsRuntimeText text) ∧ StandsForItself scope schema text

theorem isSettled_of_runtime (hwords : KnowsWords scope schema) {text : String}
    (h : IsRuntimeText text) : IsSettled scope schema text :=
  ⟨Or.inr h, standsForItself_of_runtime hwords h⟩

theorem isSettled_of_mem_targetPrimitives (h : name ∈ targetPrimitives) :
    IsSettled scope schema name := by
  have hnames : ∀ name ∈ targetPrimitives,
      Text.IsPlain name ∨ name = "webcc::" ++ "string" := by decide
  refine ⟨(hnames name h).imp_right ?_, standsForItself_of_mem_targetPrimitives h⟩
  rintro rfl
  have hend : "string".toList = "strin".toList ++ ['g'] := rfl
  exact isRuntimeText_append hend (by decide) (by decide)

theorem mem_of_primitive? {target : String} (h : primitive? name = some target) :
    target ∈ targetPrimitives := by
  unfold primitive? at h
  split at h <;> cases h <;> decide

theorem isSettled_of_underscore (hwords : KnowsWords scope schema) (hplain : Text.IsPlain name)
    (hmark : '_' ∈ name.toList) : IsSettled scope schema name :=
  ⟨Or.inl hplain, standsForItself_of_underscore hwords hplain hmark⟩

theorem IsWord.isPlainChar (h : IsWord name) : ∀ c ∈ name.toList, Text.isPlainChar c = true := by
  intro c hc
  have halphanum := h.alphanum c hc
  have hblank : Text.isBlank c = false := by
    rw [← Bool.not_eq_true]
    intro hblank
    have hword := Text.not_isAsciiWord_of_isBlank hblank
    rw [Text.isAsciiWord, halphanum] at hword
    cases hword
  have hne (mark : Char) (hmark : mark.isAlphanum = false) : c ≠ mark := by
    rintro rfl
    rw [halphanum] at hmark
    cases hmark
  simp [Text.isPlainChar, hblank, hne '.' rfl, hne ':' rfl, hne '[' rfl, hne ']' rfl]

/-- A word behind a plain name and an underscore. -/
theorem isSettled_qualify (hwords : KnowsWords scope schema) {space : String}
    (hspace : Text.IsPlain space) (hword : IsWord name) :
    IsSettled scope schema (Text.qualify space name) := by
  rw [Text.qualify, if_neg (by simpa using hspace.1), String.append_assoc]
  refine isSettled_of_underscore hwords (hspace.append fun c hc => ?_) (by simp)
  rw [String.toList_append, List.mem_append] at hc
  rcases hc with hc | hc
  · obtain rfl : c = '_' := by simpa using hc
    decide
  · exact hword.isPlainChar c hc

theorem isSettled_flatten (hwords : KnowsWords scope schema) (hpath : Text.IsPlainPath name)
    (hqualified : Text.isQualifiedPath name = true) :
    IsSettled scope schema (flatten name) := by
  rw [flatten]
  split
  · rename_i hruntime
    obtain ⟨rest, hrest⟩ := List.isPrefixOf_iff_prefix.1 hruntime
    obtain ⟨cs, c, hend, hc⟩ := hpath.exists_concat
    refine isSettled_of_runtime hwords ⟨⟨String.ofList rest, ?_⟩, cs, c, hend,
      Text.not_isBlank_of_isPlainChar hc, Text.ne_of_isPlainChar hc (by decide)⟩
    rw [← String.toList_inj, ← hrest]
    simp
  · rcases hpath.plain_or_path with hplain | ⟨-, hmark⟩
    · rw [hplain.isQualifiedPath_eq] at hqualified
      cases hqualified
    · exact isSettled_of_underscore hwords hpath.plain_flattenChars (by simpa using hmark)

theorem isSettled_known (hwords : KnowsWords scope schema) (hpath : Text.IsPlainPath name)
    {text : String} (hstep : step scope schema name = .known text) :
    IsSettled scope schema text := by
  have hrule := rule_step scope schema name
  rw [hstep] at hrule
  cases hrule with
  | empty hempty => exact absurd hempty hpath.ne_empty
  | target htarget => exact isSettled_of_mem_targetPrimitives htarget
  | primitive hsource => exact isSettled_of_mem_targetPrimitives (mem_of_primitive? hsource)
  | named _ hnamed =>
    cases hnamed with
    | localType hlocal =>
      rw [Scope.isLocalType, Bool.and_eq_true, bne_iff_ne] at hlocal
      exact isSettled_qualify hwords (hwords.component hlocal.1)
        (hwords.localTypes name hlocal.2)
    | moduleType hmodule hglobal =>
      have hne : scope.module ≠ "" := fun hempty => hmodule (by rw [hempty]; rfl)
      rw [Text.qualify, if_neg (by simpa using hne)] at hglobal
      exact isSettled_qualify hwords (hwords.module hne) (hwords.moduleTypes hne name hglobal)
    | path hqualified => exact isSettled_flatten hwords hpath hqualified
    | handle _ _ =>
      obtain ⟨cs, c, hname, hc⟩ := hpath.exists_concat
      exact isSettled_of_runtime hwords (isRuntimeText_append hname
        (Text.not_isBlank_of_isPlainChar hc) (Text.ne_of_isPlainChar hc (by decide)))

/-- Only a plain name is named like a companion. -/
theorem IsTypePath.companion (h : IsTypePath name)
    (hstep : step scope schema (Text.trim name) = .companion base) :
    Text.trim name = base ++ "Meta" ∧ Text.IsPlain base := by
  rcases h.path_or_suffix scope schema with hpath | ⟨suffix, element, hsuffix⟩
  · rw [hpath.trim_eq] at hstep ⊢
    have hrule := rule_step scope schema name
    rw [hstep] at hrule
    cases hrule with
    | named _ hnamed =>
      cases hnamed with
      | companion hqualified hname hbase =>
        have hplain := hpath.plain_of_not_path hqualified
        refine ⟨hname, hbase, fun c hc => hplain.2 c ?_⟩
        rw [hname, String.toList_append]
        exact List.mem_append_left _ hc
  · rw [hsuffix] at hstep
    cases suffix <;> cases hstep

/-- Only a plain name may be unknown. -/
theorem IsTypePath.unresolved (h : IsTypePath name)
    (hstep : step scope schema (Text.trim name) = .unresolved) :
    Text.trim name = name ∧ Text.IsPlain name := by
  rcases h.path_or_suffix scope schema with hpath | ⟨suffix, element, hsuffix⟩
  · refine ⟨hpath.trim_eq, ?_⟩
    have hrule := rule_step scope schema name
    rw [← hpath.trim_eq, hstep, hpath.trim_eq] at hrule
    cases hrule with
    | named _ hnamed =>
      cases hnamed with
      | unresolved hqualified => exact hpath.plain_of_not_path hqualified
  · rw [hsuffix] at hstep
    cases suffix <;> cases hstep

/-! ### The steps from a path

The induction is on the resolution.  An array and a companion are built from a settled text, a
second name leads to another path, and all other rules end in one of the texts above. -/

/-- What the steps from a path end in is settled. -/
theorem Resolves.isSettled {form : TypeForm} (hwords : KnowsWords scope schema)
    (h : Resolves scope schema name form) (hname : IsTypePath name) :
    IsSettled scope schema form.text := by
  induction h with
  | known hstep =>
    rcases hname.path_or_suffix scope schema with hpath | ⟨suffix, element, hsuffix⟩
    · exact isSettled_known hwords hpath (hpath.trim_eq ▸ hstep)
    · rw [hsuffix] at hstep
      cases suffix <;> cases hstep
  | vector => exact isSettled_of_runtime hwords (isRuntimeText_vector _)
  | fixed => exact isSettled_of_runtime hwords (isRuntimeText_array _ _)
  | @synonym raw target form hstep _ ih =>
    have hrule := rule_step scope schema (Text.trim raw)
    rw [hstep] at hrule
    cases hrule with
    | synonym halias =>
      exact ih (hwords.aliases _
        ((schema.followAlias_mem Schema.maxLinks (Text.trim raw)).resolve_left halias))
    | named _ hnamed => cases hnamed
  | companion hstep _ _ ih =>
    obtain ⟨-, hplain⟩ := hname.companion hstep
    obtain ⟨hruntime | htext, hself⟩ := ih ⟨_, [], .name hplain, rfl⟩
    · exact ⟨Or.inl hruntime.companion, standsForItself_companion hwords hruntime hself⟩
    · exact isSettled_of_runtime hwords htext.companion
  | companionOfItself hstep hform hbase _ =>
    obtain ⟨htrim, hplain⟩ := hname.companion hstep
    change IsSettled scope schema (Text.trim _)
    rw [htrim]
    exact ⟨Or.inl hplain.companion, standsForItself_companion hwords hplain ⟨_, hform, hbase⟩⟩
  | unresolved hstep =>
    obtain ⟨htrim, hplain⟩ := hname.unresolved hstep
    change IsSettled scope schema (Text.trim _)
    rw [htrim]
    exact ⟨Or.inl hplain, _, .unresolved hstep, htrim⟩

/-- **Resolving is idempotent.**  If the scope and the schema know types under words only, the text
of every path of names that has a form, with any number of array suffixes, is its own text. -/
theorem resolve_resolve (hwords : KnowsWords scope schema) (hname : IsTypePath name)
    (hends : Ends scope schema name) :
    Ends scope schema (resolve scope schema name).text ∧
      (resolve scope schema (resolve scope schema name).text).text =
        (resolve scope schema name).text := by
  obtain ⟨-, form, hform, htext⟩ := hends.resolves.isSettled hwords hname
  refine ⟨⟨form, hform⟩, ?_⟩
  rw [hform.resolve_eq, htext]

/-- A component of a game that has a type of its own, beside a type of its module. -/
def gameScope : Scope :=
  (Scope.ofComponent "game" "Physics" (NameSet.ofNames ["game_Body"])).declareType "Vector3"

/-- A second name for an array of types of another module. -/
def layerSchema : Schema := .ofTypes [.synonym "Sprite" "gfx::Layer[2]"]

theorem knowsWords_game : KnowsWords gameScope layerSchema where
  component _ := by decide
  module _ := by decide
  localTypes name h := by
    have hname : "Vector3" = name := by
      simpa [gameScope, Scope.declareType, Scope.ofComponent] using h
    rw [← hname]
    decide
  moduleTypes _ name h := by
    have hglobal : "game_" ++ name = "game_" ++ "Body" := by
      simpa [Scope.isGlobalType, ← Std.ExtTreeSet.mem_iff_contains, gameScope, Scope.declareType,
        Scope.ofComponent] using h
    rw [(String.append_right_inj _).1 hglobal]
    decide
  schemaTypes name h := by
    rw [layerSchema, Schema.get?_ofTypes] at h
    have hname : (ApiType.synonym "Sprite" "gfx::Layer[2]").name = name := by
      simpa [Schema.standing] using h
    rw [← hname]
    decide
  aliases target h := by
    have htargets : layerSchema.aliasTargets = ["gfx::Layer[2]"] := by decide +kernel
    obtain rfl : target = "gfx::Layer[2]" := by simpa [htargets] using h
    have hpath : Text.IsPlainPath ("gfx" ++ "::" ++ "Layer") :=
      .join (by decide) .colons (.name (by decide))
    exact ⟨_, [.sized "2" (by decide)], hpath, rfl⟩

theorem resolve_resolve_companion :
    KnowsWords gameScope layerSchema ∧ IsTypePath "SpriteMeta[8]" ∧
      Ends gameScope layerSchema "SpriteMeta[8]" ∧
      (resolve gameScope layerSchema "SpriteMeta[8]").text =
        "webcc::array<webcc::array<gfx_Layer, 2>Meta, 8>" ∧
      (resolve gameScope layerSchema "webcc::array<webcc::array<gfx_Layer, 2>Meta, 8>").text =
        "webcc::array<webcc::array<gfx_Layer, 2>Meta, 8>" := by
  have hname : IsTypePath "SpriteMeta[8]" :=
    ⟨"SpriteMeta", [.sized "8" (by decide)], .name (by decide), rfl⟩
  have hends : Ends gameScope layerSchema "SpriteMeta[8]" := by decide +kernel
  have htext : (resolve gameScope layerSchema "SpriteMeta[8]").text =
      "webcc::array<webcc::array<gfx_Layer, 2>Meta, 8>" := by decide +kernel
  obtain ⟨-, hagain⟩ := resolve_resolve knowsWords_game hname hends
  rw [htext] at hagain
  exact ⟨knowsWords_game, hname, hends, htext, hagain⟩

end UiLowering.TypeName
