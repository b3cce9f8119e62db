import UiLowering.Decimal.Positional
import UiLowering.Env
import UiLowering.Proofs.Lowered
import UiLowering.Proofs.Target.Scan
import UiLowering.Proofs.TypeName.Rule

/-!
# The texts of types and numbers

The names that reach a target text come from the source, from the schema and from the scope.  They
are assumed to be free of brackets, quotes and semicolons, names of types excepted, which may have
the brackets of an array.  This file shows that the texts made of such names are of the same kind:
the text of a type closes its brackets and has no others than `[` outside them, and the text of a
number has none.
-/

set_option autoImplicit false

namespace UiLowering

open Target

/-- The name of a type: it closes its brackets, and outside them it has no parenthesis, no brace and
no semicolon. -/
def IsTypeName (name : String) : Prop := Even [';', '{', '('] name.toList

theorem isTypeName_of_quiet {name : String} (h : Quiet name.toList) : IsTypeName name := h.even

/-- The second names that a schema gives stand for names of types. -/
def Schema.AliasesTidy (schema : Schema) : Prop :=
  ∀ name type, schema.get? name = some type → ∀ target ∈ type.aliasOf, IsTypeName target

/-- The schema gives only names of types for types, and templates without brackets, quotes and
semicolons. -/
structure Schema.IsTidy (schema : Schema) : Prop where
  aliases : ∀ name type, schema.get? name = some type → ∀ target ∈ type.aliasOf, IsTypeName target
  methods : ∀ name type, schema.get? name = some type → ∀ method ∈ type.methods,
    Quiet method.mappingValue.toList ∧ IsTypeName method.returnType

/-- The names a scope brings to the text of a type. -/
structure Scope.IsTidy (scope : Scope) : Prop where
  component : Quiet scope.component.toList
  module : Quiet scope.module.toList

/-- The surroundings of an expression bring no brackets, quotes or semicolons of their own. -/
structure Env.IsTidy (env : Env) : Prop where
  scope : env.scope.IsTidy
  schema : env.schema.IsTidy

/-! ## Names of types taken apart

The resolution of a name takes suffixes off and flattens paths.  A suffix `[]` or `[n]` is a closed
pair of brackets.  In a path two colons or a dot become an underscore, and all of these are
quiet. -/

theorem IsTypeName.trim {name : String} (h : IsTypeName name) : IsTypeName (Text.trim name) := by
  rw [IsTypeName, Text.trim, String.toList_ofList]
  exact Even.trimChars h (by decide)

theorem toList_of_dropEnd? {tail s base : String} (h : Text.dropEnd? tail s = some base) :
    s.toList = base.toList ++ tail.toList := by
  rw [Text.dropEnd?_eq_some_iff.1 h, String.toList_append]

theorem isQuiet_of_isDecimalDigit {c : Char} (h : Text.isDecimalDigit c = true) :
    isQuiet c = true :=
  isQuiet_of_class (by decide) h

theorem IsTypeName.dropEnd? {tail name base : String} (h : IsTypeName name)
    (hname : Text.dropEnd? tail name = some base) (htail : Even [] tail.toList)
    (hquote : '"' ∉ tail.toList) : IsTypeName base := by
  rw [IsTypeName, toList_of_dropEnd? hname] at h
  exact Even.of_append htail hquote h

theorem quiet_of_isSize {size : String} (h : TypeName.IsSize size) : Quiet size.toList :=
  fun c hc => isQuiet_of_isDecimalDigit (h.2 c hc)

theorem IsTypeName.of_sizedName {element size : String}
    (h : IsTypeName (TypeName.sizedName element size)) (hsize : Quiet size.toList) :
    IsTypeName element := by
  rw [IsTypeName, TypeName.toList_sizedName] at h
  refine Even.of_append (Even.group rfl (by decide) rfl hsize.even.body) ?_ h
  have hmem := hsize.not_mem_of_isQuiet_eq_false (c := '"') rfl
  simpa using hmem

/-- An underscore leads wherever a colon or a dot leads. -/
theorem next?_underscore {stops : List Char} {p q : Point} {c : Char} (hstops : '_' ∉ stops)
    (hc : c = ':' ∨ c = '.') (h : p.next? stops c = some q) : p.next? stops '_' = some q := by
  obtain ⟨depth, mode⟩ := p
  cases mode with
  | escaped => exact h
  | quoted => rcases hc with rfl | rfl <;> exact h
  | code =>
    cases depth with
    | succ depth => rcases hc with rfl | rfl <;> exact h
    | zero =>
      have hq : q = .start := by
        rcases hc with rfl | rfl <;> simp [Point.next?, isOpening, isClosing] at h <;>
          exact h.2.symm
      simp [Point.next?, isOpening, isClosing, hstops, hq]

/-- A second colon leads nowhere. -/
theorem next?_colon_idem {stops : List Char} {p q r : Point} (h : p.next? stops ':' = some q)
    (h' : q.next? stops ':' = some r) : r = q := by
  obtain ⟨depth, mode⟩ := p
  cases mode with
  | escaped => cases h; cases h'; rfl
  | quoted => cases h; cases h'; rfl
  | code =>
    cases depth with
    | succ depth => cases h; cases h'; rfl
    | zero =>
      have hq : q = .start := by
        simp [Point.next?, isOpening, isClosing] at h
        exact h.2.symm
      rw [hq] at h'
      exact Option.some.inj (h'.symm.trans h)

/-- Flattening a path changes neither its brackets nor its quotes. -/
theorem walks_flattenChars {stops cs : List Char} {p q : Point} (hstops : '_' ∉ stops)
    (h : Walks stops p cs q) : Walks stops p (Text.flattenChars cs) q := by
  fun_induction Text.flattenChars cs generalizing p with
  | case1 => exact h
  | case2 rest ih =>
    obtain ⟨p₁, h₁, h⟩ := Walks.cons_iff.1 h
    obtain ⟨p₂, h₂, h⟩ := Walks.cons_iff.1 h
    rw [next?_colon_idem h₁ h₂] at h
    exact Walks.cons_iff.2 ⟨p₁, next?_underscore hstops (Or.inl rfl) h₁, ih h⟩
  | case3 rest ih =>
    obtain ⟨p₁, h₁, h⟩ := Walks.cons_iff.1 h
    exact Walks.cons_iff.2 ⟨p₁, next?_underscore hstops (Or.inr rfl) h₁, ih h⟩
  | case4 c rest _ _ ih =>
    obtain ⟨p₁, h₁, h⟩ := Walks.cons_iff.1 h
    exact Walks.cons_iff.2 ⟨p₁, h₁, ih h⟩

/-! ## The text of a type

Each step of the resolution puts together what it was given with fixed texts.  The names that a
schema brings in by its aliases are the one source of new texts. -/

namespace TypeName

theorem isTypeName_flatten {name : String} (h : IsTypeName name) : IsTypeName (flatten name) := by
  unfold flatten
  split
  · exact h
  · rw [IsTypeName, String.toList_ofList]
    exact walks_flattenChars (by decide) h

theorem isTypeName_qualify {module name : String} (hmodule : Quiet module.toList)
    (h : IsTypeName name) : IsTypeName (Text.qualify module name) := by
  unfold Text.qualify
  split
  · exact h
  · exact Even.text (Even.text hmodule.even rfl) h

theorem quiet_of_primitive? {name target : String} (h : primitive? name = some target) :
    Quiet target.toList := by
  unfold primitive? at h
  split at h <;> cases h <;> decide

theorem isTypeName_followAlias {schema : Schema} (haliases : schema.AliasesTidy) (fuel : Nat)
    {name : String} (h : IsTypeName name) : IsTypeName (schema.followAlias fuel name) := by
  induction fuel generalizing name with
  | zero => exact h
  | succ fuel ih =>
    unfold Schema.followAlias
    split
    · rename_i target htarget
      obtain ⟨type, htype, halias⟩ := Option.bind_eq_some_iff.1 htarget
      split
      · exact h
      · exact ih (haliases name type htype target halias)
    · exact h

/-- The names in a step are names of types. -/
def Step.IsTidy : Step → Prop
  | .known text => IsTypeName text
  | .vector element => IsTypeName element
  | .fixed element size => IsTypeName element ∧ Quiet size.toList
  | .synonym target => IsTypeName target
  | .companion base => IsTypeName base
  | .unresolved => True

variable {scope : Scope} {schema : Schema}

theorem isTidy_of_namedRule (hscope : scope.IsTidy) {name : String} (h : IsTypeName name)
    {next : Step} (hrule : NamedRule scope schema name next) : next.IsTidy := by
  cases hrule with
  | localType => exact isTypeName_qualify hscope.component h
  | moduleType => exact isTypeName_qualify hscope.module h
  | path => exact isTypeName_flatten h
  | handle => exact Even.text (s := "webcc::") rfl h
  | companion _ hname => exact h.dropEnd? (Text.dropEnd?_eq_some_iff.2 hname) rfl (by decide)
  | unresolved => trivial

theorem isTidy_of_rule (hscope : scope.IsTidy) (haliases : schema.AliasesTidy) {name : String}
    (h : IsTypeName name) {next : Step} (hrule : Rule scope schema name next) : next.IsTidy := by
  cases hrule with
  | empty => exact Even.nil
  | vector hname => exact h.dropEnd? (Text.dropEnd?_eq_some_iff.2 hname) rfl (by decide)
  | fixed hname hsize =>
    exact ⟨IsTypeName.of_sizedName (hname ▸ h) (quiet_of_isSize hsize), quiet_of_isSize hsize⟩
  | target => exact h
  | primitive htarget => exact (quiet_of_primitive? htarget).even
  | synonym => exact isTypeName_followAlias haliases _ h
  | named _ hnamed => exact isTidy_of_namedRule hscope h hnamed

theorem isTypeName_text_form? (hscope : scope.IsTidy) (haliases : schema.AliasesTidy) (fuel : Nat)
    {raw : String} {form : TypeForm} (hraw : IsTypeName raw)
    (h : form? scope schema fuel raw = some form) : IsTypeName form.text := by
  induction fuel generalizing raw form with
  | zero => cases h
  | succ fuel ih =>
    have hstep : (step scope schema (Text.trim raw)).IsTidy :=
      isTidy_of_rule hscope haliases hraw.trim (rule_step scope schema _)
    rw [form?] at h
    generalize step scope schema (Text.trim raw) = next at h hstep
    cases next with
    | known text => cases h; exact hstep
    | vector element =>
      obtain ⟨inner, hinner, rfl⟩ := Option.map_eq_some_iff.1 h
      exact Even.text (Even.text (s := "webcc::vector<") rfl (ih hstep hinner)) rfl
    | fixed element size =>
      obtain ⟨inner, hinner, rfl⟩ := Option.map_eq_some_iff.1 h
      exact Even.text (Even.text (Even.text (Even.text (s := "webcc::array<") rfl
        (ih hstep.1 hinner)) rfl) hstep.2.even) rfl
    | synonym target => exact ih hstep h
    | companion base =>
      obtain ⟨inner, hinner, rfl⟩ := Option.map_eq_some_iff.1 h
      split
      · exact hraw.trim
      · exact Even.text (ih hstep hinner) rfl
    | unresolved => cases h; exact hraw.trim

end TypeName

/-- The text of a type is a name of a type. -/
theorem Env.yields_typeText {env : Env} (hscope : env.scope.IsTidy)
    (haliases : env.schema.AliasesTidy) {name : String} (h : IsTypeName name) :
    (env.typeText name).Yields IsTypeName := by
  intro text htext
  cases htext
  rw [TypeName.resolve]
  cases hform : TypeName.form? env.scope env.schema (TypeName.stepLimit env.schema name) name with
  | none => exact h
  | some form => exact TypeName.isTypeName_text_form? hscope haliases _ h hform

theorem Env.isTypeName_typeText {env : Env} (henv : env.IsTidy) {name : String}
    (h : IsTypeName name) : (env.typeText name).Yields IsTypeName :=
  yields_typeText henv.scope henv.schema.aliases h

/-! ## The text of a number

A number is written with digits, a sign and a point, or as a word.  None of these has a part in the
structure of a text. -/

theorem isQuiet_of_isDigit {c : Char} (h : c.isDigit = true) : isQuiet c = true :=
  isQuiet_of_class (by decide) h

theorem quiet_toDigits (n : Nat) : Quiet (Nat.toDigits 10 n) :=
  fun _ hc => isQuiet_of_isDigit (Nat.isDigit_of_mem_toDigits (by decide) (by decide) hc)

theorem quiet_toString_nat (n : Nat) : Quiet (toString n).toList := by
  rw [Nat.toString_eq_ofList_toDigits, String.toList_ofList]
  exact quiet_toDigits n

theorem quiet_toString_int (n : Int) : Quiet (toString n).toList := by
  cases n with
  | ofNat n => exact quiet_toString_nat n
  | negSucc n => exact Quiet.text (s := "-") (by decide) (quiet_toString_nat (n + 1))

theorem quiet_positional (d : Decimal) : Quiet d.positional.toList := by
  have hwhole : Quiet d.places.1 := quiet_toDigits _
  have hfraction : Quiet d.places.2 := by
    intro c hc
    have hpadded := (List.dropWhile_sublist _).mem (List.mem_reverse.1 hc)
    rw [List.mem_reverse] at hpadded
    split at hpadded
    · cases hpadded
    · rcases List.mem_append.1 hpadded with hzero | hdigit
      · rw [List.eq_of_mem_replicate hzero]
        rfl
      · exact quiet_toDigits _ c hdigit
  unfold Decimal.positional
  generalize d.places = places at hwhole hfraction ⊢
  obtain ⟨whole, fraction⟩ := places
  have hpart : Quiet (if fraction.isEmpty then ['0'] else fraction) := by
    split
    · decide
    · exact hfraction
  rw [String.toList_ofList]
  exact hwhole.append (Quiet.append (a := ['.']) (by decide) hpart)

theorem quiet_signed (negative : Bool) {text : String} (h : Quiet text.toList) :
    Quiet (signed negative text).toList := by
  unfold signed
  split
  · exact Quiet.text (s := "-") (by decide) h
  · exact h

theorem quiet_floatText (value : Float) : Quiet (floatText value).toList := by
  unfold floatText DoubleClass.text
  split
  · decide
  · exact quiet_signed _ (by decide)
  · exact quiet_signed _ (by decide)
  · exact quiet_signed _ (quiet_positional _)

end UiLowering
