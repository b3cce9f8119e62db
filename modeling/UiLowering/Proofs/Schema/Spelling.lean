import UiLowering.Proofs.Schema.Index
import UiLowering.Proofs.Text.Cut
import UiLowering.Proofs.Text.Snake

/-!
# The two spellings of a function

A function of the runtime is looked for under the snake case of the name that a call uses, and it is
stored under the snake case of its own name.  So a function is always found under its own name, and
a name and its snake case find the same functions exactly if the snake case of the name is its own
snake case.  That is the case for a name of which no digit stands directly behind a capital
(`spellings_agree_iff`): `setInnerText` and `set_inner_text` are one function, but `setFontH1` is
looked for under `set_font_h1`, and `set_font_h1` under `set_font_h_1`.
-/

set_option autoImplicit false

namespace UiLowering.Schema

variable {history : List ApiType} {name owner space : String} {type : ApiType}
  {method : ApiMethod}

/-- A type with one method, which is mapped to the function `name`. -/
def carrier (name : String) : ApiType :=
  { ApiType.plain "Runtime" with methods := [.plain "call" .function ("runtime::" ++ name)] }

theorem target?_carrier (h : name ≠ "") :
    (ApiMethod.plain "call" .function ("runtime::" ++ name)).target? = some ("runtime", name) := by
  have hcut : Text.cutColons ("runtime::" ++ name) = some ("runtime", name) := by
    have hchars : ("runtime::" ++ name).toList = "runtime".toList ++ ':' :: ':' :: name.toList := by
      simp [String.toList_append]
    rw [Text.cutColons, hchars, Text.cutColonsChars_append (by decide), Option.map_some,
      Text.ofCharsPair, String.ofList_toList, String.ofList_toList]
  simp [ApiMethod.target?, ApiMethod.plain, hcut, h]

theorem functionsOf_carrier (h : name ≠ "") :
    functionsOf (carrier name) =
      [⟨"Runtime", "runtime", name, .plain "call" .function ("runtime::" ++ name)⟩] := by
  rw [functionsOf, carrier, List.filterMap_cons, target?_carrier h]
  rfl

/-- A stored function is found under its own name. -/
theorem isSome_lookupFunction (htype : (ofTypes history).get? owner = some type)
    (hmethod : method ∈ type.methods) (htarget : method.target? = some (space, name)) :
    ((ofTypes history).lookupFunction name (some method.params.length)).isSome = true := by
  rw [Option.isSome_iff_ne_none]
  intro hnone
  have hanswer := lookupFunction_eq_none_iff.1 hnone owner type htype
    ⟨type.name, space, name, method⟩ (mem_functionsOf_iff.2 ⟨rfl, hmethod, htarget⟩)
  simp [answers, takes] at hanswer

/-- A function is looked for under the snake case of a name. -/
theorem lookupFunction_congr {schema : Schema} {other : String} (arity : Option Nat)
    (h : Text.snakeCase other = Text.snakeCase name) :
    schema.lookupFunction other arity = schema.lookupFunction name arity := by
  rw [lookupFunction, lookupFunction, h]

/-- A name under another key does not find the function of the name. -/
theorem lookupFunction_carrier_ne {other : String} (hname : name ≠ "")
    (h : Text.snakeCase other ≠ Text.snakeCase name) :
    (ofTypes [carrier name]).lookupFunction other none ≠
      (ofTypes [carrier name]).lookupFunction name none := by
  have hstanding : standing [carrier name] = [carrier name] := rfl
  rw [lookupFunction_ofTypes, lookupFunction_ofTypes, hstanding, List.flatMap_singleton,
    functionsOf_carrier hname]
  simp [answers, takes, h.symm]

/-- **The two spellings of a function.** -/
theorem spellings_agree_iff (name : String) :
    (Text.snakeCase (Text.snakeCase name) = Text.snakeCase name ↔
      Text.NoDigitAfterCapital name) ∧
    ((∀ history arity, (ofTypes history).lookupFunction (Text.snakeCase name) arity =
        (ofTypes history).lookupFunction name arity) ↔ Text.NoDigitAfterCapital name) ∧
    ∀ history owner type method space, (ofTypes history).get? owner = some type →
      method ∈ type.methods → method.target? = some (space, name) →
        ((ofTypes history).lookupFunction name (some method.params.length)).isSome = true := by
  refine ⟨Text.snakeCase_snakeCase_iff name, ?_, fun _ _ _ _ _ => isSome_lookupFunction⟩
  rw [← Text.snakeCase_snakeCase_iff]
  constructor
  · intro hsame
    by_contra hkey
    have hname : name ≠ "" := by
      rintro rfl
      exact hkey rfl
    exact lookupFunction_carrier_ne hname hkey (hsame [carrier name] none)
  · intro hkey history arity
    exact lookupFunction_congr arity hkey

/-- A function in snake case is found under both spellings. -/
theorem spellings_agree_innerText :
    Text.NoDigitAfterCapital "setInnerText" ∧ Text.snakeCase "setInnerText" = "set_inner_text" ∧
      (ofTypes [carrier "set_inner_text"]).lookupFunction "set_inner_text" (some 0) =
        (ofTypes [carrier "set_inner_text"]).lookupFunction "setInnerText" (some 0) ∧
      ((ofTypes [carrier "set_inner_text"]).lookupFunction "set_inner_text" (some 0)).isSome =
        true := by
  have hdigits : Text.NoDigitAfterCapital "setInnerText" := by decide
  have hagree := (spellings_agree_iff "setInnerText").2.1.2 hdigits
  have hfound := (spellings_agree_iff "set_inner_text").2.2 [carrier "set_inner_text"] "Runtime"
    (carrier "set_inner_text") _ "runtime" rfl (List.mem_singleton_self _)
    (target?_carrier (by decide))
  exact ⟨hdigits, by decide, hagree [carrier "set_inner_text"] (some 0), hfound⟩

/-- The runtime has a function whose name is in snake case and has a digit behind a letter. -/
def headingSchema : Schema :=
  ofTypes
    [{ ApiType.plain "Text" with methods := [.plain "heading" .function "text::set_font_h1"] }]

/-- The function is found under its own name and not under the same name in camel case. -/
theorem camelCase_misses_function :
    Text.snakeCase "setFontH1" = "set_font_h1" ∧ Text.snakeCase "set_font_h1" = "set_font_h_1" ∧
      (headingSchema.lookupFunction "set_font_h1" (some 0)).isSome = true ∧
      headingSchema.lookupFunction "setFontH1" (some 0) = none := by
  refine ⟨by decide, by decide, by decide +kernel, rfl⟩

end UiLowering.Schema
