import UiLowering.Proofs.Json.RoundTrip
import UiLowering.Proofs.Wire.Record
import UiLowering.Wire.Schema

/-!
# Types of a schema that were written are read back

A parameter, a method and a type are read back as they were, and so is a list of types
(`typesOfJson?_typesToJson`).  The text of a list of types has no number with a fraction and is
nested a few levels deep at most, so that the list is read back from its text as well
(`typesOfText?_typesText`).
-/

set_option autoImplicit false

namespace UiLowering

open Fields Json

/-! ## Values

The records are read by the same laws as those of the source: each is the list of its fields, and
each field is found under its key. -/

theorem record?_toJson_apiParam (param : ApiParam) :
    record? readApiParam param.toJson = some param :=
  record?_obj <| (finds_str rfl).bind <| (finds_str rfl).bind <| (finds_flag rfl).bind <|
    finds_pure _

theorem choice?_name (kind : MappingKind) :
    choice? MappingKind.ofName? (.str kind.name) = some kind := by
  cases kind <;> rfl

theorem ApiMethod.ofJson?_toJson (method : ApiMethod) :
    ApiMethod.ofJson? method.toJson = some method :=
  record?_obj <| (finds_str rfl).bind <|
    (finds_list (fun param _ => record?_toJson_apiParam param) rfl).bind <|
    (finds_defaultedStr rfl).bind <| (finds_flag rfl).bind <| (finds_flag rfl).bind <|
    (finds_defaulted rfl (choice?_name method.mapping)).bind <| (finds_defaultedStr rfl).bind <|
    finds_pure _

theorem ApiType.ofJson?_toJson (type : ApiType) : ApiType.ofJson? type.toJson = some type :=
  record?_obj <| (finds_str rfl).bind <| (finds_flag rfl).bind <| (finds_flag rfl).bind <|
    (finds_optionalStr rfl).bind <| (finds_optionalStr rfl).bind <|
    (finds_list (fun method _ => method.ofJson?_toJson) rfl).bind <| finds_pure _

/-- **Types that were written are read back.** -/
theorem typesOfJson?_typesToJson (types : List ApiType) :
    typesOfJson? (typesToJson types) = some types :=
  record?_obj <| finds_required rfl (list?_map_of_mem fun type _ => type.ofJson?_toJson)

/-! ## Texts

A text is parsed to the value it was written for if the value is plain and not nested too deep. -/

theorem Json.allPlain_map {α : Type} {write : α → Json} (h : ∀ value, (write value).isPlain = true)
    (values : List α) : allPlain (values.map write) = true := by
  induction values with
  | nil => rfl
  | cons value values ih => rw [List.map_cons, allPlain, h, ih, Bool.and_self]

theorem Json.depthList_map_le {α : Type} {write : α → Json} {n : Nat}
    (h : ∀ value, (write value).depth ≤ n) (values : List α) :
    depthList (values.map write) ≤ n := by
  induction values with
  | nil => exact Nat.zero_le n
  | cons value values ih =>
    rw [List.map_cons, depthList]
    exact Nat.max_le.2 ⟨h value, ih⟩

theorem isPlain_toJson_method (method : ApiMethod) : method.toJson.isPlain = true := by
  have hparam : ∀ param : ApiParam, param.toJson.isPlain = true := fun _ => rfl
  have hparams := allPlain_map hparam method.params
  simp [ApiMethod.toJson, isPlain, entriesPlain, hparams]

theorem isPlain_ofOption (value : Option String) : (Json.ofOption .str value).isPlain = true := by
  cases value with
  | none => rfl
  | some value => rfl

theorem depth_ofOption (value : Option String) : (Json.ofOption .str value).depth = 0 := by
  cases value with
  | none => rfl
  | some value => rfl

theorem isPlain_toJson_type (type : ApiType) : type.toJson.isPlain = true := by
  have hmethods := allPlain_map isPlain_toJson_method type.methods
  simp [ApiType.toJson, isPlain, entriesPlain, hmethods, isPlain_ofOption]

theorem isPlain_typesToJson (types : List ApiType) : (typesToJson types).isPlain = true := by
  have htypes := allPlain_map isPlain_toJson_type types
  simp [typesToJson, isPlain, entriesPlain, htypes]

theorem depth_toJson_method_le (method : ApiMethod) : method.toJson.depth ≤ 3 := by
  have hparam : ∀ param : ApiParam, param.toJson.depth ≤ 1 := fun _ => Nat.le_refl 1
  have hparams := depthList_map_le hparam method.params
  simp [ApiMethod.toJson, depth, depthEntries]
  omega

theorem depth_toJson_type_le (type : ApiType) : type.toJson.depth ≤ 5 := by
  have hmethods := depthList_map_le depth_toJson_method_le type.methods
  simp [ApiType.toJson, depth, depthEntries, depth_ofOption]
  omega

theorem depth_typesToJson_le (types : List ApiType) : (typesToJson types).depth ≤ 7 := by
  have htypes := depthList_map_le depth_toJson_type_le types
  simp [typesToJson, depth, depthEntries]
  omega

/-- The text of several types. -/
def typesText (types : List ApiType) : String := (typesToJson types).render

/-- Reads several types from a text. -/
def typesOfText? (text : String) : Option (List ApiType) := (Json.parse text).bind typesOfJson?

/-- **Types that were written to a text are read back from it.** -/
theorem typesOfText?_typesText (types : List ApiType) :
    typesOfText? (typesText types) = some types := by
  have hdepth : (typesToJson types).depth ≤ maxDepth :=
    Nat.le_trans (depth_typesToJson_le types) (by decide)
  rw [typesOfText?, typesText, parse_render (isPlain_typesToJson types) hdepth, Option.bind_some,
    typesOfJson?_typesToJson]

end UiLowering
