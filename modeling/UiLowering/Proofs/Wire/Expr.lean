import UiLowering.Proofs.Source.Built
import UiLowering.Proofs.Wire.Record
import UiLowering.Wire.Expr

/-!
# Expressions that were written are read back

The JSON of an expression is an object with its kind and its `entries`.  One lemma (`finds_entries`)
says that a reader which reads back the parts of an expression reads back the expression; the parts
are nested less deep (`depth_lt_of_mem_parts`), so the rest is an induction on the depth.

The mark of a text chain is not among the entries.  It comes back because the operation is built
anew, and therefore only in a tree that was built in the first place.  Doubles are left out: one
that is not finite has no JSON number.

The reader is not structurally recursive, for the JSON of a part is found by its key in a list of
fields.  It takes a bound on the depth, and the bound that it starts with is the depth of the whole.
The lemmas on reading the parts are therefore stated for any reader of parts, and the bound appears
only in the last section.
-/

set_option autoImplicit false

namespace UiLowering

open Fields Json

/-! ## Objects inside an expression

The writer has a function for each kind of list of parts, as the recursion on the tree requires.
Here each of them becomes a `map`, so that the laws for lists apply. -/

/-- The fields of an argument. -/
def Arg.entries (arg : Arg Expr) : List (String × Json) :=
  [("name", .ofOption .str arg.name), ("value", arg.value.toJson),
    ("isReference", .bool arg.byReference), ("isMove", .bool arg.byMove)]

/-- The fields of a field of a record literal. -/
def FieldInit.entries (field : FieldInit Expr) : List (String × Json) :=
  [("name", .str field.name), ("value", field.value.toJson)]

/-- The fields of a field of a record pattern. -/
def FieldPattern.entries (field : FieldPattern Expr) : List (String × Json) :=
  [("name", .str field.name), ("value", .ofOption Expr.toJson field.value)]

/-- The fields of an arm of a match. -/
def Arm.entries (arm : Arm Expr) : List (String × Json) :=
  [("pattern", Expr.patternToJson arm.pattern), ("body", arm.body.toJson)]

/-- The kind of a pattern. -/
def Pattern.kind : Pattern Expr → String
  | .literal _ => "literal"
  | .enumValue _ => "enum"
  | .record .. => "pod"

/-- The fields of a pattern. -/
def Pattern.entries : Pattern Expr → List (String × Json)
  | .literal value => [("value", value.toJson)]
  | .enumValue ref => ref.entries
  | .record typeName fields =>
    [("typeName", .ofOption .str typeName),
      ("fields", .arr (fields.map fun field => .obj field.entries))]

namespace Expr

theorem listToJson_eq_map (es : List Expr) : listToJson es = es.map toJson := by
  induction es with
  | nil => rfl
  | cons e es ih => rw [listToJson, ih, List.map_cons]

theorem optionToJson_eq_ofOption (e : Option Expr) : optionToJson e = .ofOption toJson e := by
  cases e with
  | none => rfl
  | some e => rfl

theorem argsToJson_eq_map (args : List (Arg Expr)) :
    argsToJson args = args.map fun arg => .obj arg.entries := by
  induction args with
  | nil => rfl
  | cons arg args ih => rw [argsToJson, ih, List.map_cons, Arg.entries]

theorem fieldsToJson_eq_map (fields : List (FieldInit Expr)) :
    fieldsToJson fields = fields.map fun field => .obj field.entries := by
  induction fields with
  | nil => rfl
  | cons field fields ih => rw [fieldsToJson, ih, List.map_cons, FieldInit.entries]

theorem fieldPatternsToJson_eq_map (fields : List (FieldPattern Expr)) :
    fieldPatternsToJson fields = fields.map fun field => .obj field.entries := by
  induction fields with
  | nil => rfl
  | cons field fields ih =>
    rw [fieldPatternsToJson, ih, List.map_cons, FieldPattern.entries, optionToJson_eq_ofOption]

theorem armsToJson_eq_map (arms : List (Arm Expr)) :
    armsToJson arms = arms.map fun arm => .obj arm.entries := by
  induction arms with
  | nil => rfl
  | cons arm arms ih => rw [armsToJson, ih, List.map_cons, Arm.entries]

theorem patternToJson_eq (pattern : Pattern Expr) :
    patternToJson pattern = .obj (("kind", .str pattern.kind) :: pattern.entries) := by
  cases pattern with
  | literal value => rfl
  | enumValue ref => rfl
  | record typeName fields =>
    rw [patternToJson, fieldPatternsToJson_eq_map]
    rfl

/-! ## The object of an expression

The kind and the fields of an expression are separated.  A field is never named like the tag, so the
tag is found first and only once. -/

/-- The fields of an expression. -/
def entries : Expr → List (String × Json)
  | .int value => [("value", .int value.toInt)]
  | .float value => [("value", .ofFloat value)]
  | .bool value => [("value", .bool value)]
  | .str raw => [("value", .str raw)]
  | .ident name => [("name", .str name)]
  | .binary left op right _ => [("left", left.toJson), ("op", .str op), ("right", right.toJson)]
  | .unary op operand | .trailing op operand => [("op", .str op), ("operand", operand.toJson)]
  | .conditional condition thenValue elseValue =>
    [("condition", condition.toJson), ("thenExpr", thenValue.toJson),
      ("elseExpr", elseValue.toJson)]
  | .call ⟨name, args, line⟩ =>
    [("name", .str name), ("args", .arr (args.map fun arg => .obj arg.entries)),
      ("line", .nat line.toNat)]
  | .member object field => [("object", object.toJson), ("member", .str field)]
  | .index base position => [("array", base.toJson), ("index", position.toJson)]
  | .array ⟨elements, elementType⟩ =>
    [("elements", .arr (elements.map toJson)), ("elementType", .ofOption .str elementType)]
  | .fill value count => [("value", value.toJson), ("count", count.toJson)]
  | .record ⟨typeName, fields⟩ =>
    [("typeName", .ofOption .str typeName),
      ("fields", .arr (fields.map fun field => .obj field.entries))]
  | .enumValue ref => ref.entries
  | .construct component args =>
    [("componentName", .str component), ("args", .arr (args.map fun arg => .obj arg.entries))]
  | .select ⟨subject, arms, otherwise, line⟩ =>
    [("subject", subject.toJson), ("arms", .arr (arms.map fun arm => .obj arm.entries)),
      ("elseArm", .ofOption toJson otherwise), ("line", .nat line.toNat)]
  | .reference operand | .move operand => [("operand", operand.toJson)]

theorem toJson_eq (e : Expr) : e.toJson = .obj (("type", .str e.kind) :: e.entries) := by
  cases e with
  | call call => rw [toJson, argsToJson_eq_map]; rfl
  | array literal => rw [toJson, listToJson_eq_map]; rfl
  | record literal => rw [toJson, fieldsToJson_eq_map]; rfl
  | construct component args => rw [toJson, argsToJson_eq_map]; rfl
  | select choice => rw [toJson, armsToJson_eq_map, optionToJson_eq_ofOption]; rfl
  | _ => rfl

theorem toJson_ne_null (e : Expr) : e.toJson ≠ .null := by
  rw [toJson_eq]
  exact Json.noConfusion

theorem type_notMem_entries (e : Expr) : "type" ∉ e.entries.map (·.1) := by
  cases e <;> simp [entries, EnumRef.entries]

end Expr

/-! ## Reading the parts

The reader of an expression takes the reader of its parts as an argument.  Each lemma assumes that
this reader is right on the parts in question and concludes that the object around them is read
back.  Nothing is said here about how deep it may go. -/

section Readers

variable {entries : List (String × Json)} {key : String}

theorem finds_line {line : UInt32}
    (h : entries.filter (·.1 == key) = [(key, .nat line.toNat)]) :
    Finds (defaulted key 0 uint32?) entries line :=
  finds_defaulted h (uint32?_toNat line)

variable {read : Json → Option Expr}

theorem finds_arg {arg : Arg Expr} (h : read arg.value.toJson = some arg.value) :
    Finds (readArg read) arg.entries arg :=
  (finds_optionalStr rfl).bind <| (finds_required rfl h).bind <|
    (finds_flag rfl).bind <| (finds_flag rfl).bind <| finds_pure _

theorem readArgs_map {args : List (Arg Expr)}
    (h : ∀ arg ∈ args, read arg.value.toJson = some arg.value) :
    readArgs read (.arr (args.map fun arg => .obj arg.entries)) = some args :=
  list?_map_of_mem fun arg harg => record?_obj (finds_arg (h arg harg))

theorem finds_fieldInit {field : FieldInit Expr} (h : read field.value.toJson = some field.value) :
    Finds (readFieldInit read) field.entries field :=
  (finds_str rfl).bind <| (finds_required rfl h).bind <| finds_pure _

theorem finds_optionalExpr {e : Option Expr}
    (h : entries.filter (·.1 == key) = [(key, .ofOption Expr.toJson e)])
    (hread : ∀ value ∈ e, read value.toJson = some value) :
    Finds (Fields.optional key read) entries e :=
  finds_defaulted h (readOption_ofOption_of_mem hread Expr.toJson_ne_null)

theorem finds_enumRef (ref : EnumRef) : Finds readEnumRef ref.entries ref :=
  (finds_str rfl).bind <| (finds_str rfl).bind <| (finds_optionalStr rfl).bind <| finds_pure _

theorem finds_fieldPattern {field : FieldPattern Expr}
    (h : ∀ value ∈ field.value, read value.toJson = some value) :
    Finds (readFieldPattern read) field.entries field :=
  (finds_str rfl).bind <| (finds_optionalExpr rfl h).bind <| finds_pure _

theorem finds_pattern {pattern : Pattern Expr}
    (h : ∀ part ∈ pattern.parts, read part.toJson = some part) :
    Finds (readPatternOf read pattern.kind) pattern.entries pattern := by
  cases pattern with
  | literal value =>
    have hvalue := h value List.mem_cons_self
    exact (finds_required rfl hvalue).bind <| finds_pure _
  | enumValue ref => exact (finds_enumRef ref).bind <| finds_pure _
  | record typeName fields =>
    have hfields : ∀ field ∈ fields,
        record? (readFieldPattern read) (.obj field.entries) = some field := by
      intro field hfield
      refine record?_obj (finds_fieldPattern fun value hvalue => h value ?_)
      exact List.mem_flatMap.2 ⟨field, hfield, Option.mem_toList.2 hvalue⟩
    exact (finds_optionalStr rfl).bind <| (finds_required rfl (list?_map_of_mem hfields)).bind <|
      finds_pure _

theorem kind_notMem_entries (pattern : Pattern Expr) : "kind" ∉ pattern.entries.map (·.1) := by
  cases pattern <;> simp [Pattern.entries, EnumRef.entries]

theorem readPattern_patternToJson {pattern : Pattern Expr}
    (h : ∀ part ∈ pattern.parts, read part.toJson = some part) :
    readPattern read (tagged? "kind" patternKinds) (Expr.patternToJson pattern) = some pattern := by
  rw [readPattern, Expr.patternToJson_eq, tagged?_cons (kind_notMem_entries pattern)]
  exact read_of_finds (finds_pattern h)

theorem finds_arm {pattern? : Json → Option (Pattern Expr)} {arm : Arm Expr}
    (hpattern : pattern? (Expr.patternToJson arm.pattern) = some arm.pattern)
    (hbody : read arm.body.toJson = some arm.body) :
    Finds (readArm read pattern?) arm.entries arm :=
  (finds_required rfl hpattern).bind <| (finds_required rfl hbody).bind <| finds_pure _

end Readers

namespace Expr

/-- What reads back the parts of an expression reads back its fields. -/
theorem finds_entries {read : Json → Option Expr} {e : Expr} (he : e.IsPlain)
    (h : ∀ part ∈ e.parts, read part.toJson = some part) :
    Finds (readExprOf read e.kind) e.entries e := by
  cases e with
  | int value => exact (finds_required rfl (int64?_toInt value)).bind <| finds_pure _
  | float value => exact absurd rfl (he.ne_float value)
  | bool value =>
    have hvalue : bool? (.bool value) = some value := rfl
    exact (finds_required rfl hvalue).bind <| finds_pure _
  | str raw => exact (finds_str rfl).bind <| finds_pure _
  | ident name => exact (finds_str rfl).bind <| finds_pure _
  | binary left op right chain =>
    simp only [parts, List.forall_mem_cons] at h
    rw [binary_eq_binaryOf he.isBuilt.bearsMark]
    exact (finds_required rfl h.1).bind <| (finds_str rfl).bind <|
      (finds_required rfl h.2.1).bind <| finds_pure _
  | unary op operand =>
    simp only [parts, List.forall_mem_cons] at h
    exact (finds_str rfl).bind <| (finds_required rfl h.1).bind <| finds_pure _
  | trailing op operand =>
    simp only [parts, List.forall_mem_cons] at h
    exact (finds_str rfl).bind <| (finds_required rfl h.1).bind <| finds_pure _
  | conditional condition thenValue elseValue =>
    simp only [parts, List.forall_mem_cons] at h
    exact (finds_required rfl h.1).bind <| (finds_required rfl h.2.1).bind <|
      (finds_required rfl h.2.2.1).bind <| finds_pure _
  | call call =>
    simp only [parts, List.forall_mem_map] at h
    have hcall : Finds (readCall read) (entries (.call call)) call :=
      (finds_str rfl).bind <| (finds_defaulted rfl (readArgs_map h)).bind <|
        (finds_line rfl).bind <| finds_pure _
    exact hcall.bind <| finds_pure _
  | member object field =>
    simp only [parts, List.forall_mem_cons] at h
    exact (finds_required rfl h.1).bind <| (finds_str rfl).bind <| finds_pure _
  | index base position =>
    simp only [parts, List.forall_mem_cons] at h
    exact (finds_required rfl h.1).bind <| (finds_required rfl h.2.1).bind <| finds_pure _
  | array literal =>
    have hliteral : Finds (readArray read) (entries (.array literal)) literal :=
      (finds_required rfl (list?_map_of_mem h)).bind <| (finds_optionalStr rfl).bind <|
        finds_pure _
    exact hliteral.bind <| finds_pure _
  | fill value count =>
    simp only [parts, List.forall_mem_cons] at h
    exact (finds_required rfl h.1).bind <| (finds_required rfl h.2.1).bind <| finds_pure _
  | record literal =>
    simp only [parts, List.forall_mem_map] at h
    have hfields : list? (record? (readFieldInit read))
        (.arr (literal.fields.map fun field => .obj field.entries)) = some literal.fields :=
      list?_map_of_mem fun field hfield => record?_obj (finds_fieldInit (h field hfield))
    have hliteral : Finds (readRecord read) (entries (.record literal)) literal :=
      (finds_optionalStr rfl).bind <| (finds_required rfl hfields).bind <| finds_pure _
    exact hliteral.bind <| finds_pure _
  | enumValue ref => exact (finds_enumRef ref).bind <| finds_pure _
  | construct component args =>
    simp only [parts, List.forall_mem_map] at h
    exact (finds_str rfl).bind <| (finds_defaulted rfl (readArgs_map h)).bind <| finds_pure _
  | select choice =>
    obtain ⟨subject, arms, otherwise, line⟩ := choice
    simp only [parts, List.forall_mem_append, List.forall_mem_cons, List.forall_mem_flatMap,
      Option.mem_toList] at h
    have harms : list? (record? (readArm read (readPattern read (tagged? "kind" patternKinds))))
        (.arr (arms.map fun arm => .obj arm.entries)) = some arms :=
      list?_map_of_mem fun arm harm => record?_obj <|
        finds_arm (readPattern_patternToJson (h.1.2 arm harm).2) (h.1.2 arm harm).1
    have hchoice : Finds (readMatch read (readPattern read (tagged? "kind" patternKinds)))
        (entries (.select ⟨subject, arms, otherwise, line⟩)) ⟨subject, arms, otherwise, line⟩ :=
      (finds_required rfl h.1.1).bind <| (finds_required rfl harms).bind <|
        (finds_optionalExpr rfl h.2).bind <| (finds_line rfl).bind <| finds_pure _
    exact hchoice.bind <| finds_pure _
  | reference operand =>
    simp only [parts, List.forall_mem_cons] at h
    exact (finds_required rfl h.1).bind <| finds_pure _
  | move operand =>
    simp only [parts, List.forall_mem_cons] at h
    exact (finds_required rfl h.1).bind <| finds_pure _

/-! ## What stands inside the object

Two things have to be known of the JSON of a part: it is nested less deep than that of the whole,
which the reader needs to come to an end, and it has no number that would be lost. -/

theorem depth_lt_of_mem_patternParts {pattern : Pattern Expr} {part : Expr}
    (h : part ∈ pattern.parts) : part.toJson.depth < (patternToJson pattern).depth := by
  rw [patternToJson_eq]
  cases pattern with
  | literal value =>
    rw [List.mem_singleton.1 h]
    exact depth_lt_obj (by simp [Pattern.entries])
  | enumValue ref => cases h
  | record typeName fields =>
    obtain ⟨field, hfield, hpart⟩ := List.mem_flatMap.1 h
    calc part.toJson.depth
      _ < (Json.obj field.entries).depth := depth_lt_obj <| by
        simp [FieldPattern.entries, Option.mem_toList.1 hpart, Json.ofOption]
      _ < (Json.arr (fields.map fun field => .obj field.entries)).depth :=
        depth_lt_arr (List.mem_map.2 ⟨field, hfield, rfl⟩)
      _ < _ := depth_lt_obj (by simp [Pattern.entries])

theorem depth_lt_of_mem_args {args : List (Arg Expr)} {part : Expr}
    (h : part ∈ args.map Arg.value) :
    part.toJson.depth < (Json.arr (args.map fun arg => .obj arg.entries)).depth := by
  obtain ⟨arg, harg, rfl⟩ := List.mem_map.1 h
  calc arg.value.toJson.depth
    _ < (Json.obj arg.entries).depth := depth_lt_obj (by simp [Arg.entries])
    _ < _ := depth_lt_arr (List.mem_map.2 ⟨arg, harg, rfl⟩)

theorem depth_lt_of_mem_arm {arm : Arm Expr} {part : Expr}
    (h : part = arm.body ∨ part ∈ arm.pattern.parts) :
    part.toJson.depth < (Json.obj arm.entries).depth := by
  rcases h with rfl | hpattern
  · exact depth_lt_obj (by simp [Arm.entries])
  · calc part.toJson.depth
      _ < (patternToJson arm.pattern).depth := depth_lt_of_mem_patternParts hpattern
      _ < _ := depth_lt_obj (by simp [Arm.entries])

/-- A part of an expression is nested less deep than the expression. -/
theorem depth_lt_of_mem_parts {e part : Expr} (h : part ∈ e.parts) :
    part.toJson.depth < e.toJson.depth := by
  rw [toJson_eq e]
  cases e with
  | call call => exact Nat.lt_trans (depth_lt_of_mem_args h) (depth_lt_obj (by simp [entries]))
  | construct component args =>
    exact Nat.lt_trans (depth_lt_of_mem_args h) (depth_lt_obj (by simp [entries]))
  | array literal =>
    calc part.toJson.depth
      _ < (Json.arr (literal.elements.map toJson)).depth :=
        depth_lt_arr (List.mem_map.2 ⟨part, h, rfl⟩)
      _ < _ := depth_lt_obj (by simp [entries])
  | record literal =>
    obtain ⟨field, hfield, rfl⟩ := List.mem_map.1 h
    calc field.value.toJson.depth
      _ < (Json.obj field.entries).depth := depth_lt_obj (by simp [FieldInit.entries])
      _ < (Json.arr (literal.fields.map fun field => .obj field.entries)).depth :=
        depth_lt_arr (List.mem_map.2 ⟨field, hfield, rfl⟩)
      _ < _ := depth_lt_obj (by simp [entries])
  | select choice =>
    obtain ⟨subject, arms, otherwise, line⟩ := choice
    simp only [parts, List.cons_append, List.mem_cons, List.mem_append, List.mem_flatMap,
      Option.mem_toList] at h
    rcases h with rfl | ⟨arm, harm, hpart⟩ | hpart
    · exact depth_lt_obj (by simp [entries])
    · calc part.toJson.depth
        _ < (Json.obj arm.entries).depth := depth_lt_of_mem_arm hpart
        _ < (Json.arr (arms.map fun arm => .obj arm.entries)).depth :=
          depth_lt_arr (List.mem_map.2 ⟨arm, harm, rfl⟩)
        _ < _ := depth_lt_obj (by simp [entries])
    · rw [Option.mem_def.1 hpart]
      exact depth_lt_obj (by simp [entries, Json.ofOption])
  | _ =>
    simp only [parts, List.mem_cons, List.not_mem_nil, or_false] at h
    try rcases h with rfl | rfl | rfl
    all_goals exact depth_lt_obj (by simp [entries])

theorem isReadable_ofOptionStr (text : Option String) :
    (Json.ofOption .str text).isReadable = true :=
  isReadable_ofOption fun _ _ => rfl

theorem isReadable_ofFloat (value : Float) : (Json.ofFloat value).isReadable = true := by
  rw [Json.ofFloat]
  split <;> rfl

mutual

/-- The JSON of an expression can be read in all its parts. -/
theorem isReadable_toJson : (e : Expr) → e.toJson.isReadable = true
  | .int _ | .bool _ | .str _ | .ident _ => rfl
  | .float value => by simp [toJson, isReadable, entriesReadable, isReadable_ofFloat]
  | .binary left _ right _ | .index left right | .fill left right => by
    simp [toJson, isReadable, entriesReadable, isReadable_toJson left, isReadable_toJson right]
  | .unary _ operand | .trailing _ operand | .member operand _ | .reference operand
  | .move operand => by
    simp [toJson, isReadable, entriesReadable, isReadable_toJson operand]
  | .conditional condition thenValue elseValue => by
    simp [toJson, isReadable, entriesReadable, isReadable_toJson condition,
      isReadable_toJson thenValue, isReadable_toJson elseValue]
  | .call ⟨_, args, _⟩ | .construct _ args => by
    simp [toJson, isReadable, entriesReadable, Json.nat, allReadable_argsToJson args]
  | .array ⟨elements, _⟩ => by
    simp [toJson, isReadable, entriesReadable, isReadable_ofOptionStr,
      allReadable_listToJson elements]
  | .record ⟨_, fields⟩ => by
    simp [toJson, isReadable, entriesReadable, isReadable_ofOptionStr,
      allReadable_fieldsToJson fields]
  | .enumValue _ => by
    simp [toJson, isReadable, entriesReadable, EnumRef.entries, isReadable_ofOptionStr]
  | .select ⟨subject, arms, otherwise, _⟩ => by
    simp [toJson, isReadable, entriesReadable, Json.nat, isReadable_toJson subject,
      allReadable_armsToJson arms, isReadable_optionToJson otherwise]

theorem allReadable_listToJson : (es : List Expr) → allReadable (listToJson es) = true
  | [] => rfl
  | e :: es => by simp [listToJson, allReadable, isReadable_toJson e, allReadable_listToJson es]

theorem isReadable_optionToJson : (e : Option Expr) → (optionToJson e).isReadable = true
  | none => rfl
  | some e => isReadable_toJson e

theorem allReadable_argsToJson : (args : List (Arg Expr)) → allReadable (argsToJson args) = true
  | [] => rfl
  | ⟨_, value, _, _⟩ :: args => by
    simp [argsToJson, allReadable, isReadable, entriesReadable, isReadable_ofOptionStr,
      isReadable_toJson value, allReadable_argsToJson args]

theorem allReadable_fieldsToJson :
    (fields : List (FieldInit Expr)) → allReadable (fieldsToJson fields) = true
  | [] => rfl
  | ⟨_, value⟩ :: fields => by
    simp [fieldsToJson, allReadable, isReadable, entriesReadable, isReadable_toJson value,
      allReadable_fieldsToJson fields]

theorem isReadable_patternToJson :
    (pattern : Pattern Expr) → (patternToJson pattern).isReadable = true
  | .literal value => by simp [patternToJson, isReadable, entriesReadable, isReadable_toJson value]
  | .enumValue _ => by
    simp [patternToJson, isReadable, entriesReadable, EnumRef.entries, isReadable_ofOptionStr]
  | .record _ fields => by
    simp [patternToJson, isReadable, entriesReadable, isReadable_ofOptionStr,
      allReadable_fieldPatternsToJson fields]

theorem allReadable_fieldPatternsToJson :
    (fields : List (FieldPattern Expr)) → allReadable (fieldPatternsToJson fields) = true
  | [] => rfl
  | ⟨_, value⟩ :: fields => by
    simp [fieldPatternsToJson, allReadable, isReadable, entriesReadable,
      isReadable_optionToJson value, allReadable_fieldPatternsToJson fields]

theorem allReadable_armsToJson : (arms : List (Arm Expr)) → allReadable (armsToJson arms) = true
  | [] => rfl
  | ⟨pattern, body⟩ :: arms => by
    simp [armsToJson, allReadable, isReadable, entriesReadable, isReadable_patternToJson pattern,
      isReadable_toJson body, allReadable_armsToJson arms]

end

/-! ## Reading

The induction is on the bound for the depth.  A part of a plain expression is plain, and it fits
into the bound that is one smaller. -/

theorem ofInnerWithin_toJson {level : Nat} {e : Expr} (he : e.IsPlain)
    (h : e.toJson.depth < level) : ofInnerWithin level e.toJson = some e := by
  induction level generalizing e with
  | zero => exact absurd h (Nat.not_lt_zero _)
  | succ level ih =>
    have hparts : ∀ part ∈ e.parts, ofInnerWithin level part.toJson = some part := fun part hpart =>
      ih (he.of_mem_parts hpart)
        (Nat.lt_of_lt_of_le (depth_lt_of_mem_parts hpart) (Nat.lt_succ_iff.1 h))
    rw [ofInnerWithin, toJson_eq, tagged?_cons e.type_notMem_entries]
    exact read_of_finds (finds_entries he hparts)

/-- An expression inside a tagged value is read back. -/
theorem IsPlain.ofInnerJson?_toJson {e : Expr} (he : e.IsPlain) : ofInnerJson? e.toJson = some e :=
  ofInnerWithin_toJson he (Nat.lt_succ_self _)

/-- **An expression that was written is read back.** -/
theorem IsPlain.ofJson?_toJson {e : Expr} (he : e.IsPlain) : ofJson? e.toJson = some e := by
  rw [ofJson?, outerTagged?, if_pos e.isReadable_toJson, toJson_eq,
    tagged?_cons e.type_notMem_entries]
  exact read_of_finds
    (finds_entries he fun part hpart => (he.of_mem_parts hpart).ofInnerJson?_toJson)

end Expr

end UiLowering
