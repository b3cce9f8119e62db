import UiLowering.Proofs.Call.Function
import UiLowering.Proofs.Formatter.Sheltered
import UiLowering.Proofs.Source.Parts
import UiLowering.Proofs.Target.ExprText

/-!
# Calls that fill the buffer, and the texts of values

A call with an argument that needs the formatter may become a block (`Route.fillsBuffer`).  This is
so for functions of the runtime and for the generator of log entries, and for no other call.

If no such call stands in an expression, its text has semicolons only behind brackets
(`Env.isSheltered_of_nodes`).  The names of the expression are assumed to be tidy, and neither
templates nor the expressions in string literals may have semicolons.

A block is a statement and cannot stand where a value is expected.  Calls that fill the buffer are
therefore the expressions to look out for, and the two results of this module say how they are
recognised: by the beginning of their text if they are there, and by the place of the semicolons if
they are not.
-/

set_option autoImplicit false

namespace UiLowering

open Target

/-! ## Blocks

Whether a call becomes a block is decided by its way and by whether an argument needs the formatter.
If it does, its text is the block, and it begins with the declaration of the buffer. -/

/-- Whether a call that goes this way becomes a block, by the values of its arguments. -/
def Route.fillsBuffer : Route → List Expr → Bool
  | .function .., values => values.any Expr.needsFormatter
  | .intrinsic found, [value] => found.mappingValue == "log" && value.needsFormatter
  | _, _ => false

namespace Env

/-- Whether a call becomes a block. -/
def fillsBuffer (env : Env) (call : Call Expr) : Bool :=
  match splitReceiver call.name with
  | some (receiver, method) =>
    (Route.select env receiver method call.args.length).fillsBuffer (call.args.map Arg.value)
  | none => false

/-- Whether an expression is a call that can be lowered and becomes a block. -/
def isBlockCall (env : Env) : Expr → Bool
  | .call call => env.fillsBuffer call && (env.exprText (.call call)).result.isOk
  | _ => false

end Env

theorem yields_functionCode_block {env : Env} {callee returnType : String} {leading : List String}
    {params : List ApiParam} {args : List (Arg Coded)}
    (h : (args.map (·.value.source)).any Expr.needsFormatter = true) :
    (functionCode env callee returnType leading params args).Yields
      fun text => Text.startsWith blockHead text = true := by
  rw [functionCode]
  split
  · rename_i hnone
    rw [List.dropWhile_eq_nil_iff] at hnone
    simp only [List.any_map, List.any_eq_true] at h
    obtain ⟨arg, harg, hneeds⟩ := h
    have hplain := hnone arg harg
    rw [Function.comp_apply] at hneeds
    rw [hneeds] at hplain
    cases hplain
  · refine (Lowered.yields_true _).bind fun head _ => ?_
    refine (Lowered.yields_true _).bind fun tail _ => ?_
    refine (Lowered.yields_true _).bind fun appends _ => ?_
    exact Lowered.yields_pure (startsWith_blockHead _ _ _)

theorem yields_logCode_block {arg : Arg Coded} (h : arg.value.source.needsFormatter = true) :
    (logCode arg).Yields fun text => Text.startsWith blockHead text = true := by
  rw [logCode, if_pos h]
  exact (Lowered.yields_true _).bind fun appends _ =>
    Lowered.yields_pure (startsWith_blockHead _ _ _)

/-- The code that a generator writes is the code of the call. -/
theorem yields_generated {env : Env} {call : Call Coded} {receiver method : String}
    {found : ApiMethod} {P : String → Prop}
    (h : (intrinsicCode env found.mappingValue call.args).Yields P) :
    (routeCode env call receiver method (.intrinsic found)).Yields P := by
  refine (Lowered.yields_true _).bind fun _ _ => h.bind fun code hcode => ?_
  dsimp only
  split
  · exact (Lowered.yields_true _).bind fun _ _ => Lowered.yields_pure hcode
  · exact Lowered.yields_pure hcode

theorem yields_routeCode_block {env : Env} {call : Call Coded} {receiver method : String}
    {route : Route} (h : route.fillsBuffer (call.args.map (·.value.source)) = true) :
    (routeCode env call receiver method route).Yields
      fun text => Text.startsWith blockHead text = true := by
  cases route with
  | function found space function passes =>
    exact (Lowered.yields_true _).bind fun _ _ => yields_functionCode_block h
  | intrinsic found =>
    refine yields_generated ?_
    generalize call.args = args at h ⊢
    cases args with
    | nil => cases h
    | cons arg rest =>
      cases rest with
      | nil =>
        obtain ⟨hkey, hneeds⟩ := Bool.and_eq_true_iff.1 h
        rw [eq_of_beq hkey]
        exact yields_logCode_block hneeds
      | cons other rest => cases h
  | enumSize | shortcut | staticTemplate | valueTemplate | unknownStatic | unknownMember => cases h

theorem Env.exists_ok_of_isBlockCall {env : Env} {e : Expr} (h : env.isBlockCall e = true) :
    ∃ text, (env.exprText e).result = .ok text := by
  cases e with
  | call call => exact Lowered.exists_ok_of_isOk (Bool.and_eq_true_iff.1 h).2
  | _ => cases h

/-- A call that becomes a block begins like one. -/
theorem Env.startsWith_of_isBlockCall {env : Env} {e : Expr} {text : String}
    (h : env.isBlockCall e = true) (htext : (env.exprText e).result = .ok text) :
    Text.startsWith blockHead text = true := by
  cases e with
  | call call =>
    obtain ⟨hfills, -⟩ := Bool.and_eq_true_iff.1 h
    rw [fillsBuffer] at hfills
    split at hfills
    · rename_i receiver method hsplit
      rw [exprText_of_select hsplit] at htext
      refine yields_routeCode_block ?_ text htext
      rwa [List.map_map]
    · cases hfills
  | _ => cases h

/-! ## Codes of parts

A part is known by its code, as a value and as what it appends.  The property is one of the value,
and texts around it keep it. -/

/-- The text of the value has semicolons only behind brackets. -/
def Code.IsSheltered (code : Code) : Prop := Sheltered code.value.toList

/-- The code of a part, if it has any, has semicolons only behind brackets. -/
def Coded.IsSheltered (part : Coded) : Prop := part.code.Yields Code.IsSheltered

theorem Coded.IsSheltered.value {part : Coded} (h : part.IsSheltered) :
    part.value.Yields fun text => Sheltered text.toList :=
  Lowered.Yields.bind h fun _ hcode => Lowered.yields_pure hcode

theorem Lowered.yields_plain_sheltered {text : Lowered String}
    (h : text.Yields fun text => Sheltered text.toList) : text.plain.Yields Code.IsSheltered :=
  h.bind fun _ htext => Lowered.yields_pure htext

/-- A text around a text. -/
theorem sheltered_around {head tail text : String} (hhead : ';' ∉ head.toList)
    (htail : ';' ∉ tail.toList) (h : Sheltered text.toList) :
    Sheltered (head ++ text ++ tail).toList :=
  ((sheltered_of_not_mem hhead).text h).text (sheltered_of_not_mem htail)

theorem Lowered.yields_around {head tail : String} {text : Lowered String}
    (hhead : ';' ∉ head.toList) (htail : ';' ∉ tail.toList)
    (h : text.Yields fun text => Sheltered text.toList) :
    Lowered.Yields (fun text => Sheltered text.toList) (do
      let code ← text
      return head ++ code ++ tail) :=
  h.bind fun _ hcode => Lowered.yields_pure (sheltered_around hhead htail hcode)

theorem sheltered_moved {code : String} (h : Sheltered code.toList) :
    Sheltered (moved code).toList :=
  sheltered_around (by decide) (by decide) h

/-! ## Arguments

In each of its forms an argument is its value, its value with a mark around it, or a forwarder. -/

namespace Arg

variable {arg : Arg Coded}

theorem yields_text_sheltered (h : arg.value.IsSheltered) :
    arg.text.Yields fun text => Sheltered text.toList := by
  refine h.value.bind fun code hcode => Lowered.yields_pure ?_
  split
  · exact sheltered_moved hcode
  · exact hcode

theorem yields_callbackText_sheltered (env : Env) (h : arg.value.IsSheltered) :
    (arg.callbackText env).Yields fun text => Sheltered text.toList := by
  rw [callbackText]
  split
  · split
    · exact Lowered.yields_pure (sheltered_forwarder _ _)
    · exact h.value
  · exact h.value

theorem yields_textFor_sheltered (env : Env) (param : Option ApiParam) (h : arg.value.IsSheltered) :
    (arg.textFor env param).Yields fun text => Sheltered text.toList := by
  rw [textFor]
  split
  · exact yields_callbackText_sheltered env h
  · exact yields_text_sheltered h

end Arg

section

variable {env : Env} {args : List (Arg Coded)}

theorem yields_argTexts_sheltered (h : ∀ arg ∈ args, arg.value.IsSheltered) :
    (argTexts args).Yields fun codes => ∀ code ∈ codes, Sheltered code.toList := by
  refine (Lowered.yields_all ?_).mono fun codes hcodes => hcodes.2
  exact List.forall_mem_map.2 fun arg harg => Arg.yields_text_sheltered (h arg harg)

theorem yields_argTextsFor_sheltered (params : List ApiParam)
    (h : ∀ arg ∈ args, arg.value.IsSheltered) :
    (Lowered.all (argTextsFor env params args)).Yields
      fun codes => ∀ code ∈ codes, Sheltered code.toList := by
  refine (Lowered.yields_all fun text htext => ?_).mono fun codes hcodes => hcodes.2
  rw [argTextsFor_eq_mapIdx, List.mem_mapIdx] at htext
  obtain ⟨i, hi, rfl⟩ := htext
  exact Arg.yields_textFor_sheltered env _ (h _ (List.getElem_mem hi))

end

/-! ## Names

The names that a schema and a scope bring along go into the text as they are.  They are assumed to
have no semicolons outside brackets; names of types then stay so when they are resolved. -/

/-- Neither the names that the surroundings bring along nor the templates have semicolons outside
square brackets and quotes. -/
structure Env.LacksSemicolons (env : Env) : Prop where
  scope : env.scope.IsTidy
  aliases : env.schema.AliasesTidy
  templates : ∀ method, env.schema.HasMethod method → ';' ∉ method.mappingValue.toList

theorem Env.LacksSemicolons.typeText {env : Env} (henv : env.LacksSemicolons) {name : String}
    (h : IsTypeName name) : (env.typeText name).Yields fun text => Sheltered text.toList :=
  (Env.yields_typeText henv.scope henv.aliases h).mono fun _ => sheltered_of_even

theorem Scope.sheltered_read (scope : Scope) {name : String} (h : Quiet name.toList) :
    Sheltered (scope.read name).toList := by
  rw [read]
  split
  · exact sheltered_around (by decide) (by decide) h.sheltered
  · exact h.sheltered

theorem Scope.sheltered_readPath (scope : Scope) {path : String} (h : Quiet path.toList) :
    Sheltered (scope.readPath path).toList := by
  rw [readPath]
  split
  · rename_i root rest hcut
    obtain ⟨hroot, hrest⟩ := quiet_of_cutFirst h hcut
    exact ((scope.sheltered_read hroot).text (sheltered_of_not_mem (by decide))).text
      hrest.sheltered
  · exact scope.sheltered_read h

/-! ## Calls

The ways of a call are gone through once more, with the list in `Route.Selected` in hand.  Where a
call fills the buffer nothing is claimed; in all other cases its text is put together from sheltered
texts. -/

section

variable {env : Env} {args : List (Arg Coded)}

theorem sheltered_narrowed (returnType : String) {code : String} (h : Sheltered code.toList) :
    Sheltered (env.narrowed returnType code).toList := by
  have hnarrow : ∀ target ∈ TypeName.narrowIntegers, ';' ∉ ("(" ++ target ++ ")(").toList := by
    decide
  rw [Env.narrowed]
  split
  · rename_i hmem
    exact sheltered_around (hnarrow _ hmem) (by decide) h
  · exact h

/-- The name of a function of the runtime. -/
theorem sheltered_function (henv : env.LacksSemicolons) {method : ApiMethod}
    {space function : String} (hmethod : env.schema.HasMethod method)
    (htarget : method.target? = some (space, function)) :
    Sheltered ("webcc::" ++ space ++ "::" ++ function).toList := by
  obtain ⟨hspace, hfunction⟩ := subset_of_target? htarget
  have hlacks := henv.templates method hmethod
  exact (sheltered_around (by decide) (by decide)
    (sheltered_of_not_mem fun hmem => hlacks (hspace hmem))).text
    (sheltered_of_not_mem fun hmem => hlacks (hfunction hmem))

theorem yields_functionCode_sheltered {callee returnType : String} {leading : List String}
    {params : List ApiParam} (hcallee : Sheltered callee.toList)
    (hleading : ∀ code ∈ leading, Sheltered code.toList)
    (hargs : ∀ arg ∈ args, arg.value.IsSheltered)
    (hplain : (args.map (·.value.source)).any Expr.needsFormatter = false) :
    (functionCode env callee returnType leading params args).Yields
      fun text => Sheltered text.toList := by
  intro text htext
  have hnone : ∀ arg ∈ args, arg.value.source.needsFormatter = false := by
    simpa using hplain
  obtain ⟨codes, hcodes, rfl⟩ := (result_functionCode_of_plain hnone).1 htext
  have hshelter := yields_argTextsFor_sheltered params hargs codes
    (Lowered.result_all_eq_ok_iff.2 hcodes)
  exact sheltered_narrowed _ (sheltered_applied hcallee
    (List.forall_mem_append.2 ⟨hleading, hshelter⟩))

theorem yields_intrinsicCode_sheltered {found : ApiMethod}
    (hargs : ∀ arg ∈ args, arg.value.IsSheltered)
    (hplain : (Route.intrinsic found).fillsBuffer (args.map (·.value.source)) = false) :
    (intrinsicCode env found.mappingValue args).Yields fun text => Sheltered text.toList := by
  unfold intrinsicCode
  split
  · exact Lowered.yields_pure (sheltered_of_not_mem (by decide))
  · exact Lowered.yields_around (by decide) (by decide)
      (Arg.yields_text_sheltered (hargs _ List.mem_cons_self))
  · exact Lowered.yields_around (by decide) (by decide)
      (Arg.yields_text_sheltered (hargs _ List.mem_cons_self))
  · exact Lowered.yields_around (by decide) (by decide)
      (Arg.yields_text_sheltered (hargs _ List.mem_cons_self))
  · exact Lowered.yields_around (by decide) (by decide)
      (Arg.yields_text_sheltered (hargs _ List.mem_cons_self))
  · rename_i arg hkey
    have hneeds : arg.value.source.needsFormatter = false := by
      simpa [Route.fillsBuffer, hkey] using hplain
    rw [logCode, hneeds]
    exact Lowered.yields_around (by decide) (by decide)
      (Arg.yields_text_sheltered (hargs _ List.mem_cons_self))
  · exact Lowered.yields_around (by decide) (by decide)
      (Arg.yields_callbackText_sheltered env (hargs _ List.mem_cons_self))
  · exact (Lowered.yields_true _).bind fun _ _ => Lowered.yields_pure sheltered_nil

/-- Whatever way a call goes, it has semicolons only behind brackets or becomes a block. -/
theorem yields_routeCode_sheltered (henv : env.LacksSemicolons) {call : Call Coded}
    {receiver method : String} {route : Route} (hreceiver : Quiet receiver.toList)
    (hmethod : Quiet method.toList) (hargs : ∀ arg ∈ call.args, arg.value.IsSheltered)
    (hselected : route.Selected env receiver method call.args.length)
    (hplain : route.fillsBuffer (call.args.map (·.value.source)) = false) :
    (routeCode env call receiver method route).Yields fun text => Sheltered text.toList := by
  have hpath := env.scope.sheltered_readPath hreceiver
  have htype := henv.typeText (isTypeName_of_quiet hreceiver)
  have hcodes := yields_argTexts_sheltered hargs
  cases hselected with
  | enumSize =>
    exact Lowered.yields_around (by decide) (by decide) htype
  | shortcut _ hfind =>
    have hmem := (Shortcut.mem_table_of_find? hfind).1
    exact hcodes.bind fun codes hcodes => Lowered.yields_pure
      (Template.sheltered_expand (Shortcut.not_mem_template hmem) hpath hcodes)
  | intrinsic => exact yields_generated (yields_intrinsicCode_sheltered hargs hplain)
  | staticTemplate _ hfound =>
    refine (Lowered.yields_true _).bind fun _ _ => hcodes.bind fun codes hcodes => ?_
    exact Lowered.yields_pure
      (Template.sheltered_expand (henv.templates _ hfound) hreceiver.sheltered hcodes)
  | valueTemplate hfound =>
    refine (Lowered.yields_true _).bind fun _ _ => hcodes.bind fun codes hcodes => ?_
    exact Lowered.yields_pure (Template.sheltered_expand (henv.templates _ hfound) hpath hcodes)
  | function hfound _ htarget _ =>
    refine (Lowered.yields_true _).bind fun _ _ => ?_
    refine yields_functionCode_sheltered (sheltered_function henv hfound htarget) ?_ hargs hplain
    split
    · exact List.forall_mem_singleton.2 hpath
    · exact fun code hcode => absurd hcode List.not_mem_nil
  | unknownStatic =>
    refine (Lowered.yields_true _).bind fun _ _ => hcodes.bind fun codes hcodes => ?_
    refine htype.bind fun text htext => Lowered.yields_pure (sheltered_applied ?_ hcodes)
    exact (htext.text (sheltered_of_not_mem (by decide))).text hmethod.sheltered
  | unknownMember =>
    refine (Lowered.yields_true _).bind fun _ _ => hcodes.bind fun codes hcodes => ?_
    refine Lowered.yields_pure (sheltered_applied ?_ hcodes)
    exact (hpath.text (sheltered_of_not_mem (by decide))).text hmethod.sheltered

theorem yields_plainCode_sheltered (henv : env.LacksSemicolons) {call : Call Coded}
    (hname : Quiet call.name.toList) (hargs : ∀ arg ∈ call.args, arg.value.IsSheltered) :
    (plainCode env call).Yields fun text => Sheltered text.toList := by
  rw [plainCode]
  cases hglobal : globalFunction? env call with
  | some found =>
    obtain ⟨-, hlookup⟩ := Option.ite_none_left_eq_some.1 hglobal
    obtain ⟨hmethod, htarget⟩ := Schema.hasMethod_of_lookupFunction hlookup
    refine (Lowered.yields_true _).bind fun _ _ => (Lowered.yields_true _).bind fun _ _ => ?_
    refine (yields_argTextsFor_sheltered _ hargs).bind fun codes hcodes text htext => ?_
    rw [Env.result_castResult] at htext
    cases htext
    exact sheltered_narrowed _
      (sheltered_applied (sheltered_function henv hmethod htarget) hcodes)
  | none =>
    have happlied {name : String} (h : Sheltered name.toList) :
        Lowered.Yields (fun text => Sheltered text.toList) (do
          let codes ← argTexts call.args
          return applied name codes) :=
      (yields_argTexts_sheltered hargs).bind fun codes hcodes =>
        Lowered.yields_pure (sheltered_applied h hcodes)
    dsimp only
    split
    · exact (henv.typeText (isTypeName_of_quiet hname)).bind fun _ => happlied
    · exact (Lowered.yields_pure (P := fun name => Sheltered name.toList) hname.sheltered).bind
        fun _ => happlied

end

/-- A call that does not become a block has semicolons only behind brackets. -/
theorem Env.yields_call_sheltered {env : Env} (henv : env.LacksSemicolons) {call : Call Expr}
    (hname : Quiet call.name.toList) (hargs : ∀ arg ∈ call.args, (env.coded arg.value).IsSheltered)
    (hplain : env.fillsBuffer call = false) :
    (env.exprText (.call call)).Yields fun text => Sheltered text.toList := by
  have hcoded : ∀ arg ∈ call.args.map env.codedArg, arg.value.IsSheltered :=
    List.forall_mem_map.2 hargs
  rw [exprText_call, callCode]
  rw [fillsBuffer] at hplain
  cases hsplit : splitReceiver call.name with
  | some parts =>
    obtain ⟨receiver, method⟩ := parts
    obtain ⟨hreceiver, hmethod⟩ := quiet_of_splitReceiver hname hsplit
    simp only [hsplit] at hplain
    refine yields_routeCode_sheltered henv hreceiver hmethod hcoded
      (Route.selected_select env receiver method _) ?_
    rwa [List.map_map, List.length_map]
  | none => exact yields_plainCode_sheltered henv hname hcoded

/-! ## Nodes

The step over one node takes what is known of the parts and gives the same for the node.  The
induction on parts then needs no case distinction. -/

theorem Env.lowerList_eq_map (env : Env) (es : List Expr) :
    env.lowerList es = es.map env.coded := by
  induction es with
  | nil => rw [lowerList, List.map_nil]
  | cons e es ih =>
    rw [lowerList, ih, List.map_cons]
    rfl

theorem Env.lowerFields_eq_map (env : Env) (fields : List (FieldInit Expr)) :
    env.lowerFields fields = fields.map fun field => ⟨field.name, env.coded field.value⟩ := by
  induction fields with
  | nil => rw [lowerFields, List.map_nil]
  | cons field fields ih =>
    rw [lowerFields, ih, List.map_cons]
    rfl

/-- The names of a node are tidy, and the expressions in a string literal have no semicolons. -/
structure Expr.LacksSemicolons (e : Expr) : Prop where
  tidy : e.IsTidy
  holes : ∀ raw, e = .str raw → ∀ source ∈ Expr.holes raw, ';' ∉ source.toList

section

variable {env : Env}

theorem Env.sheltered_literalParts {raw : String}
    (h : ∀ source ∈ Expr.holes raw, ';' ∉ source.toList) :
    ∀ part ∈ env.literalParts raw, Sheltered part.toList := by
  refine List.forall_mem_map.2 fun piece hpiece => ?_
  cases piece with
  | text content => exact sheltered_of_even (even_quote _)
  | hole source =>
    have hsource : ';' ∉ (String.ofList source).toList :=
      h _ (List.mem_map.2 ⟨.hole source, List.mem_filter.2 ⟨hpiece, rfl⟩, rfl⟩)
    rw [pieceText, interpolated]
    split
    · rename_i hpath
      exact env.scope.sheltered_readPath (quiet_of_isNamePath hpath)
    · exact sheltered_of_not_mem hsource

theorem Code.isSheltered_literal {raw : String} {parts : List String}
    (h : ∀ part ∈ parts, Sheltered part.toList) : (Code.literal raw parts).IsSheltered := by
  rw [IsSheltered, value]
  split
  · exact sheltered_around (by decide) (by decide) (sheltered_join h)
  · exact sheltered_of_even (even_quote _)

theorem yields_binaryCode_sheltered (isChain : Bool) {op : String} {left right : Coded}
    (hop : Quiet op.toList) (hleft : left.IsSheltered) (hright : right.IsSheltered) :
    (binaryCode isChain op left right).Yields Code.IsSheltered := by
  rw [binaryCode]
  split
  · refine (Lowered.yields_true _).bind fun _ _ => (Lowered.yields_true _).bind fun _ _ => ?_
    exact Lowered.yields_pure (sheltered_formatterValue _)
  · refine hleft.value.bind fun first hfirst => hright.value.bind fun second hsecond => ?_
    have hspace : Sheltered " ".toList := sheltered_of_not_mem (by decide)
    have hhead : Sheltered ("(" ++ first ++ " ").toList :=
      sheltered_around (by decide) (by decide) hfirst
    have hwhole := ((hhead.text hop.sheltered).text hspace).text hsecond
    exact Lowered.yields_pure (hwhole.text (sheltered_of_not_mem (by decide)))

theorem yields_memberText_sheltered (henv : env.LacksSemicolons) {object : Coded} {field : String}
    (hobject : object.IsSheltered) (hfield : Quiet field.toList) :
    (memberText env object field).Yields fun text => Sheltered text.toList := by
  rw [memberText]
  split
  · rename_i literal hliteral
    refine Lowered.yields_pure (sheltered_of_not_mem ?_)
    unfold constant? at hliteral
    split at hliteral
    · obtain ⟨-, hfound⟩ := Option.ite_none_right_eq_some.1 hliteral
      obtain ⟨method, hmethod, rfl⟩ := Option.map_eq_some_iff.1 hfound
      exact henv.templates _
        (Schema.hasMethod_of_mem_methodsNamed (List.mem_of_find?_eq_some hmethod))
    · cases hliteral
  · refine hobject.value.bind fun code hcode => Lowered.yields_pure ?_
    exact (hcode.text (sheltered_of_not_mem (by decide))).text hfield.sheltered

theorem yields_arrayText_sheltered {elements : List Coded}
    (h : ∀ part ∈ elements, part.IsSheltered) :
    (arrayText elements).Yields fun text => Sheltered text.toList := by
  have hcodes : ∀ code ∈ elements.map Coded.value, code.Yields fun text => Sheltered text.toList :=
    List.forall_mem_map.2 fun part hpart => (h part hpart).value
  exact (Lowered.yields_all hcodes).bind fun codes hcodes =>
    Lowered.yields_pure (sheltered_braced (sheltered_join hcodes.2))

theorem yields_fillText_sheltered {value : Coded} (count : Expr) (h : value.IsSheltered) :
    (fillText value count).Yields fun text => Sheltered text.toList := by
  refine h.value.bind fun code hcode => ?_
  have hnoted : (do
      Lowered.note .fillCountUnknown
      return braced code : Lowered String).Yields fun text => Sheltered text.toList :=
    (Lowered.yields_true _).bind fun _ _ => Lowered.yields_pure (sheltered_braced hcode)
  split
  · split
    · refine Lowered.yields_pure (sheltered_braced (sheltered_join fun text htext => ?_))
      rw [List.eq_of_mem_replicate htext]
      exact hcode
    · exact hnoted
  · exact hnoted

theorem sheltered_initText {name code : String} (hname : Quiet name.toList)
    (h : Sheltered code.toList) : Sheltered (initText name code).toList :=
  (sheltered_around (by decide) (by decide) hname.sheltered).text h

theorem yields_recordText_sheltered (henv : env.LacksSemicolons) {typeName : Option String}
    {fields : List (FieldInit Coded)} (htype : ∀ name ∈ typeName, IsTypeName name)
    (hnames : ∀ field ∈ fields, Quiet field.name.toList)
    (h : ∀ field ∈ fields, field.value.IsSheltered) :
    (recordText env typeName fields).Yields fun text => Sheltered text.toList := by
  have hinits : ∀ init ∈ fields.map fieldText, init.Yields fun text => Sheltered text.toList :=
    List.forall_mem_map.2 fun field hfield => (h field hfield).value.bind fun code hcode =>
      Lowered.yields_pure (sheltered_initText (hnames field hfield) hcode)
  refine (Lowered.yields_all hinits).bind fun inits hinits => ?_
  have hbody := sheltered_braced (sheltered_join hinits.2)
  cases typeName with
  | none => exact Lowered.yields_pure (sheltered_nil.append hbody)
  | some name =>
    exact (henv.typeText (htype name rfl)).bind fun text htext =>
      Lowered.yields_pure (htext.text hbody)

theorem yields_constructText_sheltered (henv : env.LacksSemicolons) {component : String}
    {args : List (Arg Coded)} (htype : IsTypeName component)
    (hnames : ∀ arg ∈ args, ∀ name ∈ arg.name, Quiet name.toList)
    (h : ∀ arg ∈ args, arg.value.IsSheltered) :
    (constructText env component args).Yields fun text => Sheltered text.toList := by
  have hargs : ∀ code ∈ args.map constructorArg, code.Yields fun text => Sheltered text.toList := by
    refine List.forall_mem_map.2 fun arg harg => ?_
    refine (h arg harg).value.bind fun code hcode => Lowered.yields_pure ?_
    split
    · exact Sheltered.text (sheltered_of_not_mem (by decide)) hcode
    · exact hcode
  refine (henv.typeText htype).bind fun text htext => ?_
  refine (Lowered.yields_all hargs).bind fun codes hcodes => ?_
  split
  · refine Lowered.yields_pure (htext.text (sheltered_braced (sheltered_join fun init hinit => ?_)))
    obtain ⟨i, hi, rfl⟩ := List.mem_iff_getElem.1 hinit
    have hlt : i < args.length := by
      rw [List.length_zipWith] at hi
      omega
    rw [List.getElem_zipWith]
    refine sheltered_initText ?_ (hcodes.2 _ (List.getElem_mem _))
    cases hname : (args[i]).name with
    | none => exact fun c hc => absurd hc List.not_mem_nil
    | some name => exact hnames _ (List.getElem_mem _) name hname
  · exact Lowered.yields_pure (sheltered_applied htext hcodes.2)

theorem Env.yields_enumText_sheltered (henv : env.LacksSemicolons) {ref : EnumRef}
    (h : ref.IsTidy) :
    (env.enumText ref.component ref.enumName ref.valueName).Yields
      fun text => Sheltered text.toList := by
  have htext {source : String} (hsource : IsTypeName source) :
      Lowered.Yields (fun text => Sheltered text.toList) (do
        let typeText ← env.typeText source
        return typeText ++ "::" ++ ref.valueName) :=
    (henv.typeText hsource).bind fun text htext => Lowered.yields_pure
      ((htext.text (sheltered_of_not_mem (by decide))).text h.valueName.sheltered)
  cases howner : ref.component with
  | none => exact htext h.enumName
  | some owner => exact htext (Even.text (Even.text (h.component owner howner) rfl) h.enumName)

theorem yields_matchText_sheltered (choice : Match Coded) :
    (matchText env choice).Yields fun text => Sheltered text.toList := by
  refine (Lowered.yields_true _).bind fun chain _ => Lowered.yields_pure ?_
  rw [MatchChain.render, String.append_assoc]
  exact sheltered_lambda _

/-! ### The step and the tree

Each kind of node has been looked at.  The step puts them together, with the call as the one kind
that may be excluded by hypothesis, and the induction on parts makes a statement about trees of
it. -/

/-- **The step over one node.**  A node that is no block call has semicolons only behind brackets if
its parts have. -/
theorem Env.isSheltered_of_parts (henv : env.LacksSemicolons) {e : Expr}
    (hnames : e.LacksSemicolons) (hcall : env.isBlockCall e = false)
    (hparts : ∀ part ∈ e.parts, (env.coded part).IsSheltered) : (env.coded e).IsSheltered := by
  have htidy := hnames.tidy
  show (env.lower e).Yields Code.IsSheltered
  cases e with
  | int value =>
    rw [lower]
    exact Lowered.yields_pure (quiet_toString_int _).sheltered
  | float value =>
    rw [lower]
    exact Lowered.yields_pure (quiet_floatText _).sheltered
  | bool value =>
    rw [lower]
    exact Lowered.yields_pure (sheltered_of_not_mem (by cases value <;> decide))
  | str raw =>
    rw [lower]
    exact Lowered.yields_pure
      (Code.isSheltered_literal (sheltered_literalParts (hnames.holes raw rfl)))
  | ident name =>
    rw [lower]
    exact Lowered.yields_pure (env.scope.sheltered_read htidy)
  | binary left op right chain =>
    simp only [Expr.parts, List.forall_mem_cons] at hparts
    rw [lower]
    exact yields_binaryCode_sheltered _ htidy hparts.1 hparts.2.1
  | unary op operand =>
    rw [lower]
    refine (hparts operand List.mem_cons_self).bind fun code hcode => Lowered.yields_pure ?_
    exact Sheltered.text (Quiet.sheltered htidy) hcode
  | trailing op operand =>
    rw [lower]
    refine (hparts operand List.mem_cons_self).bind fun code hcode => Lowered.yields_pure ?_
    exact Sheltered.text hcode htidy.1.sheltered
  | conditional condition thenValue elseValue =>
    simp only [Expr.parts, List.forall_mem_cons] at hparts
    obtain ⟨hcondition, hthen, helse, -⟩ := hparts
    rw [lower]
    refine hcondition.bind fun test htest => ?_
    refine hthen.bind fun first hfirst => helse.bind fun second hsecond => ?_
    have hhead : Sheltered ("(" ++ test.value ++ " ? ").toList :=
      sheltered_around (by decide) (by decide) htest
    have hmiddle := (hhead.text hfirst).text (sheltered_of_not_mem (by decide : ';' ∉ " : ".toList))
    exact Lowered.yields_pure ((hmiddle.text hsecond).text (sheltered_of_not_mem (by decide)))
  | call call =>
    have hargs : ∀ arg ∈ call.args, (env.coded arg.value).IsSheltered :=
      fun arg harg => hparts arg.value (List.mem_map_of_mem harg)
    intro code hcode
    -- The call has a text, so that it is no block call only because it does not fill the buffer.
    have htext : (env.exprText (.call call)).result = .ok code.value :=
      Lowered.result_bind_eq_ok_iff.2 ⟨code, hcode, rfl⟩
    have hplain : env.fillsBuffer call = false := by
      simpa [isBlockCall, htext, Except.isOk, Except.toBool] using hcall
    exact yields_call_sheltered henv htidy hargs hplain _ htext
  | member object field =>
    rw [lower]
    exact Lowered.yields_plain_sheltered
      (yields_memberText_sheltered henv (hparts object List.mem_cons_self) htidy)
  | index base position =>
    simp only [Expr.parts, List.forall_mem_cons] at hparts
    rw [lower]
    refine hparts.1.bind fun array harray => hparts.2.1.bind fun index hindex => ?_
    exact Lowered.yields_pure (((Sheltered.text harray (sheltered_of_not_mem (by decide))).text
      hindex).text (sheltered_of_not_mem (by decide)))
  | array literal =>
    rw [lower, lowerList_eq_map]
    exact Lowered.yields_plain_sheltered
      (yields_arrayText_sheltered (List.forall_mem_map.2 hparts))
  | fill value count =>
    rw [lower]
    exact Lowered.yields_plain_sheltered
      (yields_fillText_sheltered count (hparts value List.mem_cons_self))
  | record literal =>
    have hvalues : ∀ field ∈ literal.fields, (env.coded field.value).IsSheltered :=
      fun field hfield => hparts field.value (List.mem_map_of_mem hfield)
    rw [lower, lowerFields_eq_map]
    exact Lowered.yields_plain_sheltered (yields_recordText_sheltered henv htidy.1
      (List.forall_mem_map.2 htidy.2) (List.forall_mem_map.2 hvalues))
  | enumValue ref =>
    rw [lower]
    exact Lowered.yields_plain_sheltered (yields_enumText_sheltered henv htidy)
  | construct component args =>
    have hvalues : ∀ arg ∈ args, (env.coded arg.value).IsSheltered :=
      fun arg harg => hparts arg.value (List.mem_map_of_mem harg)
    rw [lower, lowerArgs_eq_map]
    exact Lowered.yields_plain_sheltered (yields_constructText_sheltered henv htidy.1
      (List.forall_mem_map.2 htidy.2) (List.forall_mem_map.2 hvalues))
  | select choice =>
    -- The parts do not matter here: they all stand inside a function that is called on the spot.
    rw [lower]
    exact Lowered.yields_plain_sheltered (yields_matchText_sheltered _)
  | reference operand =>
    rw [lower]
    exact (hparts operand List.mem_cons_self).bind fun code hcode => Lowered.yields_pure hcode
  | move operand =>
    rw [lower]
    exact (hparts operand List.mem_cons_self).bind fun code hcode =>
      Lowered.yields_pure (sheltered_moved hcode)

/-- **The texts of values.**  An expression without block calls has semicolons only behind
brackets. -/
theorem Env.isSheltered_of_nodes (henv : env.LacksSemicolons) {e : Expr}
    (hnames : ∀ node ∈ e.nodes, node.LacksSemicolons)
    (hcalls : ∀ node ∈ e.nodes, env.isBlockCall node = false) : (env.coded e).IsSheltered := by
  induction e using Expr.partInduction with
  | step e ih =>
    refine isSheltered_of_parts henv (hnames e e.mem_nodes_self) (hcalls e e.mem_nodes_self) ?_
    intro part hpart
    have hnodes : ∀ node ∈ part.nodes, node ∈ e.nodes :=
      fun node => Expr.mem_nodes_trans (Expr.mem_nodes_of_mem_parts hpart)
    exact ih part hpart (fun node hnode => hnames node (hnodes node hnode))
      fun node hnode => hcalls node (hnodes node hnode)

end

end UiLowering
