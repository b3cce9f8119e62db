import UiLowering.Lower.Stmt
import UiLowering.Proofs.Call.Function
import UiLowering.Proofs.Call.Template

/-!
# Callbacks that name a method of the component

A callback is given by the name of a method of the component, and what the runtime calls is a
function that passes its arguments on to this method, the forwarder.  A call of a function of the
runtime puts the forwarder in the place of the name.  A template does not: it is filled with the
arguments as they stand in the source, so the bare name is passed.

The text of a call that goes to a method of the schema is a `Frame` around the texts of the
arguments.  `callbacks_forwarded_iff` says that the frame holds the forwarders exactly if it is no
template that mentions such an argument.

To say that a forwarder stands in the text one has to say where.  The frame gives the place of each
argument, and the claim is about these places: with forwarders put in for the names of methods the
frame gives the text of the call, or it does not.  For functions it always does.  For templates it
does exactly if the template mentions none of the arguments in question, since a forwarder is longer
than the name and a template that mentions the argument would show it.
-/

set_option autoImplicit false

namespace UiLowering

/-! ## Frames

What stands around the arguments is known from the way of the call alone, before any argument is
lowered.  A frame records that, so that the text of a call can be compared with the text that the
same frame would have around other arguments. -/

/-- What stands around the arguments of a call that goes to a method of the schema. -/
inductive Frame where
  | template (source receiver : String)
  | function (callee returnType : String) (leading : List String)
  | global (callee returnType : String)

namespace Frame

/-- A text is the frame around the texts `codes` of the arguments.  Of the arguments of a function
with a receiver, the first one that needs the formatter is put together in the buffer before. -/
def Assembles (env : Env) (args : List (Arg Expr)) (codes : List String) (text : String) :
    Frame → Prop
  | template source receiver => text = Template.expand source receiver codes
  | function callee returnType leading =>
    ((∀ arg ∈ args, arg.value.needsFormatter = false) →
      text = env.narrowed returnType (applied callee (leading ++ codes))) ∧
    ∀ k arg, FirstFormatted args k arg →
      ∃ appends, (env.appendsText arg.value).result = .ok appends ∧
        text = braced (" " ++ formatterDecl ++ " " ++ appends ++
          applied callee (leading ++ codes.set k "_fmt.c_str()") ++ "; ")
  | global callee returnType => text = env.narrowed returnType (applied callee codes)

/-- The texts of the arguments that a frame is put around.  A template does not ask for which
parameters they stand. -/
def Passes (env : Env) (call : Call Expr) (callee : Callee) (codes : List String) : Frame → Prop
  | template _ _ => (call.args.map fun arg => (env.codedArg arg).text.result) = codes.map .ok
  | function _ _ _ | global _ _ => env.ArgCodes call callee codes

/-- Whether a frame is a template. -/
def isTemplate : Frame → Bool
  | template _ _ => true
  | function _ _ _ | global _ _ => false

/-- A frame is a template that has a place for the `i`-th of `argc` arguments. -/
def Mentions (argc i : Nat) : Frame → Prop
  | template source _ => Template.Mentions source argc i
  | function _ _ _ | global _ _ => False

end Frame

/-- The frame of a call that goes one of the ways to a method of the schema, other than through a
generator. -/
def Route.frame? (env : Env) (receiver : String) : Route → Option Frame
  | .staticTemplate method => some (.template method.mappingValue receiver)
  | .valueTemplate method => some (.template method.mappingValue (env.scope.readPath receiver))
  | .function method space name passes =>
    some (.function ("webcc::" ++ space ++ "::" ++ name) method.returnType
      (env.passed receiver passes []))
  | .intrinsic _ | .enumSize | .shortcut _ | .unknownStatic | .unknownMember => none

namespace Env

/-- The frame of a call that goes to a method of the schema. -/
def frame? (env : Env) (call : Call Expr) : Option Frame :=
  match splitReceiver call.name with
  | some (receiver, method) =>
    (Route.select env receiver method call.args.length).frame? env receiver
  | none => (globalFunction? env (env.codedCall call)).map fun found =>
    .global ("webcc::" ++ found.space ++ "::" ++ found.function) found.method.returnType

variable {env : Env} {call : Call Expr} {callee : Callee} {frame : Frame}
  {receiver text name : String} {arity i : Nat} {arg : Arg Expr} {codes : List String}

/-! ## Every call that is lowered fills its frame

The text is taken apart once, way by way.  Behind this section nothing looks at `routeCode`
again. -/

theorem exists_codes_of_template {source : String}
    (h : (do let codes ← argTexts (call.args.map env.codedArg)
             return Template.expand source receiver codes : Lowered String).result = .ok text) :
    ∃ codes, (Frame.template source receiver).Passes env call callee codes ∧
      (Frame.template source receiver).Assembles env call.args codes text := by
  obtain ⟨codes, hcodes, hexpand⟩ := Lowered.result_bind_eq_ok_iff.1 h
  rw [argTexts, Lowered.result_all_eq_ok_iff, List.map_map, List.map_map] at hcodes
  exact ⟨codes, hcodes, (Except.ok.inj hexpand).symm⟩

theorem exists_codes_of_functionCode {found : ApiMethod} {name : String} {passes : Bool}
    (h : (functionCode env name found.returnType (env.passed receiver passes [])
      (Callee.params ⟨found, passes.toNat⟩) (call.args.map env.codedArg)).result = .ok text) :
    ∃ codes, env.ArgCodes call ⟨found, passes.toNat⟩ codes ∧
      (Frame.function name found.returnType (env.passed receiver passes [])).Assembles env
        call.args codes text := by
  rcases plain_or_firstFormatted call.args with hplain | ⟨k, arg, hfirst⟩
  · obtain ⟨codes, hcodes, htext⟩ :=
      (result_functionCode_of_plain (List.forall_mem_map.2 hplain)).1 h
    exact ⟨codes, argCodes_iff.2 hcodes, fun _ => htext,
      fun k arg hfirst => absurd hplain hfirst.not_plain⟩
  · obtain ⟨codes, appends, hcodes, happends, htext⟩ :=
      (result_functionCode_of_firstFormatted hfirst).1 h
    refine ⟨codes, argCodes_iff.2 hcodes, fun hplain => absurd hplain hfirst.not_plain, ?_⟩
    intro k' arg' hfirst'
    obtain ⟨rfl, rfl⟩ := hfirst.unique hfirst'
    exact ⟨appends, happends, htext⟩

theorem exists_codes_of_routeCode {method : String} {route : Route}
    (hframe : route.frame? env receiver = some frame) (hcallee : route.callee? = some callee)
    (hsplit : splitReceiver call.name = some (receiver, method))
    (hroute : Route.select env receiver method call.args.length = route)
    (h : (env.exprText (.call call)).result = .ok text) :
    ∃ codes, frame.Passes env call callee codes ∧ frame.Assembles env call.args codes text := by
  have hcode := h
  rw [exprText_of_select hsplit, hroute] at hcode
  cases route with
  | enumSize => cases hframe
  | shortcut shortcut => cases hframe
  | intrinsic found => cases hframe
  | staticTemplate found =>
    cases hframe
    obtain ⟨-, -, htext⟩ := Lowered.result_bind_eq_ok_iff.1 hcode
    exact exists_codes_of_template htext
  | valueTemplate found =>
    cases hframe
    obtain ⟨-, -, htext⟩ := Lowered.result_bind_eq_ok_iff.1 hcode
    exact exists_codes_of_template htext
  | function found space function passes =>
    cases hframe
    have hskipped : callee = ⟨found, passes.toNat⟩ := by
      cases hcallee
      cases passes <;> rfl
    subst hskipped
    exact exists_codes_of_functionCode ((result_exprText_of_function hsplit hroute).1 h).2
  | unknownStatic => cases hframe
  | unknownMember => cases hframe

/-- The text of a call that is lowered is its frame around the texts of its arguments. -/
theorem exists_codes_of_lowered (hframe : env.frame? call = some frame)
    (hcallee : env.callee? call = some callee)
    (h : (env.exprText (.call call)).result = .ok text) :
    ∃ codes, frame.Passes env call callee codes ∧ frame.Assembles env call.args codes text := by
  rw [frame?] at hframe
  rw [callee?] at hcallee
  cases hsplit : splitReceiver call.name with
  | some parts =>
    simp only [hsplit] at hframe hcallee
    exact exists_codes_of_routeCode hframe hcallee hsplit rfl h
  | none =>
    simp only [hsplit] at hframe hcallee
    obtain ⟨found, hfound, rfl⟩ := Option.map_eq_some_iff.1 hframe
    rw [hfound, Option.map_some, Option.some.injEq] at hcallee
    subst hcallee
    rw [exprText_codedCall, callCode] at h
    have hname : splitReceiver (env.codedCall call).name = none := hsplit
    simp only [hname, plainCode, hfound, globalCode] at h
    obtain ⟨-, -, h⟩ := Lowered.result_bind_eq_ok_iff.1 h
    obtain ⟨-, -, h⟩ := Lowered.result_bind_eq_ok_iff.1 h
    obtain ⟨codes, hcodes, hcast⟩ := Lowered.result_bind_eq_ok_iff.1 h
    rw [Lowered.result_all_eq_ok_iff] at hcodes
    rw [result_castResult, Except.ok.injEq] at hcast
    exact ⟨codes, argCodes_iff.2 hcodes, hcast.symm⟩

/-! ## Arguments that name a method

An argument is forwarded if it is a plain name, its parameter is a callback and the component has a
method of that name.  A forwarder is longer than the name it stands for in any form, which is what
keeps the two texts apart. -/

/-- The method of the component that the `i`-th argument names for a callback, with its arity. -/
def forwarded? (env : Env) (call : Call Expr) (callee : Callee) (i : Nat) :
    Option (String × Nat) :=
  match call.args[i]?, callee.method.params[i + callee.skipped]? with
  | some ⟨_, .ident name, _, _⟩, some param =>
    if param.isCallback then (env.scope.arityOf? name).map (name, ·) else none
  | _, _ => none

/-- The texts of the arguments, with a forwarder for each method that is named for a callback. -/
def forwarding (env : Env) (call : Call Expr) (callee : Callee) (codes : List String) :
    List String :=
  codes.mapIdx fun i code =>
    ((env.forwarded? call callee i).map fun method => Arg.forwarder method.1 method.2).getD code

theorem forwarded?_eq_some_iff :
    env.forwarded? call callee i = some (name, arity) ↔
      ∃ arg param, call.args[i]? = some arg ∧ arg.value = .ident name ∧
        callee.method.params[i + callee.skipped]? = some param ∧ param.isCallback = true ∧
        env.scope.arityOf? name = some arity := by
  constructor
  · intro h
    rw [forwarded?] at h
    split at h
    · rename_i argName given byReference byMove param harg hparam
      obtain ⟨hcallback, hmap⟩ := Option.ite_none_right_eq_some.1 h
      obtain ⟨found, harity, heq⟩ := Option.map_eq_some_iff.1 hmap
      cases heq
      exact ⟨_, param, harg, rfl, hparam, hcallback, harity⟩
    · cases h
  · rintro ⟨⟨argName, value, byReference, byMove⟩, param, harg, rfl, hparam, hcallback, harity⟩
    simp [forwarded?, harg, hparam, hcallback, harity]

/-- The place of the buffer is not that of a callback, since a name does not need the formatter. -/
theorem forwarded?_of_firstFormatted {k : Nat} (h : FirstFormatted call.args k arg) :
    env.forwarded? call callee k = none := by
  rw [Option.eq_none_iff_forall_ne_some]
  rintro ⟨name, arity⟩ hforwarded
  obtain ⟨other, -, hother, hvalue, -⟩ := forwarded?_eq_some_iff.1 hforwarded
  obtain rfl := Option.some.inj (h.getElem.symm.trans hother)
  have hformatted := h.formatted
  rw [hvalue] at hformatted
  cases hformatted

/-- A name as an argument like any other. -/
def nameText (env : Env) (arg : Arg Expr) (name : String) : String :=
  movedIf arg.byMove (env.scope.read name)

theorem text_of_ident (h : arg.value = .ident name) :
    (env.codedArg arg).text.result = .ok (env.nameText arg name) := by
  obtain ⟨argName, value, byReference, byMove⟩ := arg
  cases h
  rfl

theorem textFor_of_ident {param : ApiParam} (h : arg.value = .ident name)
    (hcallback : param.isCallback = true) (harity : env.scope.arityOf? name = some arity) :
    ((env.codedArg arg).textFor env (some param)).result = .ok (Arg.forwarder name arity) := by
  obtain ⟨argName, value, byReference, byMove⟩ := arg
  cases h
  have hsource : (env.codedArg ⟨argName, .ident name, byReference, byMove⟩).value.source =
      .ident name := rfl
  rw [Arg.textFor, Option.any_some, if_pos hcallback, Arg.callbackText]
  simp only [hsource, harity]
  rfl

theorem length_forwarder (name : String) (arity : Nat) :
    name.length + 16 ≤ (Arg.forwarder name arity).length := by
  simp only [Arg.forwarder, braced, String.length_append]
  have htext : "[this](".length = 7 ∧ ") ".length = 2 ∧ "\x7b".length = 1 ∧ " ".length = 1 ∧
    "(".length = 1 ∧ "); ".length = 3 ∧ "\x7d".length = 1 := by decide
  omega

/-- A forwarder is no shorter than the name that it stands for, even if the name is read through a
pointer and moved. -/
theorem length_nameText_le (env : Env) (arg : Arg Expr) (name : String) (arity : Nat) :
    (env.nameText arg name).length ≤ (Arg.forwarder name arity).length := by
  have hread := length_read_le env.scope name
  have hforwarder := length_forwarder name arity
  rw [nameText, movedIf]
  split
  · have htext : "webcc::move(".length = 12 ∧ ")".length = 1 := by decide
    simp only [moved, String.length_append]
    omega
  · omega

theorem nameText_ne_forwarder (env : Env) (arg : Arg Expr) (name : String) (arity : Nat) :
    env.nameText arg name ≠ Arg.forwarder name arity := by
  intro heq
  rw [nameText, movedIf] at heq
  split at heq
  · have hhead := congrArg (fun text => text.toList.head?) heq
    simp [moved, Arg.forwarder] at hhead
  · have hread := length_read_le env.scope name
    have hforwarder := length_forwarder name arity
    rw [← heq] at hforwarder
    omega

/-! ## Where the forwarders stand

A function gets each argument for its parameter and so gets the forwarders.  A template gets the
arguments without their parameters.  The two lists of texts agree except at the arguments that name
a method, and a template shows the difference exactly if it mentions one of these. -/

theorem length_of_passes (h : frame.Passes env call callee codes) :
    codes.length = call.args.length := by
  cases frame with
  | template source receiver =>
    have hlength := congrArg List.length h
    rw [List.length_map, List.length_map] at hlength
    exact hlength.symm
  | function name returnType leading =>
    have hlength := length_eq_of_argTextsFor (argCodes_iff.1 h)
    rwa [List.length_map] at hlength
  | global name returnType =>
    have hlength := length_eq_of_argTextsFor (argCodes_iff.1 h)
    rwa [List.length_map] at hlength

theorem getElem?_of_argCodes (h : env.ArgCodes call callee codes)
    (hforwarded : env.forwarded? call callee i = some (name, arity)) :
    codes[i]? = some (Arg.forwarder name arity) := by
  obtain ⟨arg, param, harg, hvalue, hparam, hcallback, harity⟩ :=
    forwarded?_eq_some_iff.1 hforwarded
  have hi := congrArg (·[i]?) h
  simp only [List.getElem?_mapIdx, harg, hparam, Option.map_some, List.getElem?_map,
    textFor_of_ident hvalue hcallback harity] at hi
  obtain ⟨code, hcode, heq⟩ := Option.map_eq_some_iff.1 hi.symm
  rw [hcode, Except.ok.inj heq]

theorem getElem?_of_texts
    (h : (call.args.map fun arg => (env.codedArg arg).text.result) = codes.map .ok)
    (harg : call.args[i]? = some arg) (hvalue : arg.value = .ident name) :
    codes[i]? = some (env.nameText arg name) := by
  have hi := congrArg (·[i]?) h
  simp only [List.getElem?_map, harg, Option.map_some, text_of_ident hvalue] at hi
  obtain ⟨code, hcode, heq⟩ := Option.map_eq_some_iff.1 hi.symm
  rw [hcode, Except.ok.inj heq]

/-- What is passed for a callback that names a method. -/
theorem getElem?_of_passes (h : frame.Passes env call callee codes)
    (hforwarded : env.forwarded? call callee i = some (name, arity))
    (harg : call.args[i]? = some arg) :
    codes[i]? =
      some (if frame.isTemplate then env.nameText arg name else Arg.forwarder name arity) := by
  obtain ⟨other, -, hother, hvalue, -⟩ := forwarded?_eq_some_iff.1 hforwarded
  obtain rfl := Option.some.inj (harg.symm.trans hother)
  cases frame with
  | template source receiver => exact getElem?_of_texts h harg hvalue
  | function name returnType leading => exact getElem?_of_argCodes h hforwarded
  | global name returnType => exact getElem?_of_argCodes h hforwarded

/-- Functions get the forwarders already. -/
theorem forwarding_of_argCodes (h : env.ArgCodes call callee codes) :
    env.forwarding call callee codes = codes := by
  refine List.ext_getElem? fun i => ?_
  rw [forwarding, List.getElem?_mapIdx]
  cases hforwarded : env.forwarded? call callee i with
  | none => simp
  | some method => rw [getElem?_of_argCodes h hforwarded]; rfl

theorem getD_forwarding (hlength : codes.length = call.args.length) :
    (env.forwarding call callee codes).getD i "" =
      ((env.forwarded? call callee i).map fun method =>
        Arg.forwarder method.1 method.2).getD (codes.getD i "") := by
  rw [List.getD_eq_getElem?_getD, List.getD_eq_getElem?_getD, forwarding, List.getElem?_mapIdx]
  cases hcode : codes[i]? with
  | some code => rfl
  | none =>
    have hnone : env.forwarded? call callee i = none := by
      rw [Option.eq_none_iff_forall_ne_some]
      rintro ⟨name, arity⟩ hforwarded
      obtain ⟨arg, -, harg, -⟩ := forwarded?_eq_some_iff.1 hforwarded
      have hbound := (List.getElem?_eq_some_iff.1 harg).1
      have hout := List.getElem?_eq_none_iff.1 hcode
      omega
    rw [hnone]
    rfl

/-- A template holds the forwarders only if it mentions none of the arguments that they are for. -/
theorem expand_forwarding_iff {source receiver : String}
    (h : (Frame.template source receiver).Passes env call callee codes) :
    Template.expand source receiver codes =
        Template.expand source receiver (env.forwarding call callee codes) ↔
      ∀ i, (env.forwarded? call callee i).isSome = true →
        ¬Template.Mentions source call.args.length i := by
  have hlength := length_of_passes h
  have hname : ∀ i name arity, env.forwarded? call callee i = some (name, arity) →
      ∃ arg, codes.getD i "" = env.nameText arg name := by
    intro i name arity hforwarded
    obtain ⟨arg, -, harg, hvalue, -⟩ := forwarded?_eq_some_iff.1 hforwarded
    exact ⟨arg, by rw [List.getD_eq_getElem?_getD, getElem?_of_texts h harg hvalue]; rfl⟩
  rw [Template.expand_eq_iff (by rw [forwarding, List.length_mapIdx]), hlength]
  · refine forall_congr' fun i => ?_
    rw [getD_forwarding hlength]
    cases hforwarded : env.forwarded? call callee i with
    | none => simp
    | some method =>
      obtain ⟨arg, hcode⟩ := hname i method.1 method.2 hforwarded
      rw [hcode, Option.map_some, Option.getD_some, Option.isSome_some]
      have hne := nameText_ne_forwarder env arg method.1 method.2
      exact ⟨fun h _ hmentions => hne (h hmentions), fun h hmentions => absurd hmentions (h rfl)⟩
  · intro i
    rw [getD_forwarding hlength]
    cases hforwarded : env.forwarded? call callee i with
    | none => exact Nat.le_refl _
    | some method =>
      obtain ⟨arg, hcode⟩ := hname i method.1 method.2 hforwarded
      rw [hcode]
      exact length_nameText_le env arg method.1 method.2

/-! ### Functions and templates

Both halves of the statement come from the list of codes: for a function it is already the list with
the forwarders in it, and for a template it has the names in these places. -/

/-- **Functions get forwarders, templates get names.**  The text of a call that is lowered through
a template, a mapped function or a function named without a receiver is the frame of that way around
the texts of the arguments.  For a function, the text of each argument that names a method for a
callback is the forwarder of the method; for a template, it is the name.  So the frame holds the
forwarders of all these methods if and only if it is no template with a place for one of them. -/
theorem callbacks_forwarded_iff (hframe : env.frame? call = some frame)
    (hcallee : env.callee? call = some callee)
    (h : (env.exprText (.call call)).result = .ok text) :
    ∃ codes, frame.Passes env call callee codes ∧ frame.Assembles env call.args codes text ∧
      (∀ i arg name arity, env.forwarded? call callee i = some (name, arity) →
        call.args[i]? = some arg → codes[i]? =
          some (if frame.isTemplate then env.nameText arg name else Arg.forwarder name arity)) ∧
      (∀ k arg, FirstFormatted call.args k arg → env.forwarded? call callee k = none) ∧
      (frame.Assembles env call.args (env.forwarding call callee codes) text ↔
        ∀ i, (env.forwarded? call callee i).isSome = true →
          ¬frame.Mentions call.args.length i) := by
  obtain ⟨codes, hpasses, hassembles⟩ := exists_codes_of_lowered hframe hcallee h
  refine ⟨codes, hpasses, hassembles,
    fun i arg name arity hforwarded harg => getElem?_of_passes hpasses hforwarded harg,
    fun k arg hfirst => forwarded?_of_firstFormatted hfirst, ?_⟩
  cases frame with
  | template source receiver =>
    have htext : text = Template.expand source receiver codes := hassembles
    rw [Frame.Assembles, htext]
    exact expand_forwarding_iff hpasses
  | function name returnType leading =>
    rw [forwarding_of_argCodes hpasses]
    exact iff_of_true hassembles fun i _ => not_false
  | global name returnType =>
    rw [forwarding_of_argCodes hpasses]
    exact iff_of_true hassembles fun i _ => not_false

end Env

/-- A method that is mapped to a function and takes a callback and a time. -/
def afterMethod : ApiMethod :=
  { ApiMethod.plain "after" .function "timer::after" with
    params := [⟨"func", "run", true⟩, ⟨"int", "delay", false⟩] }

/-- A method with a template that takes a callback. -/
def everyMethod : ApiMethod :=
  { ApiMethod.plain "every" .template "$\x7bthis\x7d::every($\x7b0\x7d)" with
    params := [⟨"func", "run", true⟩] }

/-- Surroundings in which the component has a method `tick` with two parameters. -/
def clockEnv : Env where
  scope := (Scope.ofComponent "" "App" ∅).declareMethod "tick" 2
  schema := .ofTypes [{ ApiType.plain "Timer" with methods := [afterMethod, everyMethod] }]
  options := .default

/-- The method `tick` as an argument. -/
def tickArg : Arg Expr := ⟨none, .ident "tick", true, false⟩

def afterTickCall : Call Expr := ⟨"Timer.after", [tickArg, ⟨none, .int 5, false, false⟩], 1⟩

def everyTickCall : Call Expr := ⟨"Timer.every", [tickArg], 1⟩

/-- The function gets a forwarder with two parameters. -/
theorem callbacks_forwarded_iff_after :
    ∃ frame text codes, clockEnv.frame? afterTickCall = some frame ∧
      clockEnv.callee? afterTickCall = some ⟨afterMethod, 0⟩ ∧
      clockEnv.forwarded? afterTickCall ⟨afterMethod, 0⟩ 0 = some ("tick", 2) ∧
      (clockEnv.exprText (.call afterTickCall)).result = .ok text ∧
      codes[0]? = some "[this](auto _a0, auto _a1) \x7b tick(_a0, _a1); \x7d" ∧
      frame.Assembles clockEnv afterTickCall.args codes text ∧
      frame.Assembles clockEnv afterTickCall.args
        (clockEnv.forwarding afterTickCall ⟨afterMethod, 0⟩ codes) text := by
  have hframe : clockEnv.frame? afterTickCall =
      some (.function "webcc::timer::after" "void" []) := by rfl
  have hcallee : clockEnv.callee? afterTickCall = some ⟨afterMethod, 0⟩ := by rfl
  have hforwarded : clockEnv.forwarded? afterTickCall ⟨afterMethod, 0⟩ 0 = some ("tick", 2) := by
    decide +kernel
  obtain ⟨text, htext⟩ := Lowered.exists_ok_of_isOk
    (show (clockEnv.exprText (.call afterTickCall)).result.isOk = true by decide +kernel)
  obtain ⟨codes, -, hassembles, hcodes, -, hiff⟩ :=
    Env.callbacks_forwarded_iff hframe hcallee htext
  exact ⟨_, text, codes, hframe, hcallee, hforwarded, htext,
    hcodes 0 tickArg "tick" 2 hforwarded rfl, hassembles, hiff.2 fun _ _ => not_false⟩

/-- The template gets the name of the method. -/
theorem template_passes_bare_name :
    clockEnv.frame? everyTickCall = some (.template everyMethod.mappingValue "Timer") ∧
      clockEnv.callee? everyTickCall = some ⟨everyMethod, 0⟩ ∧
      clockEnv.forwarded? everyTickCall ⟨everyMethod, 0⟩ 0 = some ("tick", 2) ∧
      (clockEnv.exprText (.call everyTickCall)).result.toOption = some "Timer::every(tick)" :=
  ⟨rfl, rfl, by decide +kernel, by decide +kernel⟩

end UiLowering
