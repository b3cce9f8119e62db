import UiLowering.Proofs.Call.Callback
import UiLowering.Proofs.Text.Join

/-!
# Calls of functions of the runtime

A method that is mapped to a function is called with exactly the parameters that the schema
declares: the receiver, where it is passed, and the arguments in the order of the source.  If no
argument needs the formatter, the call is the value, cast to the declared type if that is narrow.
Otherwise the first such argument is put together in the buffer, and the call stands in a block with
the text of the buffer in the place of that argument.

That the number of values passed is the number of parameters declared is not checked when a call is
lowered.  It follows from how the method was chosen: the search asks for a method with as many
parameters as there are values to pass, the receiver included where it counts.  `Route.Selected`
carries this fact from the search to the text.
-/

set_option autoImplicit false

namespace UiLowering

/-! ## The first argument that needs the formatter

There is one buffer, so at most one argument of a call can be put together in it.  It is the first
that needs it; the ones behind it are lowered as values. -/

/-- The `k`-th argument is the first one that needs the formatter. -/
structure FirstFormatted (args : List (Arg Expr)) (k : Nat) (arg : Arg Expr) : Prop where
  getElem : args[k]? = some arg
  formatted : arg.value.needsFormatter = true
  earlier : ∀ other ∈ args.take k, other.value.needsFormatter = false

/-- Either no argument needs the formatter, or there is a first one that does. -/
theorem plain_or_firstFormatted (args : List (Arg Expr)) :
    (∀ arg ∈ args, arg.value.needsFormatter = false) ∨ ∃ k arg, FirstFormatted args k arg := by
  induction args with
  | nil => exact .inl fun arg harg => absurd harg List.not_mem_nil
  | cons first args ih =>
    cases hfirst : first.value.needsFormatter with
    | true => exact .inr ⟨0, first, rfl, hfirst, fun other hother => absurd hother (by simp)⟩
    | false =>
      rcases ih with hplain | ⟨k, arg, hget, hformatted, hearlier⟩
      · exact .inl (List.forall_mem_cons.2 ⟨hfirst, hplain⟩)
      · exact .inr ⟨k + 1, arg, hget, hformatted, List.forall_mem_cons.2 ⟨hfirst, hearlier⟩⟩

theorem FirstFormatted.eq_append {args : List (Arg Expr)} {k : Nat} {arg : Arg Expr}
    (h : FirstFormatted args k arg) : args = args.take k ++ arg :: args.drop (k + 1) := by
  obtain ⟨hk, rfl⟩ := List.getElem?_eq_some_iff.1 h.getElem
  rw [← List.drop_eq_getElem_cons hk, List.take_append_drop]

theorem FirstFormatted.not_plain {args : List (Arg Expr)} {k : Nat} {arg : Arg Expr}
    (h : FirstFormatted args k arg) : ¬∀ arg ∈ args, arg.value.needsFormatter = false := by
  intro hplain
  have hformatted := h.formatted
  rw [hplain arg (List.mem_of_getElem? h.getElem)] at hformatted
  cases hformatted

/-- There is only one first argument that needs the formatter. -/
theorem FirstFormatted.unique {args : List (Arg Expr)} {k k' : Nat} {arg arg' : Arg Expr}
    (h : FirstFormatted args k arg) (h' : FirstFormatted args k' arg') : k = k' ∧ arg = arg' := by
  have hle : ∀ {i j : Nat} {a b : Arg Expr}, FirstFormatted args i a → FirstFormatted args j b →
      ¬i < j := by
    intro i j a b hi hj hlt
    have hmem : a ∈ args.take j :=
      List.mem_of_getElem? (by rw [List.getElem?_take_of_lt hlt, hi.getElem])
    have hformatted := hi.formatted
    rw [hj.earlier a hmem] at hformatted
    cases hformatted
  obtain rfl : k = k' := by
    have hk := hle h h'
    have hk' := hle h' h
    omega
  exact ⟨rfl, Option.some.inj (h.getElem.symm.trans h'.getElem)⟩

/-! ## Texts of arguments

The code of the arguments is computed by a recursion that drops a parameter with each argument.  As
a map over positions it says directly which parameter an argument stands for. -/

theorem argTextsFor_eq_mapIdx (env : Env) (params : List ApiParam) (args : List (Arg Coded)) :
    argTextsFor env params args = args.mapIdx fun i arg => arg.textFor env params[i]? := by
  induction args generalizing params with
  | nil => cases params <;> rfl
  | cons arg args ih =>
    cases params with
    | nil => simp [argTextsFor, ih, Arg.textFor]
    | cons param params => simp [argTextsFor, ih]

theorem argTextsFor_cons (env : Env) (params : List ApiParam) (arg : Arg Coded)
    (args : List (Arg Coded)) :
    argTextsFor env params (arg :: args) =
      arg.textFor env params[0]? :: argTextsFor env (params.drop 1) args := by
  simp [argTextsFor_eq_mapIdx]

/-- The arguments behind the first ones stand for the parameters behind as many. -/
theorem argTextsFor_append (env : Env) (params : List ApiParam) (front back : List (Arg Coded)) :
    argTextsFor env params (front ++ back) =
      argTextsFor env params front ++ argTextsFor env (params.drop front.length) back := by
  simp [argTextsFor_eq_mapIdx, List.mapIdx_append, Nat.add_comm]

theorem length_eq_of_argTextsFor {env : Env} {params : List ApiParam} {args : List (Arg Coded)}
    {codes : List String} (h : (argTextsFor env params args).map (·.result) = codes.map .ok) :
    codes.length = args.length := by
  have hlength := congrArg List.length h
  rw [argTextsFor_eq_mapIdx, List.length_map, List.length_mapIdx, List.length_map] at hlength
  exact hlength.symm

/-- What can be appended to the buffer can be passed as an argument. -/
theorem Arg.exists_textFor {env : Env} {param : Option ApiParam} {arg : Arg Coded}
    {appends : String} (h : arg.value.appends.result = .ok appends) :
    ∃ text, (arg.textFor env param).result = .ok text := by
  obtain ⟨code, hcode, -⟩ := Lowered.result_bind_eq_ok_iff.1 h
  have hvalue : arg.value.value.result = .ok code.value :=
    Lowered.result_bind_eq_ok_iff.2 ⟨code, hcode, rfl⟩
  rw [textFor]
  split
  · rw [callbackText]
    split
    · split
      · exact ⟨_, rfl⟩
      · exact ⟨_, hvalue⟩
    · exact ⟨_, hvalue⟩
  · exact ⟨_, Lowered.result_bind_eq_ok_iff.2 ⟨_, hvalue, rfl⟩⟩

/-! ## The two shapes of a call

With no argument for the buffer the call is a value, and its result may be cast.  With one it
becomes a block, which is a statement, and there is no cast. -/

/-- A result, cast to the target type of its declared type if that is a narrow integer. -/
def Env.narrowed (env : Env) (returnType code : String) : String :=
  let target := (TypeName.resolve env.scope env.schema returnType).text
  if target ∈ TypeName.narrowIntegers then "(" ++ target ++ ")(" ++ code ++ ")" else code

theorem Env.result_castResult (env : Env) (returnType code : String) :
    (env.castResult returnType code).result = .ok (env.narrowed returnType code) := by
  rw [castResult, narrowed]
  generalize htarget : (TypeName.resolve env.scope env.schema returnType).text = target
  have htext : (env.typeText returnType).result = .ok target := by rw [← htarget]; rfl
  refine Lowered.result_bind_eq_ok_iff.2 ⟨target, htext, ?_⟩
  cases hcast : TypeName.narrowingCast? target with
  | none =>
    have hmem : target ∉ TypeName.narrowIntegers := fun hmem =>
      List.find?_eq_none.1 hcast target hmem (beq_self_eq_true target)
    rw [if_neg hmem]
    rfl
  | some cast =>
    have hfind : TypeName.narrowIntegers.find? (· == target) = some cast := hcast
    have heq := List.find?_some hfind
    obtain rfl : cast = target := eq_of_beq heq
    rw [if_pos (List.mem_of_find?_eq_some hfind)]
    rfl

section

variable {env : Env} {callee returnType text : String} {leading : List String}
  {params : List ApiParam} {args before after : List (Arg Coded)} {chain : Arg Coded}

/-- Without an argument that needs the formatter the call is a value. -/
theorem result_functionCode_of_plain
    (hplain : ∀ arg ∈ args, arg.value.source.needsFormatter = false) :
    (functionCode env callee returnType leading params args).result = .ok text ↔
      ∃ codes, (argTextsFor env params args).map (·.result) = codes.map .ok ∧
        text = env.narrowed returnType (applied callee (leading ++ codes)) := by
  have hdrop : args.dropWhile (fun arg => !arg.value.source.needsFormatter) = [] :=
    List.dropWhile_eq_nil_iff.2 fun arg harg => by rw [hplain arg harg]; rfl
  rw [functionCode, hdrop]
  simp only [Lowered.result_bind_eq_ok_iff, Lowered.result_all_eq_ok_iff, Env.result_castResult,
    Except.ok.injEq, @eq_comm _ text]

/-- The block of a call passes the text of the buffer in the place of one argument. -/
theorem formatterBlock_applied (appends callee : String) (leading head : List String)
    (code : String) (tail : List String) :
    formatterBlock appends (callee ++ "(" ++ Text.concat ((leading ++ head).map (· ++ ", ")))
        (Text.concat (tail.map (", " ++ ·)) ++ ")") =
      braced (" " ++ formatterDecl ++ " " ++ appends ++
        applied callee (leading ++ (head ++ code :: tail).set head.length "_fmt.c_str()") ++
          "; ") := by
  have hset : (head ++ code :: tail).set head.length "_fmt.c_str()" =
      head ++ "_fmt.c_str()" :: tail := by simp
  rw [formatterBlock, applied, hset, ← List.append_assoc, Text.join_append_cons]
  simp only [String.append_assoc]

/-- The first argument that needs the formatter turns the call into a block that passes the text of
the buffer in its place. -/
theorem result_functionCode_of_formatted
    (hbefore : ∀ arg ∈ before, arg.value.source.needsFormatter = false)
    (hchain : chain.value.source.needsFormatter = true) :
    (functionCode env callee returnType leading params (before ++ chain :: after)).result =
        .ok text ↔
      ∃ (codes : List String) (appends : String),
        (argTextsFor env params (before ++ chain :: after)).map (·.result) = codes.map .ok ∧
        chain.value.appends.result = .ok appends ∧
        text = braced (" " ++ formatterDecl ++ " " ++ appends ++
          applied callee (leading ++ codes.set before.length "_fmt.c_str()") ++ "; ") := by
  have hnot : ∀ arg ∈ before, (!arg.value.source.needsFormatter) = true :=
    fun arg harg => by rw [hbefore arg harg]; rfl
  have htake : (before ++ chain :: after).takeWhile (!·.value.source.needsFormatter) = before := by
    rw [List.takeWhile_append_of_pos hnot, List.takeWhile_cons_of_neg (by simp [hchain]),
      List.append_nil]
  have hdrop : (before ++ chain :: after).dropWhile (!·.value.source.needsFormatter) =
      chain :: after := by
    rw [List.dropWhile_append_of_pos hnot, List.dropWhile_cons_of_neg (by simp [hchain])]
  rw [functionCode, htake, hdrop]
  simp only [Lowered.result_bind_eq_ok_iff, Lowered.result_all_eq_ok_iff, Lowered.result_pure,
    argTextsFor_append, argTextsFor_cons, List.drop_drop]
  constructor
  · rintro ⟨head, hhead, tail, htail, appends, happends, htext⟩
    obtain ⟨code, hcode⟩ := Arg.exists_textFor happends
    refine ⟨head ++ code :: tail, appends, ?_, happends, ?_⟩
    · rw [List.map_append, List.map_cons, hhead, hcode, htail, List.map_append, List.map_cons]
    · rw [← length_eq_of_argTextsFor hhead, ← formatterBlock_applied]
      exact (Except.ok.inj htext).symm
  · rintro ⟨codes, appends, hcodes, happends, rfl⟩
    obtain ⟨head, code, tail, rfl, hhead, -, htail⟩ := Lowered.exists_value_of_append_cons hcodes
    refine ⟨head, hhead, tail, htail, appends, happends, ?_⟩
    rw [← length_eq_of_argTextsFor hhead, ← formatterBlock_applied]

theorem result_functionCode_of_firstFormatted {args : List (Arg Expr)} {k : Nat} {arg : Arg Expr}
    (h : FirstFormatted args k arg) :
    (functionCode env callee returnType leading params (args.map env.codedArg)).result = .ok text ↔
      ∃ (codes : List String) (appends : String),
        (argTextsFor env params (args.map env.codedArg)).map (·.result) = codes.map .ok ∧
        (env.appendsText arg.value).result = .ok appends ∧
        text = braced (" " ++ formatterDecl ++ " " ++ appends ++
          applied callee (leading ++ codes.set k "_fmt.c_str()") ++ "; ") := by
  obtain ⟨hk, -⟩ := List.getElem?_eq_some_iff.1 h.getElem
  have hargs := congrArg (List.map env.codedArg) h.eq_append
  rw [List.map_append, List.map_cons] at hargs
  have hlength : ((args.take k).map env.codedArg).length = k := by
    rw [List.length_map, List.length_take]
    omega
  rw [hargs, result_functionCode_of_formatted (List.forall_mem_map.2 h.earlier) h.formatted,
    hlength]
  rfl

end

/-! ## Calls that are lowered

What is passed is the receiver, where the function takes it, and then the arguments.  The position
of the buffer among the values passed is therefore shifted by one if there is a receiver. -/

section

variable {env : Env} {call : Call Expr} {receiver method space function text : String}
  {found : ApiMethod} {passes : Bool}

/-- What a call passes: the receiver, if the function takes it, and the arguments. -/
def Env.passed (env : Env) (receiver : String) (passes : Bool) (codes : List String) :
    List String :=
  (if passes then [env.scope.readPath receiver] else []) ++ codes

theorem Env.passed_nil_append (codes : List String) :
    env.passed receiver passes [] ++ codes = env.passed receiver passes codes := by
  rw [passed, passed, List.append_nil]

theorem Env.length_passed (codes : List String) :
    (env.passed receiver passes codes).length = codes.length + passes.toNat := by
  cases passes <;> simp [passed]

theorem Env.set_passed (codes : List String) (k : Nat) (code : String) :
    (env.passed receiver passes codes).set (k + passes.toNat) code =
      env.passed receiver passes (codes.set k code) := by
  cases passes <;> simp [passed]

/-- The arguments of a call, each for the parameter that is left for it, have the texts `codes`. -/
def Env.ArgCodes (env : Env) (call : Call Expr) (callee : Callee) (codes : List String) : Prop :=
  (call.args.mapIdx fun i arg =>
    ((env.codedArg arg).textFor env callee.method.params[i + callee.skipped]?).result) =
      codes.map .ok

theorem Env.argCodes_iff {callee : Callee} {codes : List String} :
    env.ArgCodes call callee codes ↔
      (argTextsFor env callee.params (call.args.map env.codedArg)).map (·.result) =
        codes.map .ok := by
  have htexts : (argTextsFor env callee.params (call.args.map env.codedArg)).map (·.result) =
      call.args.mapIdx fun i arg =>
        ((env.codedArg arg).textFor env callee.method.params[i + callee.skipped]?).result := by
    refine List.ext_getElem? fun i => ?_
    simp [argTextsFor_eq_mapIdx, Callee.params, Function.comp_def, Nat.add_comm]
  rw [ArgCodes, htexts]

/-- A call that goes to a function is lowered if its callbacks are references and the code of the
function can be given. -/
theorem result_exprText_of_function (hsplit : splitReceiver call.name = some (receiver, method))
    (hroute : Route.select env receiver method call.args.length =
      .function found space function passes) :
    (env.exprText (.call call)).result = .ok text ↔
      (∀ param, ¬Callee.TakesByValue ⟨found, passes.toNat⟩ call param) ∧
        (functionCode env ("webcc::" ++ space ++ "::" ++ function) found.returnType
          (env.passed receiver passes []) (Callee.params ⟨found, passes.toNat⟩)
          (call.args.map env.codedArg)).result = .ok text := by
  have hcheck : (checkCallbacks (env.codedCall call) (Callee.params ⟨found, passes.toNat⟩)).result =
      .ok () ↔ ∀ param, ¬Callee.TakesByValue ⟨found, passes.toNat⟩ call param :=
    ⟨fun h _ => Callee.not_takesByValue_of_check h, Callee.check_of_not_takesByValue⟩
  rw [Env.exprText_of_select hsplit, hroute, routeCode, ← hcheck, Lowered.result_bind_eq_ok_iff]
  cases passes with
  | true => exact ⟨fun h => h.elim fun _ hrest => hrest, fun h => ⟨(), h⟩⟩
  | false => exact ⟨fun h => h.elim fun _ hrest => hrest, fun h => ⟨(), h⟩⟩

/-- **Calls of functions pass exactly the declared parameters.**  A call that goes to a function
goes to a method that is mapped to it.  It has a text if and only if its callbacks are given by
reference and each argument has a text; what is passed then has one entry for each parameter of the
method.  If no argument needs the formatter, the text is the call of the function, cast to the
declared type of the result if that is a narrow integer.  Otherwise it is a block that appends the
first such argument to the buffer and passes the text of the buffer in its place. -/
theorem functionCall_passes_params
    (hsplit : splitReceiver call.name = some (receiver, method))
    (hroute : Route.select env receiver method call.args.length =
      .function found space function passes) :
    found.mapping = .function ∧ found.target? = some (space, function) ∧
      ((env.exprText (.call call)).result = .ok text ↔
        (∀ param, ¬Callee.TakesByValue ⟨found, passes.toNat⟩ call param) ∧
          ∃ codes, env.ArgCodes call ⟨found, passes.toNat⟩ codes ∧
            (env.passed receiver passes codes).length = found.params.length ∧
            ((∀ arg ∈ call.args, arg.value.needsFormatter = false) →
              text = env.narrowed found.returnType (applied ("webcc::" ++ space ++ "::" ++ function)
                (env.passed receiver passes codes))) ∧
            ∀ k arg, FirstFormatted call.args k arg →
              ∃ appends, (env.appendsText arg.value).result = .ok appends ∧
                text = braced (" " ++ formatterDecl ++ " " ++ appends ++
                  applied ("webcc::" ++ space ++ "::" ++ function)
                    ((env.passed receiver passes codes).set (k + passes.toNat) "_fmt.c_str()") ++
                      "; ")) := by
  have hselected := Route.selected_select env receiver method call.args.length
  rw [hroute] at hselected
  cases hselected with
  | function _ hmapping htarget hparams =>
  refine ⟨hmapping, htarget, ?_⟩
  have hlength : ∀ {codes}, env.ArgCodes call ⟨found, passes.toNat⟩ codes →
      (env.passed receiver passes codes).length = found.params.length := by
    intro codes hcodes
    rw [Env.length_passed, hparams, length_eq_of_argTextsFor (Env.argCodes_iff.1 hcodes),
      List.length_map]
  rw [result_exprText_of_function hsplit hroute, and_congr_right_iff]
  intro _
  -- Of the two shapes of the text the arguments leave one, and the condition of the other fails.
  rcases plain_or_firstFormatted call.args with hplain | ⟨k, arg, hfirst⟩
  · rw [result_functionCode_of_plain (List.forall_mem_map.2 hplain)]
    simp only [← Env.argCodes_iff, Env.passed_nil_append]
    constructor
    · rintro ⟨codes, hcodes, htext⟩
      exact ⟨codes, hcodes, hlength hcodes, fun _ => htext,
        fun k arg hfirst => absurd hplain hfirst.not_plain⟩
    · rintro ⟨codes, hcodes, -, htext, -⟩
      exact ⟨codes, hcodes, htext hplain⟩
  · rw [result_functionCode_of_firstFormatted hfirst]
    simp only [← Env.argCodes_iff, Env.set_passed, Env.passed_nil_append]
    constructor
    · rintro ⟨codes, appends, hcodes, happends, htext⟩
      refine ⟨codes, hcodes, hlength hcodes, fun hplain => absurd hplain hfirst.not_plain, ?_⟩
      intro k' arg' hfirst'
      obtain ⟨rfl, rfl⟩ := hfirst.unique hfirst'
      exact ⟨appends, happends, htext⟩
    · rintro ⟨codes, hcodes, -, -, hblock⟩
      obtain ⟨appends, happends, htext⟩ := hblock k arg hfirst
      exact ⟨codes, appends, hcodes, happends, htext⟩

end

/-- A method that draws a text on a canvas, at two coordinates. -/
def labelMethod : ApiMethod :=
  { ApiMethod.plain "label" .function "canvas::label" with
    params := [⟨"canvas", "on", false⟩, ⟨"int", "x", false⟩, ⟨"string", "text", false⟩,
      ⟨"int", "y", false⟩]
    returnType := "int" }

/-- Surroundings in which the canvas is the only handle. -/
def canvasEnv : Env where
  scope := Scope.ofComponent "" "App" ∅
  schema := .ofTypes [{ ApiType.plain "canvas" with methods := [labelMethod] }]
  options := .default

/-- A text chain as argument. -/
def chainArg : Arg Expr := ⟨none, .binaryOf (.str "n=") "+" (.ident "n"), false, false⟩

/-- A call of the method on a value of unknown type. -/
def labelCall : Call Expr :=
  ⟨"layer.label", [⟨none, .int 1, false, false⟩, chainArg, ⟨none, .int 2, false, false⟩], 1⟩

/-- The chain is the second of three arguments, and the receiver is passed before them, so the text
of the buffer is the third of the four values that are passed. -/
theorem functionCall_passes_params_label :
    Route.select canvasEnv "layer" "label" 3 = .function labelMethod "canvas" "label" true ∧
      FirstFormatted labelCall.args 1 chainArg ∧
      ∃ text codes appends, (canvasEnv.exprText (.call labelCall)).result = .ok text ∧
        canvasEnv.ArgCodes labelCall ⟨labelMethod, 1⟩ codes ∧
        (canvasEnv.passed "layer" true codes).length = 4 ∧
        (canvasEnv.appendsText chainArg.value).result = .ok appends ∧
        text = braced (" " ++ formatterDecl ++ " " ++ appends ++
          applied "webcc::canvas::label"
            ((canvasEnv.passed "layer" true codes).set 2 "_fmt.c_str()") ++ "; ") := by
  have hroute : Route.select canvasEnv "layer" "label" labelCall.args.length =
      .function labelMethod "canvas" "label" true := by rfl
  have hfirst : FirstFormatted labelCall.args 1 chainArg :=
    ⟨rfl, by decide, List.forall_mem_singleton.2 (by decide)⟩
  have hsplit : splitReceiver labelCall.name = some ("layer", "label") := by decide +kernel
  obtain ⟨text, htext⟩ := Lowered.exists_ok_of_isOk
    (show (canvasEnv.exprText (.call labelCall)).result.isOk = true by decide +kernel)
  obtain ⟨-, codes, hcodes, hlength, -, hblock⟩ :=
    (functionCall_passes_params hsplit hroute).2.2.1 htext
  obtain ⟨appends, happends, hshape⟩ := hblock 1 chainArg hfirst
  exact ⟨hroute, hfirst, text, codes, appends, htext, hcodes, hlength, happends, hshape⟩

end UiLowering
