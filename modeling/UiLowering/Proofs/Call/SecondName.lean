import UiLowering.Proofs.Alike
import UiLowering.Proofs.Call.Route
import UiLowering.Proofs.Call.Template
import UiLowering.Proofs.Schema.Ancestors

/-!
# Second names of types

A type may have a second name, which the schema links to the first one.  The way of a call on a
type depends on the name only through the type that the name stands for
(`Route.select_of_isStaticReceiver`), so a call on the second name goes the same way as one on the
first.  Its text is the same too, unless a template mentions the receiver as it is written.

A constant of a type is looked for under the name as it is written.  The link from the second name
is not followed: what is found there is what the second name stores itself or has from an ancestor
of its own (`Schema.constantOf?_eq_none_iff`).  `secondName_transparent_iff` puts both together.
-/

set_option autoImplicit false

namespace UiLowering

/-! ## The way of a call on a type

`onType` is the decision of `Route.select` for a receiver that is a type, written as a function of
the type it stands for.  Shortcuts and templates of values are out of the question there, and no
receiver is passed. -/

namespace Route

variable {env : Env} {receiver method owner : String} {argc : Nat}

/-- The function of a method of a type. -/
def functionOf? (schema : Schema) (owner method : String) (argc : Nat) : Option Route :=
  if TypeName.isCollection owner then none
  else do
    let choice ← (schema.methodsNamed owner method).find? fun candidate =>
      candidate.mapping = .function && candidate.params.length == argc
    let target ← choice.target?
    return .function choice target.1 target.2 false

/-- The way of a call on a type, given the type that the receiver stands for. -/
def onType (schema : Schema) (owner method : String) (argc : Nat) : Route :=
  (((schema.methodsNamed owner method).findSome? (staticRoute? argc)).or
    (functionOf? schema owner method argc)).getD .unknownStatic

theorem viaShortcut?_of_isStaticReceiver (h : env.isStaticReceiver receiver = true) :
    viaShortcut? env receiver method argc = none := by
  have hkind : env.scope.kindOf? receiver = none :=
    Option.isNone_iff_eq_none.1 (Bool.and_eq_true_iff.1 h).2
  have htype : env.receiverType? receiver = none := by
    simp [Env.receiverType?, Scope.typeOf?, hkind]
  rw [viaShortcut?, Env.familyOf?, htype]
  rfl

theorem viaFunction?_of_isStaticReceiver (h : env.isStaticReceiver receiver = true)
    (howner : env.schema.resolveAlias receiver = owner) :
    viaFunction? env receiver method argc = functionOf? env.schema owner method argc := by
  have hfound : owner? env receiver = some owner := by rw [owner?, if_pos h, howner]
  rw [viaFunction?, functionOf?, chosen?, candidates, hfound]
  simp only [h, if_true, Option.isSome_some, Option.any_some]
  cases (env.schema.methodsNamed owner method).find? fun candidate =>
      candidate.mapping = .function && candidate.params.length == argc with
  | none => rfl
  | some choice => rfl

/-- The way of a call on a type depends on the receiver only through the type it stands for, the
size of an enumeration aside. -/
theorem select_of_isStaticReceiver (h : env.isStaticReceiver receiver = true)
    (howner : env.schema.resolveAlias receiver = owner)
    (hsize : ¬(method = "size" ∧ argc = 0 ∧ '.' ∈ receiver.toList)) :
    select env receiver method argc = onType env.schema owner method argc := by
  have hstatic : viaStatic? env receiver method argc =
      (env.schema.methodsNamed owner method).findSome? (staticRoute? argc) := by
    rw [viaStatic?, if_pos h, howner]
  have htemplate : viaValueTemplate? env receiver method argc = none := by
    rw [viaValueTemplate?, if_pos h]
  have hplain : ¬(method == "size" && argc == 0 && receiver.toList.contains '.' &&
      Text.startsUpper receiver) = true := by
    simp only [Bool.and_eq_true, beq_iff_eq, List.contains_iff_mem]
    exact fun hall => hsize ⟨hall.1.1.1, hall.1.1.2, hall.1.2⟩
  rw [select, if_neg hplain, viaShortcut?_of_isStaticReceiver h, hstatic, htemplate,
    viaFunction?_of_isStaticReceiver h howner, onType]
  simp only [h, if_true]
  cases (env.schema.methodsNamed owner method).findSome? (staticRoute? argc) with
  | some route => rfl
  | none => cases functionOf? env.schema owner method argc <;> rfl

/-- A call on a type passes no receiver. -/
theorem passes_eq_false_of_onType {schema : Schema} {found : ApiMethod} {space name : String}
    {passes : Bool} (h : onType schema owner method argc = .function found space name passes) :
    passes = false := by
  rw [onType] at h
  cases hstatic : (schema.methodsNamed owner method).findSome? (staticRoute? argc) with
  | some route =>
    rw [hstatic, Option.some_or, Option.getD_some] at h
    subst h
    obtain ⟨candidate, -, hroute⟩ := List.exists_of_findSome?_eq_some hstatic
    rw [staticRoute?] at hroute
    cases hmapping : candidate.mapping <;> simp [hmapping] at hroute
  | none =>
    rw [hstatic, Option.none_or] at h
    cases hfunction : functionOf? schema owner method argc with
    | none =>
      rw [hfunction] at h
      cases h
    | some route =>
      rw [hfunction, Option.getD_some] at h
      obtain ⟨-, hchoice⟩ := Option.ite_none_left_eq_some.1 hfunction
      obtain ⟨choice, -, htarget⟩ := Option.bind_eq_some_iff.1 hchoice
      obtain ⟨target, -, hroute⟩ := Option.bind_eq_some_iff.1 htarget
      cases hroute
      cases h
      rfl

/-- Whether a call goes to a generator, a template or a function that the schema has for a type. -/
def isOfSchema : Route → Bool
  | .intrinsic _ | .staticTemplate _ | .function .. => true
  | .enumSize | .shortcut _ | .valueTemplate _ | .unknownStatic | .unknownMember => false

/-- The text of a call holds the receiver as it is written. -/
def SpellsReceiver (argc : Nat) : Route → Prop
  | .staticTemplate method => Template.MentionsReceiver method.mappingValue argc
  | _ => False

end Route

/-! ## The text of a call on a type

Two calls that go the same way run through the same code with two receivers.  Where the receiver is
only resolved to its type the two texts are equal; where it is copied into the text they differ,
because a template is injective in what it is filled with. -/

section

open Lowered

variable {env : Env} {args : List (Arg Coded)} {line : UInt32}
  {receiver other method first second text : String} {params : List ApiParam}

theorem checkCallbacks_alike_of_args (first second : String) (args : List (Arg Coded))
    (line : UInt32) (params : List ApiParam) :
    (checkCallbacks ⟨first, args, line⟩ params).Alike Eq
      (checkCallbacks ⟨second, args, line⟩ params) := by
  rw [checkCallbacks, checkCallbacks]
  cases refusedCallback? params args with
  | none => exact alike_refl _
  | some param => exact .error rfl rfl

theorem length_eq_of_argTexts {codes : List String} (h : (argTexts args).result = .ok codes) :
    codes.length = args.length := by
  have hlength := congrArg List.length (result_all_eq_ok_iff.1 h)
  rw [List.length_map, List.length_map, List.length_map] at hlength
  exact hlength.symm

theorem argTexts_alike_self (args : List (Arg Coded)) :
    (argTexts args).Alike (fun codes others => codes = others ∧ codes.length = args.length)
      (argTexts args) := by
  cases h : (argTexts args).result with
  | error fault => exact .error h h
  | ok codes => exact .ok h h ⟨rfl, length_eq_of_argTexts h⟩

/-- Two calls on types that go the same way have the same text, unless it holds the receiver. -/
theorem routeCode_alike_of_not_spells {route : Route} (hof : route.isOfSchema = true)
    (hpasses : ∀ found space name passes, route = .function found space name passes →
      passes = false)
    (hspells : ¬route.SpellsReceiver args.length) :
    (routeCode env ⟨first, args, line⟩ receiver method route).Alike Eq
      (routeCode env ⟨second, args, line⟩ other method route) := by
  cases route with
  | intrinsic found =>
    refine (checkCallbacks_alike_of_args first second args line found.params).bind_eq fun _ => ?_
    refine (alike_refl (intrinsicCode env found.mappingValue args)).bind_eq fun code => ?_
    dsimp only
    split
    · exact (alike_note _ _).bind_eq fun _ => alike_refl _
    · exact alike_refl _
  | staticTemplate found =>
    refine (checkCallbacks_alike_of_args first second args line found.params).bind_eq fun _ => ?_
    refine (argTexts_alike_self args).bind fun codes others hcodes => ?_
    obtain ⟨rfl, hlength⟩ := hcodes
    refine alike_pure ?_
    by_cases hne : receiver = other
    · rw [hne]
    · exact (Template.expand_receiver_eq_iff hne).2 (hlength ▸ hspells)
  | function found space name passes =>
    obtain rfl := hpasses found space name passes rfl
    exact (checkCallbacks_alike_of_args first second args line found.params).bind_eq fun _ =>
      alike_refl _
  | enumSize | shortcut _ | valueTemplate _ | unknownStatic | unknownMember => cases hof

/-- A template that mentions the receiver gives different texts for different receivers. -/
theorem result_routeCode_ne_of_spells {route : Route} (hne : receiver ≠ other)
    (hspells : route.SpellsReceiver args.length)
    (htext : (routeCode env ⟨first, args, line⟩ receiver method route).result = .ok text) :
    (routeCode env ⟨second, args, line⟩ other method route).result ≠ .ok text := by
  cases route with
  | staticTemplate found =>
    intro hother
    obtain ⟨-, -, htext⟩ := result_bind_eq_ok_iff.1 htext
    obtain ⟨-, -, hother⟩ := result_bind_eq_ok_iff.1 hother
    obtain ⟨codes, hcodes, hfirst⟩ := result_bind_eq_ok_iff.1 htext
    obtain ⟨codes', hcodes', hsecond⟩ := result_bind_eq_ok_iff.1 hother
    rw [hcodes, Except.ok.injEq] at hcodes'
    subst hcodes'
    have hsame := (Except.ok.inj hfirst).trans (Except.ok.inj hsecond).symm
    exact (Template.expand_receiver_eq_iff hne).1 hsame (length_eq_of_argTexts hcodes ▸ hspells)
  | intrinsic _ | function _ _ _ _ | enumSize | shortcut _ | valueTemplate _ | unknownStatic
  | unknownMember => exact hspells.elim

end

/-! ## Constants of a type

Methods of a type are looked up behind `resolveAlias`, constants are not.  The search for a constant
goes along the ancestors of the name as it is written. -/

namespace Schema

/-- The constant that a type has under a name, of its own or from an ancestor. -/
def constantOf? (schema : Schema) (name field : String) : Option String :=
  ((schema.methodsNamed name field).find? fun method =>
    method.isShared && method.isConstant).map (·.mappingValue)

/-- A constant is looked for in a type and its ancestors; the link of a second name is not among
the links that are followed. -/
theorem constantOf?_eq_none_iff {schema : Schema} {name field : String} :
    schema.constantOf? name field = none ↔
      ∀ n < maxLinks, ∀ key, schema.ancestor? n name = some key →
        ∀ method ∈ schema.methodsOf key, method.name = field →
          ¬(method.isShared = true ∧ method.isConstant = true) := by
  rw [constantOf?, Option.map_eq_none_iff, List.find?_eq_none]
  simp only [Bool.and_eq_true]
  constructor
  · intro h n hn key hkey method hmethod hname
    exact h method (mem_methodsNamed_iff.2 ⟨hname, n, hn, key, hkey, hmethod⟩)
  · intro h method hmethod
    obtain ⟨hname, n, hn, key, hkey, hstored⟩ := mem_methodsNamed_iff.1 hmethod
    exact h n hn key hkey method hstored hname

end Schema

namespace Env

variable {env : Env} {name target field literal : String}

theorem constant?_ident (h : env.isStaticReceiver name = true) (field : String) :
    constant? env (.ident name) field = env.schema.constantOf? name field := by
  rw [constant?, if_pos h, Schema.constantOf?]

/-- A member of a type is its constant, or else it is written as it stands. -/
theorem result_exprText_member (h : env.isStaticReceiver name = true) (field : String) :
    (env.exprText (.member (.ident name) field)).result =
      .ok ((env.schema.constantOf? name field).getD (env.scope.read name ++ "." ++ field)) := by
  have hcode : env.lower (.member (.ident name) field) =
      (memberText env (env.coded (.ident name)) field).plain := by rw [lower]; rfl
  have hconstant : constant? env (env.coded (.ident name)).source field =
      env.schema.constantOf? name field := constant?_ident h field
  rw [exprText_of_lower hcode, memberText, hconstant]
  cases env.schema.constantOf? name field with
  | some literal => rfl
  | none =>
    have hname : (env.coded (.ident name)).value.result = .ok (env.scope.read name) := by
      rw [Coded.value, coded, lower]
      rfl
    rw [Lowered.result_bind_of_ok hname]
    rfl

/-! ## Second names

Both halves are put together for two names of which the first stands for the second.  The two
examples at the end use one schema: under the second name the function is found and the constant is
not. -/

/-- Both names are read as types, and the first one stands for the second. -/
structure SecondName (env : Env) (name target : String) : Prop where
  isStatic : env.isStaticReceiver name = true
  target_isStatic : env.isStaticReceiver target = true
  ne : name ≠ target
  resolves : env.schema.resolveAlias name = target
  settled : env.schema.resolveAlias target = target

theorem ne_empty_of_isStaticReceiver (h : env.isStaticReceiver name = true) : name ≠ "" := by
  rintro rfl
  cases (Bool.and_eq_true_iff.1 h).1

/-- A call on a second name goes the way of the call on the type. -/
theorem SecondName.select_eq (h : env.SecondName name target) {method : String} {argc : Nat}
    (hsize : method = "size" → argc = 0 → '.' ∉ name.toList)
    (hof : (Route.select env target method argc).isOfSchema = true) :
    Route.select env name method argc = Route.select env target method argc ∧
      Route.select env target method argc = Route.onType env.schema target method argc := by
  have hplain : ¬(method = "size" ∧ argc = 0 ∧ '.' ∈ target.toList) := by
    rintro ⟨rfl, rfl, hdot⟩
    have hupper : Text.startsUpper target = true := (Bool.and_eq_true_iff.1 h.target_isStatic).1
    rw [Route.select, if_pos (by simp [hdot, hupper])] at hof
    cases hof
  have hname : ¬(method = "size" ∧ argc = 0 ∧ '.' ∈ name.toList) :=
    fun hall => hsize hall.1 hall.2.1 hall.2.2
  rw [Route.select_of_isStaticReceiver h.isStatic h.resolves hname,
    Route.select_of_isStaticReceiver h.target_isStatic h.settled hplain]
  exact ⟨rfl, rfl⟩

/-- A call on a second name has the text of the call on the type exactly if the text does not hold
the receiver. -/
theorem SecondName.result_call_iff (h : env.SecondName name target) {method text : String}
    {args : List (Arg Expr)} {line : UInt32} (hdot : '.' ∉ method.toList) (hmethod : method ≠ "")
    (hsize : method = "size" → args = [] → '.' ∉ name.toList)
    (hof : (Route.select env target method args.length).isOfSchema = true)
    (htext : (env.exprText (.call ⟨target ++ "." ++ method, args, line⟩)).result = .ok text) :
    (env.exprText (.call ⟨name ++ "." ++ method, args, line⟩)).result = .ok text ↔
      ¬(Route.select env target method args.length).SpellsReceiver args.length := by
  obtain ⟨hroute, honType⟩ :=
    h.select_eq (fun hsized hnone => hsize hsized (List.length_eq_zero_iff.1 hnone)) hof
  have hcode (receiver : String) (hreceiver : receiver ≠ "") :
      env.exprText (.call ⟨receiver ++ "." ++ method, args, line⟩) =
        routeCode env ⟨receiver ++ "." ++ method, args.map env.codedArg, line⟩ receiver method
          (Route.select env receiver method args.length) :=
    exprText_of_select (splitReceiver_eq_some_iff.2 ⟨rfl, hdot, hreceiver, hmethod⟩)
  rw [hcode target (ne_empty_of_isStaticReceiver h.target_isStatic)] at htext
  rw [hcode name (ne_empty_of_isStaticReceiver h.isStatic), hroute]
  have hlength : (args.map env.codedArg).length = args.length := List.length_map ..
  constructor
  · intro hname hspells
    exact result_routeCode_ne_of_spells h.ne (hlength.symm ▸ hspells) hname htext
  · intro hspells
    refine (routeCode_alike_of_not_spells hof ?_ (hlength.symm ▸ hspells)).result_eq_ok_iff.1 htext
    intro found space function passes hfunction
    exact Route.passes_eq_false_of_onType (honType.symm.trans hfunction)

/-- **Second names of types.**  A call on a second name that goes to a generator, a template or a
function of the type has the text of the call on the type exactly if it goes through no template
that mentions the receiver.  A constant of the type is put in place of the member of the second name
exactly if the second name has it too, of its own or from an ancestor of its own. -/
theorem secondName_transparent_iff (h : env.SecondName name target) :
    (∀ method args line text, '.' ∉ method.toList → method ≠ "" →
      (method = "size" → args = [] → '.' ∉ name.toList) →
      (Route.select env target method args.length).isOfSchema = true →
      (env.exprText (.call ⟨target ++ "." ++ method, args, line⟩)).result = .ok text →
      ((env.exprText (.call ⟨name ++ "." ++ method, args, line⟩)).result = .ok text ↔
        ¬(Route.select env target method args.length).SpellsReceiver args.length)) ∧
    (∀ field literal, env.schema.constantOf? target field = some literal →
      (env.exprText (.member (.ident target) field)).result = .ok literal ∧
      ((env.exprText (.member (.ident name) field)).result = .ok literal ↔
        env.schema.constantOf? name field = some literal ∨
        env.schema.constantOf? name field = none ∧
          literal = env.scope.read name ++ "." ++ field)) ∧
    ∀ field, env.schema.constantOf? name field = none ↔
      ∀ n < Schema.maxLinks, ∀ key, env.schema.ancestor? n name = some key →
        ∀ method ∈ env.schema.methodsOf key, method.name = field →
          ¬(method.isShared = true ∧ method.isConstant = true) := by
  refine ⟨fun method args line text => h.result_call_iff, fun field literal hliteral => ?_,
    fun field => Schema.constantOf?_eq_none_iff⟩
  rw [result_exprText_member h.target_isStatic, hliteral, result_exprText_member h.isStatic,
    Except.ok.injEq]
  refine ⟨rfl, ?_⟩
  cases env.schema.constantOf? name field with
  | some found => simp
  | none => simp [eq_comm]

/-- Surroundings in which `Surface` is a second name of the canvas, which has a function and a
constant. -/
def surfaceEnv : Env where
  scope := Scope.ofComponent "" "App" ∅
  schema := .ofTypes
    [{ ApiType.plain "Canvas" with
        methods := [.plain "clear" .function "canvas::clear", .constant "WIDTH" "640"] },
      .synonym "Surface" "Canvas"]
  options := .default

theorem secondName_surface : surfaceEnv.SecondName "Surface" "Canvas" :=
  ⟨rfl, rfl, by decide, rfl, rfl⟩

/-- The function is called under both names. -/
theorem secondName_transparent_clear :
    surfaceEnv.SecondName "Surface" "Canvas" ∧
      (surfaceEnv.exprText (.call ⟨"Canvas" ++ "." ++ "clear", [], 1⟩)).result =
        .ok "webcc::canvas::clear()" ∧
      (surfaceEnv.exprText (.call ⟨"Surface" ++ "." ++ "clear", [], 1⟩)).result =
        .ok "webcc::canvas::clear()" := by
  have htext : (surfaceEnv.exprText (.call ⟨"Canvas" ++ "." ++ "clear", [], 1⟩)).result =
      .ok "webcc::canvas::clear()" := by rfl
  have hcalls := (secondName_transparent_iff secondName_surface).1 "clear" [] 1
    "webcc::canvas::clear()" (by decide) (by decide) (by decide) rfl htext
  exact ⟨secondName_surface, htext, hcalls.2 id⟩

/-- The constant is put in place under the name of the canvas only. -/
theorem constant_unknown_under_secondName :
    surfaceEnv.SecondName "Surface" "Canvas" ∧
      (surfaceEnv.exprText (.member (.ident "Canvas") "WIDTH")).result = .ok "640" ∧
      (surfaceEnv.exprText (.member (.ident "Surface") "WIDTH")).result = .ok "Surface.WIDTH" :=
  ⟨secondName_surface, rfl, rfl⟩

end Env

end UiLowering
