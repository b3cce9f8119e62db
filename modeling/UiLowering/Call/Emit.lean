import UiLowering.Call.Intrinsic
import UiLowering.Call.Route
import UiLowering.Call.Template

/-!
# The code of a call

Given the code of the arguments, the code of a call follows from the way it goes.
-/

set_option autoImplicit false

namespace UiLowering

/-- A call in target text. -/
def applied (callee : String) (args : List String) : String :=
  callee ++ "(" ++ Text.join ", " args ++ ")"

/-- A call of a runtime function, `leading` being the texts of arguments that come before those of
the call.  The first argument that needs the formatter turns the call into a statement that uses
the buffer in its place. -/
def functionCode (env : Env) (callee returnType : String) (leading : List String)
    (params : List ApiParam) (args : List (Arg Coded)) : Lowered String := do
  let before := args.takeWhile fun arg => !arg.value.source.needsFormatter
  match args.dropWhile fun arg => !arg.value.source.needsFormatter with
  | [] =>
    let codes ← Lowered.all (argTextsFor env params args)
    env.castResult returnType (applied callee (leading ++ codes))
  | chain :: after =>
    let head ← Lowered.all (argTextsFor env params before)
    let tail ← Lowered.all (argTextsFor env (params.drop (before.length + 1)) after)
    let appends ← chain.value.appends
    return formatterBlock appends
      (callee ++ "(" ++ Text.concat ((leading ++ head).map (· ++ ", ")))
      (Text.concat (tail.map (", " ++ ·)) ++ ")")

/-- A call with a receiver, by the way it goes. -/
def routeCode (env : Env) (call : Call Coded) (receiver method : String) :
    Route → Lowered String
  | .enumSize => do
    let typeText ← env.typeText receiver
    return "static_cast<int32_t>(" ++ typeText ++ "::_COUNT)"
  | .shortcut shortcut => do
    let codes ← argTexts call.args
    return Template.expand shortcut.template (env.scope.readPath receiver) codes
  | .intrinsic found => do
    checkCallbacks call found.params
    let code ← intrinsicCode env found.mappingValue call.args
    if code == "" then Lowered.note (.intrinsicEmpty found.mappingValue call.name)
    return code
  | .staticTemplate found => do
    checkCallbacks call found.params
    let codes ← argTexts call.args
    return Template.expand found.mappingValue receiver codes
  | .valueTemplate found => do
    checkCallbacks call found.params
    let codes ← argTexts call.args
    return Template.expand found.mappingValue (env.scope.readPath receiver) codes
  | .function found space function passesReceiver => do
    let params := if passesReceiver then found.params.drop 1 else found.params
    checkCallbacks call params
    let leading := if passesReceiver then [env.scope.readPath receiver] else []
    functionCode env ("webcc::" ++ space ++ "::" ++ function) found.returnType leading params
      call.args
  | .unknownStatic => do
    Lowered.note (.methodUnknown call.name)
    let codes ← argTexts call.args
    let typeText ← env.typeText receiver
    return applied (typeText ++ "::" ++ method) codes
  | .unknownMember => do
    Lowered.note (.methodUnknown call.name)
    let codes ← argTexts call.args
    return applied (env.scope.readPath receiver ++ "." ++ method) codes

/-- The function of the runtime that a call without receiver names.  Methods of the component hide
functions of the same name. -/
def globalFunction? (env : Env) (call : Call Coded) : Option Schema.Function :=
  if Text.startsUpper call.name || (env.scope.arityOf? call.name).isSome then none
  else env.schema.lookupFunction call.name (some call.args.length)

/-- A call of a function of the runtime by its name. -/
def globalCode (env : Env) (call : Call Coded) (found : Schema.Function) : Lowered String := do
  Lowered.note (.functionFound call.name found.space found.function found.typeName)
  checkCallbacks call found.method.params
  let codes ← Lowered.all (argTextsFor env found.method.params call.args)
  env.castResult found.method.returnType
    (applied ("webcc::" ++ found.space ++ "::" ++ found.function) codes)

/-- A call without receiver.  A name written like a type is one. -/
def plainCode (env : Env) (call : Call Coded) : Lowered String :=
  match globalFunction? env call with
  | some found => globalCode env call found
  | none => do
    let name ← if Text.startsUpper call.name then env.typeText call.name else pure call.name
    let codes ← argTexts call.args
    return applied name codes

/-- The code of a call. -/
def callCode (env : Env) (call : Call Coded) : Lowered String :=
  match splitReceiver call.name with
  | some (receiver, method) =>
    routeCode env call receiver method (Route.select env receiver method call.args.length)
  | none => plainCode env call

end UiLowering
