import UiLowering.Call.Arguments

/-!
# Generators

The code of some methods is written by a generator that the schema names by its key.  An unknown
key, or a number of arguments that a generator cannot handle, gives no code.
-/

set_option autoImplicit false

namespace UiLowering

/-- A text chain or interpolated literal is logged from the formatter's buffer, anything else as
it is. -/
def logCode (arg : Arg Coded) : Lowered String := do
  if arg.value.source.needsFormatter then
    let appends ← arg.value.appends
    return formatterBlock appends "webcc::system::log(" ")"
  else
    let code ← arg.text
    return "webcc::system::log(" ++ code ++ ")"

/-- The code that a generator writes. -/
def intrinsicCode (env : Env) (key : String) (args : List (Arg Coded)) : Lowered String := do
  match key, args with
  | "random", [] => return "webcc::random()"
  | "random", [seed] | "random_seeded", [seed] =>
    let code ← seed.text
    return "(webcc::random_seed(" ++ code ++ "), webcc::random())"
  | "key_down", [arg] =>
    let code ← arg.text
    return "g_key_state[" ++ code ++ "]"
  | "key_up", [arg] =>
    let code ← arg.text
    return "!g_key_state[" ++ code ++ "]"
  | "log", [arg] => logCode arg
  | "request_frame", [arg] =>
    let code ← arg.callbackText env
    return "webcc::system::request_animation_frame(" ++ code ++ ")"
  | _, _ =>
    Lowered.note (.intrinsicUnknown key args.length)
    return ""

end UiLowering
