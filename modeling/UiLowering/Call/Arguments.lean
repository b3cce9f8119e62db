import UiLowering.Code

/-!
# Arguments of a call

Arguments are lowered from left to right.  An argument for a callback parameter has to be given by
reference, and all of them are checked before the first one is lowered.
-/

set_option autoImplicit false

namespace UiLowering

namespace Arg

/-- The text of an argument. -/
def text (arg : Arg Coded) : Lowered String := do
  let code ← arg.value.value
  return if arg.byMove then moved code else code

/-- A function that passes its `arity` arguments on to a method of the component. -/
def forwarder (method : String) (arity : Nat) : String :=
  let names := (List.range arity).map fun i => "_a" ++ toString i
  "[this](" ++ Text.join ", " (names.map ("auto " ++ ·)) ++ ") " ++
    braced (" " ++ method ++ "(" ++ Text.join ", " names ++ "); ")

/-- The text of an argument for a callback parameter.  The name of a method of the component stands
for a function that passes its arguments on to it. -/
def callbackText (env : Env) (arg : Arg Coded) : Lowered String :=
  match arg.value.source with
  | .ident name =>
    match env.scope.arityOf? name with
    | some arity => pure (forwarder name arity)
    | none => arg.value.value
  | _ => arg.value.value

/-- The text of an argument for a parameter. -/
def textFor (env : Env) (param : Option ApiParam) (arg : Arg Coded) : Lowered String :=
  if param.any (·.isCallback) then arg.callbackText env else arg.text

end Arg

/-- The texts of the arguments. -/
def argTexts (args : List (Arg Coded)) : Lowered (List String) := Lowered.all (args.map Arg.text)

/-- The texts of the arguments for the parameters they stand for. -/
def argTextsFor (env : Env) : List ApiParam → List (Arg Coded) → List (Lowered String)
  | _, [] => []
  | [], arg :: args => arg.text :: argTextsFor env [] args
  | param :: params, arg :: args =>
    arg.textFor env (some param) :: argTextsFor env params args

/-- The first callback parameter whose argument is not a reference. -/
def refusedCallback? (params : List ApiParam) (args : List (Arg Coded)) : Option ApiParam :=
  (args.zip params).findSome? fun (arg, param) =>
    if param.isCallback && !arg.byReference then some param else none

/-- Refuses a call that gives a callback by value. -/
def checkCallbacks (call : Call Coded) (params : List ApiParam) : Lowered Unit :=
  match refusedCallback? params call.args with
  | some param => .fail (.callbackByValue call.name param.name call.line)
  | none => pure ()

end UiLowering
