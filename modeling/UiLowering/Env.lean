import UiLowering.Lowered
import UiLowering.Source.Literal
import UiLowering.Text.Quoted
import UiLowering.TypeName.Resolve

/-!
# The surroundings of an expression

Everything the target text of an expression depends on besides the expression: the scope, the
schema and the options.
-/

set_option autoImplicit false

namespace UiLowering

/-- Choices left to the user. -/
structure Options where
  /-- Mark the point behind a match that some subjects fall through as unreachable. -/
  trapOpenMatch : Bool

/-- The choices made where the user makes none. -/
def Options.default : Options := ⟨false⟩

/-- The surroundings of an expression. -/
structure Env where
  scope : Scope
  schema : Schema
  options : Options

namespace Env

/-- A resolved type as target text, with the notices about it. -/
def ofForm (form : TypeForm) : Lowered String := ⟨form.notices, .ok form.text⟩

/-- The target text of a type. -/
def typeText (env : Env) (name : String) : Lowered String :=
  ofForm (TypeName.resolve env.scope env.schema name)

/-- The target text of an expression in a string literal.  A name or a dotted path is read like
any name; everything else is taken to be target text already. -/
def interpolated (env : Env) (source : String) : String :=
  let trimmed := Text.trim source
  if Text.isNamePath trimmed then env.scope.readPath trimmed else source

/-- The target text of a piece of a string literal. -/
def pieceText (env : Env) : Piece → String
  | .text content => Text.quote (String.ofList content)
  | .hole source => env.interpolated (String.ofList source)

/-- The target texts of the pieces of a string literal. -/
def literalParts (env : Env) (raw : String) : List String :=
  (Literal.pieces raw).map env.pieceText

/-- The target text of a value of an enumeration. -/
def enumText (env : Env) (component : Option String) (enumName valueName : String) :
    Lowered String := do
  let source := match component with
    | some owner => owner ++ "." ++ enumName
    | none => enumName
  let typeText ← env.typeText source
  return typeText ++ "::" ++ valueName

/-- The result of a runtime function, cast to its declared type if that is narrow. -/
def castResult (env : Env) (returnType code : String) : Lowered String := do
  let typeText ← env.typeText returnType
  return match TypeName.narrowingCast? typeText with
    | some cast => "(" ++ cast ++ ")(" ++ code ++ ")"
    | none => code

end Env

/-- A text in braces. -/
def braced (code : String) : String := "\x7b" ++ code ++ "\x7d"

/-- The value of some code, moved out of where it was. -/
def moved (code : String) : String := "webcc::move(" ++ code ++ ")"

end UiLowering
