import UiLowering.Component.Lower
import UiLowering.Json.Parser
import UiLowering.Wire.Component
import UiLowering.Wire.Schema

/-!
# Lowering from JSON text

A component, a schema and options, each given as JSON text, are lowered to the JSON of the output.
-/

set_option autoImplicit false

namespace UiLowering

/-- A value that was read, or the fault of malformed input. -/
def Lowered.ofRead {α : Type} : Option α → Lowered α
  | some value => pure value
  | none => .fail .malformedInput

/-- Reads a value from JSON text. -/
def readText {α : Type} (read : Json → Option α) (text : String) : Lowered α :=
  .ofRead ((Json.parse text).bind read)

/-- Lowers a component by itself. -/
def Component.lowerText (component schema : String) (options : Option String) :
    Lowered Json := do
  let component ← readText Component.ofJson? component
  let schema ← readText Schema.ofJson? schema
  let options ← match options with
    | some text => readText Options.ofJson? text
    | none => pure Options.default
  let output ← component.lower schema (globalTypes [component]) options
  return output.toJson

end UiLowering
