/-!
# Faults

Two things can go wrong: the input is not a source tree and a schema, or a call hands a callback to
the runtime by value.  Everything else is passed on to the compiler of the target language.  A
fault is reported as a `Diagnostic`.
-/

set_option autoImplicit false

namespace UiLowering

/-- What went wrong. -/
inductive Fault where
  /-- The input is not JSON, or not of the expected shape. -/
  | malformedInput
  /-- The argument for the callback parameter `param` of `call` is not a reference. -/
  | callbackByValue (call param : String) (line : UInt32)

/-- A report for the user. -/
structure Diagnostic where
  code : String
  message : String
  guarantee : String
  line : UInt32
  context : Option String
  hints : List String

namespace Diagnostic

/-- The code of malformed input. -/
def inputCode : String := "C-ERR-INPUT-001"

/-- The code of a callback that is handed over by value. -/
def callbackCode : String := "C-ERR-CALLBACK-001"

/-- What the check behind a code protects. -/
def guaranteeOf (code : String) : String :=
  if code == callbackCode then
    "Callbacks handed to the runtime always refer to a live component method."
  else if code == inputCode then
    "Code generation only runs on a well-formed AST and schema."
  else "Unknown invariant."

/-- The report with the guarantee that belongs to its code. -/
def ofCode (code message : String) (line : UInt32) (context : Option String)
    (hints : List String) : Diagnostic :=
  ⟨code, message, guaranteeOf code, line, context, hints⟩

/-- A report in one line. -/
def display (d : Diagnostic) : String := s!"[{d.code}] {d.message} (line {d.line})"

end Diagnostic

/-- The report on a fault. -/
def Fault.diagnostic : Fault → Diagnostic
  | .malformedInput => .ofCode Diagnostic.inputCode "Malformed input." 0 none []
  | .callbackByValue call param line =>
    .ofCode Diagnostic.callbackCode
      s!"Callback parameter '{param}' of '{call}' must be passed by reference." line (some call)
      [s!"Write '&{param}' at the call site."]

end UiLowering
