import UiLowering.Env
import UiLowering.Source.Expr

/-!
# Code of an expression

A text chain is put together by the formatter of the runtime: each operand is appended to a buffer,
whose contents are the value.  What the operands of an expression contribute to the buffer is
therefore part of its code, beside the text that stands for its value.

Where a value is expected the buffer is filled inside a function that is called on the spot
(`Code.value`).  Where the value is an argument of a runtime function the call is made inside the
scope of the buffer (`formatterBlock`), and no text is copied.
-/

set_option autoImplicit false

namespace UiLowering

/-- The declaration of the buffer. -/
def formatterDecl : String := "webcc::formatter<512> _fmt;"

/-- Appends a value to the buffer. -/
def appendCode (code : String) : String := "_fmt << (" ++ code ++ "); "

/-- The value of the buffer after the appends. -/
def formatterValue (appends : String) : String :=
  "([&]() " ++
    braced (" " ++ formatterDecl ++ " " ++ appends ++
      "return webcc::string(_fmt.c_str()); ") ++ "())"

/-- A statement that fills the buffer and uses its text between `before` and `after`. -/
def formatterBlock (appends before after : String) : String :=
  braced (" " ++ formatterDecl ++ " " ++ appends ++ before ++ "_fmt.c_str()" ++ after ++ "; ")

/-- The code of an expression. -/
inductive Code where
  /-- The text of a value. -/
  | plain (text : String)
  /-- A string literal, with the target texts of its pieces. -/
  | literal (raw : String) (parts : List String)
  /-- A text chain, with the appends of all its operands. -/
  | chain (appends : String)

namespace Code

/-- The text that stands for the value. -/
def value : Code → String
  | .plain text => text
  | .literal raw parts =>
    if Literal.hasHole raw then "webcc::string::concat(" ++ Text.join ", " parts ++ ")"
    else Text.quote (Literal.plainText raw)
  | .chain appends => formatterValue appends

/-- The statements that append the value to the buffer. -/
def appends : Code → String
  | .plain text => appendCode text
  | .literal _ parts => Text.concat (parts.map appendCode)
  | .chain appends => appends

end Code

/-- A part of an expression, with its code. -/
structure Coded where
  source : Expr
  code : Lowered Code

namespace Coded

/-- The text that stands for the value of a part. -/
def value (part : Coded) : Lowered String := do
  let code ← part.code
  return code.value

/-- The statements that append the value of a part to the buffer. -/
def appends (part : Coded) : Lowered String := do
  let code ← part.code
  return code.appends

end Coded

end UiLowering
