import UiLowering.Call.Emit
import UiLowering.Decimal.Positional
import UiLowering.MatchChain

/-!
# Lowering expressions

`Env.lower` gives the code of an expression.  It goes through the tree once and replaces every part
by its code; how the code of a node follows from the code of its parts is said by functions that do
not recurse, those below and those for calls and matches.
-/

set_option autoImplicit false

namespace UiLowering

/-! ## Nodes over the code of their parts

None of these functions recurses.  They get the parts of a node with their codes and with the
expressions they come from, since a few of them ask what a part is. -/

/-- A text of parts as code. -/
def Lowered.plain (text : Lowered String) : Lowered Code := do
  let text ← text
  return .plain text

/-- The code of an operation.  The operands of a text chain are appended to the buffer, those of
any other operation stand in parentheses. -/
def binaryCode (isChain : Bool) (op : String) (left right : Coded) : Lowered Code :=
  if isChain then do
    let first ← left.appends
    let second ← right.appends
    return .chain (first ++ second)
  else do
    let first ← left.value
    let second ← right.value
    return .plain ("(" ++ first ++ " " ++ op ++ " " ++ second ++ ")")

/-- The constant of the schema that a member of a type stands for. -/
def constant? (env : Env) (object : Expr) (field : String) : Option String :=
  match object with
  | .ident name =>
    if env.isStaticReceiver name then
      ((env.schema.methodsNamed name field).find? fun method =>
        method.isShared && method.isConstant).map (·.mappingValue)
    else none
  | _ => none

/-- A member of an object, or a constant of a type. -/
def memberText (env : Env) (object : Coded) (field : String) : Lowered String :=
  match constant? env object.source field with
  | some literal => pure literal
  | none => do
    let code ← object.value
    return code ++ "." ++ field

/-- An array literal. -/
def arrayText (elements : List Coded) : Lowered String := do
  let codes ← Lowered.all (elements.map Coded.value)
  return braced (Text.join ", " codes)

/-- An array of copies of a value.  Only a count that is written as a number can be expanded. -/
def fillText (value : Coded) (count : Expr) : Lowered String := do
  let code ← value.value
  match count with
  | .int n =>
    if 0 ≤ n.toInt then return braced (Text.join ", " (List.replicate n.toInt.toNat code))
    else
      Lowered.note .fillCountUnknown
      return braced code
  | _ =>
    Lowered.note .fillCountUnknown
    return braced code

/-- The initialisation of a field. -/
def initText (name code : String) : String := "." ++ name ++ " = " ++ code

/-- The initialisation of a field of a record literal. -/
def fieldText (field : FieldInit Coded) : Lowered String := do
  let code ← field.value.value
  return initText field.name code

/-- A record literal. -/
def recordText (env : Env) (typeName : Option String) (fields : List (FieldInit Coded)) :
    Lowered String := do
  let inits ← Lowered.all (fields.map fieldText)
  let typeText ← match typeName with
    | some name => env.typeText name
    | none => pure ""
  return typeText ++ braced (Text.join ", " inits)

/-- An argument of a constructor; a reference is passed as an address. -/
def constructorArg (arg : Arg Coded) : Lowered String := do
  let code ← arg.value.value
  return if arg.byReference then "&" ++ code else code

/-- The construction of a component: by fields if all arguments are named, otherwise by
position. -/
def constructText (env : Env) (component : String) (args : List (Arg Coded)) :
    Lowered String := do
  let typeText ← env.typeText component
  let codes ← Lowered.all (args.map constructorArg)
  if !args.isEmpty && args.all (·.name.isSome) then
    let inits := args.zipWith (fun arg code => initText (arg.name.getD "") code) codes
    return typeText ++ braced (Text.join ", " inits)
  else return applied typeText codes

/-- A match. -/
def matchText (env : Env) (choice : Match Coded) : Lowered String := do
  let chain ← matchChain env choice
  return chain.render env.options.trapOpenMatch

/-! ## The tree

One function for each kind of list of parts.  Notices are left in the order in which the parts are
lowered. -/

namespace Env

mutual

/-- The code of an expression. -/
def lower (env : Env) : Expr → Lowered Code
  | .int value => pure (.plain (toString value.toInt))
  | .float value => pure (.plain (floatText value))
  | .bool value => pure (.plain (if value then "true" else "false"))
  | .str raw => pure (.literal raw (env.literalParts raw))
  | .ident name => pure (.plain (env.scope.read name))
  | .binary left op right chain =>
    binaryCode chain op ⟨left, env.lower left⟩ ⟨right, env.lower right⟩
  | .unary op operand => do
    let code ← env.lower operand
    return .plain (op ++ code.value)
  | .trailing op operand => do
    let code ← env.lower operand
    return .plain (code.value ++ op)
  | .conditional condition thenValue elseValue => do
    let test ← env.lower condition
    let first ← env.lower thenValue
    let second ← env.lower elseValue
    return .plain ("(" ++ test.value ++ " ? " ++ first.value ++ " : " ++ second.value ++ ")")
  | .call ⟨name, args, line⟩ => (callCode env ⟨name, env.lowerArgs args, line⟩).plain
  | .member object field => (memberText env ⟨object, env.lower object⟩ field).plain
  | .index base position => do
    let array ← env.lower base
    let index ← env.lower position
    return .plain (array.value ++ "[" ++ index.value ++ "]")
  | .array ⟨elements, _⟩ => (arrayText (env.lowerList elements)).plain
  | .fill value count => (fillText ⟨value, env.lower value⟩ count).plain
  | .record ⟨typeName, fields⟩ => (recordText env typeName (env.lowerFields fields)).plain
  | .enumValue ref => (env.enumText ref.component ref.enumName ref.valueName).plain
  | .construct component args => (constructText env component (env.lowerArgs args)).plain
  | .select ⟨subject, arms, otherwise, line⟩ =>
    (matchText env ⟨⟨subject, env.lower subject⟩, env.lowerArms arms, env.lowerOption otherwise,
      line⟩).plain
  | .reference operand => do
    let code ← env.lower operand
    return .plain code.value
  | .move operand => do
    let code ← env.lower operand
    return .plain (moved code.value)

/-- The code of several expressions. -/
def lowerList (env : Env) : List Expr → List Coded
  | [] => []
  | e :: es => ⟨e, env.lower e⟩ :: env.lowerList es

/-- The code of an expression that may be missing. -/
def lowerOption (env : Env) : Option Expr → Option Coded
  | none => none
  | some e => some ⟨e, env.lower e⟩

/-- The code of the arguments of a call. -/
def lowerArgs (env : Env) : List (Arg Expr) → List (Arg Coded)
  | [] => []
  | ⟨name, value, byReference, byMove⟩ :: args =>
    ⟨name, ⟨value, env.lower value⟩, byReference, byMove⟩ :: env.lowerArgs args

/-- The code of the fields of a record literal. -/
def lowerFields (env : Env) : List (FieldInit Expr) → List (FieldInit Coded)
  | [] => []
  | ⟨name, value⟩ :: fields => ⟨name, ⟨value, env.lower value⟩⟩ :: env.lowerFields fields

/-- The code of a pattern. -/
def lowerPattern (env : Env) : Pattern Expr → Pattern Coded
  | .literal value => .literal ⟨value, env.lower value⟩
  | .enumValue ref => .enumValue ref
  | .record typeName fields => .record typeName (env.lowerFieldPatterns fields)

/-- The code of the fields of a record pattern. -/
def lowerFieldPatterns (env : Env) : List (FieldPattern Expr) → List (FieldPattern Coded)
  | [] => []
  | ⟨name, value⟩ :: fields => ⟨name, env.lowerOption value⟩ :: env.lowerFieldPatterns fields

/-- The code of the arms of a match. -/
def lowerArms (env : Env) : List (Arm Expr) → List (Arm Coded)
  | [] => []
  | ⟨pattern, body⟩ :: arms =>
    ⟨env.lowerPattern pattern, ⟨body, env.lower body⟩⟩ :: env.lowerArms arms

end

/-- An expression with its code. -/
def coded (env : Env) (e : Expr) : Coded := ⟨e, env.lower e⟩

/-- The text that stands for the value of an expression. -/
def exprText (env : Env) (e : Expr) : Lowered String := (env.coded e).value

/-- The statements that append the value of an expression to the formatter's buffer. -/
def appendsText (env : Env) (e : Expr) : Lowered String := (env.coded e).appends

/-- An argument with its code. -/
def codedArg (env : Env) (arg : Arg Expr) : Arg Coded :=
  ⟨arg.name, env.coded arg.value, arg.byReference, arg.byMove⟩

/-- The chain of a match. -/
def chainOf (env : Env) (choice : Match Expr) : Lowered MatchChain :=
  matchChain env
    ⟨env.coded choice.subject, env.lowerArms choice.arms, env.lowerOption choice.otherwise,
      choice.line⟩

/-- The text of an array literal. -/
def arrayLitText (env : Env) (literal : ArrayLit Expr) : Lowered String :=
  arrayText (env.lowerList literal.elements)

end Env

end UiLowering
