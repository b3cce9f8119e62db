import UiLowering.Lower.Expr
import UiLowering.Source.ElementType
import UiLowering.Source.Stmt
import UiLowering.Text.Paren
import UiLowering.View.Render

/-!
# Lowering statements

Each statement ends in a line end.  A write to a bound collection is lowered to its plan.
-/

set_option autoImplicit false

namespace UiLowering

/-- The code of a value, moved out of where it was if the statement says so. -/
def movedIf (isMove : Bool) (code : String) : String := if isMove then moved code else code

/-- The operator of a compound assignment: `+=` and `+` both name `+`. -/
def compoundOperator (op : String) : String :=
  match Text.dropEnd? "=" op with
  | some base => if base == "" then op else base
  | none => op

namespace Env

/-! ## Declarations

What is declared depends on the initializer: an array literal fixes the length of a constant array,
and an array of copies may have to be filled by a statement of its own. -/

/-- The declaration of an array of copies of a value.  A count that is written as a number is part
of the type; any other count is filled in when the program runs. -/
def fillDeclText (env : Env) (decl : VarDecl) (value count : Expr) : Lowered String := do
  let element ← match TypeName.elementForm? env.scope env.schema decl.typeName with
    | some form => ofForm form
    | none => env.typeText decl.typeName
  let valueCode ← env.exprText value
  match count with
  | .int n =>
    let size := n.toInt.toNat
    return (if decl.isMutable then "" else "const ") ++ "webcc::array<" ++ element ++ ", " ++
      toString size ++ "> " ++ decl.name ++ " = " ++
      braced (Text.join ", " (List.replicate size valueCode)) ++ ";"
  | _ =>
    let countCode ← env.exprText count
    return "webcc::array<" ++ element ++ ", " ++ countCode ++ "> " ++ decl.name ++ "; " ++
      decl.name ++ ".fill(" ++ valueCode ++ ");"

/-- The mark of a reference. -/
def referenceMark (isReference : Bool) : String := if isReference then "&" else ""

/-- The declaration of an array by its elements, whose type is `element`.  An array that does not
change has a fixed size. -/
def arrayDeclText (env : Env) (decl : VarDecl) (element : String) (literal : ArrayLit Expr) :
    Lowered String := do
  let elementText ← env.typeText element
  let code ← env.arrayLitText (literal.withElementType element)
  let typeText := if decl.isMutable then "webcc::vector<" ++ elementText ++ ">"
    else "const webcc::array<" ++ elementText ++ ", " ++ toString literal.elements.length ++ ">"
  return typeText ++ referenceMark decl.isReference ++ " " ++ decl.name ++ " = " ++ code ++ ";"

/-- Any other declaration.  What does not change is constant, a component excepted; a handle is
initialised in braces. -/
def plainDeclText (env : Env) (decl : VarDecl) : Lowered String := do
  let canonical := env.schema.resolveAlias (Text.trim decl.typeName)
  let isHandle := env.schema.isHandle canonical
  let isComponent := Text.startsUpper canonical && !TypeName.isCollection canonical && !isHandle
  let typeText ← env.typeText decl.typeName
  let head := (if decl.isMutable || isComponent then "" else "const ") ++ typeText ++
    referenceMark decl.isReference ++ " " ++ decl.name
  match decl.initializer with
  | some value =>
    let code ← env.exprText value
    let code := movedIf decl.isMove code
    return head ++ (if isHandle then braced code else " = " ++ code) ++ ";"
  | none => return head ++ ";"

/-- A declaration, without a line end. -/
def declText (env : Env) (decl : VarDecl) : Lowered String :=
  match decl.initializer with
  | some (.fill value count) => env.fillDeclText decl value count
  | some (.array literal) =>
    match Text.dropEnd? "[]" (Text.trim decl.typeName) with
    | some element => env.arrayDeclText decl element literal
    | none => env.plainDeclText decl
  | _ => env.plainDeclText decl

/-! ## Assignments

The three kinds of targets differ in what they do on a bound collection: assigning the whole of it
or one of its elements is lowered to a plan, and assigning a member is not. -/

/-- A value that is assigned to a variable of the given type.  A handle is made anew from the number
behind it. -/
def assignedText (env : Env) (targetType : Option String) (code : String) : Lowered String :=
  match targetType with
  | some typeName =>
    if env.schema.isHandle (env.schema.resolveAlias typeName) then do
      let typeText ← env.typeText typeName
      return typeText ++ "((int32_t)" ++ code ++ ")"
    else pure code
  | none => pure code

/-- An assignment to a variable. -/
def assignmentText (env : Env) (loops : LoopTable) (a : Assignment) : Lowered String := do
  let target := env.scope.read a.name
  let code ← env.exprText a.value
  let value ← env.assignedText a.targetType (movedIf a.isMove code)
  match loops[a.name]? with
  | some info =>
    if info.byReference then
      return (info.reassignPlan value).render info target
    else return assignText target value none
  | none => return assignText target value none

/-- The bound collection that an expression names. -/
def boundTo? (loops : LoopTable) : Expr → Option BoundCollection
  | .ident name => loops[name]?
  | _ => none

/-- An assignment to an element. -/
def indexAssignmentText (env : Env) (loops : LoopTable) (a : IndexAssignment) :
    Lowered String := do
  let target ← env.exprText a.array
  let index ← env.exprText a.position
  let code ← env.exprText a.value
  let value := movedIf a.isMove code
  let op := a.compoundOp.map compoundOperator
  match boundTo? loops a.array with
  | some info => return (BoundCollection.indexWritePlan index value op).render info target
  | none => return assignText (target ++ "[" ++ index ++ "]") value op

/-- An assignment to a member. -/
def memberAssignmentText (env : Env) (a : MemberAssignment) : Lowered String := do
  let object ← env.exprText a.object
  let code ← env.exprText a.value
  return assignText (object ++ "." ++ a.field) (movedIf a.isMove code)
    (a.compoundOp.map compoundOperator)

/-! ## Expressions as statements

A call of one of three methods on a bound collection is lowered to a plan.  It is recognised by the
receiver as it is written. -/

/-- The plan of a call that changes a bound collection, and the code that names the collection. -/
def collectionCall? (env : Env) (loops : LoopTable) (call : Call Expr) :
    Option (Lowered String) := do
  let (receiver, method) ← splitReceiver call.name
  let info ← loops[receiver]?
  let storage := env.scope.read receiver
  match method, call.args with
  | "push", [item] => some do
    let code ← (env.codedArg item).text
    return (BoundCollection.appendPlan code).render info storage
  | "pop", [] => some (pure (info.removeLastPlan.render info storage))
  | "clear", [] => some (pure (info.clearPlan.render info storage))
  | _, _ => none

/-- An expression as a statement.  A formatter block is a statement already. -/
def plainStatementText (env : Env) (e : Expr) : Lowered String := do
  let code ← env.exprText e
  return if Text.startsWith "\x7b webcc::formatter" code then code ++ "\n" else code ++ ";\n"

/-- An expression as a statement. -/
def expressionText (env : Env) (loops : LoopTable) (e : Expr) : Lowered String :=
  match e with
  | .call call =>
    match env.collectionCall? loops call with
    | some text => text
    | none => env.plainStatementText e
  | _ => env.plainStatementText e

/-! ## The tree

The statements of a branch and of a loop are written without braces, unless they are blocks in the
source. -/

mutual

/-- A statement in target text. -/
def stmtText (env : Env) (loops : LoopTable) : Stmt → Lowered String
  | .declare decl => do
    let code ← env.declText decl
    return code ++ "\n"
  | .assign a => env.assignmentText loops a
  | .assignIndex a => env.indexAssignmentText loops a
  | .assignMember a => env.memberAssignmentText a
  | .ret (some value) => do
    let code ← env.exprText value
    return "return " ++ code ++ ";\n"
  | .ret none => pure "return;\n"
  | .evaluate e => env.expressionText loops e
  | .block body => do
    let code ← env.bodyText loops body
    return "\x7b\n" ++ code ++ "\x7d\n"
  | .branch condition thenBranch elseBranch => do
    let test ← env.exprText condition
    let first ← env.stmtText loops thenBranch
    env.elseText loops ("if (" ++ Text.stripParens test ++ ") " ++ first) elseBranch
  | .forRange counter first limit body => do
    let start ← env.exprText first
    let stop ← env.exprText limit
    let code ← env.stmtText loops body
    return "for (int " ++ counter ++ " = " ++ start ++ "; " ++ counter ++ " < " ++ stop ++ "; " ++
      counter ++ "++) " ++ code
  | .forEach item items body => do
    let collection ← env.exprText items
    let code ← env.stmtText loops body
    return "for (auto& " ++ item ++ " : " ++ collection ++ ") " ++ code

/-- The statements of a body in target text. -/
def bodyText (env : Env) (loops : LoopTable) : List Stmt → Lowered String
  | [] => pure ""
  | stmt :: body => do
    let first ← env.stmtText loops stmt
    let rest ← env.bodyText loops body
    return first ++ rest

/-- A conditional statement with the branch for the other case, if there is one, on the line on
which the first branch ends. -/
def elseText (env : Env) (loops : LoopTable) (code : String) : Option Stmt → Lowered String
  | none => pure code
  | some elseBranch => do
    let other ← env.stmtText loops elseBranch
    return Text.trimEnd code ++ " else " ++ other

end

end Env

end UiLowering
