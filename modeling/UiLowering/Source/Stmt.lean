import UiLowering.Source.Expr

/-!
# Statements

The statements of the component language, and the list of all statements inside one.
-/

set_option autoImplicit false

namespace UiLowering

/-- The declaration of a variable, in a method or as state of a component. -/
structure VarDecl where
  typeName : String
  name : String
  initializer : Option Expr
  isMutable : Bool
  isReference : Bool
  isMove : Bool
  isPublic : Bool

/-- A declaration without modifiers. -/
def VarDecl.plain (typeName name : String) (initializer : Option Expr) : VarDecl :=
  ⟨typeName, name, initializer, false, false, false, false⟩

/-- An assignment to a variable. -/
structure Assignment where
  name : String
  value : Expr
  targetType : Option String
  isMove : Bool

/-- An assignment to an element of an array, by an operator if there is one. -/
structure IndexAssignment where
  array : Expr
  position : Expr
  value : Expr
  compoundOp : Option String
  isMove : Bool

/-- An assignment to a member of an object, by an operator if there is one. -/
structure MemberAssignment where
  object : Expr
  field : String
  value : Expr
  compoundOp : Option String
  isMove : Bool

/-- A statement. -/
inductive Stmt where
  | declare (decl : VarDecl)
  | assign (assignment : Assignment)
  | assignIndex (assignment : IndexAssignment)
  | assignMember (assignment : MemberAssignment)
  | ret (value : Option Expr)
  | evaluate (expression : Expr)
  | block (body : List Stmt)
  | branch (condition : Expr) (thenBranch : Stmt) (elseBranch : Option Stmt)
  | forRange (counter : String) (first limit : Expr) (body : Stmt)
  | forEach (item : String) (items : Expr) (body : Stmt)

namespace Stmt

mutual

/-- The statement and all statements inside it, each before its parts. -/
def nodes : Stmt → List Stmt
  | .declare decl => [.declare decl]
  | .assign assignment => [.assign assignment]
  | .assignIndex assignment => [.assignIndex assignment]
  | .assignMember assignment => [.assignMember assignment]
  | .ret value => [.ret value]
  | .evaluate expression => [.evaluate expression]
  | .block body => .block body :: listNodes body
  | .branch condition thenBranch elseBranch =>
    .branch condition thenBranch elseBranch :: (thenBranch.nodes ++ optionNodes elseBranch)
  | .forRange counter first limit body => .forRange counter first limit body :: body.nodes
  | .forEach item items body => .forEach item items body :: body.nodes

/-- The statements of a body and all statements inside them. -/
def listNodes : List Stmt → List Stmt
  | [] => []
  | stmt :: body => stmt.nodes ++ listNodes body

/-- The nodes of a statement that may be missing. -/
def optionNodes : Option Stmt → List Stmt
  | none => []
  | some stmt => stmt.nodes

end

/-- The expressions a statement holds itself, without those of the statements inside it. -/
def expressions : Stmt → List Expr
  | .declare decl => decl.initializer.toList
  | .assign assignment => [assignment.value]
  | .assignIndex assignment => [assignment.array, assignment.position, assignment.value]
  | .assignMember assignment => [assignment.object, assignment.value]
  | .ret value => value.toList
  | .evaluate expression => [expression]
  | .block _ => []
  | .branch condition _ _ => [condition]
  | .forRange _ first limit _ => [first, limit]
  | .forEach _ items _ => [items]

end Stmt

end UiLowering
