import UiLowering.Call.Shortcut
import UiLowering.Schema.Lookup
import UiLowering.Source.Definition
import UiLowering.Text.Name
import UiLowering.View.Collection

/-!
# What a body writes

The variables that a body may change.  They decide which parts of a view are brought up to date
after a method has run, so the answer is rather too large than too small, with one exception: a
write to an element of a bound collection only moves what is rendered already, and does not count.
-/

set_option autoImplicit false

namespace UiLowering

/-- Whether a method changes the collection it is called on.  A schema that describes the method
says so by its lack of a result; otherwise the shortcuts decide. -/
def mutatesCollection (schema : Schema) (method : String) (argc : Nat) : Bool :=
  match schema.lookupMethod Family.collection.typeName method (some argc) with
  | some found => found.returnType == "void"
  | none => (Shortcut.find? .collection method argc).any (·.mutates)

namespace Expr

/-- The variable that an expression writes when it stands as a statement. -/
def written? (schema : Schema) : Expr → Option String
  | .unary op operand => if op == "++" || op == "--" then operand.root? else none
  | .trailing op operand => if op == "++" || op == "--" then operand.root? else none
  | .call c =>
    (splitReceiver c.name).bind fun (receiver, method) =>
      if mutatesCollection schema method c.args.length then some (Text.rootOf receiver) else none
  | _ => none

/-- Whether an expression is the name of a bound collection. -/
def isBound (loops : LoopTable) : Expr → Bool
  | .ident name => loops.contains name
  | _ => false

end Expr

namespace Stmt

/-- The variable that a statement writes itself, apart from the statements inside it. -/
def written? (schema : Schema) (loops : LoopTable) : Stmt → Option String
  | .assign a => some a.name
  | .assignIndex a => if a.array.isBound loops then none else a.array.root?
  | .assignMember a => a.object.root?
  | .evaluate e => e.written? schema
  | _ => none

/-- The variables that a body may change. -/
def bodyWrites (schema : Schema) (loops : LoopTable) (body : List Stmt) : NameSet :=
  NameSet.ofNames ((listNodes body).filterMap (written? schema loops))

end Stmt

/-- The variables that a method may change. -/
def Method.writes (schema : Schema) (loops : LoopTable) (method : Method) : NameSet :=
  Stmt.bodyWrites schema loops method.body

end UiLowering
