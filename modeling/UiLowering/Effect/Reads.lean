import UiLowering.Names
import UiLowering.Source.Nodes
import UiLowering.Source.Stmt
import UiLowering.Text.Name

/-!
# What an expression reads

The names an expression or a body may read.  The answer is rather too large than too small: every
identifier in an interpolated string counts, and so does the receiver of every call.
-/

set_option autoImplicit false

namespace UiLowering

/-- Pairs are ordered by object and then by member. -/
def compareMembers : String × String → String × String → Ordering :=
  compareLex (compareOn Prod.fst) (compareOn Prod.snd)

instance : Std.TransCmp compareMembers :=
  inferInstanceAs (Std.TransCmp (compareLex (compareOn Prod.fst) (compareOn Prod.snd)))

/-- A finite set of pairs of an object and its member. -/
abbrev MemberSet := Std.ExtTreeSet (String × String) compareMembers

namespace Expr

/-- The sources of the expressions in a string literal. -/
def holes (raw : String) : List String :=
  ((Literal.pieces raw).filter Piece.isHole).map Piece.content

/-- The names that a node reads itself, apart from its parts. -/
def ownNames : Expr → List String
  | .ident name => [name]
  | .str raw => (holes raw).flatMap Text.identifiers
  | .call c => ((splitReceiver c.name).map fun (receiver, _) => Text.rootOf receiver).toList
  | _ => []

/-- The members that a node reads itself, apart from its parts. -/
def ownMembers : Expr → List (String × String)
  | .member (.ident object) field => [(object, field)]
  | .str raw => (holes raw).flatMap Text.memberPairs
  | _ => []

/-- The names that an expression may read. -/
def names (e : Expr) : NameSet := NameSet.ofNames (e.nodes.flatMap ownNames)

/-- The members of named objects that an expression may read. -/
def members (e : Expr) : MemberSet :=
  (e.nodes.flatMap ownMembers).foldl (fun set pair => set.insert pair) ∅

end Expr

namespace Stmt

/-- The names that the expressions of a body may read. -/
def bodyNames (body : List Stmt) : NameSet :=
  NameSet.ofNames
    ((listNodes body).flatMap fun stmt =>
      stmt.expressions.flatMap fun e => e.nodes.flatMap Expr.ownNames)

end Stmt

end UiLowering
