import UiLowering.Source.Expr

/-!
# The nodes of an expression

`Expr.nodes` lists an expression and everything inside it in the order of the source text.  What a
traversal collects is then a map over this list, and what holds of every part is `List.all`.
-/

set_option autoImplicit false

namespace UiLowering

namespace Expr

mutual

/-- The expression and all expressions inside it, each before its parts. -/
def nodes : Expr → List Expr
  | .int value => [.int value]
  | .float value => [.float value]
  | .bool value => [.bool value]
  | .str raw => [.str raw]
  | .ident name => [.ident name]
  | .binary left op right chain => .binary left op right chain :: (left.nodes ++ right.nodes)
  | .unary op operand => .unary op operand :: operand.nodes
  | .trailing op operand => .trailing op operand :: operand.nodes
  | .conditional condition thenValue elseValue =>
    .conditional condition thenValue elseValue ::
      (condition.nodes ++ thenValue.nodes ++ elseValue.nodes)
  | .call ⟨name, args, line⟩ => .call ⟨name, args, line⟩ :: argNodes args
  | .member object field => .member object field :: object.nodes
  | .index base position => .index base position :: (base.nodes ++ position.nodes)
  | .array ⟨elements, elementType⟩ => .array ⟨elements, elementType⟩ :: listNodes elements
  | .fill value count => .fill value count :: (value.nodes ++ count.nodes)
  | .record ⟨typeName, fields⟩ => .record ⟨typeName, fields⟩ :: fieldNodes fields
  | .enumValue ref => [.enumValue ref]
  | .construct component args => .construct component args :: argNodes args
  | .select ⟨subject, arms, otherwise, line⟩ =>
    .select ⟨subject, arms, otherwise, line⟩ ::
      (subject.nodes ++ armNodes arms ++ optionNodes otherwise)
  | .reference operand => .reference operand :: operand.nodes
  | .move operand => .move operand :: operand.nodes

/-- The nodes of several expressions. -/
def listNodes : List Expr → List Expr
  | [] => []
  | e :: es => e.nodes ++ listNodes es

/-- The nodes of an expression that may be missing. -/
def optionNodes : Option Expr → List Expr
  | none => []
  | some e => e.nodes

/-- The nodes of the arguments of a call. -/
def argNodes : List (Arg Expr) → List Expr
  | [] => []
  | ⟨_, value, _, _⟩ :: args => value.nodes ++ argNodes args

/-- The nodes of the fields of a record literal. -/
def fieldNodes : List (FieldInit Expr) → List Expr
  | [] => []
  | ⟨_, value⟩ :: fields => value.nodes ++ fieldNodes fields

/-- The nodes of a pattern. -/
def patternNodes : Pattern Expr → List Expr
  | .literal value => value.nodes
  | .enumValue _ => []
  | .record _ fields => fieldPatternNodes fields

/-- The nodes of the fields of a record pattern. -/
def fieldPatternNodes : List (FieldPattern Expr) → List Expr
  | [] => []
  | ⟨_, value⟩ :: fields => optionNodes value ++ fieldPatternNodes fields

/-- The nodes of the arms of a match, in each arm the pattern before the body. -/
def armNodes : List (Arm Expr) → List Expr
  | [] => []
  | ⟨pattern, body⟩ :: arms => patternNodes pattern ++ body.nodes ++ armNodes arms

end

/-- Whether a node by itself can be computed without running the program: it names no variable,
calls nothing and refers to nothing that may change. -/
def isStaticNode : Expr → Bool
  | .str raw => !Literal.hasHole raw
  | .ident _ | .trailing .. | .call _ | .member .. | .index .. | .construct ..
  | .reference _ | .move _ => false
  | _ => true

/-- Whether the value of an expression can be computed without running the program. -/
def isStatic (e : Expr) : Bool := e.nodes.all isStaticNode

end Expr

end UiLowering
