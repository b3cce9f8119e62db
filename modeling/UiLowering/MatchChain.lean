import UiLowering.Code

/-!
# Matches

A match becomes a chain of branches inside a function that is called on the spot, with the subject
bound to `_m`.  A branch without a condition ends the chain: the arms behind it can never be
reached and are dropped.
-/

set_option autoImplicit false

namespace UiLowering

/-- A branch of a chain. -/
structure Branch where
  condition : Option String
  bindings : List String
  body : String

/-- A chain of branches. -/
structure MatchChain where
  subject : String
  branches : List Branch

namespace Branch

/-- Whether a branch is taken in any case. -/
def isUnconditional (branch : Branch) : Bool := branch.condition.isNone

/-- A branch in target text. -/
def render (branch : Branch) : String :=
  let block := braced (" " ++ Text.concat branch.bindings ++ "return " ++ branch.body ++ "; ")
  match branch.condition with
  | some condition => "if (" ++ condition ++ ") " ++ block
  | none => block

end Branch

namespace MatchChain

/-- Whether a subject can fall through all branches. -/
def hasGap (chain : MatchChain) : Bool := !chain.branches.any Branch.isUnconditional

/-- A chain in target text.  With `trap` a gap is marked as unreachable. -/
def render (chain : MatchChain) (trap : Bool) : String :=
  "([&]() " ++
    braced (" const auto& _m = " ++ chain.subject ++ "; " ++
      Text.join " else " (chain.branches.map Branch.render) ++
      (if trap && chain.hasGap then " __builtin_unreachable();" else "") ++ " ") ++ "())"

end MatchChain

/-! ## Lowering

An arm is lowered to a branch, and the arms behind one without a condition are dropped with a
notice. -/

/-- The comparison of a field of the subject. -/
def fieldCondition? (field : FieldPattern Coded) : Option (Lowered String) :=
  field.value.map fun part => do
    let code ← part.value
    return "_m." ++ field.name ++ " == " ++ code

/-- The binding of a field of the subject. -/
def fieldBinding? (field : FieldPattern Coded) : Option String :=
  if field.value.isNone then some ("const auto& " ++ field.name ++ " = _m." ++ field.name ++ "; ")
  else none

/-- The condition and the bindings of a pattern.  A record pattern that compares nothing has no
condition. -/
def patternCode (env : Env) : Pattern Coded → Lowered (Option String × List String)
  | .literal part => do
    let code ← part.value
    return (some ("_m == " ++ code), [])
  | .enumValue ref => do
    let code ← env.enumText ref.component ref.enumName ref.valueName
    return (some ("_m == " ++ code), [])
  | .record _ fields => do
    let conditions ← Lowered.all (fields.filterMap fieldCondition?)
    let condition := if conditions.isEmpty then none else some (Text.join " && " conditions)
    return (condition, fields.filterMap fieldBinding?)

/-- The branch of an arm. -/
def armBranch (env : Env) (arm : Arm Coded) : Lowered Branch := do
  let body ← arm.body.value
  let (condition, bindings) ← patternCode env arm.pattern
  return ⟨condition, bindings, body⟩

/-- Notes that the arms from number `i` on are dropped. -/
def noteDropped (line : UInt32) (i : Nat) : List (Arm Coded) → Lowered Unit
  | [] => pure ()
  | _ :: arms => do
    Lowered.note (.armDropped line i)
    noteDropped line (i + 1) arms

/-- The branches of the arms from number `i` on, and whether one of them ends the chain. -/
def armBranches (env : Env) (line : UInt32) (i : Nat) :
    List (Arm Coded) → Lowered (List Branch × Bool)
  | [] => pure ([], false)
  | arm :: arms => do
    let branch ← armBranch env arm
    if branch.isUnconditional then
      noteDropped line (i + 1) arms
      return ([branch], true)
    else
      let (branches, closed) ← armBranches env line (i + 1) arms
      return (branch :: branches, closed)

/-- The branch of the arm for all other subjects, unless the chain has ended before it. -/
def otherwiseBranches (line : UInt32) (closed : Bool) : Option Coded → Lowered (List Branch)
  | some part =>
    if closed then do
      Lowered.note (.otherwiseDropped line)
      return []
    else do
      let body ← part.value
      return [⟨none, [], body⟩]
  | none =>
    if closed then pure []
    else do
      Lowered.note (.matchOpen line)
      return []

/-- The chain of a match. -/
def matchChain (env : Env) (choice : Match Coded) : Lowered MatchChain := do
  let (branches, closed) ← armBranches env choice.line 0 choice.arms
  let others ← otherwiseBranches choice.line closed choice.otherwise
  let subject ← choice.subject.value
  return ⟨subject, branches ++ others⟩

end UiLowering
