import UiLowering.Text.Cut

/-!
# Notices

While it works, the lowering notes what a maintainer may want to know.  A notice never changes the
code that is produced.  One of them says that no code is produced at all: a type whose name never
ends was asked for.
-/

set_option autoImplicit false

namespace UiLowering

/-- How urgent a notice is. -/
inductive Level where
  | warn
  | debug
  | trace

/-- The name of a level. -/
def Level.name : Level → String
  | .warn => "WARN"
  | .debug => "DEBUG"
  | .trace => "TRACE"

/-- A smaller rank is more urgent. -/
def Level.rank : Level → Nat
  | .warn => 0
  | .debug => 1
  | .trace => 2

/-- Something the lowering noticed. -/
inductive Notice where
  | scopeOpened (component module : String) (globalTypes : Nat)
  | typeUnresolved (name : String)
  | typeEndless (name : String)
  | functionFound (call space function typeName : String)
  | methodUnknown (call : String)
  | fillCountUnknown
  | intrinsicUnknown (key : String) (arguments : Nat)
  | intrinsicEmpty (key call : String)
  | armDropped (line : UInt32) (arm : Nat)
  | otherwiseDropped (line : UInt32)
  | matchOpen (line : UInt32)

namespace Notice

/-- How urgent a notice is. -/
def level : Notice → Level
  | .scopeOpened .. | .typeUnresolved _ | .functionFound .. => .trace
  | .methodUnknown _ | .fillCountUnknown | .intrinsicUnknown .. => .debug
  | .typeEndless _ | .intrinsicEmpty .. | .armDropped .. | .otherwiseDropped _ | .matchOpen _ =>
    .warn

/-- The wording of a notice. -/
def message : Notice → String
  | .scopeOpened component module globalTypes =>
    s!"type context for '{component}' (module '{module}', {globalTypes} global types)"
  | .typeUnresolved name => s!"type '{name}' passed through unresolved"
  | .typeEndless name => s!"type '{name}' never ends"
  | .functionFound call space function typeName =>
    s!"'{call}' resolved to {space}::{function} on '{typeName}'"
  | .methodUnknown call => s!"no schema entry for '{call}', emitting a plain call"
  | .fillCountUnknown => "array repeat with non-literal count outside a declaration"
  | .intrinsicUnknown key arguments =>
    s!"no intrinsic generator for '{key}' with {arguments} argument(s)"
  | .intrinsicEmpty key call => s!"intrinsic '{key}' for '{call}' produced no code"
  | .armDropped line arm =>
    s!"match at line {line}: arm {arm} follows an unconditional arm and is dropped"
  | .otherwiseDropped line =>
    s!"match at line {line}: else arm follows an unconditional arm and is dropped"
  | .matchOpen line =>
    s!"match at line {line} has no unconditional arm; unmatched subjects fall through"

/-- A notice as one line of a log. -/
def logLine (notice : Notice) : String :=
  notice.level.name ++ " [CoiCodegen] " ++ notice.message

/-- Whether the work could not go on behind a notice. -/
def isEndless : Notice → Bool
  | .typeEndless _ => true
  | _ => false

/-- Whether a notice is at least as urgent as a level. -/
def isAtLeast (threshold : Level) (notice : Notice) : Bool :=
  notice.level.rank ≤ threshold.rank

end Notice

end UiLowering
