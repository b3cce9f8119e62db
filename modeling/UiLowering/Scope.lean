import UiLowering.Names
import UiLowering.Text.Name

/-!
# Scopes

A scope knows what the names of a component mean while it is being lowered: which types are local
or global, which symbols are members of the component or locals of the current method, which of
them are read through a pointer, and how many parameters the methods of the component take.
-/

set_option autoImplicit false

namespace UiLowering

/-- Where a symbol was declared. -/
inductive SymbolKind where
  | methodLocal
  | member
deriving DecidableEq

/-- What the names of a component mean.  `component` is its qualified name, and is empty outside
any component. -/
structure Scope where
  component : String
  module : String
  localTypes : NameSet
  globalTypes : NameSet
  members : NameMap String
  locals : NameMap String
  references : NameSet
  arities : NameMap Nat

namespace Scope

/-- The scope of a component before anything is declared in it. -/
def ofComponent (module component : String) (globalTypes : NameSet) : Scope :=
  ⟨component, module, ∅, globalTypes, ∅, ∅, ∅, ∅⟩

/-- Declares a type that belongs to the component. -/
def declareType (scope : Scope) (name : String) : Scope :=
  { scope with localTypes := scope.localTypes.insert name }

/-- Declares a member of the component. -/
def declareMember (scope : Scope) (name typeName : String) : Scope :=
  { scope with members := scope.members.insert name typeName }

/-- Declares a local of the current method. -/
def declareLocal (scope : Scope) (name typeName : String) : Scope :=
  { scope with locals := scope.locals.insert name typeName }

/-- Declares that a name is read through a pointer. -/
def markReference (scope : Scope) (name : String) : Scope :=
  { scope with references := scope.references.insert name }

/-- Declares a method of the component by its number of parameters. -/
def declareMethod (scope : Scope) (name : String) (arity : Nat) : Scope :=
  { scope with arities := scope.arities.insert name arity }

/-- Begins a new method; the locals of the one before are forgotten. -/
def enterMethod (scope : Scope) : Scope := { scope with locals := ∅ }

/-- Whether a type belongs to the component. -/
def isLocalType (scope : Scope) (name : String) : Bool :=
  scope.component != "" && scope.localTypes.contains name

/-- Whether a flat type name is known to all components. -/
def isGlobalType (scope : Scope) (name : String) : Bool := scope.globalTypes.contains name

/-- Where a symbol was declared; a local hides a member of the same name. -/
def kindOf? (scope : Scope) (name : String) : Option SymbolKind :=
  if scope.locals.contains name then some .methodLocal
  else if scope.members.contains name then some .member
  else none

/-- The declared type of a symbol. -/
def typeOf? (scope : Scope) (name : String) : Option String :=
  match scope.kindOf? name with
  | some .methodLocal => scope.locals[name]?
  | some .member => scope.members[name]?
  | none => none

/-- Whether a name is read through a pointer, and no local hides it. -/
def isReference (scope : Scope) (name : String) : Bool :=
  scope.references.contains name && scope.kindOf? name != some .methodLocal

/-- The number of parameters of a method of the component. -/
def arityOf? (scope : Scope) (name : String) : Option Nat := scope.arities[name]?

/-- The target text that reads a name. -/
def read (scope : Scope) (name : String) : String :=
  if scope.isReference name then "(*" ++ name ++ ")" else name

/-- The target text of a dotted path; its first name is read, the rest are members. -/
def readPath (scope : Scope) (path : String) : String :=
  match Text.cutFirst '.' path with
  | some (root, rest) => scope.read root ++ "." ++ rest
  | none => scope.read path

end Scope

end UiLowering
