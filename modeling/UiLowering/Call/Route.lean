import UiLowering.Call.Shortcut
import UiLowering.Env

/-!
# Which way a call goes

A call with a receiver is lowered in the first of these ways that fits it:

* the size of an enumeration of a component is its sentinel;
* the common methods of texts and collections have shortcuts;
* a call on a type, not a value, goes to a generator or a template of the schema;
* a call on a text, a collection or a value of unknown type goes to a template that the schema has
  for texts or for arrays;
* a method that is mapped to a function becomes a call of that function, with the receiver as first
  argument where the function takes a handle there;
* everything else is passed on as it is written.

`Route.select` takes this decision from the names and the number of arguments alone, before any
argument is lowered.
-/

set_option autoImplicit false

namespace UiLowering

/-- The way a call with a receiver is lowered. -/
inductive Route where
  | enumSize
  | shortcut (shortcut : Shortcut)
  | intrinsic (method : ApiMethod)
  | staticTemplate (method : ApiMethod)
  | valueTemplate (method : ApiMethod)
  | function (method : ApiMethod) (space function : String) (passesReceiver : Bool)
  | unknownStatic
  | unknownMember

namespace Env

/-- Whether a receiver is a type: it is written like one, and no symbol has its name. -/
def isStaticReceiver (env : Env) (receiver : String) : Bool :=
  Text.startsUpper receiver && (env.scope.kindOf? receiver).isNone

/-- The declared type of a receiver without dots, by its first name. -/
def receiverType? (env : Env) (receiver : String) : Option String :=
  if receiver.toList.contains '.' then none
  else (env.scope.typeOf? receiver).map env.schema.resolveAlias

/-- Whether a receiver is a text or a collection. -/
def familyOf? (env : Env) (receiver : String) : Option Family :=
  (env.receiverType? receiver).bind fun typeName =>
    if typeName == Family.text.typeName then some .text
    else if TypeName.isCollection typeName then some .collection
    else none

/-- Whether a method takes a receiver of the given type as its first argument, besides `argc`
others.  That parameter is a handle, of the type of the receiver or of an ancestor, if the type is
known. -/
def passesReceiver (env : Env) (owner : Option String) (argc : Nat) (method : ApiMethod) : Bool :=
  match method.mapping, method.params with
  | .function, first :: others =>
    let handle := env.schema.resolveAlias first.typeName
    others.length == argc && env.schema.isHandle handle &&
      owner.all fun typeName => typeName == handle || env.schema.inheritsFrom typeName handle
  | _, _ => false

end Env

namespace Route

/-- Whether a method of a type can be called with `argc` arguments through a generator or a
template. -/
def staticRoute? (argc : Nat) (method : ApiMethod) : Option Route :=
  match method.mapping with
  | .intrinsic => if argc ≤ method.params.length then some (.intrinsic method) else none
  | .template => if argc == method.params.length then some (.staticTemplate method) else none
  | .function => none

/-- A shortcut of a text or a collection. -/
def viaShortcut? (env : Env) (receiver method : String) (argc : Nat) : Option Route :=
  (env.familyOf? receiver).bind fun family =>
    (Shortcut.find? family method argc).map .shortcut

/-- A generator or a template of a type. -/
def viaStatic? (env : Env) (receiver method : String) (argc : Nat) : Option Route :=
  if env.isStaticReceiver receiver then
    (env.schema.methodsNamed (env.schema.resolveAlias receiver) method).findSome?
      (staticRoute? argc)
  else none

/-- The families in which a template for a method of a value is looked for.  A value of known type
has those of its own family only, one of unknown type both. -/
def templateFamilies (env : Env) (receiver : String) : List Family :=
  match env.familyOf? receiver with
  | some family => [family]
  | none => if (env.receiverType? receiver).isSome then [] else [.text, .collection]

/-- A template for a method of a value. -/
def viaValueTemplate? (env : Env) (receiver method : String) (argc : Nat) : Option Route :=
  if env.isStaticReceiver receiver then none
  else
    (templateFamilies env receiver).findSome? fun family =>
      match env.schema.lookupMethod family.typeName method (some argc) with
      | some found => if found.mapping = .template then some (.valueTemplate found) else none
      | none => none

/-- The type that owns the method of a call, as far as it is known. -/
def owner? (env : Env) (receiver : String) : Option String :=
  if env.isStaticReceiver receiver then some (env.schema.resolveAlias receiver)
  else env.receiverType? receiver

/-- The methods that may be meant: those of the owner, or without one those of all types that are
not built in. -/
def candidates (env : Env) (receiver method : String) : List ApiMethod :=
  match owner? env receiver with
  | some owner => env.schema.methodsNamed owner method
  | none =>
    (env.schema.typeList.filter (!·.isBuiltin)).flatMap fun type =>
      type.methods.filter fun found => found.name == method && !found.isShared

/-- The method that is meant, and whether the receiver is passed to it.  A method that takes the
receiver is preferred. -/
def chosen? (env : Env) (receiver method : String) (argc : Nat) : Option (ApiMethod × Bool) :=
  let owner := owner? env receiver
  let found := candidates env receiver method
  let passing :=
    if env.isStaticReceiver receiver then none else found.find? (env.passesReceiver owner argc)
  match passing with
  | some choice => some (choice, true)
  | none =>
    if owner.isSome then
      (found.find? fun candidate =>
        candidate.mapping = .function && candidate.params.length == argc).map (·, false)
    else none

/-- A function that a method is mapped to. -/
def viaFunction? (env : Env) (receiver method : String) (argc : Nat) : Option Route :=
  if (owner? env receiver).any TypeName.isCollection then none
  else do
    let (choice, passesReceiver) ← chosen? env receiver method argc
    let target ← choice.target?
    return .function choice target.1 target.2 passesReceiver

/-- The way a call with a receiver is lowered. -/
def select (env : Env) (receiver method : String) (argc : Nat) : Route :=
  if method == "size" && argc == 0 && receiver.toList.contains '.' && Text.startsUpper receiver then
    .enumSize
  else
    match viaShortcut? env receiver method argc with
    | some route => route
    | none =>
      match viaStatic? env receiver method argc with
      | some route => route
      | none =>
        match viaValueTemplate? env receiver method argc with
        | some route => route
        | none =>
          match viaFunction? env receiver method argc with
          | some route => route
          | none => if env.isStaticReceiver receiver then .unknownStatic else .unknownMember

end Route

end UiLowering
