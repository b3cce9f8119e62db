/-!
# Templates

The code of a call can be given by a template, in which `${this}` stands for the receiver and
`${0}`, `${1}`, … for the arguments.  A placeholder that stands for nothing, because there is no
such argument, is left as it is.
-/

set_option autoImplicit false

namespace UiLowering

namespace Template

/-- The value of a key of decimal digits. -/
def index? (key : List Char) : Option Nat :=
  if key.isEmpty || key.any (!·.isDigit) then none
  else some (key.foldl (fun n c => 10 * n + (c.toNat - '0'.toNat)) 0)

/-- What a key stands for. -/
def value? (receiver : String) (args : List String) (key : List Char) : Option String :=
  if key == ['t', 'h', 'i', 's'] then some receiver
  else (index? key).bind fun i => args[i]?

/-- What the placeholder stands for whose key begins `cs`. -/
def placeholder? (receiver : String) (args : List String) (cs : List Char) : Option String :=
  if cs.contains '}' then value? receiver args (cs.takeWhile (· != '}')) else none

mutual

/-- Puts receiver and arguments in place of their placeholders. -/
def expandChars (receiver : String) (args : List String) : List Char → List Char
  | [] => []
  | '$' :: '{' :: rest =>
    match placeholder? receiver args rest with
    | some value => value.toList ++ expandAfterKey receiver args rest
    | none => '$' :: '{' :: expandChars receiver args rest
  | c :: rest => c :: expandChars receiver args rest

/-- The same behind the brace that closes a key. -/
def expandAfterKey (receiver : String) (args : List String) : List Char → List Char
  | [] => []
  | '}' :: rest => expandChars receiver args rest
  | _ :: rest => expandAfterKey receiver args rest

end

/-- Puts receiver and arguments in place of their placeholders. -/
def expand (template receiver : String) (args : List String) : String :=
  String.ofList (expandChars receiver args template.toList)

end Template

end UiLowering
