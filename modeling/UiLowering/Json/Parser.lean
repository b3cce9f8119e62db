import UiLowering.Json.Number
import UiLowering.Json.Token

/-!
# Reading JSON text

The tokens are read from left to right with a stack of the arrays and objects that are still open.
A text is exactly one value, with white space around it.  An array or object is unreadable if it
lies inside 127 others, and an object also if one of its keys is.
-/

set_option autoImplicit false

namespace UiLowering.Json

/-- The entries of an object, each under its key if that can be read. -/
abbrev Entries := List (Option String × Json)

/-- An array or object that is still open, its complete parts in reverse order.  For an object,
`key` is the one whose value comes next. -/
inductive Frame where
  | list (done : List Json)
  | object (done : Entries) (key : Option String)

/-- What the next token has to be. -/
inductive Parse where
  /-- A value. -/
  | value (stack : List Frame)
  /-- A value or the end of the array that was just opened. -/
  | firstValue (stack : List Frame)
  /-- A key or the end of the object that was just opened. -/
  | firstKey (stack : List Frame)
  /-- A key. -/
  | key (done : Entries) (stack : List Frame)
  /-- The colon after a key. -/
  | colon (done : Entries) (key : Option String) (stack : List Frame)
  /-- A comma or an end, after a complete value. -/
  | after (value : Json) (stack : List Frame)

/-- How deep arrays and objects may be nested. -/
def maxDepth : Nat := 127

/-- The value of a word. -/
def ofWord (cs : List Char) : Option Json :=
  match String.ofList cs with
  | "true" => some (.bool true)
  | "false" => some (.bool false)
  | "null" => some .null
  | _ => ofNumber cs

namespace Parse

/-- The value of a string. -/
def ofText : Option String → Json
  | some v => .str v
  | none => .unreadable

/-- An object from its entries in reverse order. -/
def ofEntries (done : Entries) : Json :=
  match done.reverse.mapM fun (k, v) => k.map (·, v) with
  | some entries => .obj entries
  | none => .unreadable

/-- An array or object is complete, inside those of the stack. -/
def close (value : Json) (stack : List Frame) : Parse :=
  .after (if (stack.drop (maxDepth - 1)).isEmpty then value else .unreadable) stack

/-- The token begins a value. -/
def beginValue (stack : List Frame) : Token → Option Parse
  | .text v => some (.after (ofText v) stack)
  | .word cs => (ofWord cs).map fun v => .after v stack
  | .mark '[' => some (.firstValue stack)
  | .mark '{' => some (.firstKey stack)
  | .mark _ => none

/-- One token read. -/
def step : Parse → Token → Option Parse
  | .value stack, token => beginValue stack token
  | .firstValue stack, .mark ']' => some (close (.arr []) stack)
  | .firstValue stack, token => beginValue (.list [] :: stack) token
  | .firstKey stack, .mark '}' => some (close (.obj []) stack)
  | .firstKey stack, .text k => some (.colon [] k stack)
  | .key done stack, .text k => some (.colon done k stack)
  | .colon done k stack, .mark ':' => some (.value (.object done k :: stack))
  | .after v (.list done :: stack), .mark ',' => some (.value (.list (v :: done) :: stack))
  | .after v (.list done :: stack), .mark ']' => some (close (.arr (v :: done).reverse) stack)
  | .after v (.object done k :: stack), .mark ',' => some (.key ((k, v) :: done) stack)
  | .after v (.object done k :: stack), .mark '}' =>
    some (close (ofEntries ((k, v) :: done)) stack)
  | _, _ => none

/-- The value that has been read, if nothing is left open. -/
def finish : Parse → Option Json
  | .after v [] => some v
  | _ => none

end Parse

/-- Reads a text that is exactly one JSON value. -/
def parse (text : String) : Option Json := do
  ((← (← tokens text).foldlM Parse.step (.value []))).finish

end UiLowering.Json
