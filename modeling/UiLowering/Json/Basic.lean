/-!
# JSON values

The values in which source trees, schemas and results are exchanged.  Integers that fit a signed
or an unsigned word of sixty-four bits are kept exact; every other number is a double.  An object
keeps its entries in the order of the text, repeated keys included, so that a reader of records
can refuse a key that is given twice.

A text can be well formed and still stand for no value: a number may be too large, a string may
hold half of a surrogate pair, an array or object may be nested too deep.  Such a part is
`unreadable`.  No reader accepts it, but it does no harm where nothing is read.
-/

set_option autoImplicit false

namespace UiLowering

/-- A JSON value. -/
inductive Json where
  | null
  | bool (value : Bool)
  | int (value : Int)
  | real (value : Float)
  | str (value : String)
  | arr (values : List Json)
  | obj (entries : List (String × Json))
  | unreadable
deriving Inhabited

namespace Json

mutual

/-- The number of arrays and objects around the innermost value. -/
def depth : Json → Nat
  | .arr values => depthList values + 1
  | .obj entries => depthEntries entries + 1
  | _ => 0

/-- The greatest depth of a list of values. -/
def depthList : List Json → Nat
  | [] => 0
  | value :: values => max value.depth (depthList values)

/-- The greatest depth of the values of a list of entries. -/
def depthEntries : List (String × Json) → Nat
  | [] => 0
  | (_, value) :: entries => max value.depth (depthEntries entries)

end

mutual

/-- Whether a value and everything inside it can be read. -/
def isReadable : Json → Bool
  | .unreadable => false
  | .arr values => allReadable values
  | .obj entries => entriesReadable entries
  | _ => true

/-- Whether several values can be read. -/
def allReadable : List Json → Bool
  | [] => true
  | value :: values => value.isReadable && allReadable values

/-- Whether the values of several entries can be read. -/
def entriesReadable : List (String × Json) → Bool
  | [] => true
  | (_, value) :: entries => value.isReadable && entriesReadable entries

end

/-- An array of texts. -/
def strs (values : List String) : Json := .arr (values.map .str)

/-- A text or `null`. -/
def ofOption {α : Type} (write : α → Json) : Option α → Json
  | none => .null
  | some value => write value

/-- A natural number. -/
def nat (value : Nat) : Json := .int value

/-- A double.  There is no JSON number for one that is infinite or no number. -/
def ofFloat (value : Float) : Json := if value.isFinite then .real value else .null

end Json

end UiLowering
