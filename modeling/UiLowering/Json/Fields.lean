import UiLowering.Json.Basic

/-!
# Reading records

A record is read field by field.  It is given as an object, in which unknown keys do not matter and
no key of a field may come twice, or as an array of the fields in their order.  A field that has a
default may be missing; one that may be absent may also be `null`.  What stands under an unknown key
is not read, so it may be unreadable.

A value of several kinds is tagged: the tag is an entry of the object like the fields of its kind,
or the first element of the array.  It is the name of the kind; for a value inside another tagged
value it may also be the number of the kind, counted from zero.  Before its fields are read a tagged
value is read as a whole, so no part of it may be unreadable, whatever key it stands under.
-/

set_option autoImplicit false

namespace UiLowering

/-- The fields of a record that have not been read yet. -/
inductive Fields where
  | named (entries : List (String × Json))
  | listed (values : List Json)

/-- Reads fields of a record. -/
abbrev FieldReader (α : Type) := StateT Fields Option α

namespace Fields

variable {α : Type}

/-- The value of a field, if it is there.  Fails if it is there twice. -/
def value? (key : String) : FieldReader (Option Json)
  | .named entries =>
    match entries.filter (·.1 == key) with
    | [] => some (none, .named entries)
    | [(_, value)] => some (some value, .named entries)
    | _ :: _ :: _ => none
  | .listed [] => some (none, .listed [])
  | .listed (value :: values) => some (some value, .listed values)

/-- Reads a field that has to be there. -/
def required (key : String) (read : Json → Option α) : FieldReader α := fun fields => do
  let (value, rest) ← value? key fields
  let result ← read (← value)
  return (result, rest)

/-- Reads a field that has a default. -/
def defaulted (key : String) (default : α) (read : Json → Option α) : FieldReader α :=
  fun fields => do
    let (value, rest) ← value? key fields
    match value with
    | none => return (default, rest)
    | some value =>
      let result ← read value
      return (result, rest)

/-- Reads a value that may be `null`. -/
def readOption (read : Json → Option α) : Json → Option (Option α)
  | .null => some none
  | value => (read value).map some

/-- Reads a field that may be absent. -/
def optional (key : String) (read : Json → Option α) : FieldReader (Option α) :=
  defaulted key none (readOption read)

/-- Reads a field that may be absent from an object but not from an array. -/
def nullable (key : String) (read : Json → Option α) : FieldReader (Option α) := fun fields =>
  match fields with
  | .named _ => optional key read fields
  | .listed _ => required key (readOption read) fields

/-- Reads a whole record; an array may not have elements left over. -/
def read (reader : FieldReader α) (fields : Fields) : Option α := do
  let (result, rest) ← reader fields
  match rest with
  | .named _ | .listed [] => some result
  | .listed (_ :: _) => none

end Fields

namespace Json

variable {α : Type}

/-- The fields of a record. -/
def fields? : Json → Option Fields
  | .obj entries => some (.named entries)
  | .arr values => some (.listed values)
  | _ => none

/-- The kind that a tag stands for; those in `numbered` may be given by their number. -/
def tag? (numbered : List String) : Json → Option String
  | .str kind => some kind
  | .int n => if 0 ≤ n then numbered[n.toNat]? else none
  | _ => none

/-- The kind of a tagged value and its other fields. -/
def tagged? (key : String) (numbered : List String) : Json → Option (String × Fields)
  | .obj entries =>
    match entries.filter (·.1 == key) with
    | [(_, tag)] => (tag.tag? numbered).map (·, .named (entries.filter (·.1 != key)))
    | _ => none
  | .arr (tag :: values) => (tag.tag? numbered).map (·, .listed values)
  | _ => none

/-- The kind of a tagged value that stands by itself, and its other fields. -/
def outerTagged? (key : String) (json : Json) : Option (String × Fields) :=
  if json.isReadable then json.tagged? key [] else none

/-- Reads a record. -/
def record? (reader : FieldReader α) (json : Json) : Option α := do
  Fields.read reader (← json.fields?)

/-- Reads a truth value. -/
def bool? : Json → Option Bool
  | .bool value => some value
  | _ => none

/-- Reads a text. -/
def str? : Json → Option String
  | .str value => some value
  | _ => none

/-- Reads an integer of sixty-four bits. -/
def int64? : Json → Option Int64
  | .int value =>
    if Int64.minValue.toInt ≤ value && value ≤ Int64.maxValue.toInt then some (Int64.ofInt value)
    else none
  | _ => none

/-- Reads a natural number of thirty-two bits. -/
def uint32? : Json → Option UInt32
  | .int value =>
    if 0 ≤ value && value.toNat < UInt32.size then some (UInt32.ofNat value.toNat) else none
  | _ => none

/-- Reads a natural number. -/
def nat? : Json → Option Nat
  | .int value => if 0 ≤ value then some value.toNat else none
  | _ => none

/-- Reads a number as a double. -/
def float? : Json → Option Float
  | .int value => some (Float.ofInt value)
  | .real value => some value
  | _ => none

/-- Reads an array. -/
def list? (read : Json → Option α) : Json → Option (List α)
  | .arr values => values.mapM read
  | _ => none

/-- Reads an object as a table; of two entries for one key the later holds. -/
def entries? (read : Json → Option α) : Json → Option (List (String × α))
  | .obj entries => entries.mapM fun (key, value) => (read value).map (key, ·)
  | _ => none

/-- Reads one of several names, given as a text or as the only key of an object. -/
def choice? (read : String → Option α) : Json → Option α
  | .str name => read name
  | .obj [(name, .null)] => read name
  | _ => none

end Json

end UiLowering
