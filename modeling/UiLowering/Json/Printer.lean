import UiLowering.Decimal.Positional
import UiLowering.Json.Basic
import UiLowering.Text.Cut

/-!
# Writing JSON text

Values are written without white space.  A double is written with the fewest digits that read back,
always with a fractional digit or an exponent, so that it is read as a double again.  A double that
is no finite number and a part that could not be read are written as `null`.
-/

set_option autoImplicit false

namespace UiLowering.Json

/-- A hexadecimal digit. -/
def hexDigit (n : Nat) : Char :=
  if n < 10 then Char.ofNat ('0'.toNat + n) else Char.ofNat ('a'.toNat + (n - 10))

/-- The letter that stands for a character behind a backslash. -/
def shortEscape? : Char → Option Char
  | '"' => some '"'
  | '\\' => some '\\'
  | '\x08' => some 'b'
  | '\x0c' => some 'f'
  | '\n' => some 'n'
  | '\r' => some 'r'
  | '\t' => some 't'
  | _ => none

/-- How a character is written inside a JSON string. -/
def escapeChar (c : Char) : List Char :=
  match shortEscape? c with
  | some letter => ['\\', letter]
  | none =>
    if c.toNat < 0x20 then
      ['\\', 'u', '0', '0', hexDigit (c.toNat / 16), hexDigit (c.toNat % 16)]
    else [c]

/-- A JSON string. -/
def renderText (value : String) : String :=
  "\"" ++ String.ofList (value.toList.flatMap escapeChar) ++ "\""

/-- A decimal with an exponent, one digit standing before the point. -/
def scientific (d : Decimal) : String :=
  let digits := Nat.toDigits 10 d.digits
  let fraction := digits.drop 1
  String.ofList (digits.take 1 ++ (if fraction.isEmpty then [] else '.' :: fraction)) ++ "e" ++
    toString (d.exponent + fraction.length)

/-- A decimal, with an exponent if it has more than sixteen places before the point or more than
four zeros behind it. -/
def decimalText (d : Decimal) : String :=
  let point := d.exponent + (Nat.toDigits 10 d.digits).length
  if -5 < point && point ≤ 16 then d.positional else scientific d

/-- A double. -/
def realText (value : Float) : String :=
  match DoubleClass.ofBits value.toBits with
  | .nan | .infinite _ => "null"
  | .zero negative => signed negative "0.0"
  | .finite negative magnitude => signed negative (decimalText magnitude.shortest)

mutual

/-- The text of a value. -/
def render : Json → String
  | .null | .unreadable => "null"
  | .bool value => if value then "true" else "false"
  | .int value => toString value
  | .real value => realText value
  | .str value => renderText value
  | .arr values => "[" ++ Text.join "," (renderList values) ++ "]"
  | .obj entries => "\x7b" ++ Text.join "," (renderEntries entries) ++ "\x7d"

/-- The texts of several values. -/
def renderList : List Json → List String
  | [] => []
  | value :: values => value.render :: renderList values

/-- The texts of several entries of an object. -/
def renderEntries : List (String × Json) → List String
  | [] => []
  | (key, value) :: entries => (renderText key ++ ":" ++ value.render) :: renderEntries entries

end

end UiLowering.Json
