import UiLowering.Json.Basic

/-!
# Numbers in JSON text

A number without fraction and exponent is an integer if it fits a word of sixty-four bits, signed
or unsigned.  Every other number is a double: its digits are gathered into an unsigned word as long
as they fit, and the word is multiplied or divided once by a power of ten.  A negative zero is a
double, and a number too large for one is unreadable.
-/

set_option autoImplicit false

namespace UiLowering.Json

/-- The digits of a number, as `Nat`s, and what follows them. -/
def splitDigits (cs : List Char) : List Nat × List Char :=
  ((cs.takeWhile Char.isDigit).map fun c => c.toNat - '0'.toNat, cs.dropWhile Char.isDigit)

/-- Appends digits to a word as long as it has room for them.  Returns the word and the number of
digits that found room. -/
def gather (word : Nat) : List Nat → Nat × Nat
  | [] => (word, 0)
  | digit :: digits =>
    if 10 * word + digit < UInt64.size then
      let (full, count) := gather (10 * word + digit) digits
      (full, count + 1)
    else (word, 0)

/-- The power of ten as a double. -/
def powerOfTen (n : Nat) : Float := Float.ofScientific 1 false n

/-- `word * 10 ^ exponent` as a double, unless it is too large. -/
def scale (word : Nat) (exponent : Int) : Option Float :=
  let f := (UInt64.ofNat word).toFloat
  if word = 0 then some f
  else if exponent > 308 then none
  else if 0 ≤ exponent then
    let scaled := f * powerOfTen exponent.toNat
    if scaled.isInf then none else some scaled
  else
    let down := (-exponent).toNat
    let first := min down 308
    let second := min (down - first) 308
    some (f / powerOfTen first / powerOfTen second / powerOfTen (min (down - first - second) 308))

/-- The value of a list of digits. -/
def digitsValue (digits : List Nat) : Nat := digits.foldl (10 * · + ·) 0

/-- The exponent after the letter `e`: an optional sign and at least one digit, up to the end. -/
def exponentValue (cs : List Char) : Option Int :=
  let (negative, rest) := match cs with
    | '-' :: rest => (true, rest)
    | '+' :: rest => (false, rest)
    | rest => (false, rest)
  match splitDigits rest with
  | ([], _) => none
  | (digits, []) => some (if negative then -(digitsValue digits : Int) else digitsValue digits)
  | (_, _ :: _) => none

/-- A double with the given sign, if its magnitude is one. -/
def signedReal (negative : Bool) : Option Float → Json
  | some magnitude => .real (if negative then -magnitude else magnitude)
  | none => .unreadable

/-- Whether a whole number is kept exact: one without a sign always is, given that it fits an
unsigned word, and one with a sign if it is not zero and fits a signed word. -/
def isExact (negative : Bool) (word : Nat) : Bool :=
  !negative || (0 < word && Int64.minValue.toInt ≤ -(word : Int))

/-- What follows the whole part of a number: a fraction, an exponent, both or neither. -/
def numberTail (negative : Bool) (word : Nat) (dropped : Nat) (rest : List Char) : Option Json :=
  match rest with
  | [] =>
    if dropped = 0 && isExact negative word then
      some (.int (if negative then -(word : Int) else word))
    else some (signedReal negative (scale word dropped))
  | '.' :: more =>
    match splitDigits more with
    | ([], _) => none
    | (digits, after) =>
      let (full, count) := gather word digits
      let exponent := (dropped : Int) - count
      match after with
      | [] => some (signedReal negative (scale full exponent))
      | c :: power =>
        if c == 'e' || c == 'E' then
          (exponentValue power).map fun e => signedReal negative (scale full (exponent + e))
        else none
  | c :: power =>
    if c == 'e' || c == 'E' then
      (exponentValue power).map fun e => signedReal negative (scale word (dropped + e))
    else none

/-- Reads a number.  The whole part has no needless zero in front. -/
def ofNumber (cs : List Char) : Option Json :=
  let (negative, rest) := match cs with
    | '-' :: rest => (true, rest)
    | rest => (false, rest)
  match splitDigits rest with
  | ([], _) => none
  | (0 :: _ :: _, _) => none
  | (digits, after) =>
    let (word, count) := gather 0 digits
    numberTail negative word (digits.length - count) after

end UiLowering.Json
