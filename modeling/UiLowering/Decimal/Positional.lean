import UiLowering.Decimal.Shortest

/-!
# Floating-point constants in target text

A double is written with the fewest digits that read back, never with an exponent and always with
a fractional digit: `100.0`, `0.001`, `-0.0`.  The infinities and the value that is no number are
written as words.
-/

set_option autoImplicit false

namespace UiLowering

/-- The digits of `d` to the left and to the right of the point, the latter without zeros at their
end. -/
def Decimal.places (d : Decimal) : List Char × List Char :=
  let fraction := (-d.exponent).toNat
  let scale := tenTo fraction
  let whole := d.digits * tenTo d.exponent.toNat / scale
  let digits := Nat.toDigits 10 (d.digits % scale)
  let padded := if fraction = 0 then [] else List.replicate (fraction - digits.length) '0' ++ digits
  (Nat.toDigits 10 whole, (padded.reverse.dropWhile (· == '0')).reverse)

/-- A decimal in positional notation, with at least one digit on either side of the point. -/
def Decimal.positional (d : Decimal) : String :=
  let (whole, fraction) := d.places
  String.ofList (whole ++ '.' :: if fraction.isEmpty then ['0'] else fraction)

/-- What the sixty-four bits of a double stand for. -/
inductive DoubleClass where
  | nan
  | infinite (negative : Bool)
  | zero (negative : Bool)
  | finite (negative : Bool) (magnitude : Binary)

/-- Takes sign, exponent and fraction of a double apart. -/
def DoubleClass.ofBits (bits : UInt64) : DoubleClass :=
  let n := bits.toNat
  let negative := n >>> 63 == 1
  let exponent : Nat := (n >>> 52) % 2048
  let fraction : Nat := n % (1 <<< 52)
  if exponent == 2047 then
    if fraction == 0 then .infinite negative else .nan
  else if exponent == 0 then
    if fraction == 0 then .zero negative
    else .finite negative ⟨fraction, -1074, false⟩
  else .finite negative ⟨(1 <<< 52) + fraction, (exponent : Int) - 1075, fraction == 0⟩

/-- A text, after a minus sign if the number is negative. -/
def signed (negative : Bool) (text : String) : String :=
  if negative then "-" ++ text else text

/-- How a double is written in target text. -/
def DoubleClass.text : DoubleClass → String
  | .nan => "NaN"
  | .infinite negative => signed negative "inf"
  | .zero negative => signed negative "0.0"
  | .finite negative magnitude => signed negative magnitude.shortest.positional

/-- How a double is written in target text. -/
def floatText (value : Float) : String := (DoubleClass.ofBits value.toBits).text

end UiLowering
