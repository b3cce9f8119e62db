/-!
# The shortest decimal of a binary fraction

A finite binary number `m * 2 ^ q` is read back from every decimal that lies nearer to it than to
its neighbours.  `shortest` returns the decimal with the fewest digits among these, and of several
with that many digits the nearest; of two equally near ones the larger.

For each number of digits only two decimals can qualify, the grid points on either side of the
value, so the search compares whole numbers and nothing is rounded on the way.
-/

set_option autoImplicit false

namespace UiLowering

/-- A power of ten. -/
def tenTo (n : Nat) : Nat := Nat.pow 10 n

/-- The number `digits * 10 ^ exponent`. -/
structure Decimal where
  digits : Nat
  exponent : Int

/-- The positive binary number `mantissa * 2 ^ exponent`.  `narrow` marks the least mantissa of
its exponent, for which the neighbour below is only half as far away as the one above. -/
structure Binary where
  mantissa : Nat
  exponent : Int
  narrow : Bool

namespace Binary

/-- Everything is counted in units of `10 ^ (-grid)`, fine enough for all decimals of seventeen
digits next to a number of double precision. -/
def grid : Nat := 400

/-- A binary number with its interval, brought to whole numbers.  The decimal
`d * 10 ^ (e - grid)` compares with the value as `d * 10 ^ e * unit` with `value`. -/
structure Scaled where
  low : Nat
  value : Nat
  high : Nat
  unit : Nat
  /-- Whether the ends of the interval still read back as the number. -/
  closed : Bool

/-- The interval of the reals that are read back as `b`, in quarters of its last place. -/
def scaled (b : Binary) : Scaled :=
  let quarter := b.exponent - 2
  let factor := tenTo grid <<< quarter.toNat
  { low := (4 * b.mantissa - if b.narrow then 1 else 2) * factor
    value := 4 * b.mantissa * factor
    high := (4 * b.mantissa + 2) * factor
    unit := 1 <<< (-quarter).toNat
    closed := b.mantissa % 2 == 0 }

/-- Whether the point lies in the interval. -/
def Scaled.contains (s : Scaled) (point : Nat) : Bool :=
  if s.closed then s.low ≤ point && point ≤ s.high else s.low < point && point < s.high

/-- The multiple of `10 ^ (place - grid)` that is read back as the number, if there is one; the
nearer of two, and the larger of two equally near. -/
def Scaled.onGrid? (s : Scaled) (place : Nat) : Option Nat :=
  let step := tenTo place * s.unit
  let below := s.value / step
  let above := below + 1
  match s.contains (below * step), s.contains (above * step) with
  | true, true =>
    if s.value - below * step < above * step - s.value then some below else some above
  | true, false => some below
  | false, true => some above
  | false, false => none

/-- Tries grids from `place` downwards, `count` of them. -/
def Scaled.search (s : Scaled) (place : Nat) : Nat → Decimal
  | 0 => ⟨s.value / (tenTo place * s.unit), (place : Int) - grid⟩
  | count + 1 =>
    match s.onGrid? place with
    | some digits => ⟨digits, (place : Int) - grid⟩
    | none => s.search (place - 1) count

/-- The shortest decimal that is read back as `b`. -/
def shortest (b : Binary) : Decimal :=
  let s := b.scaled
  let length := (Nat.toDigits 10 (s.value / s.unit)).length
  s.search (length - 1) 17

end Binary

end UiLowering
