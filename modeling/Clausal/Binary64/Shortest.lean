import Clausal.Binary64.Basic

/-! # Shortest decimals

The decimal that names a double: the one of fewest digits among those that are nearer to the double
than to any other, and of these the nearest to it.

All is exact arithmetic on fractions over a common denominator. The decimals of `n` digits form a
grid, and if any of its points names the double then one of the two points around it does, so
`shortest` tries these two for each `n` in turn. Seventeen digits always suffice.
-/

namespace Clausal.Binary64

/-- The reals that round to a double, over a common denominator. -/
structure Cell where
  /-- The numerator of the double itself. -/
  value : Nat
  /-- The numerator of the lower end. -/
  lower : Nat
  /-- The numerator of the upper end. -/
  upper : Nat
  /-- The common denominator. -/
  den : Nat
  /-- Whether the ends themselves round to the double. -/
  closed : Bool

/-- The cell of a finite double that is not zero. Just above a power of two the neighbour below is
only half as far away as the one above. -/
def cell (x : Binary64) : Cell :=
  let (m, q) := x.parts
  let below := if m = leadingBit && q ≠ -1074 then 1 else 2
  let scale := power 2 q
  { value := 4 * m * scale
    lower := (4 * m - below) * scale
    upper := (4 * m + 2) * scale
    den := 4 * power 2 (-q)
    closed := m % 2 = 0 }

/-- Whether `num / den` rounds to the double of the cell, where `den` is the cell's. -/
def Cell.contains (c : Cell) (num : Nat) : Bool :=
  if c.closed then c.lower ≤ num && num ≤ c.upper else c.lower < num && num < c.upper

/-- The exponent of the last power of ten at or below `num / den`. The binary logarithm gives an
estimate from below. -/
def decade (num den : Nat) : Int :=
  if den ≤ num then climb 4 ((num / den).log2 * 30102 / 100000 : Nat)
  else climb 5 (-((den / num).log2 * 30102 / 100000 : Nat) - 2)
where
  /-- Whether `10 ^ e` is at most `num / den`. -/
  reaches (e : Int) : Bool := den * power 10 e ≤ num * power 10 (-e)
  /-- Raises `e` while the next power of ten is still reached. -/
  climb : Nat → Int → Int
    | 0, e => e
    | n + 1, e => if reaches (e + 1) then climb n (e + 1) else e

/-- The cell with numerators and denominator scaled so that the grid of unit `10 ^ e` lies at the
multiples of the result's second component. -/
def Cell.onGrid (c : Cell) (e : Int) : Cell × Nat :=
  let scale := power 10 (-e)
  ({ c with value := c.value * scale, lower := c.lower * scale, upper := c.upper * scale },
    c.den * power 10 e)

/-- The point of the grid of unit `10 ^ e` that names the double, as a count of units. The nearer
of two wins, and the upper one if they are equally near. -/
def Cell.gridPoint? (c : Cell) (e : Int) : Option Nat :=
  let (c, unit) := c.onGrid e
  let low := c.value / unit
  let high := low + 1
  match c.contains (low * unit), c.contains (high * unit) with
  | false, false => none
  | true, false => some low
  | false, true => some high
  | true, true => some (if c.value - low * unit < high * unit - c.value then low else high)

/-- A decimal `digits * 10 ^ exponent`, where the digits do not end in zero. -/
structure Decimal where
  /-- The digits, the most significant first. -/
  digits : List Char
  /-- The power of ten of the last digit. -/
  exponent : Int
  deriving DecidableEq, Repr

/-- The decimal of a positive coefficient, with the zeros at its end moved into the exponent. -/
def Decimal.ofCoefficient (coefficient : Nat) (exponent : Int) : Decimal :=
  let digits := (Nat.toDigits 10 coefficient).reverse
  let zeros := digits.takeWhile (· = '0')
  { digits := (digits.drop zeros.length).reverse, exponent := exponent + zeros.length }

/-- The power of ten of the first digit. -/
def Decimal.leading (d : Decimal) : Int := d.exponent + d.digits.length - 1

/-- The decimal that names a finite double, without its sign. -/
def shortest (x : Binary64) : Decimal :=
  if x.magnitude = 0 then { digits := ['0'], exponent := 0 }
  else
    let c := x.cell
    let top := decade c.value c.den
    go c top 17 top
where
  /-- Tries the grids from unit `10 ^ e` down to seventeen digits. -/
  go (c : Cell) (top : Int) : Nat → Int → Decimal
    | 0, e => .ofCoefficient (c.onGrid e).1.value e
    | n + 1, e =>
      match c.gridPoint? e with
      | some point => .ofCoefficient point e
      | none => go c top n (e - 1)

end Clausal.Binary64
