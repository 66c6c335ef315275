/-! # Double precision numbers

A double precision number is held as its 64 bits, so that every operation on it is integer
arithmetic: the sign, the value `m * 2 ^ q`, the order in which zero has one place and every
not-a-number stands above all numbers, and the double nearest to a decimal (`ofDecimal`).
-/

namespace Clausal

/-- A double precision number, given by its bits. -/
structure Binary64 where
  /-- Sign, exponent and fraction, from the most significant bit on. -/
  bits : UInt64
  deriving DecidableEq, Repr, Inhabited

namespace Binary64

/-- The weight of the sign bit, `2 ^ 63`. -/
def signBit : Nat := 0x8000000000000000

/-- The weight of the bit above the fraction, `2 ^ 52`. -/
def leadingBit : Nat := 0x10000000000000

/-- The bits below the sign. Larger numbers have larger ones. -/
def magnitude (x : Binary64) : Nat := x.bits.toNat % signBit

/-- Whether the sign bit is set. -/
def isNegative (x : Binary64) : Bool := signBit ≤ x.bits.toNat

/-- The magnitude of infinity. -/
def infinityMagnitude : Nat := 0x7FF0000000000000

/-- Whether `x` is not a number. -/
def isNaN (x : Binary64) : Bool := infinityMagnitude < x.magnitude

/-- Whether `x` is one of the two infinities. -/
def isInfinite (x : Binary64) : Bool := x.magnitude = infinityMagnitude

/-- The number with the other sign. -/
def neg (x : Binary64) : Binary64 := ⟨x.bits ^^^ .ofNat signBit⟩

/-- The place of `x` in the order of numbers. The two zeros share one, and so do all that are not
numbers, which stand last. -/
def rank (x : Binary64) : Int :=
  if x.isNaN then infinityMagnitude + 1
  else if x.isNegative then -x.magnitude
  else x.magnitude

/-- The order of numbers, completed to a total one. -/
def compare (x y : Binary64) : Ordering := Ord.compare x.rank y.rank

/-- Whether two numbers have the same place in the order. -/
def same (x y : Binary64) : Bool := x.rank = y.rank

/-- The value of a finite number as `m * 2 ^ q`, without its sign. -/
def parts (x : Binary64) : Nat × Int :=
  let exponent := x.magnitude / leadingBit
  let fraction := x.magnitude % leadingBit
  if exponent = 0 then (fraction, -1074) else (leadingBit + fraction, (exponent : Int) - 1075)

/-- The power of `base` to the exponent `e`, and one if `e` is negative. A fraction is multiplied by
`base ^ e`, whatever the sign of `e`, if its numerator is multiplied by `power base e` and its
denominator by `power base (-e)`. -/
def power (base : Nat) (e : Int) : Nat := Nat.pow base e.toNat

/-- The natural number nearest to `num / den`, the even one if there are two. -/
def roundHalfEven (num den : Nat) : Nat :=
  let whole := num / den
  let rest := num % den
  if 2 * rest < den || (2 * rest = den && whole % 2 = 0) then whole else whole + 1

/-- The magnitude of the double nearest to `num / den`, of two the one with the even last bit.
With the unit `2 ^ q` in the last place, a magnitude is `(q + 1074) * leadingBit` plus the count of
units, and a count that rounds up to the next power of two carries into the exponent. -/
def nearestMagnitude (num den : Nat) : Nat :=
  if num = 0 then 0
  else
    let guess : Int := (num.log2 : Int) - den.log2 - 52
    let tooLarge := num * power 2 (-guess) < den * power 2 guess * leadingBit
    let q := max (-1074) (if tooLarge then guess - 1 else guess)
    let units := roundHalfEven (num * power 2 (-q)) (den * power 2 q)
    min infinityMagnitude ((q + 1074).toNat * leadingBit + units)

/-- The double nearest to `coefficient * 10 ^ exponent`. The first cases keep the powers of ten
small: beyond them every value rounds to infinity or to zero. -/
def ofDecimal (coefficient : Nat) (exponent : Int) : Binary64 :=
  let digits : Int := (Nat.toDigits 10 coefficient).length
  let magnitude :=
    if coefficient = 0 then 0
    else if 320 < digits + exponent then infinityMagnitude
    else if digits + exponent < -340 then 0
    else nearestMagnitude (coefficient * power 10 exponent) (power 10 (-exponent))
  ⟨.ofNat magnitude⟩

end Binary64

end Clausal
