import Clausal.Binary64.Basic

/-! # Atomic constants

Integers come in two representations, by whether they fit in 64 signed bits; `Literal.ofInt`
chooses the right one, and all constants that are read or computed are made by it.
-/

namespace Clausal

/-- An atomic constant. -/
inductive Literal where
  /-- A name. -/
  | atom (name : String)
  /-- An integer that fits in 64 signed bits. -/
  | small (n : Int64)
  /-- An integer that does not. -/
  | big (n : Int)
  /-- A double precision number. -/
  | float (x : Binary64)
  deriving DecidableEq, Repr

namespace Literal

/-- The first natural number that does not fit in 64 signed bits, `2 ^ 63`. -/
def smallLimit : Int := 0x8000000000000000

/-- The integer in the representation that its size calls for. -/
def ofInt (n : Int) : Literal :=
  if -smallLimit ≤ n && n < smallLimit then small (.ofInt n) else big n

/-- Whether the constant is a number. -/
def isNumber : Literal → Bool
  | atom _ => false
  | _ => true

/-- The number with the other sign; names stay as they are. -/
def neg : Literal → Literal
  | atom name => atom name
  | small n => ofInt (-n.toInt)
  | big n => ofInt (-n)
  | float x => float x.neg

/-- Whether two constants are the same one. Numbers of different kinds never are, the two zeros
are, and so are all floats that are not numbers. -/
def same : Literal → Literal → Bool
  | atom a, atom b => a = b
  | small m, small n => m = n
  | big m, big n => m = n
  | float x, float y => x.same y
  | _, _ => false

/-- Floats stand before integers and integers before names. -/
def kindRank : Literal → Nat
  | float _ => 1
  | small _ => 2
  | big _ => 2
  | atom _ => 3

/-- The standard order of constants: floats and integers by value, names alphabetically. -/
def compare : Literal → Literal → Ordering
  | float x, float y => x.compare y
  | small m, small n => Ord.compare m.toInt n.toInt
  | small m, big n => Ord.compare m.toInt n
  | big m, small n => Ord.compare m n.toInt
  | big m, big n => Ord.compare m n
  | atom a, atom b => Ord.compare a b
  | a, b => Ord.compare a.kindRank b.kindRank

end Literal

end Clausal
