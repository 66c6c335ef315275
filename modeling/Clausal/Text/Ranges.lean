/-! # Sets of characters

A set of characters is given as an ascending list of closed ranges of code points.
-/

namespace Clausal.Text

/-- Whether the code point of `c` lies in one of the ranges. -/
def inRanges (ranges : List (Nat × Nat)) (c : Char) : Bool :=
  ranges.any fun (first, last) => first ≤ c.toNat && c.toNat ≤ last

end Clausal.Text
