import Clausal.Binary64.Shortest

/-! # Doubles as text

Both forms show the shortest decimal that names the double. `written` shows it as a number with a
fraction, and with an exponent if it is large or small; `plain` keeps to positional notation.
-/

namespace Clausal.Binary64

/-- The decimal in positional notation: its whole part, and its fraction without the point. -/
def Decimal.positional (d : Decimal) : String × String :=
  if 0 ≤ d.exponent then
    (String.ofList (d.digits ++ List.replicate d.exponent.toNat '0'), "")
  else
    let places := (-d.exponent).toNat
    let padded := List.replicate (places + 1 - d.digits.length) '0' ++ d.digits
    (String.ofList (padded.take (padded.length - places)),
      String.ofList (padded.drop (padded.length - places)))

/-- The decimal with one digit before the point and the power of ten after the letter `e`. -/
def Decimal.scientific (d : Decimal) : String :=
  let fraction := if d.digits.tail.isEmpty then ['0'] else d.digits.tail
  String.ofList (d.digits.take 1) ++ "." ++ String.ofList fraction ++ "e" ++ toString d.leading

/-- The text of `x`, where `number` writes the decimal of a finite one. -/
def textWith (number : Decimal → String) (x : Binary64) : String :=
  if x.isNaN then "NaN"
  else
    (if x.isNegative then "-" else "") ++
      if x.isInfinite then "inf" else number x.shortest

/-- The text that reads back as `x`: positional from `10 ^ -4` up to below `10 ^ 16`, and always
with a fraction. -/
def written : Binary64 → String :=
  textWith fun d =>
    if -4 ≤ d.leading && d.leading < 16 then
      let (whole, fraction) := d.positional
      whole ++ "." ++ if fraction.isEmpty then "0" else fraction
    else d.scientific

/-- The text of `x` in positional notation, with a fraction only if it has one. -/
def plain : Binary64 → String :=
  textWith fun d =>
    let (whole, fraction) := d.positional
    if fraction.isEmpty then whole else whole ++ "." ++ fraction

end Clausal.Binary64
