import Clausal.Text.Alphabetic
import Clausal.Text.Numeric
import Clausal.Text.Uppercase

/-! # Character classes

The character classes of the term language: what separates tokens, what joins into symbolic names,
what stands alone, what quotes, and what makes up names of letters and digits.
-/

namespace Clausal.Text

/-- White space of any script (the Unicode property `White_Space`). -/
def isBlank (c : Char) : Bool :=
  c.isWhitespace || c = '\x0b' || c = '\x0c' || c = '\u0085' || c = '\u00a0' || c = '\u1680' ||
    ('\u2000' ≤ c && c ≤ '\u200a') || c = '\u2028' || c = '\u2029' || c = '\u202f' ||
    c = '\u205f' || c = '\u3000'

/-- The control characters (the general category `Cc`). -/
def isControl (c : Char) : Bool :=
  c.val < 0x20 || (0x7F ≤ c.val && c.val < 0xA0)

/-- Layout separates tokens. -/
def isLayout (c : Char) : Bool :=
  c = ' ' || c = '\n' || c = '\r' || c = '\t' || c = '\x0b' || c = '\x0c'

/-- The characters that join into symbolic names. -/
def isSymbol (c : Char) : Bool :=
  "#$&*+-./:<=>?@^~\\".toList.contains c

/-- The characters that are tokens by themselves, and the one that begins a comment. -/
def isSolo (c : Char) : Bool :=
  "!(),;[]\x7b\x7d|%".toList.contains c

/-- The characters that quote or escape. -/
def isMeta (c : Char) : Bool :=
  c = '\\' || c = '\x27' || c = '"' || c = '\x60'

/-- A decimal digit. -/
def isDigit (c : Char) : Bool := '0' ≤ c && c ≤ '9'

/-- An octal digit. -/
def isOctalDigit (c : Char) : Bool := '0' ≤ c && c ≤ '7'

/-- The value of a digit of the given radix, at most sixteen. -/
def digitValue? (radix : Nat) (c : Char) : Option Nat :=
  let value :=
    if isDigit c then c.toNat - '0'.toNat
    else if 'a' ≤ c && c ≤ 'f' then c.toNat - 'a'.toNat + 10
    else if 'A' ≤ c && c ≤ 'F' then c.toNat - 'A'.toNat + 10
    else radix
  if value < radix then some value else none

/-- Whether the character is a digit of the given radix. -/
def isDigitOf (radix : Nat) (c : Char) : Bool := (digitValue? radix c).isSome

/-- The number that digits denote, the most significant digit first. -/
def digitsValue (radix : Nat) (digits : List Char) : Nat :=
  digits.foldl (fun n c => n * radix + (digitValue? radix c).getD 0) 0

/-- The characters of names other than digits: whatever belongs to no other class, and the
underscore. -/
def isNameChar (c : Char) : Bool :=
  c = '_' || (!isNumeric c && !isBlank c && !isControl c && !isSymbol c && !isLayout c &&
    !isMeta c && !isSolo c)

/-- The characters that continue a name. -/
def isAlnum (c : Char) : Bool := isNameChar c || isDigit c

/-- The characters that begin a variable. -/
def isVariableStart (c : Char) : Bool := isUppercase c || c = '_'

/-- The characters that begin a name that needs no quotes. -/
def isSmallLetter (c : Char) : Bool := isAlphabetic c && !isUppercase c

end Clausal.Text
