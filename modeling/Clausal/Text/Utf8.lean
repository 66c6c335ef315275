/-! # UTF-8

A lead byte announces how many bytes a character takes (`width?`), and the bytes taken either encode
a character (`char?`) or are refused as a whole: stray or missing continuation bytes, overlong
forms, surrogates and code points beyond the last one encode nothing.
-/

namespace Clausal.Text.Utf8

/-- How many bytes a character takes that begins with the byte `lead`, if one can begin with it. -/
def width? (lead : UInt8) : Option Nat :=
  if lead < 0x80 then some 1
  else if lead < 0xC0 then none
  else if lead < 0xE0 then some 2
  else if lead < 0xF0 then some 3
  else if lead < 0xF8 then some 4
  else none

/-- The payload of a continuation byte. -/
def continuation? (byte : UInt8) : Option Nat :=
  if 0x80 ≤ byte && byte < 0xC0 then some (byte.toNat % 0x40) else none

/-- The character at a code point, unless it is a surrogate or beyond the last code point. -/
def scalar? (code : Nat) : Option Char :=
  if h : code.isValidChar then some (Char.ofNatAux code h) else none

/-- The character at a code point that has to be at least `least`, the first one that needs as many
bytes as were used. -/
def scalarFrom? (least code : Nat) : Option Char :=
  if code < least then none else scalar? code

/-- The character encoded by exactly the given bytes. -/
def char? : List UInt8 → Option Char
  | [a] => if a < 0x80 then scalar? a.toNat else none
  | [a, b] => do
    let x ← continuation? b
    scalarFrom? 0x80 (a.toNat % 0x20 * 0x40 + x)
  | [a, b, c] => do
    let x ← continuation? b
    let y ← continuation? c
    scalarFrom? 0x800 ((a.toNat % 0x10 * 0x40 + x) * 0x40 + y)
  | [a, b, c, d] => do
    let x ← continuation? b
    let y ← continuation? c
    let z ← continuation? d
    scalarFrom? 0x10000 (((a.toNat % 0x08 * 0x40 + x) * 0x40 + y) * 0x40 + z)
  | _ => none

end Clausal.Text.Utf8
