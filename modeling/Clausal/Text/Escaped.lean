import Clausal.Text.Visible

/-! # Characters in messages

A single character as messages show it: between single quotes, and escaped if it would not be seen
or would end the quotes.
-/

namespace Clausal.Text

/-- The hexadecimal digits of a number, in lower case. -/
def hexDigits (n : Nat) : String := String.ofList (Nat.toDigits 16 n)

/-- The character between single quotes. -/
def escapedChar (c : Char) : String :=
  let body :=
    match c with
    | '\x00' => "\\0"
    | '\t' => "\\t"
    | '\r' => "\\r"
    | '\n' => "\\n"
    | '\x27' => "\\'"
    | '\\' => "\\\\"
    | c => if isVisible c then c.toString else "\\u\x7b" ++ hexDigits c.toNat ++ "\x7d"
  "'" ++ body ++ "'"

end Clausal.Text
