import Clausal.Text.CharClass
import Clausal.Text.Escaped

/-! # Quoted names

A name is written so that it reads back as the name: bare where that is possible, and else between
single quotes with what cannot stand there escaped.
-/

namespace Clausal.Text

/-- Whether the characters after `first`, a symbol, make up a name with it. A point alone would end
the term, and a slash and a star would begin a comment. -/
def isSymbolicName (first : Char) (rest : List Char) : Bool :=
  match first, rest with
  | '/', '*' :: _ => false
  | '.', [] => false
  | _, rest => rest.all isSymbol

/-- Whether the name reads back as itself without quotes. -/
def isBareName : List Char → Bool
  | [] => false
  | first :: rest =>
    if isSmallLetter first then rest.all isAlnum
    else if isSymbol first then isSymbolicName first rest
    else if first = ';' || first = '!' then rest.isEmpty
    else if first = '[' then rest = [']']
    else if first = '\x7b' then rest = ['\x7d']
    else false

/-- The character as it is written between single quotes. -/
def quotedChar (c : Char) : String :=
  match c with
  | '\x27' => "\\'"
  | '\n' => "\\n"
  | '\r' => "\\r"
  | '\t' => "\\t"
  | '\x0b' => "\\v"
  | '\x0c' => "\\f"
  | '\x08' => "\\b"
  | '\x07' => "\\a"
  | '\\' => "\\\\"
  | ' ' => " "
  | c => if isBlank c || isControl c then "\\x" ++ hexDigits c.toNat ++ "\\" else c.toString

/-- The name as text that reads back as it. -/
def quotedName (name : String) : String :=
  if isBareName name.toList then name
  else "'" ++ String.join (name.toList.map quotedChar) ++ "'"

end Clausal.Text
