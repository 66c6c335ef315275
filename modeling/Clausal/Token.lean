import Clausal.Binary64.Text
import Clausal.Literal

/-! # Tokens

The words of the term language: constants, variables, quoted text and punctuation.
-/

namespace Clausal

/-- A token. -/
inductive Token where
  /-- A name or a number. -/
  | literal (l : Literal)
  /-- The name of a variable. -/
  | var (name : String)
  /-- Text between double quotes. -/
  | quoted (text : String)
  /-- Text between back quotes. -/
  | backQuoted (text : String)
  /-- An opening bracket after layout. -/
  | openGroup
  /-- An opening bracket right after the token before it. -/
  | openArgs
  /-- A closing bracket. -/
  | close
  /-- An opening square bracket. -/
  | openList
  /-- A closing square bracket. -/
  | closeList
  /-- An opening brace. -/
  | openCurly
  /-- A closing brace. -/
  | closeCurly
  /-- The bar between the items of a list and its tail. -/
  | bar
  /-- A comma. -/
  | comma
  /-- The full stop that ends a term. -/
  | stop
  deriving DecidableEq, Repr

namespace Token

/-- The token as messages show it: names without quotes, numbers in full. -/
def text : Token → String
  | literal (.atom name) => name
  | literal (.small n) => toString n.toInt
  | literal (.big n) => toString n
  | literal (.float x) => x.plain
  | var name => name
  | quoted text => "\"" ++ text ++ "\""
  | backQuoted text => "\x60" ++ text ++ "\x60"
  | openGroup | openArgs => "("
  | close => ")"
  | openList => "["
  | closeList => "]"
  | openCurly => "\x7b"
  | closeCurly => "\x7d"
  | bar => "|"
  | comma => ","
  | stop => "."

end Token

end Clausal
