import Clausal.Term
import Clausal.Text.Quoted

/-! # Predicate indicators

The name and the number of arguments that identify a predicate.
-/

namespace Clausal

/-- The name and the number of arguments of a predicate. -/
structure Indicator where
  /-- The name. -/
  name : String
  /-- The number of arguments. -/
  arity : Nat
  deriving DecidableEq, Repr

namespace Indicator

/-- The order of indicators: by name, then by the number of arguments. -/
def compare (a b : Indicator) : Ordering :=
  (Ord.compare a.name b.name).then (Ord.compare a.arity b.arity)

/-- The indicator as a term. -/
def term (pi : Indicator) : Term := .indicator pi.name pi.arity

/-- The indicator as text, with the name quoted if it has to be. -/
def text (pi : Indicator) : String := Text.quotedName pi.name ++ "/" ++ toString pi.arity

end Indicator

end Clausal
