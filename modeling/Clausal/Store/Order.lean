import Clausal.Store.Basic

/-! # The standard order of terms

Variables stand before floats, integers, names and compounds, in this order. Variables are ordered
by age, constants as `Literal.compare` says, and compounds by the number of arguments, then the
name, then the arguments from left to right.
-/

namespace Clausal.Store

/-- The standard order, looking at most the given number of levels deep. -/
def compareFrom (s : Store) : Nat → Ref → Ref → Ordering
  | 0, _, _ => .eq
  | n + 1, a, b =>
    let a := s.deref a
    let b := s.deref b
    if a = b then .eq
    else
      match s.view a, s.view b with
      | .var x, .var y => Ord.compare x.index y.index
      | .var _, _ => .lt
      | _, .var _ => .gt
      | .literal x, .literal y => x.compare y
      | .literal _, .compound _ _ => .lt
      | .compound _ _, .literal _ => .gt
      | .compound f xs, .compound g ys =>
        (Ord.compare xs.length ys.length).then <| (Ord.compare f g).then <|
          xs.compareLex (compareFrom s n) ys

/-- The standard order of two terms. -/
def compare (s : Store) (a b : Ref) : Ordering := s.compareFrom (s.size + 1) a b

/-- Whether two terms are the same as they stand: free variables are the same only as
themselves. -/
def same (s : Store) (a b : Ref) : Bool := s.compare a b == .eq

end Clausal.Store
