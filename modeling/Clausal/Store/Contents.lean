import Clausal.Store.Basic

/-! # What a term consists of

The free variables of a term of the store, and its items if it is read as a list.
-/

namespace Clausal

namespace Store

/-- Adds the free variables of `t` that are not among `vars`, descending at most the given number
of levels. -/
def freeVarsFrom (s : Store) : Nat → List Ref → Ref → List Ref
  | 0, vars, _ => vars
  | n + 1, vars, t =>
    match s.view t with
    | .var v => if vars.contains v then vars else vars ++ [v]
    | .literal _ => vars
    | .compound _ args => args.foldl (freeVarsFrom s n) vars

/-- The distinct free variables of `t` in the order in which they are met, arguments left to right
and depth first. -/
def freeVars (s : Store) (t : Ref) : List Ref := s.freeVarsFrom (s.size + 1) [] t

/-- Whether `t` has no free variable in the given number of levels. -/
def groundFrom (s : Store) : Nat → Ref → Bool
  | 0, _ => true
  | n + 1, t =>
    match s.view t with
    | .var _ => false
    | .literal _ => true
    | .compound _ args => args.all (groundFrom s n)

/-- Whether `t` has no free variable. -/
def isGround (s : Store) (t : Ref) : Bool := s.groundFrom (s.size + 1) t

end Store

/-- How a chain of list cells ends. -/
inductive ListEnd where
  /-- In the empty list. -/
  | proper
  /-- In a free variable. -/
  | partly (tail : Ref)
  /-- In any other term. -/
  | improper (tail : Ref)
  deriving DecidableEq, Repr

namespace Store

/-- The items of at most the given number of list cells, and how the chain ends. -/
def listFrom (s : Store) : Nat → Ref → List Ref × ListEnd
  | 0, t => ([], .improper (s.deref t))
  | n + 1, t =>
    match s.view t with
    | .compound "." [head, tail] =>
      let (items, ending) := listFrom s n tail
      (head :: items, ending)
    | .literal (.atom "[]") => ([], .proper)
    | .var v => ([], .partly v)
    | _ => ([], .improper (s.deref t))

/-- The term read as a list: its items and how it ends. -/
def listShape (s : Store) (t : Ref) : List Ref × ListEnd := s.listFrom (s.size + 1) t

end Store

end Clausal
