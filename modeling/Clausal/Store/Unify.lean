import Clausal.Store.Basic

/-! # Unification

Two terms are unified over finite trees, with the arguments taken from left to right. Of two
variables the younger is bound to the older, and no variable is bound to a term that it occurs in.
When two terms do not unify, the bindings made so far stay; whoever asked undoes them to a mark of
its own.
-/

namespace Clausal.Store

/-- Whether the free variable `v` occurs in `t` within the given number of levels. -/
def occursFrom (s : Store) (v : Ref) : Nat → Ref → Bool
  | 0, _ => false
  | n + 1, t =>
    match s.view t with
    | .var w => w = v
    | .literal _ => false
    | .compound _ args => args.any (occursFrom s v n)

/-- Whether the free variable `v` occurs in `t`. -/
def occurs (s : Store) (v t : Ref) : Bool := s.occursFrom v (s.size + 1) t

/-- Binds the free variable `v` to `t` unless it occurs there. -/
def bindChecked (s : Store) (v t : Ref) : Bool × Store :=
  if s.occurs v t then (false, s) else (true, s.bind v t)

/-- Unifies the terms of two lists pair by pair until one pair fails. -/
def unifyPairs (one : Store → Ref → Ref → Bool × Store) (s : Store) :
    List Ref → List Ref → Bool × Store
  | x :: xs, y :: ys =>
    match one s x y with
    | (true, s) => unifyPairs one s xs ys
    | (false, s) => (false, s)
  | _, _ => (true, s)

/-- Unifies two terms, descending at most the given number of levels. -/
def unifyFrom : Nat → Store → Ref → Ref → Bool × Store
  | 0, s, _, _ => (false, s)
  | n + 1, s, a, b =>
    let a := s.deref a
    let b := s.deref b
    if a = b then (true, s)
    else
      match s.view a, s.view b with
      | .var _, .var _ => (true, if b.index < a.index then s.bind a b else s.bind b a)
      | .var _, _ => s.bindChecked a b
      | _, .var _ => s.bindChecked b a
      | .literal x, .literal y => (x.same y, s)
      | .compound f xs, .compound g ys =>
        if f = g && xs.length = ys.length then unifyPairs (unifyFrom n) s xs ys else (false, s)
      | _, _ => (false, s)

/-- Unifies two terms and says whether that succeeded. -/
def unify (s : Store) (a b : Ref) : Bool × Store := unifyFrom (s.size + 1) s a b

end Clausal.Store
