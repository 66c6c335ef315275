import Clausal.Store.Basic
import Clausal.Term

/-! # Terms out of a store and into one

`snapshot` takes a term out of a store with its bindings resolved, as a term that owns its
structure, and `build` puts one in.
-/

namespace Clausal.Store

/-- The term at `t` down to the given number of levels. A variable keeps its place as its number. -/
def snapshotFrom (s : Store) : Nat → Ref → Term
  | 0, _ => .atom "[]"
  | n + 1, t =>
    match s.view t with
    | .var v => .var ⟨v.index, s.varName? v⟩
    | .literal l => .literal l
    | .compound name args => .compound name (args.map (snapshotFrom s n))

/-- The term at `t` with its bindings resolved. -/
def snapshot (s : Store) (t : Ref) : Term := s.snapshotFrom (s.size + 1) t

/-- Which cell stands for each variable met so far. -/
abbrev Placed := List (TermVar × Ref)

mutual

/-- Adds a term to the store, where `placed` holds the variables met before. Each constant and each
compound gets a cell of its own, compounds after their arguments. -/
def buildWith (s : Store) (placed : Placed) : Term → Ref × Store × Placed
  | .literal l =>
    let (t, s) := s.literal l
    (t, s, placed)
  | .var v =>
    match placed.lookup v with
    | some t => (t, s, placed)
    | none =>
      let (t, s) := s.var v.name
      (t, s, (v, t) :: placed)
  | .compound name args =>
    let (args, s, placed) := buildArgs s placed args
    let (t, s) := s.push (.compound name args)
    (t, s, placed)

/-- Adds the arguments of a compound, first to last. -/
def buildArgs (s : Store) (placed : Placed) : List Term → List Ref × Store × Placed
  | [] => ([], s, placed)
  | t :: ts =>
    let (t, s, placed) := buildWith s placed t
    let (ts, s, placed) := buildArgs s placed ts
    (t :: ts, s, placed)

end

/-- Adds a term to the store. Equal variables of the term become one fresh variable. -/
def build (s : Store) (t : Term) : Ref × Store :=
  let (t, s, _) := s.buildWith [] t
  (t, s)

end Clausal.Store
