import Clausal.Store.Basic

/-! # Copies of terms

A copy has fresh variables in place of the free ones. A renaming says what stands for each variable
already met, so that several terms can be copied under one renaming. A copy shares the constants of
the term, and every compound whose arguments copy to themselves.
-/

namespace Clausal

/-- Which variable stands for each variable of the copied terms, the latest entry first. -/
abbrev Renaming := List (Ref × Ref)

namespace Store

/-- The copies of several terms, made one after the other. -/
def copyAll (one : Store × Renaming → Ref → Ref × Store × Renaming) :
    Store × Renaming → List Ref → List Ref × Store × Renaming
  | st, [] => ([], st)
  | st, t :: ts =>
    let (copy, st) := one st t
    let (copies, st) := copyAll one st ts
    (copy :: copies, st)

/-- The copy of `t` down to the given number of levels. -/
def copyFrom : Nat → Store × Renaming → Ref → Ref × Store × Renaming
  | 0, st, t => (t, st)
  | n + 1, (s, fresh), t =>
    let t := s.deref t
    match s.cell? t with
    | some (.compound name args) =>
      let (copies, s, fresh) := copyAll (copyFrom n) (s, fresh) args
      if copies = args then (t, s, fresh)
      else
        let (copy, s) := s.push (.compound name copies)
        (copy, s, fresh)
    | some (.var _ _) =>
      match fresh.lookup t with
      | some copy => (copy, s, fresh)
      | none =>
        let (copy, s) := s.var none
        (copy, s, (t, copy) :: fresh)
    | _ => (t, s, fresh)

/-- The copy of `t` under a renaming, which is extended by the free variables that it lacks. -/
def copyWith (s : Store) (fresh : Renaming) (t : Ref) : Ref × Store × Renaming :=
  copyFrom (s.size + 1) (s, fresh) t

/-- The copy of `t` with fresh variables throughout. -/
def copy (s : Store) (t : Ref) : Ref × Store :=
  let (copy, s, _) := s.copyWith [] t
  (copy, s)

end Store

end Clausal
