import Clausal.Error
import Clausal.Store.Contents
import Clausal.Store.Snapshot

/-! # Clauses and directives

The shapes of terms that loading distinguishes: clauses and directives, the kinds of directives, and
the arguments that declarations and inclusions take.
-/

namespace Clausal

namespace Store

/-- The error that the term at `t` should have been something else. -/
def typeError (s : Store) (expected : Expected) (t : Ref) : Error := .type expected (s.snapshot t)

/-- The operands of nested applications of a binary operator, from left to right, in at most the
given number of levels. -/
def operandsFrom (s : Store) (name : String) : Nat → Ref → List Ref
  | 0, t => [s.deref t]
  | n + 1, t =>
    match s.view t with
    | .compound f [left, right] =>
      if f = name then operandsFrom s name n left ++ operandsFrom s name n right
      else [s.deref t]
    | _ => [s.deref t]

/-- The operands of nested applications of a binary operator, from left to right. -/
def operands (s : Store) (name : String) (t : Ref) : List Ref :=
  s.operandsFrom name (s.size + 1) t

/-- The name that the term at `t` has to be. -/
def expectAtom (s : Store) (t : Ref) : Except Error String :=
  match s.view t with
  | .var _ => .error .instantiation
  | .literal (.atom name) => .ok name
  | _ => .error (s.typeError .atom t)

end Store

namespace Indicator

/-- The indicator of the predicate that a goal or head calls. -/
def ofCallable? (s : Store) (t : Ref) : Option Indicator :=
  (s.nameArity? t).map fun (name, arity) => ⟨name, arity⟩

/-- The indicator that a term `Name/Arity` stands for. -/
def ofRef (s : Store) (t : Ref) : Except Error Indicator := do
  match s.view t with
  | .var _ => throw .instantiation
  | .compound "/" [name, arity] =>
    let name ← s.expectAtom name
    match s.view arity with
    | .var _ => throw .instantiation
    | .literal (.small n) =>
      if 0 ≤ n then pure ⟨name, n.toInt.toNat⟩ else throw (s.typeError .indicator t)
    | _ => throw (s.typeError .integer arity)
  | _ => throw (s.typeError .indicator t)

/-- The indicators that a declaration is about: one, several joined by commas, or a list of them. -/
def declared (s : Store) (t : Ref) : Except Error (List Indicator) := do
  if s.isVar t then throw .instantiation
  let terms ← match s.listShape t with
    | ([], .proper) => pure (s.operands "," t)
    | (items, .proper) => pure items
    | (_, .partly _) => throw .instantiation
    | _ => pure (s.operands "," t)
  terms.mapM (ofRef s)

end Indicator

/-- A term of a source. -/
inductive TopLevel where
  /-- A goal to be carried out while loading. -/
  | directive (goal : Ref)
  /-- A fact or a rule. -/
  | clause (t : Ref)
  deriving DecidableEq, Repr

namespace TopLevel

/-- Tells directives from clauses. -/
def of (s : Store) (t : Ref) : TopLevel :=
  match s.view t with
  | .compound name [goal] => if name = ":-" || name = "?-" then directive goal else clause t
  | _ => clause t

end TopLevel

/-- A property that is declared of a predicate. -/
inductive Property where
  /-- Its clauses may change while programs run, and can be inspected. -/
  | dynamic
  /-- Its clauses may come from several loads. -/
  | multifile
  /-- Its clauses need not stand together. -/
  | discontiguous
  /-- Its clauses can be inspected. -/
  | inspectable
  deriving DecidableEq, Repr

/-- What a directive asks for. -/
inductive Directive where
  /-- To declare a property of predicates. -/
  | declare (property : Property) (predicates : Ref)
  /-- To load another source in this place. -/
  | inclusion (file : Ref)
  /-- The same, by its other name. -/
  | ensureLoaded (file : Ref)
  /-- To run a goal for the loaded program. -/
  | initialization (goal : Ref)
  /-- To run any other goal. -/
  | goal (goal : Ref)
  deriving DecidableEq, Repr

namespace Directive

/-- The directive that a goal stands for. -/
def of (s : Store) (t : Ref) : Directive :=
  match s.view t with
  | .compound name [arg] =>
    match name with
    | "dynamic" => declare .dynamic arg
    | "multifile" => declare .multifile arg
    | "discontiguous" => declare .discontiguous arg
    | "include" => inclusion arg
    | "ensure_loaded" => ensureLoaded arg
    | "initialization" => initialization arg
    | _ => goal t
  | _ => goal t

/-- The argument of the directive; of any other goal, the goal itself. -/
def argument : Directive → Ref
  | declare _ arg | inclusion arg | ensureLoaded arg | initialization arg | goal arg => arg

/-- Whether the directive puts another source in its place. -/
def isInclusion : Directive → Bool
  | inclusion _ | ensureLoaded _ => true
  | _ => false

end Directive

end Clausal
