import Clausal.Search
import Clausal.Proofs.Tree.Rule
import Clausal.Proofs.Tree.Unifier

/-! # The answers of a goal

What a goal means is the sequence of its answers, depth first and from left to right, by recursion on
goals and without a stack (`prove`).  An answer is a substitution; what comes after the answers is the
`Ending` of the sequence.

* Of two goals, the second is proved under each answer to the first.
* The clauses of a predicate are tried in their order, each with its variables renamed, by unifying
  the goal with the head.
* A cut has one answer and ends the sequence, of whatever it is part of, with `Ending.cut`.  Where a
  cut is local (`Answers.confined`), the sequence is then exhausted: that is so for the clauses of a
  predicate, for `call/N`, for conditions and for negated goals.
* Of a condition only the first answer counts (`Answers.first`).

The sequence may be infinite, so it is cut off at a depth; `Ending.unfinished` says that it was.
-/

namespace Clausal.Reference

/-- A variable: of the query, whose use is 0, or of a clause in the use that has the number. -/
structure Var where
  /-- The number of the use. -/
  use : Nat
  /-- The variable that was renamed. -/
  ref : Ref
  deriving DecidableEq, Repr

/-- What variables stand for. -/
abbrev Bindings := Var → Tree Var

/-- Further bindings. -/
def Bindings.andThen (σ τ : Bindings) : Bindings := fun x => (σ x).bind τ

/-- Why a goal cannot be called. -/
inductive Refusal where
  /-- It is a variable. -/
  | instantiation
  /-- It is a constant that is no atom. -/
  | notCallable (l : Literal)
  /-- There is no such predicate. -/
  | unknown (pi : Indicator)

/-- The error as which a machine reports a refusal. -/
inductive Refusal.Reported : Refusal → Error → Prop
  /-- A variable. -/
  | instantiation : Reported .instantiation .instantiation
  /-- A constant, by its value. -/
  | notCallable (l : Literal) : Reported (.notCallable l.canon) (.type .callable (.literal l))
  /-- The indicator. -/
  | unknown (pi : Indicator) : Reported (.unknown pi) (.noProcedure pi)

/-- What comes after the answers. -/
inductive Ending where
  /-- There are no more. -/
  | exhausted
  /-- There are no more, and what a cut cuts off is not to be tried. -/
  | cut
  /-- A goal cannot be called. -/
  | refused (e : Refusal)
  /-- A built-in predicate is called that is not described here. -/
  | foreign (pi : Indicator)
  /-- The depth was reached. -/
  | unfinished

/-- A sequence of answers.  With each answer comes the number of the last use of a clause. -/
structure Answers where
  /-- The answers, the first one first. -/
  found : List (Nat × Bindings)
  /-- What comes after them. -/
  ending : Ending

namespace Answers

/-- No answers. -/
def none : Answers := ⟨[], .exhausted⟩

/-- One answer that binds nothing. -/
def one (uses : Nat) : Answers := ⟨[(uses, .var)], .exhausted⟩

/-- One sequence after the other, unless the first one does not get to its end. -/
def append (a b : Answers) : Answers :=
  match a.ending with
  | .exhausted => ⟨a.found ++ b.found, b.ending⟩
  | ending => ⟨a.found, ending⟩

/-- The answers together with bindings that were there before. -/
def after (σ : Bindings) (a : Answers) : Answers :=
  ⟨a.found.map fun answer => (answer.1, σ.andThen answer.2), a.ending⟩

/-- What comes of each of the answers, one after the other. -/
def bind (a : Answers) (f : Nat → Bindings → Answers) : Answers :=
  a.found.foldr (fun answer later => ((f answer.1 answer.2).after answer.2).append later)
    ⟨[], a.ending⟩

/-- The same answers, of which cuts are no matter outside. -/
def confined (a : Answers) : Answers :=
  match a.ending with
  | .cut => ⟨a.found, .exhausted⟩
  | ending => ⟨a.found, ending⟩

/-- The first answer alone, if there is one. -/
def first (a : Answers) : Answers :=
  match a.found with
  | [] => a
  | answer :: _ => ⟨[answer], .exhausted⟩

end Answers

/-! ## Goals as trees -/

open Search

/-- What a goal asks for. -/
def control {V : Type} (name : String) (args : List (Tree V)) : Control (Tree V) :=
  match name, args with
  | "true", [] => .succeed
  | "fail", [] => .fail
  | "false", [] => .fail
  | "!", [] => .cut
  | ",", [left, right] => .both left right
  | ";", [left, right] =>
    match left with
    | .compound "->" [condition, consequence] => .ifThenElse condition consequence right
    | _ => .either left right
  | "->", [condition, consequence] => .ifThen condition consequence
  | "\\+", [goal] => .not goal
  | "call", goal :: extra =>
    -- Up to `call/8`.
    if extra.length < 8 then .call goal extra else .procedure ⟨name, args.length⟩ args
  | _, _ => .procedure ⟨name, args.length⟩ args

/-- The name and the arguments of a goal, if it is one that can be called. -/
def callee : Tree Var → Except Refusal (String × List (Tree Var))
  | .var _ => .error .instantiation
  | .literal (.atom name) => .ok (name, [])
  | .literal l => .error (.notCallable l)
  | .compound name args => .ok (name, args)

/-- A goal with further arguments. -/
def withArgs (goal : Tree Var) (extra : List (Tree Var)) : Except Refusal (Tree Var) :=
  if extra = [] then .ok goal
  else
    match callee goal with
    | .ok (name, args) => .ok (.apply name (args ++ extra))
    | .error e => .error e

/-- What a program has to say about a predicate. -/
inductive Meaning where
  /-- Nothing. -/
  | unknown
  /-- It unifies its two arguments. -/
  | equality
  /-- It is another built-in predicate. -/
  | foreign
  /-- It has the rules. -/
  | rules (rules : List (Rule Ref))

/-- The predicates that can be called. -/
abbrev Program := Indicator → Meaning

/-! ## Answers -/

section Prove

variable (P : Program) (prove : Nat → Tree Var → Answers)

/-- The answers to goals one after the other, under bindings. -/
def proveAll (σ : Bindings) (uses : Nat) : List (Tree Var) → Answers
  | [] => .one uses
  | goal :: goals =>
    (prove uses (goal.bind σ)).bind fun uses τ => proveAll (σ.andThen τ) uses goals

/-- A rule in the use that has the number. -/
def renamed (use : Nat) (rule : Rule Ref) : Rule Var := rule.bind fun v => .var ⟨use, v⟩

/-- The answers to a goal by rules, which are tried one after the other. -/
def tryRules (uses : Nat) (goal : Tree Var) : List (Rule Ref) → Answers
  | [] => .none
  | rule :: rules =>
    let { head, goals } := renamed (uses + 1) rule
    match Equations.solve [(goal, head)] with
    | some σ => ((proveAll prove σ (uses + 1) goals).after σ).append (tryRules uses goal rules)
    | none => tryRules uses goal rules

/-- The answers to a call of a predicate. -/
def callProcedure (uses : Nat) (goal : Tree Var) (pi : Indicator) (args : List (Tree Var)) :
    Answers :=
  match P pi with
  | .unknown => ⟨[], .refused (.unknown pi)⟩
  | .foreign => ⟨[], .foreign pi⟩
  | .rules rules => (tryRules prove uses goal rules).confined
  | .equality =>
    match args with
    | [left, right] =>
      match Equations.solve [(left, right)] with
      | some σ => ⟨[(uses, σ)], .exhausted⟩
      | none => .none
    | _ => .none

/-- The answers to what a goal asks for. -/
def proveControl (uses : Nat) (goal : Tree Var) : Control (Tree Var) → Answers
  | .succeed => .one uses
  | .fail => .none
  | .cut => ⟨[(uses, .var)], .cut⟩
  | .both left right => (prove uses left).bind fun uses σ => prove uses (right.bind σ)
  | .ifThenElse condition consequence otherwise =>
    match (prove uses condition).confined with
    | ⟨[], .exhausted⟩ => prove uses otherwise
    | answers => answers.first.bind fun uses σ => prove uses (consequence.bind σ)
  | .either left right => (prove uses left).append (prove uses right)
  | .ifThen condition consequence =>
    (prove uses condition).confined.first.bind fun uses σ => prove uses (consequence.bind σ)
  | .not goal =>
    match (prove uses goal).confined with
    | ⟨[], .exhausted⟩ => .one uses
    | ⟨[], ending⟩ => ⟨[], ending⟩
    | _ => .none
  | .call goal extra =>
    match withArgs goal extra with
    | .ok goal => (prove uses goal).confined
    | .error e => ⟨[], .refused e⟩
  | .procedure pi args => callProcedure P prove uses goal pi args

end Prove

/-- **The answers to a goal**, as far as the depth allows.  The number is that of the last use of a
clause before. -/
def prove (P : Program) : Nat → Nat → Tree Var → Answers
  | 0, _, _ => ⟨[], .unfinished⟩
  | depth + 1, uses, goal =>
    match callee goal with
    | .ok (name, args) => proveControl P (prove P depth) uses goal (control name args)
    | .error e => ⟨[], .refused e⟩

end Clausal.Reference
