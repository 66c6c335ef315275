import Clausal.Clause
import Clausal.Proofs.Store.Contents
import Clausal.Proofs.Store.Order

/-! # Reading compiled clauses

The instructions of a clause can be read without running them (`Clause.reading?`): an operand is the
entry of the table or the variable that it names, the operands before `enter` are the arguments of
the head, and each `call` takes the operands pushed since the one before.  Reading fails on whatever
is not well-formed code: an operand out of range or of the wrong kind, or a number of operands that
is not what the predicate takes.

What a clause was compiled from is split up independently of its code: into head and goals
(`Splits`), and a goal into a predicate and its arguments (`Calls`).
-/

namespace Clausal

namespace Clause

/-- What the instructions of a clause say. -/
structure Reading where
  /-- The terms with which the arguments of a call are matched. -/
  head : List Ref
  /-- The calls of the body, and what is pushed for each. -/
  body : List (Indicator × List Ref)
  deriving DecidableEq, Repr

/-! ## Reading the instructions -/

/-- The term that an instruction matches or pushes. -/
def operand? (c : Clause) : Instruction → Option Ref
  | .const offset => c.term? offset
  | .var slot => c.vars[slot]?
  | _ => none

/-- The operands of the head, and the instructions that follow. -/
def readHead (c : Clause) : List Instruction → Option (List Ref × List Instruction)
  | [.exit] => some ([], [.exit])
  | .enter :: code => some ([], code)
  | i :: code =>
    match c.operand? i with
    | some t => (readHead c code).map fun (ts, code) => (t :: ts, code)
    | none => none
  | [] => none

/-- The calls of the body. `pushed` holds what was pushed for the next one, the last first. -/
def readBody (c : Clause) (pushed : List Ref) :
    List Instruction → Option (List (Indicator × List Ref))
  | [.exit] => if pushed = [] then some [] else none
  | .call offset :: code =>
    match c.procedure? offset with
    | some pi =>
      if pushed.length = pi.arity then
        (readBody c [] code).map fun calls => (pi, pushed.reverse) :: calls
      else none
    | none => none
  | i :: code =>
    match c.operand? i with
    | some t => readBody c (t :: pushed) code
    | none => none
  | [] => none

/-- What the instructions say, if they are well formed. -/
def reading? (c : Clause) : Option Reading :=
  match c.readHead c.code with
  | some (head, code) =>
    if head.length = c.pi.arity then
      (c.readBody [] code).map fun body => { head, body }
    else none
  | none => none

/-! ## What was compiled -/

/-- A clause is split into its head and the goals of its body. -/
inductive Splits (s : Store) (t : Ref) : Ref → List Ref → Prop
  /-- A rule has the conjuncts of its body. -/
  | rule {head body : Ref} {goals : List Ref} (view : s.view t = .compound ":-" [head, body])
    (body : s.Conjuncts body goals) : Splits s t head goals
  /-- Any other clause is a fact. -/
  | fact (view : ∀ head body, s.view t ≠ .compound ":-" [head, body]) : Splits s t t []

/-- An atom or a compound. -/
def Callable (s : Store) (t : Ref) : Prop :=
  (∃ name, s.view t = .literal (.atom name)) ∨ ∃ name args, s.view t = .compound name args

/-- The two places hold the same term. -/
abbrev Agree (s : Store) (ts us : List Ref) : Prop :=
  List.Forall₂ (fun t u => s.same t u = true) ts us

/-- A predicate with its arguments is what a goal calls. A variable is called through `call/1`. -/
inductive Calls (s : Store) : Indicator × List Ref → Ref → Prop
  /-- A name calls a predicate without arguments. -/
  | atom {g : Ref} {name : String} (view : s.view g = .literal (.atom name)) :
    Calls s (⟨name, 0⟩, []) g
  /-- A compound calls a predicate with its arguments. -/
  | compound {g : Ref} {name : String} {args us : List Ref} (view : s.view g = .compound name args)
    (agree : Agree s us args) : Calls s (⟨name, args.length⟩, us) g
  /-- A variable is an argument of `call/1`. -/
  | var {g v : Ref} {us : List Ref} (view : s.view g = .var v) (agree : Agree s us [g]) :
    Calls s (⟨"call", 1⟩, us) g

/-- Two entries of a table are equal. -/
def sameEntry (s : Store) : Entry → Entry → Bool
  | .term t, .term u => s.same t u
  | .procedure pi, .procedure pi' => pi = pi'
  | _, _ => false

/-- The terms of a table have cells. -/
def TermsInRange (s : Store) (table : List Entry) : Prop :=
  ∀ u, .term u ∈ table → u.index < s.size

/-- No two entries of a table are equal. -/
def Distinct (s : Store) (table : List Entry) : Prop :=
  table.Pairwise fun e e' => sameEntry s e e' = false

end Clause

end Clausal
