import Clausal.Directive
import Clausal.Store.Order

/-! # Compiled clauses

A clause is compiled to instructions. Those before `enter` match the arguments of a call one by
one; those after it push the arguments of the calls of the body. Both refer to the clause's table,
which holds the constants and templates, and the predicates called, each once and in the order of
first use, or to its variables, which are numbered in the order in which they are first met.
-/

namespace Clausal

/-- An instruction. -/
inductive Instruction where
  /-- Match or push the term at a place of the table. -/
  | const (offset : Nat)
  /-- Match or push a variable. -/
  | var (slot : Nat)
  /-- The head ends and the body begins. -/
  | enter
  /-- Call the predicate at a place of the table with what was pushed. -/
  | call (offset : Nat)
  /-- The clause ends. -/
  | exit
  deriving DecidableEq, Repr

namespace Instruction

/-- The mnemonic. -/
def name : Instruction → String
  | const _ => "const"
  | var _ => "var"
  | enter => "enter"
  | call _ => "call"
  | exit => "exit"

/-- The number that goes with the mnemonic. -/
def operand? : Instruction → Option Nat
  | const n | var n | call n => some n
  | enter | exit => none

/-- The instruction as a term. -/
def term (i : Instruction) : Term :=
  .apply i.name (i.operand?.map fun n => Term.int n).toList

/-- The instruction as text. -/
def text (i : Instruction) : String :=
  match i.operand? with
  | some n => i.name ++ " " ++ toString n
  | none => i.name

end Instruction

/-- An entry of a clause's table. -/
inductive Entry where
  /-- A constant, or a compound to be copied with the variables of the call. -/
  | term (t : Ref)
  /-- A predicate that the clause calls. -/
  | procedure (pi : Indicator)
  deriving DecidableEq, Repr

/-- A compiled clause. Its terms are cells of the store that compiled it; calls copy them. -/
structure Clause where
  /-- The predicate that the clause belongs to. -/
  pi : Indicator
  /-- The clause as it was read, after expansion. -/
  raw : Ref
  /-- Constants, templates and called predicates, in the order of first use. -/
  table : List Entry
  /-- The distinct variables, in the order in which they are first met. -/
  vars : List Ref
  /-- The instructions. -/
  code : List Instruction
  deriving DecidableEq, Repr

namespace Clause

/-- The term at a place of the table. -/
def term? (c : Clause) (offset : Nat) : Option Ref :=
  match c.table[offset]? with
  | some (.term t) => some t
  | _ => none

/-- The predicate at a place of the table. -/
def procedure? (c : Clause) (offset : Nat) : Option Indicator :=
  match c.table[offset]? with
  | some (.procedure pi) => some pi
  | _ => none

/-- The clause as it was read, with a full stop. -/
def listing (ops : OperatorTable) (s : Store) (c : Clause) : String :=
  TermWriter.write { ops } (s.snapshot c.raw) ++ "."

/-- The head and, of a rule, the body. -/
def headBody (s : Store) (t : Ref) : Ref × Option Ref :=
  match s.view t with
  | .compound ":-" [head, body] => (head, some body)
  | _ => (s.deref t, none)

/-! ### Compilation -/

/-- A clause being compiled. -/
structure Draft where
  /-- The table so far. -/
  table : List Entry := []
  /-- The variables so far. -/
  vars : List Ref := []
  /-- The instructions so far. -/
  code : List Instruction := []
  deriving DecidableEq, Repr

namespace Draft

/-- Adds an instruction. -/
def emit (d : Draft) (i : Instruction) : Draft := { d with code := d.code ++ [i] }

/-- The slot of a variable, which gets the next one if it has none. -/
def slot (d : Draft) (v : Ref) : Nat × Draft :=
  match d.vars.idxOf? v with
  | some n => (n, d)
  | none => (d.vars.length, { d with vars := d.vars ++ [v] })

/-- The place of a term in the table, where equal terms share one. -/
def termOffset (s : Store) (d : Draft) (t : Ref) : Nat × Draft :=
  let found := d.table.findIdx? fun
    | .term u => s.same t u
    | .procedure _ => false
  match found with
  | some n => (n, d)
  | none => (d.table.length, { d with table := d.table ++ [.term t] })

/-- The place of a called predicate in the table. -/
def procedureOffset (d : Draft) (pi : Indicator) : Nat × Draft :=
  match d.table.idxOf? (.procedure pi) with
  | some n => (n, d)
  | none => (d.table.length, { d with table := d.table ++ [.procedure pi] })

/-- Matches or pushes an argument. The variables of a compound get slots before it is entered in
the table. -/
def argument (s : Store) (d : Draft) (t : Ref) : Draft :=
  let t := s.deref t
  match s.view t with
  | .var v =>
    let (n, d) := d.slot v
    d.emit (.var n)
  | .literal _ =>
    let (n, d) := d.termOffset s t
    d.emit (.const n)
  | .compound _ _ =>
    let d := (s.freeVars t).foldl (fun d v => (d.slot v).2) d
    let (n, d) := d.termOffset s t
    d.emit (.const n)

/-- Calls a predicate with what was pushed. -/
def callProcedure (d : Draft) (pi : Indicator) : Draft :=
  let (n, d) := d.procedureOffset pi
  d.emit (.call n)

/-- A goal of the body. A variable is called through `call/1`. -/
def goal (s : Store) (d : Draft) (t : Ref) : Except Error Draft :=
  match s.view t with
  | .var _ => .ok ((d.argument s t).callProcedure ⟨"call", 1⟩)
  | .literal (.atom name) => .ok (d.callProcedure ⟨name, 0⟩)
  | .compound name args =>
    .ok ((args.foldl (·.argument s) d).callProcedure ⟨name, args.length⟩)
  | .literal _ => .error (s.typeError .callable t)

end Draft

/-- The indicator of a head. -/
def headIndicator (s : Store) (head : Ref) : Except Error Indicator :=
  match s.view head with
  | .var _ => .error .instantiation
  | .literal (.atom name) => .ok ⟨name, 0⟩
  | .compound name args => .ok ⟨name, args.length⟩
  | .literal _ => .error (s.typeError .callable head)

/-- Compiles a fact or a rule. The head must be callable, and so must every goal of the body that is
not a variable. -/
def compile (s : Store) (t : Ref) : Except Error Clause := do
  if s.isVar t then throw .instantiation
  let (head, body) := headBody s t
  let pi ← headIndicator s head
  let d := (s.args head).foldl (Draft.argument s) ({} : Draft)
  let d ← match body with
    | none => pure d
    | some body => (s.operands "," body).foldlM (Draft.goal s) (d.emit .enter)
  let d := d.emit .exit
  pure { pi, raw := s.deref t, table := d.table, vars := d.vars, code := d.code }

end Clause

end Clausal
