import Clausal.Clause

/-! # The clause database

What is defined for each predicate. A predicate is either built into the machine, and then it cannot
be changed, or defined by clauses. Every load that touches a predicate defines it anew, unless
clauses may be added to it from several loads.
-/

namespace Clausal

/-- What a built-in predicate does. -/
inductive Builtin where
  /-- Throws its argument. -/
  | throw
  /-- Unifies its two arguments. -/
  | unify
  /-- Loads the files that its argument names. -/
  | consult
  /-- Succeeds. -/
  | succeed
  /-- Fails. -/
  | fail
  /-- Writes a term of the given name with its arguments to the log. -/
  | emit (name : String)
  /-- Cancels the context of the request being served. -/
  | cancel
  /-- Loads the text that its argument is, under the context of the request being served. -/
  | compile
  /-- The same under a context of its own. -/
  | compileDetached
  /-- Proves its argument once. -/
  | once
  /-- Compares its two arguments in the standard order. -/
  | less
  /-- Compares its two arguments for identity. -/
  | same
  /-- Unifies its second argument with a copy of its first. -/
  | copyTerm
  /-- Tests its argument for free variables. -/
  | ground
  /-- Tests whether its argument is a free variable. -/
  | var
  /-- Tests whether its argument is the indicator of a predicate in the database. -/
  | defined
  /-- Complains that its argument is no integer. -/
  | refuseInteger
  /-- Complains that its argument is no list. -/
  | refuseList
  deriving DecidableEq, Repr

/-- The properties declared of a predicate. -/
structure Flags where
  /-- Clauses may change while programs run. -/
  dynamic : Bool := false
  /-- Clauses may come from several loads. -/
  multifile : Bool := false
  /-- Clauses need not stand together. -/
  discontiguous : Bool := false
  /-- Clauses can be inspected. -/
  inspectable : Bool := false
  deriving DecidableEq, Repr

namespace Flags

/-- The flags with a property added, and what it implies. -/
def set (flags : Flags) : Property → Flags
  | .dynamic => { flags with dynamic := true, inspectable := true }
  | .multifile => { flags with multifile := true }
  | .discontiguous => { flags with discontiguous := true }
  | .inspectable => { flags with inspectable := true }

/-- Whether clauses of other predicates may stand in between. -/
def allowsGaps (flags : Flags) : Bool := flags.discontiguous || flags.multifile || flags.dynamic

/-- Whether clauses stay when another load adds to them. -/
def accumulates (flags : Flags) : Bool := flags.multifile || flags.dynamic || flags.inspectable

/-- The names of the flags that are set. -/
def names (flags : Flags) : List String :=
  [(flags.dynamic, "dynamic"), (flags.multifile, "multifile"),
    (flags.discontiguous, "discontiguous"), (flags.inspectable, "public")].filterMap
    fun (isSet, name) => if isSet then some name else none

end Flags

/-- A predicate that is defined by clauses. -/
structure Predicate where
  /-- What was declared of it. -/
  flags : Flags := {}
  /-- Its clauses, in the order in which they are tried. -/
  clauses : List Clause := []
  /-- The load that touched it last. -/
  load : Option Nat := none
  deriving Repr

/-- The predicate as the given load finds it when it touches it: it starts over if it was last
touched by another load, unless its clauses accumulate. -/
def Predicate.touchedBy (load : Nat) (p : Predicate) : Predicate :=
  if p.load = some load then p
  else if p.flags.accumulates then { p with load := some load }
  else { load := some load }

/-- What is defined for an indicator. -/
inductive Procedure where
  /-- A predicate of the machine. -/
  | builtin (b : Builtin)
  /-- A predicate of the program. -/
  | defined (p : Predicate)
  deriving Repr

/-- The definitions, in the order in which the predicates were first touched. -/
structure Database where
  /-- The definitions; no indicator occurs twice. -/
  entries : List (Indicator × Procedure) := []
  deriving Repr

namespace Database

/-- The definition for an indicator. -/
def find? (db : Database) (pi : Indicator) : Option Procedure := db.entries.lookup pi

/-- Sets the definition for an indicator, in its place if it has one and else at the end. -/
def set (pi : Indicator) (p : Procedure) :
    List (Indicator × Procedure) → List (Indicator × Procedure)
  | [] => [(pi, p)]
  | entry :: rest => if entry.1 = pi then (pi, p) :: rest else entry :: set pi p rest

/-- The database with the definition for an indicator set. -/
def insert (db : Database) (pi : Indicator) (p : Procedure) : Database :=
  ⟨set pi p db.entries⟩

/-- Touches the predicate for an indicator on behalf of a load. The result is the predicate as the
load finds it. -/
def touch (db : Database) (load : Nat) (pi : Indicator) : Except Error (Predicate × Database) := do
  let p ← match db.find? pi with
    | some (.builtin _) => throw (.protectedProcedure pi)
    | some (.defined p) => pure (p.touchedBy load)
    | none => pure { load := some load }
  pure (p, db.insert pi (.defined p))

/-- Changes the predicate for an indicator on behalf of a load. -/
def update (db : Database) (load : Nat) (pi : Indicator) (f : Predicate → Predicate) :
    Except Error Database := do
  let (p, db) ← db.touch load pi
  pure (db.insert pi (.defined (f p)))

/-- Declares a property of a predicate. -/
def declare (db : Database) (load : Nat) (property : Property) (pi : Indicator) :
    Except Error Database :=
  db.update load pi fun p => { p with flags := p.flags.set property }

/-- Adds a clause at the end of its predicate. -/
def append (db : Database) (load : Nat) (c : Clause) : Except Error Database :=
  db.update load c.pi fun p => { p with clauses := p.clauses ++ [c] }

/-- Every definition, ordered by indicator. -/
def sorted (db : Database) : List (Indicator × Procedure) :=
  db.entries.mergeSort fun a b => a.1.compare b.1 != .gt

end Database

end Clausal
