import Clausal.Builtin
import Clausal.Search

/-! # Running a machine

Searches, loads and built-in predicates call each other; `solve` ties them together. The fuel bounds
both the steps of a search and how deep searches and loads are nested, so that every action ends, if
only because the fuel does.
-/

namespace Clausal.Machine

/-- Proves a goal, depth first; the bindings of the first proof are kept. -/
def solve : Nat → Ref → MachineM Bool
  | 0, _ => throw .outOfFuel
  | fuel + 1, goal => Search.first (Builtin.run (solve fuel)) (fuel + 1) goal

/-- Calls a predicate; the bindings of the first proof are kept. -/
def call (fuel : Nat) (pi : Indicator) (args : List Ref) : MachineM Bool :=
  callWith (solve fuel) pi args

/-- Loads a text under a context. -/
def compileText (fuel : Nat) (c : Context) (text : String) (args : List Term := []) :
    MachineM Unit :=
  compile (solve fuel) c text args

/-- Loads the files that a term names under a context. -/
def consultFiles (fuel : Nat) (c : Context) (files : Term) : MachineM Unit := do
  consult (solve fuel) c (← onStore (·.build files))

/-- Reads one term of a text into the store of the machine. -/
def readGoal (text : String) : MachineM Ref := do
  let ops := (← get).operators
  let result ← onStore fun s =>
    let (result, _, s) := (TermReader.ofInput (.ofText text)).read ops s
    (result, s)
  match result with
  | .ok t => pure t
  | .error e => fail (.ofRead e)

/-- A machine with the given operators added to the standard ones and the given built-in predicates
added to, or put in place of, the default ones. -/
def build (operators : List (String × Nat × Specifier)) (builtins : List (Indicator × Builtin))
    (defaults : Bool := true) : Machine :=
  let standard : List (Indicator × Builtin) :=
    [(⟨"throw", 1⟩, .throw), (⟨"=", 2⟩, .unify), (⟨"consult", 1⟩, .consult)]
  let all := (if defaults then standard else []) ++ builtins
  { operators := operators.foldl (fun ops (name, priority, spec) => ops.add name priority spec)
      .standard
    database := all.foldl (fun db (pi, b) => db.insert pi (.builtin b)) {} }

end Clausal.Machine
