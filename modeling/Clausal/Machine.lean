import Clausal.Database
import Clausal.TermSource

/-! # The machine

A machine is a term store with the database loaded into it, the sources it can open, and the
contexts under which it works. Its actions end in a value, in an `Error`, or out of fuel; whichever
it is, what was done to the machine before stays done.
-/

namespace Clausal

/-- A context that loads run under, and that can be cancelled. -/
structure Context where
  /-- The number of the context. -/
  id : Nat
  deriving DecidableEq, Repr

/-- What a machine finds when it opens a source. -/
inductive SourceText where
  /-- The characters of the source. -/
  | readable (input : Input)
  /-- The source cannot be opened. -/
  | unopenable (message : String)
  deriving Repr

/-- How a term that was read is turned into the terms to be loaded in its place. -/
inductive Expansion where
  /-- By the program's own `term_expansion/2`. -/
  | byRules
  /-- By wrapping it in a compound. -/
  | wrapped
  /-- By loading it twice. -/
  | doubled
  /-- By leaving it out. -/
  | dropped
  /-- By throwing it. -/
  | thrown
  deriving DecidableEq, Repr

/-- The state of a machine. -/
structure Machine where
  /-- The terms. -/
  store : Store := {}
  /-- The predicates. -/
  database : Database := {}
  /-- The operators that sources are read with. -/
  operators : OperatorTable := .standard
  /-- How double-quoted text in sources is read. -/
  doubleQuotes : DoubleQuotes := .chars
  /-- The sources by name. -/
  sources : List (String × SourceText) := []
  /-- What is done with terms before they are loaded. -/
  expansion : Expansion := .byRules
  /-- The context in force. -/
  context : Context := ⟨0⟩
  /-- The context that was given with the request being served. -/
  request : Context := ⟨0⟩
  /-- The contexts that are cancelled. -/
  cancelled : List Context := []
  /-- How many contexts were made. -/
  contexts : Nat := 1
  /-- How many loads were begun. -/
  loads : Nat := 0
  /-- What programs logged, the latest first. -/
  log : List Term := []
  deriving Repr

/-- Why an action gave no value. -/
inductive Stop where
  /-- It met an error. -/
  | error (e : Error)
  /-- The fuel ran out. -/
  | outOfFuel
  deriving Repr

/-- An action of a machine. -/
abbrev MachineM := EStateM Stop Machine

namespace Machine

/-- Ends with an error. -/
def fail {α : Type} (e : Error) : MachineM α := throw (.error e)

/-- The value of a result, or its error. -/
def ofExcept {α : Type} : Except Error α → MachineM α
  | .ok a => pure a
  | .error e => fail e

/-- Looks at the store. -/
def look {α : Type} (f : Store → α) : MachineM α := fun m => .ok (f m.store) m

/-- Looks at the store for something that may not be there. -/
def examine {α : Type} (f : Store → Except Error α) : MachineM α := do ofExcept (← look f)

/-- Runs an operation on the store. -/
def onStore {α : Type} (f : Store → α × Store) : MachineM α := fun m =>
  let s := m.store
  let m := { m with store := {} }
  let (a, s) := f s
  .ok a { m with store := s }

/-- Changes the store. -/
def changeStore (f : Store → Store) : MachineM Unit := onStore fun s => ((), f s)

/-- Runs an action and then undoes the bindings that it made, whatever came of it. -/
def undoing {α : Type} (action : MachineM α) : MachineM α := do
  let mark ← look (·.mark)
  fun m =>
    match action m with
    | .ok a m => (do changeStore (·.undoTo mark); pure a) m
    | .error e m => (do changeStore (·.undoTo mark); throw e) m

/-- Runs an operation on the database, which stays as it is if there is an error. -/
def onDatabase {α : Type} (f : Database → Except Error (α × Database)) : MachineM α := do
  let (a, database) ← ofExcept (f (← get).database)
  modify fun m => { m with database }
  pure a

/-- Changes the database, which stays as it is if there is an error. -/
def changeDatabase (f : Database → Except Error Database) : MachineM Unit :=
  onDatabase fun db => (f db).map ((), ·)

/-! ### Contexts -/

/-- A new context. -/
def newContext : MachineM Context := modifyGet fun m =>
  (⟨m.contexts⟩, { m with contexts := m.contexts + 1 })

/-- Cancels a context. -/
def cancel (c : Context) : MachineM Unit :=
  modify fun m => { m with cancelled := c :: m.cancelled }

/-- Ends with an error if the context in force is cancelled. -/
def poll : MachineM Unit := do
  let m ← get
  if m.cancelled.contains m.context then fail .cancelled

/-- Runs an action under a context, and puts the one before back whatever comes of it. -/
def under {α : Type} (c : Context) (action : MachineM α) : MachineM α := fun m =>
  let outer := m.context
  match action { m with context := c } with
  | .ok a m => .ok a { m with context := outer }
  | .error e m => .error e { m with context := outer }

/-- Begins to serve a request, under a context that may be cancelled from the start. -/
def beginRequest (isCancelled : Bool) : MachineM Context := do
  let c ← newContext
  if isCancelled then cancel c
  modify fun m => { m with request := c, log := [] }
  pure c

/-! ### Sources -/

/-- The terms of an input, read as the machine reads its sources. -/
def source (m : Machine) (name : String) (input : Input) (placeholders : Option (List Term)) :
    TermSource :=
  { name, reader := .ofInput input m.doubleQuotes placeholders }

/-- Opens a source. -/
def openSource (name : String) : MachineM TermSource := do
  let m ← get
  match m.sources.lookup name with
  | some (.readable input) => pure (m.source name input none)
  | some (.unopenable message) => fail (.input message)
  | none => fail (.noSource name)

/-- Reads the next term of a source, or finds that there is none. -/
def nextTerm (source : TermSource) : MachineM (Option (Ref × TermSource)) := do
  let ops := (← get).operators
  let (result, source) ← onStore fun s =>
    let (result, source, s) := source.next? ops s
    ((result, source), s)
  match result with
  | .ok t => pure (t.map (·, source))
  | .error e => fail (.ofRead e)

end Machine

end Clausal
