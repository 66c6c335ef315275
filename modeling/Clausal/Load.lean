import Clausal.Machine
import Clausal.Store.Copy

/-! # Loading sources

A load reads the terms of a source one by one. Each may be expanded into several, and each of these
is a clause, which is compiled and added to its predicate, or a directive, which is carried out at
once. Included sources are loaded in the place of the directive and belong to the same load. The
clauses of a predicate have to stand together within a load, unless it was declared otherwise.

Directives and expansion run goals of the program. How a goal is proved is a parameter here
(`solve`); the module `Clausal.Run` supplies it.
-/

namespace Clausal

/-- The state of one load. -/
structure Load where
  /-- The number of the load. -/
  id : Nat
  /-- The predicate of the last clause, unless a directive came after it. -/
  last : Option Indicator := none
  /-- The predicates with a clause in this load. -/
  seen : List Indicator := []
  /-- The sources being loaded, the innermost first and the outermost last. -/
  including : List String
  deriving Repr

namespace Load

/-- Takes note of a clause of the predicate. It must come after another clause of the predicate, or
be the first one, or the predicate must allow gaps. -/
def noteClause (load : Load) (pi : Indicator) (flags : Flags) : Except Error Load :=
  if load.last ≠ some pi && load.seen.contains pi && !flags.allowsGaps then
    .error (.discontiguous pi)
  else
    .ok { load with last := some pi, seen := if load.seen.contains pi then load.seen
      else pi :: load.seen }

/-- Takes note of a directive, after which no clause stands together with those before. -/
def noteDirective (load : Load) : Load := { load with last := none }

end Load

/-- A machine in the middle of a load. -/
structure Loading where
  /-- The machine. -/
  machine : Machine
  /-- The load. -/
  load : Load
  deriving Repr

/-- An action of a load. -/
abbrev LoadM := EStateM Stop Loading

namespace Loading

open Machine

/-- Runs an action of the machine. -/
def lift {α : Type} (action : MachineM α) : LoadM α := fun loading =>
  let ⟨machine, load⟩ := loading
  match action machine with
  | .ok a machine => .ok a ⟨machine, load⟩
  | .error e machine => .error e ⟨machine, load⟩

/-- The load's own state. -/
def current : LoadM Load := do pure (← get).load

/-- Changes the load's own state. -/
def change (f : Load → Load) : LoadM Unit := modify fun l => { l with load := f l.load }

/-! ### Clauses and declarations -/

/-- Compiles a clause and adds it to its predicate. -/
def addClause (t : Ref) : LoadM Unit := do
  let c ← lift (examine (Clause.compile · t))
  let load ← current
  let p ← lift (onDatabase (·.touch load.id c.pi))
  let noted ← lift (ofExcept (load.noteClause c.pi p.flags))
  change fun _ => noted
  lift (changeDatabase (·.append load.id c))

/-- Declares a property of the predicates that a term names. -/
def declare (property : Property) (predicates : Ref) : LoadM Unit := do
  let load ← current
  let pis ← lift (examine (Indicator.declared · predicates))
  pis.forM fun pi => lift (changeDatabase (·.declare load.id property pi))

section Solving

variable (solve : Ref → MachineM Bool)

/-! ### Goals of the program -/

/-- The terms that an expansion stands for: those of a list, or the expansion itself. -/
def expansionTerms (t : Ref) : MachineM (List Ref) := do
  match ← look (·.listShape t) with
  | (terms, .proper) => pure terms
  | (_, .partly _) => fail .instantiation
  | ([], .improper _) => pure [t]
  | _ => fail (← look (·.typeError .list t))

/-- The goal that expands a term, and the variable that the expansion is to be bound to. The goal is
about a copy of the term. -/
def expansionGoal (t : Ref) (s : Store) : (Ref × Ref) × Store :=
  let (copy, s) := s.copy t
  let (expansion, s) := s.var none
  let (goal, s) := s.apply "term_expansion" [copy, expansion]
  ((expansion, goal), s)

/-- The expansion of a term by the program's own rules, if there are any. They work on a copy, and
their result is taken out of the store before their bindings are undone. If they fail, the term
stands for itself. -/
def expandByRules (t : Ref) : MachineM (List Ref) := do
  match (← get).database.find? ⟨"term_expansion", 2⟩ with
  | some (.defined p) =>
    if p.clauses.isEmpty then pure [t]
    else
      let result ← undoing do
        let (expansion, goal) ← onStore (expansionGoal t)
        if ← solve goal then some <$> look (·.snapshot expansion) else pure none
      match result with
      | some result => expansionTerms (← onStore (·.build result))
      | none => pure [t]
  | _ => pure [t]

/-- The terms to be loaded for a term that was read. -/
def expand (t : Ref) : MachineM (List Ref) := do
  match (← get).expansion with
  | .byRules => expandByRules solve t
  | .wrapped => return [← onStore (·.apply "wrapped" [t])]
  | .doubled => pure [t, t]
  | .dropped => pure []
  | .thrown => fail (.thrown (← look (·.snapshot t)))

/-! ### Directives -/

/-- Loads an included source, where `loadTerms` loads the terms of a source. -/
def loadIncluded (loadTerms : TermSource → LoadM Unit) (file : Ref) : LoadM Unit := do
  let name ← lift (examine (·.expectAtom file))
  let source ← lift (openSource name)
  if (← current).including.contains name then lift (fail (.cyclicSource name))
  change fun load => { load with including := name :: load.including }
  let leave : LoadM Unit := change fun load => { load with including := load.including.tail }
  fun l =>
    match loadTerms source l with
    | .ok () l => leave l
    | .error e l => (do leave; throw e) l

/-- Runs a goal that has to hold, and undoes its bindings. -/
def require (goal : Ref) (failure : Term → Error) : LoadM Unit := do
  if ← lift (undoing (solve goal)) then pure ()
  else lift do fail (failure (← look (·.snapshot goal)))

/-- Carries out a directive. -/
def directive (loadTerms : TermSource → LoadM Unit) (goal : Ref) : LoadM Unit := do
  let directive ← lift (look (Directive.of · goal))
  if !directive.isInclusion then change Load.noteDirective
  match directive with
  | .declare property predicates => declare property predicates
  | .inclusion file | .ensureLoaded file => loadIncluded loadTerms file
  | .initialization goal => require solve goal .failedInitialization
  | .goal goal => require solve goal .failedDirective

/-! ### Sources -/

/-- Loads one term. -/
def loadTerm (loadTerms : TermSource → LoadM Unit) (t : Ref) : LoadM Unit := do
  match ← lift (look (TopLevel.of · t)) with
  | .clause t => addClause t
  | .directive goal => directive solve loadTerms goal

/-- Loads what remains of a source, which is at most the given number of terms, where `one` loads a
term. -/
def loadEach (one : Ref → LoadM Unit) : Nat → TermSource → LoadM Unit
  | 0, _ => throw .outOfFuel
  | n + 1, source => do
    lift poll
    match ← lift (nextTerm source) with
    | none => pure ()
    | some (t, source) =>
      let terms ← lift (expand solve t)
      terms.forM one
      loadEach one n source

/-- Loads a source, where sources are included at most the given number of levels deep. Every term
takes at least one character, which bounds the number of terms. -/
def loadSource : Nat → TermSource → LoadM Unit
  | 0, _ => throw .outOfFuel
  | depth + 1, source =>
    loadEach solve (loadTerm solve (loadSource depth)) (source.reader.lexer.input.length + 2)
      source

end Solving

end Loading

namespace Machine

variable (solve : Ref → MachineM Bool)

/-- Loads a source by itself. No source is included within itself, so sources are included at most
as deep as there are sources. -/
def load (source : TermSource) : MachineM Unit := fun m =>
  let id := m.loads + 1
  let depth := m.sources.length + 2
  let loading : Loading :=
    { machine := { m with loads := id }, load := { id, including := [source.name] } }
  match Loading.loadSource solve depth source loading with
  | .ok () loading => .ok () loading.machine
  | .error e loading => .error e loading.machine

/-- Loads the clauses and directives of a text, with the placeholders in it replaced by the
arguments if there are any. Clauses loaded before an error stay. -/
def compile (c : Context) (text : String) (args : List Term) : MachineM Unit :=
  under c do
    let placeholders := if args.isEmpty then none else some args
    load solve ((← get).source "user" (.ofText text) placeholders)

/-- The names of the files that a term names: one, or a list of them. -/
def fileNames (s : Store) (t : Ref) : Except Error (List String) :=
  match s.listShape t with
  | ([], .partly _) => .error .instantiation
  | (items, .proper) => items.mapM s.expectAtom
  | ([], .improper _) => (s.expectAtom t).map ([·])
  | _ => .error (s.typeError .atom t)

/-- Loads files one after the other, each by itself. -/
def consult (c : Context) (files : Ref) : MachineM Unit := do
  let names ← examine (fileNames · files)
  under c <| names.forM fun name => do
    poll
    load solve (← openSource name)

end Machine

end Clausal
