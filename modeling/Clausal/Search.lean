import Clausal.Machine
import Clausal.Store.Copy
import Clausal.Store.Unify

/-! # Proof search

A goal is proved depth first and from left to right, and the search stops at the first proof. What
is left to prove is a list of frames, innermost first; what is left to try is a stack of choice
points, the latest first. A goal carries the height of the stack to which a cut in its place cuts
back: that of the moment at which the clause it comes from was entered, or the `call/N`, the
condition or the negation that it stands in.
-/

namespace Clausal

namespace Clause

/-! ### Entering a clause -/

/-- What was made for one use of a clause. -/
structure Activation where
  /-- The fresh variables, by slot. -/
  frame : List Ref
  /-- The store. -/
  store : Store
  /-- What stands for the clause's own variables in copies. -/
  fresh : Renaming

/-- The value that an instruction matches or pushes, if it does either. -/
def operand (c : Clause) (act : Activation) : Instruction → Option Ref × Activation
  | .const offset =>
    match c.term? offset with
    | some template =>
      let { frame, store, fresh } := act
      let (t, store, fresh) := store.copyWith fresh template
      (some t, { frame, store, fresh })
    | none => (none, act)
  | .var slot => (act.frame[slot]?, act)
  | _ => (none, act)

/-- Unifies the arguments of a call with the head, from left to right. The result is the
instructions of the body, if there is a body. -/
def matchHead (c : Clause) (act : Activation) :
    List Instruction → List Ref → Option (List Instruction) × Activation
  | .exit :: _, _ => (some [.exit], act)
  | .enter :: code, _ => (some code, act)
  | i :: code, arg :: args =>
    match c.operand act i with
    | (some t, { frame, store, fresh }) =>
      match store.unify arg t with
      | (true, store) => matchHead c { frame, store, fresh } code args
      | (false, store) => (none, { frame, store, fresh })
    | (none, act) => (none, act)
  | _, _ => (none, act)

/-- Builds the goals of the body. `pushed` holds the arguments of the next one, the last first, and
`goals` the goals so far, the last first. -/
def buildBody (c : Clause) (act : Activation) (pushed goals : List Ref) :
    List Instruction → Option (List Ref) × Activation
  | .exit :: _ => (some goals.reverse, act)
  | .call offset :: code =>
    match c.procedure? offset with
    | some pi =>
      let { frame, store, fresh } := act
      let (goal, store) := store.apply pi.name pushed.reverse
      buildBody c { frame, store, fresh } [] (goal :: goals) code
    | none => (none, act)
  | i :: code =>
    match c.operand act i with
    | (some t, act) => buildBody c act (t :: pushed) goals code
    | (none, act) => (none, act)
  | [] => (none, act)

/-- Adds fresh variables for the slots of a clause. -/
def freshFrame (s : Store) : List Ref → List Ref × Store
  | [] => ([], s)
  | _ :: vars =>
    let (v, s) := s.var none
    let (frame, s) := freshFrame s vars
    (v :: frame, s)

/-- Matches the head of the clause with a goal. The result is the goals of the body under the same
fresh variables, unless the head does not match. -/
def enter (c : Clause) (goal : Ref) (s : Store) : Option (List Ref) × Store :=
  let (frame, s) := freshFrame s c.vars
  let args := s.args goal
  match c.matchHead { frame, store := s, fresh := c.vars.zip frame } c.code args with
  | (some code, act) =>
    let (goals, act) := c.buildBody act [] [] code
    (goals, act.store)
  | (none, act) => (none, act.store)

end Clause

/-- A part of what is left to prove. -/
inductive Frame where
  /-- A goal, and the height to which a cut in its place cuts back. -/
  | goal (t : Ref) (barrier : Nat)
  /-- Drops the choice points above a height. -/
  | cutTo (height : Nat)
  /-- Fails. -/
  | fail
  deriving DecidableEq, Repr

/-- A way to go on that was not tried yet. -/
inductive Alternative where
  /-- Other goals. -/
  | resume (goals : List Frame)
  /-- Further clauses for a goal, and what is to be proved after it. -/
  | clauses (goal : Ref) (rest : List Clause) (goals : List Frame)
  deriving Repr

/-- A point to which the search can turn back. -/
structure ChoicePoint where
  /-- How many choice points are below it. -/
  below : Nat
  /-- The length that the trail had. -/
  mark : Nat
  /-- The way to go on. -/
  alternative : Alternative
  deriving Repr

/-- Choice points, the latest first. -/
abbrev Choices := List ChoicePoint

namespace Choices

/-- The number of choice points. -/
def height : Choices → Nat
  | [] => 0
  | top :: _ => top.below + 1

/-- Drops the choice points above a height. -/
def cutTo (choices : Choices) (height : Nat) : Choices :=
  choices.dropWhile fun point => height ≤ point.below

/-- Adds a choice point. -/
def push (choices : Choices) (mark : Nat) (alternative : Alternative) : Choices :=
  { below := height choices, mark, alternative } :: choices

end Choices

/-- The state of a search. -/
structure Search where
  /-- What is left to prove, innermost first. -/
  goals : List Frame
  /-- What is left to try, the latest first. -/
  choices : Choices := []
  deriving Repr

namespace Search

open Machine

/-- Tries clauses for a goal in their order, up to the first whose head matches. The clauses after
it become a choice point. -/
def tryClauses (goal : Ref) (goals : List Frame) (choices : Choices) :
    List Clause → MachineM (Option Search)
  | [] => pure none
  | c :: rest => do
    let mark ← look (·.mark)
    match ← onStore (c.enter goal) with
    | some body =>
      let barrier := Choices.height choices
      let remaining := if rest.isEmpty then choices
        else Choices.push choices mark (.clauses goal rest goals)
      pure (some { goals := body.map (.goal · barrier) ++ goals, choices := remaining })
    | none =>
      changeStore (·.undoTo mark)
      tryClauses goal goals choices rest

/-- Turns back to the latest choice point from which the search can go on. -/
def backtrack : Choices → MachineM (Option Search)
  | [] => pure none
  | point :: choices => do
    changeStore (·.undoTo point.mark)
    match point.alternative with
    | .resume goals => pure (some { goals, choices })
    | .clauses goal rest goals =>
      match ← tryClauses goal goals choices rest with
      | some search => pure (some search)
      | none => backtrack choices

/-- The goal of `call/N`: the goal with further arguments. -/
def withArgs (goal : Ref) (extra : List Ref) : MachineM Ref := do
  let goal ← look (·.deref goal)
  if extra.isEmpty then pure goal
  else
    match ← look (·.view goal) with
    | .var _ => fail .instantiation
    | .literal (.atom name) => onStore (·.apply name extra)
    | .compound name args => onStore (·.apply name (args ++ extra))
    | .literal _ => fail (← look (·.typeError .callable goal))

/-- What a goal asks for, with goals and arguments of the given kind. -/
inductive Control (α : Type) where
  /-- Success. -/
  | succeed
  /-- Failure. -/
  | fail
  /-- To drop the alternatives up to the goal's barrier. -/
  | cut
  /-- Both goals. -/
  | both (left right : α)
  /-- The second goal if the condition has a proof, of which only the first is used, and else the
  third. -/
  | ifThenElse (condition consequence otherwise : α)
  /-- Either goal. -/
  | either (left right : α)
  /-- The second goal if the condition has a proof, of which only the first is used. -/
  | ifThen (condition consequence : α)
  /-- That the goal has no proof. -/
  | not (goal : α)
  /-- The goal with further arguments, opaque to cuts. -/
  | call (goal : α) (extra : List α)
  /-- A predicate of the database. -/
  | procedure (pi : Indicator) (args : List α)
  deriving DecidableEq, Repr

/-- Tells control constructs from predicates. -/
def Control.of (s : Store) (name : String) (args : List Ref) : Control Ref :=
  match name, args with
  | "true", [] => succeed
  | "fail", [] => .fail
  | "false", [] => .fail
  | "!", [] => cut
  | ",", [left, right] => both left right
  | ";", [left, right] =>
    match s.view left with
    | .compound "->" [condition, consequence] => ifThenElse condition consequence right
    | _ => either left right
  | "->", [condition, consequence] => ifThen condition consequence
  | "\\+", [goal] => .not goal
  | "call", goal :: extra =>
    if extra.length < 8 then call goal extra else procedure ⟨name, args.length⟩ args
  | _, _ => procedure ⟨name, args.length⟩ args

variable (run : Builtin → List Ref → MachineM Bool)

/-- Proves a predicate of the database, where `run` carries out the built-in ones. -/
def callProcedure (pi : Indicator) (goal : Ref) (args : List Ref) (goals : List Frame)
    (choices : Choices) : MachineM (Option Search) := do
  match (← get).database.find? pi with
  | none => Machine.fail (.noProcedure pi)
  | some (.builtin b) => pure (if ← run b args then some { goals, choices } else none)
  | some (.defined p) => tryClauses goal goals choices p.clauses

/-- The name and the arguments of a goal, if it is one that can be called. -/
def callee (goal : Ref) : MachineM (String × List Ref) := do
  match ← look (·.view goal) with
  | .var _ => Machine.fail .instantiation
  | .literal (.atom name) => pure (name, [])
  | .compound name args => pure (name, args)
  | .literal _ => Machine.fail (← look (·.typeError .callable goal))

/-- Does what a goal asks for. The result is the search after it, unless the goal failed. -/
def proveControl (goal : Ref) (barrier : Nat) (goals : List Frame) (choices : Choices)
    (control : Control Ref) : MachineM (Option Search) :=
  let height := Choices.height choices
  match control with
  | .succeed => pure (some { goals, choices })
  | .fail => pure none
  | .cut => pure (some { goals, choices := Choices.cutTo choices barrier })
  | .both left right =>
    pure (some { goals := .goal left barrier :: .goal right barrier :: goals, choices })
  | .ifThenElse condition consequence otherwise => do
    let mark ← look (·.mark)
    pure (some {
      goals := .goal condition (height + 1) :: .cutTo height :: .goal consequence barrier :: goals
      choices := Choices.push choices mark (.resume (.goal otherwise barrier :: goals)) })
  | .either left right => do
    let mark ← look (·.mark)
    pure (some {
      goals := .goal left barrier :: goals
      choices := Choices.push choices mark (.resume (.goal right barrier :: goals)) })
  | .ifThen condition consequence =>
    pure (some {
      goals := .goal condition height :: .cutTo height :: .goal consequence barrier :: goals
      choices })
  | .not goal => do
    let mark ← look (·.mark)
    pure (some {
      goals := [.goal goal (height + 1), .cutTo height, .fail]
      choices := Choices.push choices mark (.resume goals) })
  | .call goal extra => do
    let goal ← withArgs goal extra
    pure (some { goals := .goal goal height :: goals, choices })
  | .procedure pi args => callProcedure run pi goal args goals choices

/-- Takes up a goal. The result is the search after it, unless the goal failed. -/
def proveGoal (goal : Ref) (barrier : Nat) (goals : List Frame) (choices : Choices) :
    MachineM (Option Search) := do
  let goal ← look (·.deref goal)
  let (name, args) ← callee goal
  proveControl run goal barrier goals choices (← look (Control.of · name args))

/-- Takes up a frame. The result is the search after it, unless it failed. -/
def prove (frame : Frame) (goals : List Frame) (choices : Choices) : MachineM (Option Search) :=
  match frame with
  | .goal t barrier => proveGoal run t barrier goals choices
  | .cutTo height => pure (some { goals, choices := Choices.cutTo choices height })
  | .fail => pure none

/-- Takes up the innermost frame of a search and turns back if it fails. The result is the search
after it, unless there is nothing left to try. -/
def step (frame : Frame) (goals : List Frame) (choices : Choices) : MachineM (Option Search) := do
  match ← prove run frame goals choices with
  | some search => pure (some search)
  | none =>
    -- A failed goal leaves the choice points as they were.
    backtrack choices

/-- How many frames are taken up between two looks at the context. -/
def pollInterval : Nat := 1024

/-- Searches for a proof in at most `fuel` steps, after `taken` steps. -/
def loop : Nat → Nat → Search → MachineM Bool
  | fuel, taken, { goals, choices } =>
    match goals with
    | [] => pure true
    | frame :: goals =>
      match fuel with
      | 0 => throw .outOfFuel
      | fuel + 1 => do
        if (taken + 1) % pollInterval = 0 then poll
        match ← step run frame goals choices with
        | some search => loop fuel (taken + 1) search
        | none => pure false

/-- Whether the goal has a proof; the bindings of the first one are kept. -/
def first (fuel : Nat) (goal : Ref) : MachineM Bool :=
  loop run fuel 0 { goals := [.goal goal 0] }

end Search

end Clausal
