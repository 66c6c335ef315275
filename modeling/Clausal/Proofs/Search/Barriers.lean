import Clausal.Proofs.Machine.Sessions
import Clausal.Proofs.Search.Commitment

/-! # Barriers

A cut goes back to a number, and so does turning back: what is dropped depends on how high the stack of
choice points is, what is undone on how long the trail is.  That the numbers are right is said here by
a search that has none.  `Recall` is the search with each barrier replaced by the stack of choice points
of the moment at which it was taken, and each mark by the trail of the moment at which the choice point
was made.  Its cuts restore the remembered stack.

The search is the recalling one with lengths for stacks and trails (`Recall.map_step`), as long as the
remembered stacks lie within each other: those of what is left to prove, from the innermost outwards,
within the stack that there is, and those of what a choice point saves within the stack below it
(`Recall.Coherent`).  Each step keeps this (`Recall.coherent_step`), and read off the lengths it is that
the numbers are in order (`Search.Barred`).
-/

namespace Clausal

open Store Relation Machine

/-! ## A search that remembers -/

/-- A part of what is left to prove. -/
inductive Recall.Task (σ : Type) where
  /-- A goal, and what a cut in its place restores. -/
  | goal (t : Ref) (stack : σ)
  /-- Restores what was remembered. -/
  | cutTo (stack : σ)
  /-- Fails. -/
  | fail

/-- What a cut in the place of the task restores, if it restores anything. -/
def Recall.Task.stack? {σ : Type} : Recall.Task σ → Option σ
  | .goal _ stack => some stack
  | .cutTo stack => some stack
  | .fail => none

/-- A choice point that remembers the trail. -/
structure Recall.Point where
  /-- The trail when it was made. -/
  trail : List Ref
  /-- A goal with the clauses that were not tried for it, if there is one. -/
  retry : Option (Ref × List Clause)
  /-- What is to be proved then, innermost first. -/
  tasks : List (Recall.Task (List Recall.Point))

/-- The state of a search that remembers stacks of choice points. -/
structure Recall where
  /-- What is left to prove, innermost first. -/
  tasks : List (Recall.Task (List Recall.Point))
  /-- What is left to try, the latest first. -/
  stack : List Recall.Point := []

namespace Recall

/-- Tries clauses for a goal.  A cut in the body restores the stack as it is before them. -/
def tryClauses (goal : Ref) (tasks : List (Task (List Point))) (stack : List Point) :
    List Clause → MachineM (Option Recall)
  | [] => pure none
  | c :: rest => do
    let trail ← look (·.trail.toList)
    match ← onStore (c.enter goal) with
    | some body =>
      let remaining := if rest.isEmpty then stack
        else { trail, retry := some (goal, rest), tasks } :: stack
      pure (some { tasks := body.map (.goal · stack) ++ tasks, stack := remaining })
    | none =>
      changeStore (·.undoTo trail.length)
      tryClauses goal tasks stack rest

/-- Turns back to the latest choice point from which the search can go on. -/
def backtrack : List Point → MachineM (Option Recall)
  | [] => pure none
  | point :: stack => do
    changeStore (·.undoTo point.trail.length)
    match point.retry with
    | none => pure (some { tasks := point.tasks, stack })
    | some (goal, rest) =>
      match ← tryClauses goal point.tasks stack rest with
      | some r => pure (some r)
      | none => backtrack stack

variable (run : Builtin → List Ref → MachineM Bool)

/-- Proves a predicate of the database. -/
def callProcedure (pi : Indicator) (goal : Ref) (args : List Ref) (tasks : List (Task (List Point)))
    (stack : List Point) : MachineM (Option Recall) := do
  match (← get).database.find? pi with
  | none => Machine.fail (.noProcedure pi)
  | some (.builtin b) => pure (if ← run b args then some { tasks, stack } else none)
  | some (.defined p) => tryClauses goal tasks stack p.clauses

/-- Does what a goal asks for, where a cut in its place restores the stack `barrier`. -/
def proveControl (goal : Ref) (barrier : List Point) (tasks : List (Task (List Point)))
    (stack : List Point) (control : Search.Control Ref) : MachineM (Option Recall) :=
  match control with
  | .succeed => pure (some { tasks, stack })
  | .fail => pure none
  | .cut => pure (some { tasks, stack := barrier })
  | .both left right =>
    pure (some { tasks := .goal left barrier :: .goal right barrier :: tasks, stack })
  | .ifThenElse condition consequence otherwise => do
    let trail ← look (·.trail.toList)
    let point : Point := { trail, retry := none, tasks := .goal otherwise barrier :: tasks }
    pure (some {
      tasks := .goal condition (point :: stack) :: .cutTo stack ::
        .goal consequence barrier :: tasks
      stack := point :: stack })
  | .either left right => do
    let trail ← look (·.trail.toList)
    pure (some {
      tasks := .goal left barrier :: tasks
      stack := { trail, retry := none, tasks := .goal right barrier :: tasks } :: stack })
  | .ifThen condition consequence =>
    pure (some {
      tasks := .goal condition stack :: .cutTo stack :: .goal consequence barrier :: tasks
      stack })
  | .not goal => do
    let trail ← look (·.trail.toList)
    let point : Point := { trail, retry := none, tasks }
    pure (some {
      tasks := [.goal goal (point :: stack), .cutTo stack, .fail]
      stack := point :: stack })
  | .call goal extra => do
    let goal ← Search.withArgs goal extra
    pure (some { tasks := .goal goal stack :: tasks, stack })
  | .procedure pi args => callProcedure run pi goal args tasks stack

/-- Takes up a goal. -/
def proveGoal (goal : Ref) (barrier : List Point) (tasks : List (Task (List Point)))
    (stack : List Point) : MachineM (Option Recall) := do
  let goal ← look (·.deref goal)
  let (name, args) ← Search.callee goal
  proveControl run goal barrier tasks stack (← look (Search.Control.of · name args))

/-- Takes up a part of what is left to prove. -/
def prove (task : Task (List Point)) (tasks : List (Task (List Point))) (stack : List Point) :
    MachineM (Option Recall) :=
  match task with
  | .goal t barrier => proveGoal run t barrier tasks stack
  | .cutTo stack => pure (some { tasks, stack })
  | .fail => pure none

/-- Takes up the innermost part and turns back if it fails. -/
def step (task : Task (List Point)) (tasks : List (Task (List Point))) (stack : List Point) :
    MachineM (Option Recall) := do
  match ← prove run task tasks stack with
  | some r => pure (some r)
  | none => backtrack stack

/-- A recalling search takes one more step. -/
inductive Passes : Machine × Recall → Machine × Recall → Prop
  /-- The innermost part is taken up. -/
  | step {m m' : Machine} {task : Task (List Point)} {tasks : List (Task (List Point))}
    {stack : List Point} {r : Recall} (h : Recall.step run task tasks stack m = .ok (some r) m') :
    Passes (m, ⟨task :: tasks, stack⟩) (m', r)

/-! ## The search itself -/

/-- A frame, with the height of the stack for the stack. -/
def frame : Task (List Point) → Frame
  | .goal t stack => .goal t stack.length
  | .cutTo stack => .cutTo stack.length
  | .fail => .fail

/-- The way to go on from a choice point. -/
def Point.alternative (point : Point) : Alternative :=
  match point.retry with
  | none => .resume (point.tasks.map frame)
  | some (goal, rest) => .clauses goal rest (point.tasks.map frame)

/-- Choice points, with the length of the trail for the trail. -/
def choices : List Point → Choices
  | [] => []
  | point :: stack =>
    { below := stack.length, mark := point.trail.length, alternative := point.alternative } ::
      choices stack

/-- The search with lengths for stacks and trails. -/
def search (r : Recall) : Search := { goals := r.tasks.map frame, choices := choices r.stack }

variable {run} {m m' : Machine} {t : Ref} {tasks : List (Task (List Point))} {stack b b' : List Point}
  {trail trail' : List Ref} {point : Point} {task : Task (List Point)} {r : Recall}

@[simp] theorem length_choices (stack : List Point) : (choices stack).length = stack.length := by
  induction stack with
  | nil => rfl
  | cons point stack ih => rw [choices, List.length_cons, ih, List.length_cons]

@[simp] theorem height_choices (stack : List Point) :
    Choices.height (choices stack) = stack.length := by
  cases stack <;> rfl

/-- Cutting to the height of a stack further down leaves just that stack. -/
theorem cutTo_choices (h : b <:+ stack) : Choices.cutTo (choices stack) b.length = choices b := by
  induction stack with
  | nil =>
    rw [List.suffix_nil] at h
    rw [h]
    rfl
  | cons point stack ih =>
    rcases List.suffix_cons_iff.mp h with rfl | h
    · exact Choices.cutTo_cons_of_lt (Nat.lt_succ_self _)
    · rw [choices, Choices.cutTo_cons_of_le h.length_le]
      exact ih h

/-! ## Stacks within stacks -/

/-- The remembered stacks lie within the stack, each within the one before it. -/
def Nested : List Point → List (Task (List Point)) → Prop
  | _, [] => True
  | stack, .goal _ b :: tasks => b <:+ stack ∧ Nested b tasks
  | stack, .cutTo b :: tasks => b <:+ stack ∧ Nested b tasks
  | stack, .fail :: tasks => Nested stack tasks

/-- Each remembered trail is a beginning of the later ones, and what a choice point saves is nested in
the stack below it. -/
def Layered : List Ref → List Point → Prop
  | _, [] => True
  | trail, point :: stack =>
    point.trail <+: trail ∧ Nested stack point.tasks ∧ Layered point.trail stack

/-- What is remembered fits together, and fits the trail. -/
structure Coherent (trail : List Ref) (r : Recall) : Prop where
  /-- What is left to prove goes back to choice points that are there. -/
  nested : Nested r.stack r.tasks
  /-- So does what is saved. -/
  layered : Layered trail r.stack

theorem Nested.mono (h : Nested b tasks) (hb : b <:+ stack) : Nested stack tasks := by
  induction tasks with
  | nil => trivial
  | cons task tasks ih =>
    cases task with
    | goal t b' | cutTo b' => exact ⟨h.1.trans hb, h.2⟩
    | fail => exact ih h

/-- The goals of a body, in front of what was left to prove. -/
theorem Nested.goals (h : Nested stack tasks) (body : List Ref) :
    Nested stack (body.map (.goal · stack) ++ tasks) := by
  induction body with
  | nil => exact h
  | cons t body ih => exact ⟨List.suffix_rfl, ih⟩

theorem Layered.mono (h : Layered trail stack) (ht : trail <+: trail') : Layered trail' stack := by
  cases stack with
  | nil => trivial
  | cons point stack => exact ⟨h.1.trans ht, h.2⟩

theorem Layered.suffix (h : Layered trail stack) (hb : b <:+ stack) : Layered trail b := by
  induction stack generalizing trail with
  | nil =>
    rw [List.suffix_nil] at hb
    rw [hb]
    trivial
  | cons point stack ih =>
    rcases List.suffix_cons_iff.mp hb with rfl | hb
    · exact h
    · exact (ih h.2.2 hb).mono h.1

/-- Each remembered stack is what is left of the one that there is. -/
theorem Nested.suffix (h : Nested stack tasks) : ∀ b ∈ tasks.filterMap Task.stack?, b <:+ stack := by
  induction tasks generalizing stack with
  | nil => exact nofun
  | cons task tasks ih =>
    cases task with
    | goal t b | cutTo b =>
      exact List.forall_mem_cons.mpr ⟨h.1, fun b' hb' => (ih h.2 b' hb').trans h.1⟩
    | fail => exact ih h

/-- Each remembered trail is a beginning of the one that there is. -/
theorem Layered.beginning (h : Layered trail stack) : ∀ point ∈ stack, point.trail <+: trail := by
  induction stack generalizing trail with
  | nil => exact nofun
  | cons point stack ih =>
    exact List.forall_mem_cons.mpr ⟨h.1, fun p hp => (ih h.2.2 p hp).trans h.1⟩

/-- Turning back to a choice point gives the trail that it remembers. -/
theorem Layered.undo {s : Store} (h : Layered s.trail.toList stack) (hp : point ∈ stack) :
    (s.undoTo point.trail.length).trail.toList = point.trail := by
  rw [trail_undoTo]
  exact (List.prefix_iff_eq_take.mp (h.beginning point hp)).symm

/-! ## The same steps -/

theorem map_bind_congr {α : Type} {action : MachineM α} {f : α → MachineM (Option Recall)}
    {g : α → MachineM (Option Search)} (h : ∀ a, Option.map search <$> f a = g a) :
    Option.map search <$> (action >>= f) = action >>= g := by
  rw [map_bind]
  exact bind_congr h

/-- Where the one search looks at the length of the trail, the other looks at the trail. -/
theorem map_look_congr {f : List Ref → MachineM (Option Recall)} {g : Nat → MachineM (Option Search)}
    (h : ∀ trail, Option.map search <$> f trail = g trail.length) :
    Option.map search <$> (look (·.trail.toList) >>= f) = look (·.mark) >>= g := by
  funext m
  exact congrFun (h m.store.trail.toList) m

theorem map_goals (body : List Ref) (tasks : List (Task (List Point))) (stack : List Point) :
    (body.map (Task.goal · stack) ++ tasks).map frame =
      body.map (Frame.goal · stack.length) ++ tasks.map frame := by
  rw [List.map_append, List.map_map]
  rfl

theorem map_tryClauses (t : Ref) (tasks : List (Task (List Point))) (stack : List Point)
    (cs : List Clause) : Option.map search <$> tryClauses t tasks stack cs =
      Search.tryClauses t (tasks.map frame) (choices stack) cs := by
  induction cs with
  | nil => rfl
  | cons c rest ih =>
    rw [tryClauses, Search.tryClauses]
    refine map_look_congr fun trail => map_bind_congr fun body => ?_
    cases body with
    | none => exact map_bind_congr fun _ => ih
    | some body =>
      rw [map_pure]
      refine congrArg (fun S => pure (some S)) ?_
      rw [search, map_goals, height_choices, apply_ite choices, Choices.push, height_choices]
      rfl

theorem map_backtrack (stack : List Point) :
    Option.map search <$> backtrack stack = Search.backtrack (choices stack) := by
  induction stack with
  | nil => rfl
  | cons point stack ih =>
    obtain ⟨trail, retry, tasks⟩ := point
    rw [backtrack, choices, Search.backtrack]
    refine map_bind_congr fun _ => ?_
    rcases retry with _ | ⟨goal, rest⟩
    · rfl
    · have htry := map_tryClauses goal tasks stack rest
      simp only [Point.alternative]
      rw [← htry, bind_map_left, map_bind]
      refine bind_congr fun r => ?_
      cases r with
      | none => exact ih
      | some r => rfl

theorem map_callProcedure (pi : Indicator) (t : Ref) (args : List Ref)
    (tasks : List (Task (List Point))) (stack : List Point) :
    Option.map search <$> callProcedure run pi t args tasks stack =
      Search.callProcedure run pi t args (tasks.map frame) (choices stack) := by
  refine map_bind_congr fun m => ?_
  rcases m.database.find? pi with _ | ⟨b | p⟩
  · rfl
  · refine map_bind_congr fun found => ?_
    cases found <;> rfl
  · exact map_tryClauses t tasks stack p.clauses

theorem map_proveControl (hb : b <:+ stack) (t : Ref) (tasks : List (Task (List Point)))
    (control : Search.Control Ref) :
    Option.map search <$> proveControl run t b tasks stack control =
      Search.proveControl run t b.length (tasks.map frame) (choices stack) control := by
  cases control with
  | succeed | both left right | fail => rfl
  | cut =>
    rw [Search.proveControl, cutTo_choices hb]
    rfl
  | ifThenElse condition consequence otherwise =>
    refine map_look_congr fun trail => ?_
    rw [Choices.push, height_choices]
    rfl
  | either left right =>
    refine map_look_congr fun trail => ?_
    rw [Choices.push, height_choices]
    rfl
  | ifThen condition consequence =>
    rw [Search.proveControl, height_choices]
    rfl
  | not goal =>
    refine map_look_congr fun trail => ?_
    rw [Choices.push, height_choices]
    rfl
  | call goal extra =>
    refine map_bind_congr fun goal => ?_
    rw [height_choices]
    rfl
  | procedure pi args => exact map_callProcedure pi t args tasks stack

theorem map_proveGoal (hb : b <:+ stack) (t : Ref) (tasks : List (Task (List Point))) :
    Option.map search <$> proveGoal run t b tasks stack =
      Search.proveGoal run t b.length (tasks.map frame) (choices stack) := by
  refine map_bind_congr fun t => map_bind_congr fun callee => map_bind_congr fun control => ?_
  exact map_proveControl hb t tasks control

theorem map_prove (h : Nested stack (task :: tasks)) :
    Option.map search <$> prove run task tasks stack =
      Search.prove run (frame task) (tasks.map frame) (choices stack) := by
  cases task with
  | goal t b => exact map_proveGoal h.1 t tasks
  | cutTo b =>
    rw [frame, Search.prove, cutTo_choices h.1]
    rfl
  | fail => rfl

/-- **A step of the recalling search is a step of the search**, whatever it comes to. -/
theorem map_step (h : Nested stack (task :: tasks)) :
    Option.map search <$> step run task tasks stack =
      Search.step run (frame task) (tasks.map frame) (choices stack) := by
  rw [step, Search.step, ← map_prove h, bind_map_left, map_bind]
  refine bind_congr fun r => ?_
  cases r with
  | none => exact map_backtrack stack
  | some r => rfl

/-! ## What a step keeps -/

/-- The search that an action comes to fits the trail; if it comes to none, the machine is as said. -/
def Coheres (P : Machine → Prop) (r : Option Recall) (m : Machine) : Prop :=
  match r with
  | some r => r.Coherent m.store.trail.toList
  | none => P m

/-- The machine has kept all cells and bindings, and the trail. -/
structure Extends (m m' : Machine) : Prop extends Search.Advances m m' where
  /-- The trail only got longer. -/
  trail : m.store.trail.toList <+: m'.store.trail.toList

theorem Extends.refl (h : m.Sound) : Extends m m := ⟨.refl h, List.prefix_rfl⟩

theorem Extends.of_evolves {R R' : List Ref} (h : Evolves m m' R R') : Extends m m' := by
  obtain ⟨vs, hgrows⟩ := h.grows
  exact ⟨.of_evolves h, vs, hgrows.trail.symm⟩

/-- Trying clauses. -/
theorem coherent_tryClauses (h : m.Sound) (ht : t.index < m.store.size) {cs : List Clause}
    (hcs : ∀ c ∈ cs, c.InRange m.store) (hnested : Nested stack tasks)
    (hlayered : Layered m.store.trail.toList stack) :
    Ends (tryClauses t tasks stack cs m)
      (Coheres fun m' => Search.Advances m m' ∧ m'.store.trail.toList = m.store.trail.toList)
      fun _ => True := by
  induction cs generalizing m with
  | nil => exact ⟨.refl h, rfl⟩
  | cons c rest ih =>
    rw [List.forall_mem_cons] at hcs
    have henter := h.evolves_enter hcs.1 ht
    rw [tryClauses]
    refine Ends.bind (Q := fun trail m₁ => m₁ = m ∧ trail = m.store.trail.toList) ⟨rfl, rfl⟩ ?_
    rintro trail m₁ ⟨rfl, rfl⟩
    refine (ends_onStore (Q := fun body m₂ => body = (c.enter t m₁.store).1 ∧
      m₂ = { m₁ with store := (c.enter t m₁.store).2 }) ⟨rfl, rfl⟩).bind ?_
    rintro body m₂ ⟨rfl, rfl⟩
    rcases (c.enter t m₁.store).1 with _ | body
    · -- The head does not match, and what it bound is undone.
      have hundone := henter.undo
      have hsize := hundone.grows.size_le
      have htrail := hundone.grows.trail
      rw [List.append_nil] at htrail
      refine (ih hundone.sound (Nat.lt_of_lt_of_le ht hsize) (fun c' hc' => (hcs.2 c' hc').mono hsize)
        (htrail.symm ▸ hlayered)).imp (fun r m' hm' => ?_) fun _ => id
      rcases r with _ | r
      · obtain ⟨hadvances, heq⟩ := hm'
        have hmark := congrArg List.length htrail
        refine ⟨⟨hadvances.sound, hsize.trans hadvances.size_le, ?_⟩, heq.trans htrail⟩
        exact hmark.ge.trans hadvances.mark_le
      · exact hm'
    · have htrail := (Extends.of_evolves henter).trail
      show Coherent _ _
      dsimp only
      split
      · exact ⟨hnested.goals body, hlayered.mono htrail⟩
      · refine ⟨?_, htrail, hnested, hlayered⟩
        exact (hnested.goals body).mono (List.suffix_cons _ _)

/-- Turning back. -/
theorem coherent_backtrack (h : m.Sound)
    (hchoices : ∀ point ∈ choices stack, InStore m.store point)
    (hlayered : Layered m.store.trail.toList stack) :
    Ends (backtrack stack m) (Coheres fun _ => True) fun _ => True := by
  induction stack generalizing m with
  | nil => trivial
  | cons point stack ih =>
    rw [choices, List.forall_mem_cons] at hchoices
    have hsound : { m with store := m.store.undoTo point.trail.length }.Sound :=
      h.of_persists (h.wellFormed.undoTo _) (h.trailed.undoTo _) (persists_undoTo _ _)
    have hsize : m.store.size ≤ (m.store.undoTo point.trail.length).size := (size_undoTo _ _).ge
    have hpoint := hchoices.1.mono hsize
    have htrail := hlayered.undo List.mem_cons_self
    obtain ⟨-, hnested, hbelow⟩ := hlayered
    rw [backtrack]
    refine (ends_onStore (Q := fun _ m₁ =>
      m₁ = { m with store := m.store.undoTo point.trail.length }) rfl).bind ?_
    rintro _ m₁ rfl
    obtain ⟨trail, retry, tasks⟩ := point
    rcases retry with _ | ⟨goal, rest⟩
    · exact ⟨hnested, htrail.symm ▸ hbelow⟩
    · refine Ends.bind (coherent_tryClauses hsound (hpoint.1 goal List.mem_cons_self) hpoint.2
        hnested (htrail.symm ▸ hbelow)) fun r m₂ hm₂ => ?_
      rcases r with _ | r
      · obtain ⟨hadvances, heq⟩ := hm₂
        refine ih hadvances.sound (fun p hp => (hchoices.2 p hp).mono ?_)
          ((heq.trans htrail).symm ▸ hbelow)
        exact hsize.trans hadvances.size_le
      · exact hm₂

variable {solve : Ref → MachineM Bool} (hsolve : Proper solve)

include hsolve

theorem coherent_callProcedure (h : m.Sound) (pi : Indicator) {args : List Ref}
    (ht : t.index < m.store.size) (hargs : ∀ a ∈ args, a.index < m.store.size)
    (hr : Coherent m.store.trail.toList ⟨tasks, stack⟩) :
    Ends (callProcedure (Builtin.run solve) pi t args tasks stack m) (Coheres (Extends m))
      fun _ => True := by
  unfold callProcedure
  refine Ends.bind (Q := fun m₁ m' => m' = m ∧ m₁ = m) ⟨rfl, rfl⟩ ?_
  rintro m₁ m' ⟨rfl, rfl⟩
  rcases hp : m₁.database.find? pi with _ | ⟨b | p⟩
  · exact trivial
  · have hrun := evolving_run hsolve h b hargs
    refine Ends.bind (hrun.imp (fun _ _ => Extends.of_evolves) fun _ _ => trivial)
      fun found m' hm' => ?_
    cases found with
    | true => exact ⟨hr.nested, hr.layered.mono hm'.trail⟩
    | false => exact hm'
  · refine (coherent_tryClauses h ht (Search.inRange_of_find? h hp) hr.nested hr.layered).imp
      (fun r m' hm' => ?_) fun _ => id
    rcases r with _ | r
    · exact ⟨hm'.1, hm'.2.symm ▸ List.prefix_rfl⟩
    · exact hm'

theorem coherent_proveControl (h : m.Sound) (ht : t.index < m.store.size)
    {control : Search.Control Ref} (hrefs : ∀ r ∈ control.refs, r.index < m.store.size)
    (hr : Coherent m.store.trail.toList ⟨.goal t b :: tasks, stack⟩) :
    Ends (proveControl (Builtin.run solve) t b tasks stack control m) (Coheres (Extends m))
      fun _ => True := by
  obtain ⟨⟨hb, hnested⟩, hlayered⟩ := hr
  have hrest : Nested stack tasks := hnested.mono hb
  cases control with
  | succeed => exact ⟨hrest, hlayered⟩
  | fail => exact .refl h
  | cut => exact ⟨hnested, hlayered.suffix hb⟩
  | both left right => exact ⟨⟨hb, List.suffix_rfl, hnested⟩, hlayered⟩
  | ifThenElse condition consequence otherwise =>
    have hsaved : Nested stack (.goal otherwise b :: tasks) := ⟨hb, hnested⟩
    exact ⟨⟨List.suffix_rfl, List.suffix_cons _ _, hb, hnested⟩, List.prefix_rfl, hsaved, hlayered⟩
  | either left right =>
    have hsaved : Nested stack (.goal right b :: tasks) := ⟨hb, hnested⟩
    exact ⟨⟨hb.trans (List.suffix_cons _ _), hnested⟩, List.prefix_rfl, hsaved, hlayered⟩
  | ifThen condition consequence =>
    exact ⟨⟨List.suffix_rfl, List.suffix_rfl, hb, hnested⟩, hlayered⟩
  | not goal =>
    exact ⟨⟨List.suffix_rfl, List.suffix_cons _ _, trivial⟩, List.prefix_rfl, hrest, hlayered⟩
  | call goal extra =>
    rw [Search.Control.refs, List.forall_mem_cons] at hrefs
    refine Ends.bind ((Search.evolving_withArgs h hrefs.1 hrefs.2).imp
      (fun _ _ => Extends.of_evolves) fun _ _ => trivial) fun g m' hm' => ?_
    exact ⟨⟨List.suffix_rfl, hrest⟩, hlayered.mono hm'.trail⟩
  | procedure pi args => exact coherent_callProcedure hsolve h pi ht hrefs ⟨hrest, hlayered⟩

theorem coherent_proveGoal (h : m.Sound) (ht : t.index < m.store.size)
    (hr : Coherent m.store.trail.toList ⟨.goal t b :: tasks, stack⟩) :
    Ends (proveGoal (Builtin.run solve) t b tasks stack m) (Coheres (Extends m))
      fun _ => True := by
  have hs := h.wellFormed.acyclic
  unfold proveGoal
  refine Ends.bind (Q := fun r m' => m' = m ∧ r = m.store.deref t) ⟨rfl, rfl⟩ ?_
  rintro r m' ⟨rfl, rfl⟩
  refine Ends.bind ((Search.ends_callee hs _).imp (fun _ _ => id) fun _ _ => trivial) ?_
  rintro r m ⟨rfl, hargs⟩
  refine Ends.bind (Q := fun control m' => m' = m ∧ control = Search.Control.of m.store r.1 r.2)
    ⟨rfl, rfl⟩ ?_
  rintro control m' ⟨rfl, rfl⟩
  have hderef := h.wellFormed.deref_lt ht
  refine coherent_proveControl hsolve h hderef (fun u hu => ?_) ⟨hr.nested, hr.layered⟩
  obtain ⟨a, ha, hreach⟩ := Search.Control.reaches_of hs _ hu
  exact h.wellFormed.lt_of_reaches hderef ((hargs a ha).trans hreach)

theorem coherent_prove (h : m.Sound) (htask : ∀ t ∈ (frame task).refs, t.index < m.store.size)
    (hr : Coherent m.store.trail.toList ⟨task :: tasks, stack⟩) :
    Ends (prove (Builtin.run solve) task tasks stack m) (Coheres (Extends m))
      fun _ => True := by
  cases task with
  | goal t b => exact coherent_proveGoal hsolve h (htask t List.mem_cons_self) hr
  | cutTo b => exact ⟨hr.nested.2, hr.layered.suffix hr.nested.1⟩
  | fail => exact .refl h

/-- **A step keeps what is remembered in order.** -/
theorem coherent_step (h : m.Sound) (htask : ∀ t ∈ (frame task).refs, t.index < m.store.size)
    (hchoices : ∀ point ∈ choices stack, InStore m.store point)
    (hr : Coherent m.store.trail.toList ⟨task :: tasks, stack⟩) :
    Ends (step (Builtin.run solve) task tasks stack m) (Coheres fun _ => True) fun _ => True := by
  unfold step
  refine Ends.bind (coherent_prove hsolve h htask hr) fun r m' hm' => ?_
  rcases r with _ | r
  · refine coherent_backtrack hm'.sound (fun p hp => (hchoices p hp).mono hm'.size_le) ?_
    exact hr.layered.mono hm'.trail
  · exact hm'

omit hsolve

/-! ## Searches that are remembered -/

/-- An action that comes to a search comes to one that is remembered. -/
theorem of_map_eq_ok {action : MachineM (Option Recall)} {S : Search}
    (h : (Option.map search <$> action) m = .ok (some S) m') :
    ∃ r, action m = .ok (some r) m' ∧ r.search = S := by
  rcases haction : action m with ⟨_ | r, m₁⟩ | ⟨e, m₁⟩
  · rw [map_eq_of_ok haction] at h
    cases h
  · rw [map_eq_of_ok haction] at h
    cases h
    exact ⟨r, rfl, rfl⟩
  · have hmap : (Option.map search <$> action) m = .error e m₁ := by
      show EStateM.map _ _ m = _
      rw [EStateM.map, haction]
    rw [hmap] at h
    cases h

include hsolve in
/-- **Whatever a search comes to is remembered.** -/
theorem exists_recall (h : m.Sound) (ht : t.index < m.store.size) {S : Search}
    (hreached : ReflTransGen (Search.Passes (Builtin.run solve)) (m, { goals := [.goal t 0] })
      (m', S)) :
    ∃ r, ReflTransGen (Passes (Builtin.run solve)) (m, { tasks := [.goal t []] }) (m', r) ∧
      r.search = S ∧ r.Coherent m'.store.trail.toList := by
  suffices hall : ∀ y, ReflTransGen (Search.Passes (Builtin.run solve))
      (m, { goals := [.goal t 0] }) y → ∃ r,
        ReflTransGen (Passes (Builtin.run solve)) (m, { tasks := [.goal t []] }) (y.1, r) ∧
          r.search = y.2 ∧ r.Coherent y.1.store.trail.toList from hall _ hreached
  intro y hy
  induction hy with
  | refl => exact ⟨{ tasks := [.goal t []] }, .refl, rfl, ⟨List.suffix_rfl, trivial⟩, trivial⟩
  | @tail y z hbefore hpass ih =>
    obtain ⟨r, hr, hsearch, hcoherent⟩ := ih
    obtain ⟨m₀, goals₀, hsince⟩ := Search.exists_since (x := (m, { goals := [.goal t 0] })) hsolve h
      (by simpa [Frame.refs] using ht) rfl hbefore
    cases hpass with
    | @step m₁ m₂ frame₁ goals choices₁ S₂ hstep =>
      obtain ⟨_ | ⟨task, tasks⟩, stack⟩ := r
      · cases hsearch
      · cases hsearch
        rw [← map_step hcoherent.nested] at hstep
        obtain ⟨r', hr', rfl⟩ := of_map_eq_ok hstep
        have hkeeps := coherent_step hsolve hsince.holding.sound
          (fun u hu => hsince.holding.lt (List.mem_append_left _ hu)) hsince.holding.inStore hcoherent
        exact ⟨r', hr.tail (.step hr'), rfl, hkeeps.of_ok hr'⟩

end Recall

/-! ## Heights and marks -/

/-- The height that a frame cuts back to, if it is one from which a cut is possible. -/
def Frame.height? : Frame → Option Nat
  | .goal _ barrier => some barrier
  | .cutTo height => some height
  | .fail => none

/-- What is saved to be proved after turning back. -/
def ChoicePoint.saved (point : ChoicePoint) : List Frame :=
  match point.alternative with
  | .resume goals => goals
  | .clauses _ _ goals => goals

/-- The numbers of a search are in order. -/
structure Search.Barred (s : Store) (S : Search) : Prop where
  /-- No cut goes back further up than there are choice points. -/
  goals_le : ∀ n ∈ S.goals.filterMap Frame.height?, n ≤ S.choices.length
  /-- Outer frames do not cut back to greater heights than inner ones. -/
  goals_descend : (S.goals.filterMap Frame.height?).Pairwise (· ≥ ·)
  /-- Each choice point knows how many are below it. -/
  below : ∀ point rest, point :: rest <:+ S.choices → point.below = rest.length
  /-- What a choice point saves cuts back to choice points below it. -/
  saved_le : ∀ point rest, point :: rest <:+ S.choices →
    ∀ n ∈ point.saved.filterMap Frame.height?, n ≤ rest.length
  /-- Nor does it cut back further on the way out. -/
  saved_descend : ∀ point ∈ S.choices, (point.saved.filterMap Frame.height?).Pairwise (· ≥ ·)
  /-- No mark lies beyond the trail. -/
  marks_le : ∀ point ∈ S.choices, point.mark ≤ s.mark
  /-- Later choice points do not have smaller marks than earlier ones. -/
  marks_ascend : S.choices.Pairwise fun later earlier => earlier.mark ≤ later.mark

namespace Recall

variable {m m' : Machine} {t : Ref} {tasks : List (Task (List Point))} {stack b : List Point}
  {trail : List Ref} {point : Point} {r : Recall} {s : Store}

/-- Within stacks that lie within each other, heights do not increase. -/
theorem Nested.heights (h : Nested stack tasks) :
    (∀ n ∈ (tasks.map frame).filterMap Frame.height?, n ≤ stack.length) ∧
      ((tasks.map frame).filterMap Frame.height?).Pairwise (· ≥ ·) := by
  induction tasks generalizing stack with
  | nil => exact ⟨nofun, .nil⟩
  | cons task tasks ih =>
    cases task with
    | goal t b | cutTo b =>
      obtain ⟨hle, hsorted⟩ := ih h.2
      have hb := h.1.length_le
      refine ⟨List.forall_mem_cons.mpr ⟨hb, fun n hn => (hle n hn).trans hb⟩, .cons hle hsorted⟩
    | fail => exact ih h

theorem saved_eq (point : Point) (k n : Nat) :
    (ChoicePoint.mk k n point.alternative).saved = point.tasks.map frame := by
  obtain ⟨trail, _ | ⟨goal, rest⟩, tasks⟩ := point <;> rfl

/-- The choice points are those of the stacks within the stack. -/
theorem cons_suffix_choices {p : ChoicePoint} {rest : Choices} (h : p :: rest <:+ choices stack) :
    ∃ point b, point :: b <:+ stack ∧ choices (point :: b) = p :: rest := by
  induction stack with
  | nil => cases List.suffix_nil.mp h
  | cons point stack ih =>
    rw [choices] at h
    rcases List.suffix_cons_iff.mp h with heq | h
    · exact ⟨point, stack, List.suffix_rfl, heq.symm⟩
    · obtain ⟨point', b, hb, heq⟩ := ih h
      exact ⟨point', b, hb.trans (List.suffix_cons _ _), heq⟩

theorem Layered.marks (h : Layered trail stack) :
    (∀ p ∈ choices stack, p.mark ≤ trail.length) ∧
      (choices stack).Pairwise fun later earlier => earlier.mark ≤ later.mark := by
  induction stack generalizing trail with
  | nil => exact ⟨nofun, .nil⟩
  | cons point stack ih =>
    obtain ⟨hle, hsorted⟩ := ih h.2.2
    have ht := h.1.length_le
    exact ⟨List.forall_mem_cons.mpr ⟨ht, fun p hp => (hle p hp).trans ht⟩, .cons hle hsorted⟩

theorem Layered.nested (h : Layered trail stack) (hb : point :: b <:+ stack) :
    Nested b point.tasks :=
  (h.suffix hb).2.1

/-- What is remembered in order has its numbers in order. -/
theorem Coherent.barred (h : r.Coherent s.trail.toList) : r.search.Barred s := by
  obtain ⟨hnested, hlayered⟩ := h
  have hsaved : ∀ p rest, p :: rest <:+ choices r.stack → p.below = rest.length ∧
      (∀ n ∈ p.saved.filterMap Frame.height?, n ≤ rest.length) ∧
      (p.saved.filterMap Frame.height?).Pairwise (· ≥ ·) := by
    intro p rest hsuffix
    obtain ⟨point, b, hb, heq⟩ := cons_suffix_choices hsuffix
    rw [choices] at heq
    cases heq
    rw [saved_eq, length_choices]
    exact ⟨rfl, (hlayered.nested hb).heights⟩
  constructor
  case goals_le =>
    intro n hn
    exact (length_choices r.stack).symm ▸ hnested.heights.1 n hn
  case goals_descend => exact hnested.heights.2
  case below => exact fun p rest hsuffix => (hsaved p rest hsuffix).1
  case saved_le => exact fun p rest hsuffix => (hsaved p rest hsuffix).2.1
  case saved_descend =>
    intro p hp
    obtain ⟨before, rest, hrest⟩ := List.append_of_mem hp
    exact (hsaved p rest ⟨before, hrest.symm⟩).2.2
  case marks_le => exact hlayered.marks.1
  case marks_ascend => exact hlayered.marks.2

end Recall

namespace Machine

/-- **Barriers and marks are what they stand for.**  In whatever a search comes to, the heights to which
what is left to prove cuts back are no greater than the stack is high, those of what a choice point
saves are no greater than the number of choice points below it, and outwards they do not increase; the
marks do not decrease from the lowest choice point to the latest, and none lies beyond the trail.

What is more, the search has come to it step by step as one that remembers the stacks and the trails
themselves.  So a cut leaves the stack of the moment at which the barrier was taken, and drops just the
choice points made since; turning back to a choice point leaves the trail of the moment at which it was
made; and the next step is the same for both again, also if it fails or ends in an error. -/
theorem Sound.search_barred {m m' : Machine} (h : m.Sound) (fuel : Nat) {goal : Ref}
    (hgoal : goal.index < m.store.size) {S : Search}
    (hreached : ReflTransGen (Search.Passes (Builtin.run (solve fuel)))
      (m, { goals := [.goal goal 0] }) (m', S)) :
    S.Barred m'.store ∧ ∃ r : Recall,
      ReflTransGen (Recall.Passes (Builtin.run (solve fuel))) (m, { tasks := [.goal goal []] })
        (m', r) ∧
      r.search = S ∧
      (∀ b ∈ r.tasks.filterMap Recall.Task.stack?,
        b <:+ r.stack ∧ S.choices.cutTo b.length = Recall.choices b) ∧
      (∀ point ∈ r.stack, (m'.store.undoTo point.trail.length).trail.toList = point.trail) ∧
      ∀ task tasks, r.tasks = task :: tasks →
        Option.map Recall.search <$> Recall.step (Builtin.run (solve fuel)) task tasks r.stack =
          Search.step (Builtin.run (solve fuel)) (Recall.frame task) (tasks.map Recall.frame)
            S.choices := by
  obtain ⟨r, hr, rfl, hcoherent⟩ := Recall.exists_recall (proper_solve fuel) h hgoal hreached
  refine ⟨hcoherent.barred, r, hr, rfl, fun b hb => ?_, fun point hp => ?_, fun task tasks htasks => ?_⟩
  · have hsuffix := hcoherent.nested.suffix b hb
    exact ⟨hsuffix, Recall.cutTo_choices hsuffix⟩
  · exact hcoherent.layered.undo hp
  · exact Recall.map_step (htasks ▸ hcoherent.nested)

/-- A call of `p` after its first step, when the body of the first clause is still to be proved and
the second clause is still to be tried. -/
theorem search_barred_in_body : ∃ (m m' : Machine) (goal : Ref) (S : Search), m.Sound ∧
    goal.index < m.store.size ∧
    ReflTransGen (Search.Passes (Builtin.run (solve 1))) (m, { goals := [.goal goal 0] }) (m', S) ∧
    S.goals.filterMap Frame.height? = [0, 0] ∧ S.choices.length = 1 ∧ S.Barred m'.store := by
  let m := after (compileText 1 ⟨0⟩ "p :- q, !. p." []) (Machine.build [] [] true)
  let goal := m.store.apply "p" []
  let result := Search.step (Builtin.run (solve 1)) (.goal goal.1 0) [] [] { m with store := goal.2 }
  have hm : Session m := .compile (.build [] [] true) 1 ⟨0⟩ _ (List.forall_mem_nil _)
  have hgoal := hm.sound.1.evolves_apply "p" (List.forall_mem_nil _)
  have hlt := hgoal.lt _ List.mem_cons_self
  obtain ⟨⟨_, m'⟩, hresult, S, rfl, hheights, hlength⟩ : ∃ x ∈ value? result, ∃ S ∈ x.1,
      S.goals.filterMap Frame.height? = [0, 0] ∧ S.choices.length = 1 := by decide +kernel
  have hreached : ReflTransGen (Search.Passes (Builtin.run (solve 1)))
      ({ m with store := goal.2 }, { goals := [.goal goal.1 0] }) (m', S) :=
    .single (.step (value?_eq_some.mp hresult))
  exact ⟨_, m', goal.1, S, hgoal.sound, hlt, hreached, hheights, hlength,
    (hgoal.sound.search_barred 1 hlt hreached).1⟩

end Machine

end Clausal
