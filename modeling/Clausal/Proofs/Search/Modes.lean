import Clausal.Proofs.Machine.Searching

/-! # What a search is doing

Between two steps a search is running; while it looks for the next goal to take up it may be trying
clauses, or turning back (`Mode`).  A failed goal and the turning back after it belong to one step, so
that some changes of mode take a step and others none: `Leads k` says that one mode comes to another
in `k` steps, whatever fuel there is.

A cut goes back to a height of the stack of choice points.  What matters of a stack, to a goal with
the barrier `b`, is therefore what is left of it by cutting to `b` or below: `Keeps b` says that a
stack has that in common with an earlier one.
-/

namespace Clausal

open Store

/-! ## Stacks of choice points -/

namespace Choices

variable {choices choices' choices'' : Choices} {b b' h mark : Nat} {alternative : Alternative}

/-- Every choice point knows how many are below it. -/
def Proper : Choices → Prop
  | [] => True
  | top :: choices => top.below = height choices ∧ Proper choices

@[simp] theorem height_push (choices : Choices) (mark : Nat) (alternative : Alternative) :
    height (choices.push mark alternative) = height choices + 1 := rfl

theorem Proper.push (h : Proper choices) (mark : Nat) (alternative : Alternative) :
    Proper (choices.push mark alternative) :=
  ⟨rfl, h⟩

theorem cutTo_cons_of_le {top : ChoicePoint} (hle : h ≤ top.below) :
    cutTo (top :: choices) h = cutTo choices h :=
  List.dropWhile_cons_of_pos (by simpa using hle)

theorem cutTo_cons_of_lt {top : ChoicePoint} (hlt : top.below < h) :
    cutTo (top :: choices) h = top :: choices :=
  List.dropWhile_cons_of_neg (by simpa using hlt)

theorem cutTo_push (hle : h ≤ height choices) (mark : Nat) (alternative : Alternative) :
    cutTo (choices.push mark alternative) h = cutTo choices h :=
  cutTo_cons_of_le hle

/-- Nothing is above the height. -/
theorem cutTo_height (choices : Choices) : cutTo choices (height choices) = choices := by
  cases choices with
  | nil => rfl
  | cons top choices => exact cutTo_cons_of_lt (Nat.lt_succ_self _)

theorem Proper.cutTo (hp : Proper choices) (hle : h ≤ height choices) :
    Proper (choices.cutTo h) ∧ height (choices.cutTo h) = h := by
  induction choices with
  | nil => exact ⟨trivial, (Nat.le_zero.mp hle).symm⟩
  | cons top choices ih =>
    obtain ⟨hbelow, hp'⟩ := hp
    by_cases hcut : h ≤ top.below
    · rw [cutTo_cons_of_le hcut]
      exact ih hp' (hbelow ▸ hcut)
    · rw [cutTo_cons_of_lt (Nat.lt_of_not_le hcut)]
      have hheight : h ≤ top.below + 1 := hle
      exact ⟨⟨hbelow, hp'⟩, show top.below + 1 = h by omega⟩

theorem cutTo_cutTo (hle : h ≤ b) : cutTo (cutTo choices b) h = cutTo choices h := by
  induction choices with
  | nil => rfl
  | cons top choices ih =>
    by_cases hcut : b ≤ top.below
    · rw [cutTo_cons_of_le hcut, cutTo_cons_of_le (hle.trans hcut), ih]
    · rw [cutTo_cons_of_lt (Nat.lt_of_not_le hcut)]

/-- The second stack has the first one's choice points up to the height `b`. -/
structure Keeps (b : Nat) (choices choices' : Choices) : Prop where
  /-- It is a stack. -/
  proper : Proper choices'
  /-- It is no lower than that. -/
  le : b ≤ height choices'
  /-- Cutting does not tell it from the first one. -/
  cutTo : ∀ h ≤ b, cutTo choices' h = cutTo choices h

theorem Keeps.refl (hp : Proper choices) (hle : b ≤ height choices) : Keeps b choices choices :=
  ⟨hp, hle, fun _ _ => rfl⟩

theorem Keeps.trans (h : Keeps b choices choices') (h' : Keeps b choices' choices'') :
    Keeps b choices choices'' :=
  ⟨h'.proper, h'.le, fun k hk => (h'.cutTo k hk).trans (h.cutTo k hk)⟩

theorem Keeps.mono (h : Keeps b choices choices') (hle : b' ≤ b) : Keeps b' choices choices' :=
  ⟨h.proper, hle.trans h.le, fun k hk => h.cutTo k (hk.trans hle)⟩

theorem Keeps.push (hp : Proper choices) (hle : b ≤ height choices) (mark : Nat)
    (alternative : Alternative) : Keeps b choices (choices.push mark alternative) :=
  ⟨hp.push mark alternative, Nat.le_succ_of_le hle,
    fun _ hk => cutTo_push (hk.trans hle) mark alternative⟩

/-- A cut keeps what is below. -/
theorem Keeps.of_cutTo (hp : Proper choices) (hle : b ≤ height choices) :
    Keeps b choices (choices.cutTo b) := by
  obtain ⟨hproper, hheight⟩ := hp.cutTo hle
  exact ⟨hproper, Nat.le_of_eq hheight.symm, fun _ hk => cutTo_cutTo hk⟩

end Choices

namespace Search

open Machine

/-! ## Modes -/

/-- What a search is doing. -/
inductive Mode where
  /-- It is about to take up the next frame. -/
  | running (S : Search)
  /-- It tries clauses for a goal. -/
  | trying (goal : Ref) (clauses : List Clause) (goals : List Frame) (choices : Choices)
  /-- It turns back. -/
  | turning (choices : Choices)

/-- What the search is when it is running again, unless there is nothing left to try. -/
def Mode.next : Mode → MachineM (Option Search)
  | running S => pure (some S)
  | trying goal clauses goals choices => do
    match ← tryClauses goal goals choices clauses with
    | some S => pure (some S)
    | none => backtrack choices
  | turning choices => backtrack choices

variable (m : Machine) (run : Builtin → List Ref → MachineM Bool)

/-- The rest of the search. -/
def Mode.exec (fuel taken : Nat) (M : Mode) : MachineM Bool := do
  match ← M.next with
  | some S => loop run fuel taken S
  | none => pure false

/-- With the one store, the one mode comes in `k` steps to the other, with the other store. -/
structure Leads (k : Nat) (s : Store) (M : Mode) (s' : Store) (M' : Mode) : Prop where
  /-- With less fuel the search is given up on the way. -/
  short : ∀ fuel taken, fuel < k →
    ∃ m', M.exec run fuel taken { m with store := s } = .error .outOfFuel m'
  /-- With as much or more it goes on. -/
  long : ∀ fuel taken, M.exec run (k + fuel) taken { m with store := s } =
    M'.exec run fuel (taken + k) { m with store := s' }

/-- The mode comes in `k` steps to an error. -/
structure Refuses (k : Nat) (s : Store) (M : Mode) (e : Error) : Prop where
  /-- With less fuel the search is given up on the way. -/
  short : ∀ fuel taken, fuel < k →
    ∃ m', M.exec run fuel taken { m with store := s } = .error .outOfFuel m'
  /-- With as much or more it ends with the error. -/
  long : ∀ fuel taken, ∃ m',
    M.exec run (k + fuel) taken { m with store := s } = .error (.error e) m'

variable {m run} {s s' s'' : Store} {M M' M'' : Mode} {j k : Nat} {e : Error} {frame : Frame}
  {goals : List Frame} {choices : Choices} {t : Ref} {c : Clause} {cs : List Clause}

theorem Leads.trans (h : Leads m run j s M s' M') (h' : Leads m run k s' M' s'' M'') :
    Leads m run (j + k) s M s'' M'' where
  short fuel taken hlt := by
    by_cases hj : fuel < j
    · exact h.short fuel taken hj
    · obtain ⟨rest, rfl⟩ := Nat.exists_eq_add_of_le (Nat.le_of_not_lt hj)
      rw [h.long]
      exact h'.short rest _ (by omega)
  long fuel taken := by
    rw [Nat.add_assoc, h.long, h'.long, Nat.add_assoc]

theorem Leads.refuses (h : Leads m run j s M s' M') (h' : Refuses m run k s' M' e) :
    Refuses m run (j + k) s M e where
  short fuel taken hlt := by
    by_cases hj : fuel < j
    · exact h.short fuel taken hj
    · obtain ⟨rest, rfl⟩ := Nat.exists_eq_add_of_le (Nat.le_of_not_lt hj)
      rw [h.long]
      exact h'.short rest _ (by omega)
  long fuel taken := by
    rw [Nat.add_assoc, h.long]
    exact h'.long fuel _

/-- Actions that come to the same go on to the same. -/
theorem bind_run_congr {α β : Type} {action action' : MachineM α} {f : α → MachineM β}
    {m m' : Machine} (h : action m = action' m') : (action >>= f) m = (action' >>= f) m' := by
  show EStateM.bind action f m = EStateM.bind action' f m'
  rw [EStateM.bind, EStateM.bind, h]

theorem bind_run_of_ok {α β : Type} {action : MachineM α} {f : α → MachineM β} {m m' : Machine}
    {a : α} (h : action m = .ok a m') : (action >>= f) m = f a m' := by
  show EStateM.bind action f m = _
  simp only [EStateM.bind, h]

theorem exec_congr {m' : Machine} (h : M.next m = M'.next m') (fuel taken : Nat) :
    M.exec run fuel taken m = M'.exec run fuel taken m' :=
  bind_run_congr h

/-- A change of mode that takes no step. -/
theorem leads_of_next (h : M.next { m with store := s } = M'.next { m with store := s' }) :
    Leads m run 0 s M s' M' where
  short _ _ hlt := absurd hlt (Nat.not_lt_zero _)
  long fuel taken := by
    rw [Nat.zero_add, Nat.add_zero]
    exact exec_congr h fuel taken

theorem Leads.refl (s : Store) (M : Mode) : Leads m run 0 s M s M := leads_of_next rfl

/-! ## Steps -/

theorem exec_running (fuel taken : Nat) (S : Search) (m : Machine) :
    (Mode.running S).exec run fuel taken m = loop run fuel taken S m := rfl

theorem exec_zero (taken : Nat) (frame : Frame) (goals : List Frame) (choices : Choices)
    (m : Machine) :
    (Mode.running ⟨frame :: goals, choices⟩).exec run 0 taken m = .error .outOfFuel m := rfl

section Context

variable (hm : m.cancelled.contains m.context = false)

include hm

/-- Looking at a context that is not cancelled does nothing. -/
theorem loop_step (fuel taken : Nat) (frame : Frame) (goals : List Frame) (choices : Choices)
    (s : Store) :
    loop run (fuel + 1) taken ⟨frame :: goals, choices⟩ { m with store := s } = (do
      match ← step run frame goals choices with
      | some search => loop run fuel (taken + 1) search
      | none => pure false : MachineM Bool) { m with store := s } := by
  have hpoll : poll { m with store := s } = .ok () { m with store := s } := by
    show (if m.cancelled.contains m.context = true then fail .cancelled else pure () :
      MachineM Unit) { m with store := s } = _
    rw [hm]
    rfl
  have hlook : (if (taken + 1) % pollInterval = 0 then poll else pure () : MachineM Unit)
      { m with store := s } = .ok () { m with store := s } := by
    split
    · exact hpoll
    · rfl
  rw [loop_cons]
  exact bind_run_of_ok hlook

/-- A step after which the search is in another mode. -/
theorem leads_of_step (h : step run frame goals choices { m with store := s } =
    M.next { m with store := s' }) :
    Leads m run 1 s (.running ⟨frame :: goals, choices⟩) s' M where
  short fuel taken hlt := by
    rw [Nat.lt_one_iff.mp hlt]
    exact ⟨_, exec_zero taken frame goals choices _⟩
  long fuel taken := by
    rw [exec_running, Nat.add_comm 1 fuel, loop_step hm]
    show EStateM.bind _ _ _ = EStateM.bind _ _ _
    rw [EStateM.bind, EStateM.bind, h]

/-- A step that ends with an error. -/
theorem refuses_of_step {m' : Machine} (h : step run frame goals choices { m with store := s } =
    .error (.error e) m') : Refuses m run 1 s (.running ⟨frame :: goals, choices⟩) e where
  short fuel taken hlt := by
    rw [Nat.lt_one_iff.mp hlt]
    exact ⟨_, exec_zero taken frame goals choices _⟩
  long fuel taken := by
    refine ⟨m', ?_⟩
    rw [exec_running, Nat.add_comm 1 fuel, loop_step hm]
    show EStateM.bind _ _ _ = _
    rw [EStateM.bind, h]

/-- A frame that is taken up. -/
theorem leads_of_prove {S : Search} (h : prove run frame goals choices { m with store := s } =
    .ok (some S) { m with store := s' }) :
    Leads m run 1 s (.running ⟨frame :: goals, choices⟩) s' (.running S) := by
  refine leads_of_step hm ?_
  show EStateM.bind _ _ _ = _
  rw [EStateM.bind, h]
  rfl

/-- A frame that fails. -/
theorem leads_of_prove_none (h : prove run frame goals choices { m with store := s } =
    .ok none { m with store := s' }) :
    Leads m run 1 s (.running ⟨frame :: goals, choices⟩) s' (.turning choices) := by
  refine leads_of_step hm ?_
  show EStateM.bind _ _ _ = _
  rw [EStateM.bind, h]
  rfl

/-- A goal for which there are clauses. -/
theorem leads_of_prove_clauses (h : prove run frame goals choices { m with store := s } =
    tryClauses t goals choices cs { m with store := s' }) :
    Leads m run 1 s (.running ⟨frame :: goals, choices⟩) s' (.trying t cs goals choices) := by
  refine leads_of_step hm ?_
  exact bind_run_congr h

/-- An error. -/
theorem refuses_of_prove {m' : Machine} (h : prove run frame goals choices { m with store := s } =
    .error (.error e) m') : Refuses m run 1 s (.running ⟨frame :: goals, choices⟩) e := by
  refine refuses_of_step hm (show _ = EStateM.Result.error (Stop.error e) m' from ?_)
  show EStateM.bind _ _ _ = _
  rw [EStateM.bind, h]

end Context

/-! ## Turning back and trying clauses -/

/-- Turning back to other goals. -/
theorem leads_resume {point : ChoicePoint} (h : point.alternative = .resume goals) (s : Store) :
    Leads m run 0 s (.turning (point :: choices)) (s.undoTo point.mark)
      (.running ⟨goals, choices⟩) := by
  obtain ⟨below, mark, alternative⟩ := point
  subst h
  exact leads_of_next rfl

/-- Turning back to further clauses. -/
theorem leads_clauses {point : ChoicePoint} (h : point.alternative = .clauses t cs goals)
    (s : Store) :
    Leads m run 0 s (.turning (point :: choices)) (s.undoTo point.mark)
      (.trying t cs goals choices) := by
  obtain ⟨below, mark, alternative⟩ := point
  subst h
  exact leads_of_next rfl

theorem leads_nil (t : Ref) (goals : List Frame) (choices : Choices) (s : Store) :
    Leads m run 0 s (.trying t [] goals choices) s (.turning choices) :=
  leads_of_next rfl

/-- What trying a clause comes to. -/
theorem tryClauses_cons (t : Ref) (goals : List Frame) (choices : Choices) (c : Clause)
    (cs : List Clause) (s : Store) :
    tryClauses t goals choices (c :: cs) { m with store := s } =
      match (c.enter t s).1 with
      | some body => .ok
          (some
            { goals := body.map (.goal · (Choices.height choices)) ++ goals
              choices := if cs.isEmpty then choices
                else choices.push s.mark (.clauses t cs goals) })
          { m with store := (c.enter t s).2 }
      | none => tryClauses t goals choices cs
          { m with store := (c.enter t s).2.undoTo s.mark } := by
  rw [tryClauses]
  show (match (c.enter t s).1 with
    | some body => pure _
    | none => (do changeStore (·.undoTo s.mark); tryClauses t goals choices cs) :
      MachineM (Option Search)) { m with store := (c.enter t s).2 } = _
  rcases (c.enter t s).1 with _ | body <;> rfl

/-- A clause whose head does not match. -/
theorem leads_of_enter_none (h : (c.enter t s).1 = none) :
    Leads m run 0 s (.trying t (c :: cs) goals choices) ((c.enter t s).2.undoTo s.mark)
      (.trying t cs goals choices) := by
  refine leads_of_next ?_
  show EStateM.bind _ _ _ = EStateM.bind _ _ _
  rw [EStateM.bind, EStateM.bind, tryClauses_cons, h]

/-- A clause whose head matches. -/
theorem leads_of_enter {body : List Ref} (h : (c.enter t s).1 = some body) :
    Leads m run 0 s (.trying t (c :: cs) goals choices) (c.enter t s).2
      (.running
        { goals := body.map (.goal · (Choices.height choices)) ++ goals
          choices := if cs.isEmpty then choices
            else choices.push s.mark (.clauses t cs goals) }) := by
  refine leads_of_next ?_
  show EStateM.bind _ _ _ = _
  rw [EStateM.bind, tryClauses_cons, h]
  rfl

end Search

end Clausal
