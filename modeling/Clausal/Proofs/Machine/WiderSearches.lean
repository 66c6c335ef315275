import Clausal.Proofs.Machine.Searching
import Clausal.Proofs.Machine.WiderLoads
import Clausal.Proofs.Search.Goals

/-! # Searches in wider stores

A search takes the same steps in a machine whose store has cells put in, with the places in its frames
and choice points shifted (`Search.results_step`).  So it finds the same proof, and by induction on the
fuel, for searches that run within built-in predicates, goals are proved in the same way in a wider
store (`Machine.solvesWide_solve`).
-/

namespace Clausal

namespace Gap

variable (gap : Gap)

/-- The frame with the place in it shifted. -/
def frame : Frame → Frame
  | .goal t barrier => .goal (gap.ref t) barrier
  | .cutTo height => .cutTo height
  | .fail => .fail

/-- The way to go on with the places in it shifted. -/
def alternative : Alternative → Alternative
  | .resume goals => .resume (goals.map gap.frame)
  | .clauses goal rest goals =>
    .clauses (gap.ref goal) (rest.map gap.clause) (goals.map gap.frame)

/-- The choice points with the places in them shifted. -/
def choices (choices : Choices) : Choices :=
  choices.map fun point => { point with alternative := gap.alternative point.alternative }

/-- The search with the places in it shifted. -/
def search (S : Search) : Search :=
  { goals := S.goals.map gap.frame, choices := gap.choices S.choices }

theorem height_choices (c : Choices) : (gap.choices c).height = c.height := by
  cases c <;> rfl

theorem cutTo_choices (c : Choices) (height : Nat) :
    (gap.choices c).cutTo height = gap.choices (c.cutTo height) :=
  List.dropWhile_map

theorem push_choices (c : Choices) (mark : Nat) (a : Alternative) :
    (gap.choices c).push mark (gap.alternative a) = gap.choices (c.push mark a) := by
  rw [Choices.push, height_choices]
  rfl

end Gap

namespace Search

open Machine Loading

variable {α : Type} {gap : Gap} {base m m' m₀ : Machine} {goal : Ref} {goals : List Frame}
  {choices : Choices} {R L : List Ref} {solve : Ref → MachineM Bool}

/-! ## Clauses -/

theorem results_tryClauses {cs : List Clause} (h : Machine.Wider gap base m m') (hm : m.Sound)
    (hgoal : goal.index < m.store.size) (hcs : ∀ c ∈ cs, c.InRange m.store) (goals : List Frame)
    (choices : Choices) :
    Machine.Results gap base (Option.map gap.search) (tryClauses goal goals choices cs m)
      (tryClauses (gap.ref goal) (goals.map gap.frame) (gap.choices choices) (cs.map gap.clause)
        m') := by
  induction cs generalizing m m' with
  | nil => exact results_pure h none rfl
  | cons c cs ih =>
    rw [List.forall_mem_cons] at hcs
    have henter := hm.evolves_enter hcs.1 hgoal
    rw [List.map_cons, tryClauses, tryClauses]
    refine Machine.Results.of_look ?_
    rw [h.store.mark]
    refine (results_onStore h (Clause.widens_enter h.store hm.wellFormed hcs.1 goal)).bind
      (P := fun r m₁ => r = (c.enter goal m.store).1 ∧
        m₁ = { m with store := (c.enter goal m.store).2 }) (E := fun _ => True) ⟨rfl, rfl⟩
      fun r m₁ m₁' hm₁ h₁ => ?_
    obtain ⟨rfl, rfl⟩ := hm₁
    rcases (c.enter goal m.store).1 with _ | body
    · have hback := henter.undoTo (Nat.le_refl _)
      refine Machine.Results.bind (φ := id) (P := fun _ m₂ => m₂ = { m with
          store := (c.enter goal m.store).2.undoTo m.store.mark }) (E := fun _ => True)
        (results_onStore h₁ ⟨rfl, h₁.store.undoTo _⟩) rfl fun _ m₂ m₂' hm₂ h₂ => ?_
      subst hm₂
      refine ih h₂ hback.sound (Nat.lt_of_lt_of_le hgoal hback.size_le) fun c' hc' =>
        (hcs.2 c' hc').mono hback.size_le
    · refine results_pure h₁ _ ?_
      have hremaining : (if (cs.map gap.clause).isEmpty then gap.choices choices
          else (gap.choices choices).push m.store.mark
            (.clauses (gap.ref goal) (cs.map gap.clause) (goals.map gap.frame))) =
          gap.choices (if cs.isEmpty then choices
            else choices.push m.store.mark (.clauses goal cs goals)) := by
        rw [List.isEmpty_map]
        split
        · rfl
        · exact gap.push_choices choices m.store.mark (.clauses goal cs goals)
      rw [hremaining, gap.height_choices]
      simp [Gap.search, Gap.frame]

/-- **Turning back** to corresponding choice points. -/
theorem results_backtrack (h : Machine.Wider gap base m m') (hm : Holding m₀ R m L choices) :
    Machine.Results gap base (Option.map gap.search) (backtrack choices m)
      (backtrack (gap.choices choices) m') := by
  induction choices generalizing m m' L with
  | nil => exact results_pure h none rfl
  | cons point choices ih =>
    have hundone := hm.undo
    have hclauses : ∀ c ∈ point.clauses, c.InRange (m.store.undoTo point.mark) := fun c hc =>
      (hm.clauses point List.mem_cons_self c hc).mono (Nat.le_of_eq (Store.size_undoTo _ _).symm)
    rw [Gap.choices, List.map_cons, backtrack, backtrack]
    refine Machine.Results.bind (φ := id) (P := fun _ m₁ =>
      m₁ = { m with store := m.store.undoTo point.mark }) (E := fun _ => True)
      (results_onStore h ⟨rfl, h.store.undoTo _⟩) rfl fun _ m₁ m₁' hm₁ h₁ => ?_
    subst hm₁
    obtain ⟨below, mark, alternative⟩ := point
    cases alternative with
    | resume goals => exact results_pure h₁ _ rfl
    | clauses goal rest goals =>
      have hgoal := hundone.lt (t := goal) List.mem_cons_self
      refine (results_tryClauses h₁ hundone.sound hgoal hclauses goals choices).bind
        (holds_tryClauses hclauses hundone) fun r m₂ m₂' hm₂ h₂ => ?_
      cases r with
      | some S => exact results_pure h₂ _ rfl
      | none => exact ih h₂ hm₂

/-! ## Goals -/

theorem results_withArgs (h : Machine.Wider gap base m m') (hs : m.store.Acyclic) (goal : Ref)
    (extra : List Ref) :
    Machine.Results gap base gap.ref (withArgs goal extra m)
      (withArgs (gap.ref goal) (extra.map gap.ref) m') := by
  have happly : ∀ (name : String) (args : List Ref), Machine.Results gap base gap.ref
      (onStore (·.apply name args) m) (onStore (·.apply name (args.map gap.ref)) m') :=
    fun name args => results_onStore h (Store.Shifting.apply h.store name args)
  unfold withArgs
  refine Machine.Results.of_look ?_
  rw [h.store.deref hs, List.isEmpty_map]
  split
  · exact results_pure h _ rfl
  · refine Machine.Results.of_look ?_
    rw [h.store.view hs]
    rcases m.store.view (m.store.deref goal) with v | l | ⟨name, args⟩
    · exact results_fail h rfl
    · cases l with
      | atom name => exact happly name extra
      | _ => exact Machine.Results.of_look (results_fail h (h.store.typeError hs .callable _))
    · have hargs := happly name (args ++ extra)
      rw [List.map_append] at hargs
      exact hargs

theorem Control.of_either (s : Store) (left right : Ref) : Control.of s ";" [left, right] =
    match s.view left with
    | .compound "->" [condition, consequence] => .ifThenElse condition consequence right
    | _ => .either left right := rfl

theorem Control.of_wide {s s' : Store} (h : Store.Wider gap s s') (hs : s.Acyclic) (name : String)
    (args : List Ref) :
    Control.of s' name (args.map gap.ref) = (Control.of s name args).map gap.ref := by
  conv_rhs => unfold Control.of
  split
  case h_6 left right =>
    rw [List.map_cons, List.map_cons, List.map_nil, Control.of_either, h.view hs]
    rcases s.view left with v | l | ⟨functor, parts⟩
    · rfl
    · rfl
    · by_cases hcondition : ∃ a b, functor = "->" ∧ parts = [a, b]
      · obtain ⟨a, b, rfl, rfl⟩ := hcondition
        rfl
      · split
        · rename_i condition consequence heq
          obtain ⟨rfl, hparts⟩ := View.compound.inj heq
          obtain ⟨a, b, rfl⟩ := List.length_eq_two.mp
            ((List.length_map gap.ref).symm.trans (congrArg List.length hparts))
          exact absurd ⟨a, b, rfl, rfl⟩ hcondition
        · split
          · rename_i a b heq
            obtain ⟨rfl, rfl⟩ := View.compound.inj heq
            exact absurd ⟨a, b, rfl, rfl⟩ hcondition
          · rfl
  case h_9 goal extra =>
    simp only [Control.of, List.map_cons, List.length_map]
    split
    · rfl
    · simp [Control.map]
  case h_10 =>
    -- Replacing the arguments does not make one of the other patterns match.
    rcases args with _ | ⟨a, _ | ⟨b, _ | ⟨c, args⟩⟩⟩
    all_goals
      unfold Control.of
      split
      all_goals simp_all [Control.map]
  all_goals rfl

theorem results_callee (h : Machine.Wider gap base m m') (hs : m.store.Acyclic) (goal : Ref) :
    Machine.Results gap base (fun r => (r.1, r.2.map gap.ref)) (callee goal m)
      (callee (gap.ref goal) m') := by
  unfold callee
  refine Machine.Results.of_look ?_
  rw [h.store.view hs]
  rcases m.store.view goal with v | l | ⟨name, args⟩
  · exact results_fail h rfl
  · cases l with
    | atom name => exact results_pure h _ rfl
    | _ => exact Machine.Results.of_look (results_fail h (h.store.typeError hs .callable _))
  · exact results_pure h _ rfl

/-- Built-in predicates do the same in a wider store. -/
def RunsWide (gap : Gap) (run : Builtin → List Ref → MachineM Bool) : Prop :=
  ∀ {base m m' : Machine} (b : Builtin) {args : List Ref}, Machine.Wider gap base m m' → m.Sound →
    (∀ a ∈ args, a.index < m.store.size) →
    Machine.Results gap base id (run b args m) (run b (args.map gap.ref) m')

theorem results_callProcedure {run : Builtin → List Ref → MachineM Bool} (hrun : RunsWide gap run)
    (h : Machine.Wider gap base m m') (hm : m.Sound) (pi : Indicator) {args : List Ref}
    (hgoal : goal.index < m.store.size) (hargs : ∀ a ∈ args, a.index < m.store.size)
    (goals : List Frame) (choices : Choices) :
    Machine.Results gap base (Option.map gap.search)
      (callProcedure run pi goal args goals choices m)
      (callProcedure run pi (gap.ref goal) (args.map gap.ref) (goals.map gap.frame)
        (gap.choices choices) m') := by
  unfold callProcedure
  refine Machine.Results.of_get ?_
  rw [h.database, Database.find?_wide]
  rcases hp : m.database.find? pi with _ | ⟨b | p⟩
  · exact results_fail h rfl
  · refine (hrun b h hm hargs).then fun found m₁ m₁' h₁ => results_pure h₁ _ ?_
    cases found <;> rfl
  · exact results_tryClauses h hm hgoal (inRange_of_find? hm hp) goals choices

theorem results_proveControl {run : Builtin → List Ref → MachineM Bool} (hrun : RunsWide gap run)
    (h : Machine.Wider gap base m m') (hm : m.Sound) {control : Control Ref}
    (hgoal : goal.index < m.store.size) (hrefs : ∀ r ∈ control.refs, r.index < m.store.size)
    (barrier : Nat) (goals : List Frame) (choices : Choices) :
    Machine.Results gap base (Option.map gap.search)
      (proveControl run goal barrier goals choices control m)
      (proveControl run (gap.ref goal) barrier (goals.map gap.frame) (gap.choices choices)
        (control.map gap.ref) m') := by
  have hpush : ∀ frames : List Frame,
      (gap.choices choices).push m.store.mark (.resume (frames.map gap.frame)) =
        gap.choices (choices.push m.store.mark (.resume frames)) :=
    fun frames => gap.push_choices choices m.store.mark (.resume frames)
  cases control with
  | succeed => exact results_pure h _ rfl
  | fail => exact results_pure h _ rfl
  | cut => exact results_pure h _ (by rw [gap.cutTo_choices]; rfl)
  | both left right => exact results_pure h _ rfl
  | ifThenElse condition consequence otherwise =>
    refine Machine.Results.of_look (results_pure h _ ?_)
    rw [h.store.mark, gap.height_choices]
    exact congrArg some (congrArg (Search.mk _) (hpush (.goal otherwise barrier :: goals)))
  | either left right =>
    refine Machine.Results.of_look (results_pure h _ ?_)
    rw [h.store.mark]
    exact congrArg some (congrArg (Search.mk _) (hpush (.goal right barrier :: goals)))
  | ifThen condition consequence =>
    refine results_pure h _ ?_
    rw [gap.height_choices]
    rfl
  | not goal =>
    refine Machine.Results.of_look (results_pure h _ ?_)
    rw [h.store.mark, gap.height_choices]
    exact congrArg some (congrArg (Search.mk _) (hpush goals))
  | call goal extra =>
    refine (results_withArgs h hm.wellFormed.acyclic goal extra).then
      fun goal m₁ m₁' h₁ => results_pure h₁ _ ?_
    rw [gap.height_choices]
    rfl
  | procedure pi args => exact results_callProcedure hrun h hm pi hgoal hrefs goals choices

theorem results_proveGoal {run : Builtin → List Ref → MachineM Bool} (hrun : RunsWide gap run)
    (h : Machine.Wider gap base m m') (hm : m.Sound) (hgoal : goal.index < m.store.size)
    (barrier : Nat) (goals : List Frame) (choices : Choices) :
    Machine.Results gap base (Option.map gap.search) (proveGoal run goal barrier goals choices m)
      (proveGoal run (gap.ref goal) barrier (goals.map gap.frame) (gap.choices choices) m') := by
  have hs := hm.wellFormed.acyclic
  unfold proveGoal
  refine Machine.Results.of_look ?_
  rw [h.store.deref hs]
  have hderef := hm.wellFormed.lt_of_reaches hgoal (hs.reaches_deref goal)
  generalize m.store.deref goal = goal at hderef
  refine (results_callee h hs goal).bind (ends_callee hs goal) fun (name, args) m₁ m₁' hm₁ h₁ => ?_
  obtain ⟨rfl, hargs⟩ := hm₁
  refine Machine.Results.of_look ?_
  dsimp only
  rw [Control.of_wide h₁.store hs]
  refine results_proveControl hrun h₁ hm hderef (fun r hr => ?_) barrier goals choices
  obtain ⟨a, ha, hreach⟩ := Control.reaches_of hs name hr
  exact hm.wellFormed.lt_of_reaches hderef ((hargs a ha).trans hreach)

theorem results_prove {run : Builtin → List Ref → MachineM Bool} (hrun : RunsWide gap run)
    (h : Machine.Wider gap base m m') (hm : m.Sound) {frame : Frame}
    (hframe : ∀ r ∈ frame.refs, r.index < m.store.size) (goals : List Frame) (choices : Choices) :
    Machine.Results gap base (Option.map gap.search) (prove run frame goals choices m)
      (prove run (gap.frame frame) (goals.map gap.frame) (gap.choices choices) m') := by
  cases frame with
  | goal t barrier =>
    exact results_proveGoal hrun h hm (hframe t List.mem_cons_self) barrier goals choices
  | cutTo height => exact results_pure h _ (by rw [gap.cutTo_choices]; rfl)
  | fail => exact results_pure h _ rfl

/-- **A step of a search.** -/
theorem results_step (hsolve : Proper solve) (hrun : RunsWide gap (Builtin.run solve))
    (h : Machine.Wider gap base m m') {frame : Frame}
    (hm : Holding m₀ R m ((frame :: goals).flatMap Frame.refs) choices) :
    Machine.Results gap base (Option.map gap.search)
      (step (Builtin.run solve) frame goals choices m)
      (step (Builtin.run solve) (gap.frame frame) (goals.map gap.frame) (gap.choices choices)
        m') := by
  have hframe : ∀ r ∈ frame.refs, r.index < m.store.size := fun r hr =>
    hm.lt (List.mem_append_left _ hr)
  unfold step
  refine (results_prove hrun h hm.sound hframe goals choices).bind (holds_prove hsolve hm)
    fun r m₁ m₁' hm₁ h₁ => ?_
  cases r with
  | some S => exact results_pure h₁ _ rfl
  | none => exact results_backtrack h₁ hm₁

/-- **A search that goes on for a while.** -/
theorem results_loop (hsolve : Proper solve) (hrun : RunsWide gap (Builtin.run solve))
    (fuel taken : Nat) {S : Search} (h : Machine.Wider gap base m m')
    (hm : Holding m₀ R m (S.goals.flatMap Frame.refs) S.choices) :
    Machine.Results gap base id (loop (Builtin.run solve) fuel taken S m)
      (loop (Builtin.run solve) fuel taken (gap.search S) m') := by
  induction fuel generalizing m m' taken S with
  | zero =>
    obtain ⟨_ | ⟨frame, goals⟩, choices⟩ := S
    · exact results_pure h _ rfl
    · exact .inr ⟨rfl, h⟩
  | succ fuel ih =>
    obtain ⟨_ | ⟨frame, goals⟩, choices⟩ := S
    · exact results_pure h _ rfl
    rw [Gap.search, List.map_cons, loop_cons, loop_cons]
    have hpoll : Machine.Results gap base id
        ((if (taken + 1) % pollInterval = 0 then poll else pure () : MachineM Unit) m)
        ((if (taken + 1) % pollInterval = 0 then poll else pure () : MachineM Unit) m') := by
      split
      · exact results_poll h
      · exact results_pure h () rfl
    have hsame : Ends ((if (taken + 1) % pollInterval = 0 then poll else pure () : MachineM Unit) m)
        (fun _ m' => m' = m) fun m' => m' = m := by
      split
      · exact ends_poll m
      · exact rfl
    refine hpoll.bind hsame fun _ m₁ m₁' hm₁ h₁ => ?_
    subst hm₁
    refine (results_step hsolve hrun h₁ hm).bind (holds_step hsolve hm) fun r m₂ m₂' hm₂ h₂ => ?_
    cases r with
    | some S => exact ih (taken + 1) h₂ hm₂
    | none => exact results_pure h₂ false rfl

end Search

namespace Machine

open Loading Search

variable {gap : Gap} {base m m' : Machine} {solve : Ref → MachineM Bool}

/-! ## Built-in predicates -/

theorem results_callWith (hsolve : SolvesWide gap solve) (h : Wider gap base m m') (hm : m.Sound)
    (pi : Indicator) {args : List Ref} (hargs : ∀ a ∈ args, a.index < m.store.size) :
    Results gap base id (callWith solve pi args m) (callWith solve pi (args.map gap.ref) m') := by
  unfold callWith
  rw [List.length_map]
  split
  · exact results_fail h rfl
  · have happly := hm.evolves_apply pi.name hargs
    refine (results_onStore h (Store.Shifting.apply h.store pi.name args)).bind
      (P := fun r m₁ => Evolves m m₁ args [r]) (E := fun _ => True) happly fun goal m₁ m₁' hm₁ h₁ => ?_
    exact hsolve h₁ hm₁.sound (hm₁.lt goal List.mem_cons_self)

theorem results_compileText (hproper : Proper solve) (hsolve : SolvesWide gap solve)
    (h : Wider gap base m m') (hm : m.Sound) (c : Context) (t : Ref) :
    Results gap base id (Builtin.compileText solve c t m)
      (Builtin.compileText solve c (gap.ref t) m') := by
  unfold Builtin.compileText
  refine Results.of_look ?_
  rw [h.store.atom? hm.wellFormed.acyclic]
  rcases m.store.atom? t with _ | text
  · exact results_fail h rfl
  · exact (results_compile hproper hsolve h hm c text).then fun _ m₁ m₁' h₁ => results_pure h₁ true rfl

/-- **Built-in predicates do the same in a wider store.** -/
theorem runsWide_run (hproper : Proper solve) (hsolve : SolvesWide gap solve) :
    RunsWide gap (Builtin.run solve) := by
  intro base m m' b args h hm hargs
  have hs := hm.wellFormed.acyclic
  have hfalse : Results gap base id ((pure false : MachineM Bool) m) ((pure false : MachineM Bool) m') :=
    results_pure h false rfl
  cases b with
  | throw =>
    rcases args with _ | ⟨t, args⟩
    · exact hfalse
    · refine Results.of_look ?_
      rw [h.store.isVar hs]
      split
      · exact results_fail h rfl
      · exact Results.of_look (results_fail h (congrArg Error.thrown (h.store.snapshot hs t)))
  | unify =>
    rcases args with _ | ⟨t, _ | ⟨u, args⟩⟩
    · exact hfalse
    · exact hfalse
    · show Results gap base id (onStore (·.unify t u) m)
        (onStore (·.unify (gap.ref t) (gap.ref u)) m')
      exact results_onStore h (h.store.unify hm.wellFormed (hargs t (by simp)) (hargs u (by simp)))
  | consult =>
    rcases args with _ | ⟨t, args⟩
    · exact hfalse
    · refine Results.of_get ?_
      rw [h.context]
      exact (results_consult hproper hsolve h hm m.context t).then fun _ m₁ m₁' h₁ =>
        results_pure h₁ true rfl
  | succeed => exact results_pure h true rfl
  | fail => exact hfalse
  | emit name =>
    -- What is logged is not compared.
    exact ⟨rfl, { h with store := h.store }⟩
  | cancel => exact ⟨rfl, { h with cancelled := congrArg₂ List.cons h.request h.cancelled }⟩
  | compile =>
    rcases args with _ | ⟨t, args⟩
    · exact hfalse
    · refine Results.of_get ?_
      rw [h.request]
      exact results_compileText hproper hsolve h hm m.request t
  | compileDetached =>
    rcases args with _ | ⟨t, args⟩
    · exact hfalse
    · have hnew : Wider gap base { m with contexts := m.contexts + 1 }
          { m' with contexts := m'.contexts + 1 } :=
        { h with contexts := congrArg (· + 1) h.contexts }
      have htext := results_compileText hproper hsolve hnew ⟨hm.1, hm.2, hm.3, hm.4⟩ ⟨m.contexts⟩ t
      show Results gap base id (Builtin.compileText solve ⟨m.contexts⟩ t _)
        (Builtin.compileText solve ⟨m'.contexts⟩ (gap.ref t) _)
      rw [h.contexts]
      rw [h.contexts] at htext
      exact htext
  | once => exact results_callWith hsolve h hm ⟨"call", 1⟩ hargs
  | less =>
    rcases args with _ | ⟨t, _ | ⟨u, args⟩⟩
    · exact hfalse
    · exact hfalse
    · show Results gap base id (look (fun s => s.compare t u == .lt) m)
        (look (fun s => s.compare (gap.ref t) (gap.ref u) == .lt) m')
      exact results_look h (congrArg (· == .lt) (h.store.compare hs t u))
  | same =>
    rcases args with _ | ⟨t, _ | ⟨u, args⟩⟩
    · exact hfalse
    · exact hfalse
    · show Results gap base id (look (·.same t u) m) (look (·.same (gap.ref t) (gap.ref u)) m')
      exact results_look h (h.store.same hs t u)
  | copyTerm =>
    rcases args with _ | ⟨t, _ | ⟨u, args⟩⟩
    · exact hfalse
    · exact hfalse
    · have hcopy := hm.evolves_copy (hargs t (by simp)) [u]
      refine (results_onStore h (h.store.copy hm.wellFormed (hargs t (by simp)))).bind
        (P := fun r m₁ => Evolves m m₁ [u] [r]) (E := fun _ => True) hcopy
        fun copy m₁ m₁' hm₁ h₁ => ?_
      have hlt : ∀ r ∈ [copy, u], r.index < m₁.store.size := by
        intro r hr
        rcases List.mem_cons.mp hr with rfl | hr
        · exact hm₁.lt r List.mem_cons_self
        · exact Nat.lt_of_lt_of_le (hargs r (by simp_all)) hm₁.size_le
      exact results_callWith hsolve h₁ hm₁.sound ⟨"=", 2⟩ hlt
  | ground =>
    rcases args with _ | ⟨t, args⟩
    · exact hfalse
    · show Results gap base id (look (·.isGround t) m) (look (·.isGround (gap.ref t)) m')
      exact results_look h (h.store.isGround hs t)
  | var =>
    rcases args with _ | ⟨t, args⟩
    · exact hfalse
    · show Results gap base id (look (·.isVar t) m) (look (·.isVar (gap.ref t)) m')
      exact results_look h (h.store.isVar hs t)
  | defined =>
    rcases args with _ | ⟨t, args⟩
    · exact hfalse
    · refine (results_examine (φ := id) h (h.store.indicator hs t)).then fun pi m₁ m₁' h₁ => ?_
      refine Results.of_get (results_pure h₁ _ ?_)
      rw [h₁.database, Database.find?_wide, Option.isSome_map]
      rfl
  | refuseInteger =>
    rcases args with _ | ⟨t, args⟩
    · exact hfalse
    · exact Results.of_look (results_fail h (h.store.typeError hs .integer t))
  | refuseList =>
    rcases args with _ | ⟨t, args⟩
    · exact hfalse
    · exact Results.of_look (results_fail h (h.store.typeError hs .list t))

/-- **Goals are proved in the same way in a wider store**, however deep searches and loads are
nested. -/
theorem solvesWide_solve (fuel : Nat) : SolvesWide gap (Machine.solve fuel) := by
  induction fuel with
  | zero => exact fun h _ _ => .inr ⟨rfl, h⟩
  | succ fuel ih =>
    intro base m m' goal h hm hgoal
    have hold : Holding m [goal] m ([Frame.goal goal 0].flatMap Frame.refs) [] := by
      refine ⟨?_, nofun, nofun⟩
      exact (hm.evolves_refl (List.forall_mem_singleton.mpr hgoal)).subset (by simp [Frame.refs])
    exact results_loop (proper_solve fuel) (runsWide_run (proper_solve fuel) ih) (fuel + 1) 0 h hold

end Machine

end Clausal
