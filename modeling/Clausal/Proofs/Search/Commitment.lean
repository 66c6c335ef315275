import Clausal.Proofs.Search.Marks

/-! # What a failed call leaves behind

A search that fails has turned back to each of its choice points and undone the bindings made since.
What was bound while there was no choice point is not undone: nothing marks the place to undo to.  A
variable that is bound at such a moment is committed (`Search.Commits`), and the variables that a failed
call leaves bound are exactly these (`Operated.failed_call`).

Between two moments without choice points the lowest choice point keeps its mark, which is the length
that the trail had at the first of them (`Search.Stands`).  So if the search ends there, the store has the
bindings of that moment.
-/

namespace Clausal

open Store Relation

namespace Search

open Machine Choices

variable {run : Builtin → List Ref → MachineM Bool} {solve : Ref → MachineM Bool}
  {m m₀ m' mₑ : Machine} {S S' : Search} {frame : Frame} {goals : List Frame} {choices : Choices}
  {v : Ref} {fuel taken : Nat}

/-! ## The moments of a search -/

/-- A search takes one more step. -/
inductive Passes (run : Builtin → List Ref → MachineM Bool) :
    Machine × Search → Machine × Search → Prop
  /-- The innermost frame is taken up. -/
  | step {m m' : Machine} {frame : Frame} {goals : List Frame} {choices : Choices} {S' : Search}
    (h : Search.step run frame goals choices m = .ok (some S') m') :
    Passes run (m, ⟨frame :: goals, choices⟩) (m', S')

/-- The variable is bound at a moment of the search at which nothing is left to try. -/
inductive Commits (run : Builtin → List Ref → MachineM Bool) (m : Machine) (S : Search) (v : Ref) : Prop
  /-- It is bound before the next frame is taken up. -/
  | between {m₁ : Machine} {goals : List Frame}
    (reached : ReflTransGen (Passes run) (m, S) (m₁, ⟨goals, []⟩)) (bound : m₁.store.Bound v)
  /-- It is bound when the next frame has failed. -/
  | failing {m₁ m₂ : Machine} {frame : Frame} {goals : List Frame}
    (reached : ReflTransGen (Passes run) (m, S) (m₁, ⟨frame :: goals, []⟩))
    (fails : prove run frame goals [] m₁ = .ok none m₂) (bound : m₂.store.Bound v)

/-- A step after which nothing is left. -/
theorem step_eq_none (h : step run frame goals choices m = .ok none mₑ) :
    ∃ m', prove run frame goals choices m = .ok none m' ∧ backtrack choices m' = .ok none mₑ := by
  rcases hprove : prove run frame goals choices m with ⟨_ | S, m'⟩ | ⟨e, m'⟩
  · refine ⟨m', rfl, ?_⟩
    rw [step, bind_eq_of_ok hprove] at h
    exact h
  · rw [step, bind_eq_of_ok hprove] at h
    cases h
  · rw [step, bind_eq_of_error hprove] at h
    cases h

/-- A search that fails takes a step and fails after it, or fails in the step. -/
theorem loop_eq_false (h : loop run fuel taken ⟨frame :: goals, choices⟩ m = .ok false mₑ) :
    ∃ fuel', fuel = fuel' + 1 ∧ (step run frame goals choices m = .ok none mₑ ∨
      ∃ S' m', step run frame goals choices m = .ok (some S') m' ∧
        loop run fuel' (taken + 1) S' m' = .ok false mₑ) := by
  cases fuel with
  | zero =>
    rw [loop] at h
    cases h
  | succ fuel =>
    rw [loop_cons] at h
    generalize hlook : (if (taken + 1) % pollInterval = 0 then poll else pure () : MachineM Unit) =
      look at h
    have hpoll : Ends (look m) (fun _ m' => m' = m) fun m' => m' = m := by
      rw [← hlook]
      split
      · exact ends_poll m
      · exact rfl
    rcases hresult : look m with ⟨⟨⟩, m₁⟩ | ⟨e, m₁⟩
    · obtain rfl := hpoll.of_ok hresult
      rw [bind_eq_of_ok hresult] at h
      rcases hstep : step run frame goals choices m₁ with ⟨_ | S', m'⟩ | ⟨e, m'⟩
      · rw [bind_eq_of_ok hstep] at h
        cases h
        exact ⟨fuel, rfl, .inl rfl⟩
      · rw [bind_eq_of_ok hstep] at h
        exact ⟨fuel, rfl, .inr ⟨S', m', rfl, h⟩⟩
      · rw [bind_eq_of_error hstep] at h
        cases h
    · rw [bind_eq_of_error hresult] at h
      cases h

/-- What a failing search comes to is what it comes to from any of its moments. -/
theorem loop_of_passes {x y : Machine × Search} (h : ReflTransGen (Passes run) x y)
    (hend : loop run fuel taken x.2 x.1 = .ok false mₑ) :
    ∃ fuel' taken', loop run fuel' taken' y.2 y.1 = .ok false mₑ := by
  induction h using ReflTransGen.head_induction_on generalizing fuel taken with
  | refl => exact ⟨fuel, taken, hend⟩
  | head hpass _ ih =>
    cases hpass with
    | step hstep =>
      obtain ⟨fuel', -, hnone | ⟨S', m', hsome, hrest⟩⟩ := loop_eq_false hend
      · rw [hstep] at hnone
        cases hnone
      · rw [hstep] at hsome
        cases hsome
        exact ih hrest

/-- A failing search comes to a moment at which it fails. -/
theorem exists_failing_step (hend : loop run fuel taken S m = .ok false mₑ) :
    ∃ m₁ frame goals choices, ReflTransGen (Passes run) (m, S) (m₁, ⟨frame :: goals, choices⟩) ∧
      step run frame goals choices m₁ = .ok none mₑ := by
  induction fuel generalizing taken S m with
  | zero =>
    obtain ⟨_ | ⟨frame, goals⟩, choices⟩ := S
    · cases hend
    · cases hend
  | succ fuel ih =>
    obtain ⟨_ | ⟨frame, goals⟩, choices⟩ := S
    · cases hend
    · obtain ⟨fuel', heq, hnone | ⟨S', m', hsome, hrest⟩⟩ := loop_eq_false hend
      · exact ⟨m, frame, goals, choices, .refl, hnone⟩
      · cases heq
        obtain ⟨m₁, frame', goals', choices', hreached, hnone⟩ := ih hrest
        exact ⟨m₁, frame', goals', choices', .head (.step hsome) hreached, hnone⟩

/-! ## Since nothing was left to try -/

/-- Where a search stands that began with `x`, seen from the moment at which it had nothing left to try
the last time, in the machine `m₀` and with the goals `goals₀`. -/
structure Since (run : Builtin → List Ref → MachineM Bool) (x : Machine × Search) (m₀ : Machine)
    (goals₀ : List Frame) (m : Machine) (S : Search) : Prop where
  /-- There was such a moment. -/
  reached : ReflTransGen (Passes run) x (m₀, ⟨goals₀, []⟩)
  /-- The cells of the beginning were there. -/
  size_le : x.1.store.size ≤ m₀.store.size
  /-- The search holds on to what came of the goals. -/
  holding : Holding m₀ (goals₀.flatMap Frame.refs) m (S.goals.flatMap Frame.refs) S.choices
  /-- The lowest choice point undoes to that moment. -/
  marked : Marked m₀.store.mark m.store S.choices
  /-- If nothing is left to try, the moment is now. -/
  now : S.choices = [] → m₀ = m

/-- A moment at which nothing is left to try. -/
theorem since_of_nil {x : Machine × Search} (hreached : ReflTransGen (Passes run) x (m, ⟨goals, []⟩))
    (hsize : x.1.store.size ≤ m.store.size) (h : m.Sound)
    (hlt : ∀ r ∈ goals.flatMap Frame.refs, r.index < m.store.size) :
    Since run x m goals m ⟨goals, []⟩ where
  reached := hreached
  size_le := hsize
  holding := ⟨(h.evolves_refl hlt).subset (by simp), nofun, nofun⟩
  marked := .nil _ _
  now _ := rfl

/-- What the choice points hold on to is in the store. -/
theorem Holding.inStore {R L : List Ref} (h : Holding m₀ R m L choices) :
    ∀ point ∈ choices, InStore m.store point := fun point hp =>
  ⟨fun r hr => h.evolves.lt r (List.mem_append_right _ (List.mem_flatMap.mpr ⟨point, hp, hr⟩)),
    h.clauses point hp⟩

theorem Since.marks_step {x : Machine × Search} {goals₀ : List Frame} (hsolve : Proper solve)
    (h : Since (Builtin.run solve) x m₀ goals₀ m ⟨frame :: goals, choices⟩) :
    Ends (step (Builtin.run solve) frame goals choices m)
      (Marks m₀.store.mark fun m' => choices ≠ [] → m'.store.mark = m₀.store.mark) fun _ => True := by
  refine Search.marks_step hsolve h.holding.sound (fun r hr => h.holding.lt ?_) h.holding.inStore
    h.marked fun hnil => by rw [h.now hnil]
  rw [List.flatMap_cons]
  exact List.mem_append_left _ hr

/-- **A step of a search**, after which it stands as before, or has nothing left to try. -/
theorem Since.step {x : Machine × Search} {goals₀ : List Frame} (hsolve : Proper solve)
    (h : Since (Builtin.run solve) x m₀ goals₀ m ⟨frame :: goals, choices⟩)
    (hreached : ReflTransGen (Passes (Builtin.run solve)) x (m, ⟨frame :: goals, choices⟩))
    (hstep : Search.step (Builtin.run solve) frame goals choices m = .ok (some S') m') :
    ∃ m₁ goals₁, Since (Builtin.run solve) x m₁ goals₁ m' S' := by
  have hholding : Holding m₀ _ m' (S'.goals.flatMap Frame.refs) S'.choices :=
    (holds_step hsolve h.holding).of_ok hstep
  have hmarked : Marked m₀.store.mark m'.store S'.choices := (h.marks_step hsolve).of_ok hstep
  obtain ⟨goals', choices'⟩ := S'
  by_cases hnil : choices' = []
  · subst hnil
    exact ⟨m', goals', since_of_nil (hreached.tail (.step hstep))
      (h.size_le.trans hholding.evolves.size_le) hholding.sound fun r hr => hholding.lt hr⟩
  · exact ⟨m₀, goals₀, h.reached, h.size_le, hholding, hmarked, fun heq => absurd heq hnil⟩

theorem exists_since {x y : Machine × Search} (hsolve : Proper solve) (h : x.1.Sound)
    (hlt : ∀ r ∈ x.2.goals.flatMap Frame.refs, r.index < x.1.store.size) (hnil : x.2.choices = [])
    (hreached : ReflTransGen (Passes (Builtin.run solve)) x y) :
    ∃ m₀ goals₀, Since (Builtin.run solve) x m₀ goals₀ y.1 y.2 := by
  induction hreached with
  | refl =>
    obtain ⟨m, goals, choices⟩ := x
    obtain rfl : choices = [] := hnil
    exact ⟨m, goals, since_of_nil .refl (Nat.le_refl _) h hlt⟩
  | tail hreached hpass ih =>
    obtain ⟨m₀, goals₀, hsince⟩ := ih
    cases hpass with
    | step hstep => exact hsince.step hsolve hreached hstep

/-- When nothing is left after a step, the old variables that are bound were committed. -/
theorem Since.commits {goals₀ : List Frame} (hsolve : Proper solve)
    (h : Since (Builtin.run solve) (m, S) m₀ goals₀ m' ⟨frame :: goals, choices⟩)
    (hreached : ReflTransGen (Passes (Builtin.run solve)) (m, S) (m', ⟨frame :: goals, choices⟩))
    (hstep : Search.step (Builtin.run solve) frame goals choices m' = .ok none mₑ)
    (hv : v.index < m.store.size) (hbound : mₑ.store.Bound v) :
    Commits (Builtin.run solve) m S v := by
  by_cases hnil : choices = []
  · -- The frame fails, and there is nothing to undo to.
    subst hnil
    obtain ⟨m₂, hprove, hback⟩ := step_eq_none hstep
    cases hback
    exact .failing hreached hprove hbound
  · -- The trail is as long as it was, so that nothing bound since is bound still.
    have hmark : mₑ.store.mark = m₀.store.mark := (h.marks_step hsolve).of_ok hstep hnil
    have hend : Holding m₀ _ mₑ [] [] := (holds_step hsolve h.holding).of_ok hstep
    obtain ⟨vs, hgrows⟩ := hend.evolves.grows
    have hvs : vs = [] := by
      have hlen := congrArg List.length hgrows.trail
      rw [List.length_append, Array.length_toList, Array.length_toList] at hlen
      have hmark' : mₑ.store.trail.size = m₀.store.trail.size := hmark
      exact List.eq_nil_of_length_eq_zero (by omega)
    subst hvs
    obtain ⟨name, u, hc⟩ := hbound
    rw [hgrows.kept (Nat.lt_of_lt_of_le hv h.size_le) List.not_mem_nil] at hc
    exact .between h.reached ⟨name, u, hc⟩

/-! ## Failed searches -/

/-- **A failed search leaves bound what it has committed.** -/
theorem bound_iff_commits (hsolve : Proper solve) (h : m.Sound)
    (hlt : ∀ r ∈ goals.flatMap Frame.refs, r.index < m.store.size)
    (hend : loop (Builtin.run solve) fuel taken ⟨goals, []⟩ m = .ok false mₑ) (hv : v.index < m.store.size) :
    mₑ.store.Bound v ↔ Commits (Builtin.run solve) m ⟨goals, []⟩ v := by
  have hstart {y : Machine × Search} := exists_since (x := (m, ⟨goals, []⟩)) (y := y) hsolve h hlt rfl
  constructor
  · intro hbound
    obtain ⟨m₁, frame, goals₁, choices, hreached, hnone⟩ := exists_failing_step hend
    obtain ⟨m₀, goals₀, hsince⟩ := hstart hreached
    exact hsince.commits hsolve hreached hnone hv hbound
  · intro hcommits
    cases hcommits with
    | @between m₁ goals₁ hreached hbound =>
      obtain ⟨m₀, goals₀, hsince⟩ := hstart hreached
      obtain rfl : m₀ = m₁ := hsince.now rfl
      -- From such a moment on, the store only grows.
      obtain ⟨fuel', taken', hrest⟩ := loop_of_passes hreached hend
      have hevolves : Evolves m₀ mₑ _ [] := (evolves_loop hsolve fuel' taken' hsince.holding).of_ok hrest
      obtain ⟨vs, hgrows⟩ := hevolves.grows
      exact hgrows.bound_of_bound hbound
    | @failing m₁ m₂ frame goals₁ hreached hfails hbound =>
      obtain ⟨fuel', taken', hrest⟩ := loop_of_passes hreached hend
      have hstep : step (Builtin.run solve) frame goals₁ [] m₁ = .ok none m₂ := by
        rw [step, bind_eq_of_ok hfails]
        rfl
      obtain ⟨_, -, hnone | ⟨S', m', hsome, -⟩⟩ := loop_eq_false hrest
      · rw [hstep] at hnone
        cases hnone
        exact hbound
      · rw [hstep] at hsome
        cases hsome

end Search

namespace Machine

open Search

variable {m m' : Machine} {v : Ref}

/-- The variable is bound by a call at a moment at which the call has nothing left to try. -/
def CallCommits (fuel : Nat) (pi : Indicator) (args : List Ref) (m : Machine) (v : Ref) : Prop :=
  Commits (Builtin.run (solve fuel)) { m with store := (m.store.apply pi.name args).2 }
    { goals := [.goal (m.store.apply pi.name args).1 0] } v

/-- **A failed call leaves bound exactly what it has committed.**  A cell that was there before is
another one afterwards if and only if it was that of a free variable, and the call has bound the variable
at a moment at which it had nothing left to try. -/
theorem Operated.failed_call (h : m.Operated) (fuel : Nat) (pi : Indicator) {args : List Ref}
    (hargs : ∀ a ∈ args, a.index < m.store.size)
    (hfail : Machine.call (fuel + 1) pi args m = .ok false m') (hv : v.index < m.store.size) :
    m'.store.cell? v ≠ m.store.cell? v ↔ m.store.Free v ∧ CallCommits fuel pi args m v := by
  have hgoal := h.sound.evolves_apply pi.name hargs
  have hlt : ∀ r ∈ [Frame.goal (m.store.apply pi.name args).1 0].flatMap Frame.refs,
      r.index < (m.store.apply pi.name args).2.size := by
    simpa [Frame.refs] using hgoal.lt _ (List.mem_singleton_self _)
  have hevolves : Evolves m m' args [] :=
    (evolving_callWith (proper_solve (fuel + 1)) h.sound pi hargs).of_ok hfail
  obtain ⟨vs, hgrows⟩ := hevolves.grows
  have hend : loop (Builtin.run (solve fuel)) (fuel + 1) 0 ⟨[.goal (m.store.apply pi.name args).1 0], []⟩
      { m with store := (m.store.apply pi.name args).2 } = .ok false m' := by
    rw [Machine.call, callWith] at hfail
    dsimp only at hfail
    split at hfail
    · cases hfail
    · exact hfail
  have hiff := bound_iff_commits (proper_solve fuel) hgoal.sound hlt hend
    (Nat.lt_of_lt_of_le hv hgoal.size_le)
  constructor
  · intro hne
    by_cases hmem : v ∈ vs
    · obtain ⟨name, u, hc, hc'⟩ := hgrows.bound hv hmem
      exact ⟨⟨name, hc⟩, hiff.mp ⟨name, u, hc'⟩⟩
    · exact absurd (hgrows.kept hv hmem) hne
  · rintro ⟨⟨name, hc⟩, hcommits⟩ heq
    obtain ⟨name', u, hc'⟩ := hiff.mpr hcommits
    rw [heq, hc] at hc'
    cases hc'

/-- `f(X, b) = f(a, c)` fails at `b` and `c`, and leaves `X` bound to `a`. -/
theorem failed_call_equation :
    let x : Term := .var ⟨0, none⟩
    let built := ({} : Store).build (.compound "p" [.compound "f" [x, .atom "b"],
      .compound "f" [.atom "a", .atom "c"]])
    let m := { build [] [] true with store := built.2 }
    ∃ m', m.Operated ∧ (∀ a ∈ m.store.args built.1, a.index < m.store.size) ∧
      Machine.call 2 ⟨"=", 2⟩ (m.store.args built.1) m = .ok false m' ∧
      m.store.cell? ⟨0⟩ = some (.var none none) ∧ m'.store.cell? ⟨0⟩ = some (.var none (some ⟨3⟩)) ∧
      m.store.cell? ⟨3⟩ = some (.literal (.atom "a")) ∧
      CallCommits 1 ⟨"=", 2⟩ (m.store.args built.1) m ⟨0⟩ := by
  intro x built m
  have hatom : ∀ name, (Term.atom name).WellMade := fun name => .literal (l := .atom name) trivial
  have hmade₂ : ∀ {name : String} {t u : Term}, t.WellMade → u.WellMade →
      (Term.compound name [t, u]).WellMade := fun h h' =>
    .compound nofun (List.forall_mem_cons.mpr ⟨h, List.forall_mem_singleton.mpr h'⟩)
  have hm : m.Operated := .operate (.build [] [] true)
    (.build (hmade₂ (hmade₂ (.var _) (hatom "b")) (hmade₂ (hatom "a") (hatom "c"))))
  have hargs : ∀ a ∈ m.store.args built.1, a.index < m.store.size := by decide +kernel
  have hfree : m.store.cell? ⟨0⟩ = some (.var none none) := by decide +kernel
  have hok : (match Machine.call 2 ⟨"=", 2⟩ (m.store.args built.1) m with
      | .ok false m' => m'.store.cell? ⟨0⟩ == some (.var none (some ⟨3⟩))
      | _ => false) = true := by decide +kernel
  rcases hcall : Machine.call 2 ⟨"=", 2⟩ (m.store.args built.1) m with ⟨_ | _, m'⟩ | ⟨e, m'⟩
  · rw [hcall] at hok
    have hbound : m'.store.cell? ⟨0⟩ = some (.var none (some ⟨3⟩)) := eq_of_beq hok
    have hne : m'.store.cell? ⟨0⟩ ≠ m.store.cell? ⟨0⟩ := by rw [hbound, hfree]; decide
    have hcommits := (hm.failed_call 1 ⟨"=", 2⟩ hargs hcall (index_lt_of_cell? hfree)).mp hne
    exact ⟨m', hm, hargs, rfl, hfree, hbound, by decide +kernel, hcommits.2⟩
  · rw [hcall] at hok
    cases hok
  · rw [hcall] at hok
    cases hok

end Machine

end Clausal
