import Clausal.Proofs.Search.Consequence
import Clausal.Proofs.Search.Refinement

/-! # Searches of logic programs

If the clauses of a database are facts and rules without cuts, conditions, negation and calls, and the
goal is as plain, then the search for the goal decides whether it follows (`Asked.search_decides`): when
it succeeds, the goal follows with the variables bound as they are then, and when it fails, no instance
of the goal follows.

The context of the search may be cancelled, and the search may come to its end before it looks at the
context.  It is compared with the search on a machine without cancelled contexts which gives up at
built-in predicates other than equality (`Shadows`).
-/

namespace Clausal

open Store Relation

namespace Machine

open Reference Search

variable {m : Machine} {t : Ref} {α β : Type}

/-! ## Cancelled contexts -/

/-- The machine without cancelled contexts. -/
def uncancelled (m : Machine) : Machine := { m with cancelled := [] }

theorem database_uncancelled (m : Machine) : m.uncancelled.database = m.database := rfl

/-- Where the first action succeeds, the second one does the same on the machine without cancelled
contexts, or gives up. -/
def Shadows (action shadow : MachineM α) : Prop := ∀ m a m', action m = .ok a m' →
  shadow m.uncancelled = .ok a m'.uncancelled ∨
    ∃ m'', shadow m.uncancelled = .error (.error .cancelled) m''

theorem shadows_pure (a : α) : Shadows (pure a) (pure a) := by
  rintro m _ _ ⟨⟩
  exact .inl rfl

theorem shadows_look (f : Store → α) : Shadows (look f) (look f) := by
  rintro m _ _ ⟨⟩
  exact .inl rfl

theorem shadows_onStore (f : Store → α × Store) : Shadows (onStore f) (onStore f) := by
  rintro m _ _ ⟨⟩
  exact .inl rfl

theorem shadows_changeStore (f : Store → Store) : Shadows (changeStore f) (changeStore f) :=
  shadows_onStore _

/-- Whatever the shadow of an action that does not succeed is. -/
theorem shadows_fail (e : Error) (shadow : MachineM α) : Shadows (Machine.fail e) shadow := nofun

/-- Giving up is a shadow of every action. -/
theorem shadows_giveUp (action : MachineM α) : Shadows action (Machine.fail .cancelled) :=
  fun _ _ _ _ => .inr ⟨_, rfl⟩

theorem Shadows.bind {action shadow : MachineM α} {f g : α → MachineM β} (h : Shadows action shadow)
    (hf : ∀ a, Shadows (f a) (g a)) : Shadows (action >>= f) (shadow >>= g) := by
  intro m b m' hok
  rcases haction : action m with ⟨a, m₁⟩ | ⟨e, m₁⟩
  · rw [bind_eq_of_ok haction] at hok
    rcases h m a m₁ haction with hshadow | ⟨m'', hshadow⟩
    · rw [bind_eq_of_ok hshadow]
      exact hf a m₁ b m' hok
    · exact .inr ⟨m'', bind_eq_of_error hshadow⟩
  · rw [bind_eq_of_error haction] at hok
    cases hok

/-- The two actions see machines that differ in the cancelled contexts alone. -/
theorem Shadows.get_bind {f g : Machine → MachineM α} (h : ∀ m, Shadows (f m) (g m.uncancelled)) :
    Shadows (get >>= f) (get >>= g) :=
  fun m => h m m

/-- Carries out equality, and gives up at other built-in predicates. -/
def equalityOnly (b : Builtin) (args : List Ref) : MachineM Bool :=
  match b, args with
  | .unify, t :: u :: _ => onStore (·.unify t u)
  | _, _ => Machine.fail .cancelled

theorem unifies_equalityOnly : Unifies equalityOnly := fun _ _ => rfl

section

variable (solve : Ref → MachineM Bool)

theorem shadows_run (b : Builtin) (args : List Ref) :
    Shadows (Builtin.run solve b args) (equalityOnly b args) := by
  unfold equalityOnly
  split
  · rename_i t u rest
    exact shadows_onStore (·.unify t u)
  · exact shadows_giveUp _

theorem shadows_tryClauses (goal : Ref) (goals : List Frame) (choices : Choices)
    (clauses : List Clause) :
    Shadows (tryClauses goal goals choices clauses) (tryClauses goal goals choices clauses) := by
  induction clauses with
  | nil => exact shadows_pure _
  | cons c clauses ih =>
    refine (shadows_look _).bind fun mark => (shadows_onStore _).bind fun body => ?_
    cases body with
    | some body => exact shadows_pure _
    | none => exact (shadows_changeStore _).bind fun _ => ih

theorem shadows_backtrack (choices : Choices) : Shadows (backtrack choices) (backtrack choices) := by
  induction choices with
  | nil => exact shadows_pure _
  | cons point choices ih =>
    refine (shadows_changeStore _).bind fun _ => ?_
    split
    · exact shadows_pure _
    · rename_i goal rest goals _
      refine (shadows_tryClauses goal goals choices rest).bind fun result => ?_
      cases result with
      | some search => exact shadows_pure _
      | none => exact ih

theorem shadows_callee (goal : Ref) : Shadows (callee goal) (callee goal) := by
  refine (shadows_look _).bind fun view => ?_
  split
  · exact shadows_fail _ _
  · exact shadows_pure _
  · exact shadows_pure _
  · exact (shadows_look _).bind fun _ => shadows_fail _ _

theorem shadows_withArgs (goal : Ref) (extra : List Ref) :
    Shadows (withArgs goal extra) (withArgs goal extra) := by
  refine (shadows_look _).bind fun goal => ?_
  split
  · exact shadows_pure _
  · refine (shadows_look _).bind fun view => ?_
    split
    · exact shadows_fail _ _
    · exact shadows_onStore _
    · exact shadows_onStore _
    · exact (shadows_look _).bind fun _ => shadows_fail _ _

theorem shadows_callProcedure (pi : Indicator) (goal : Ref) (args : List Ref) (goals : List Frame)
    (choices : Choices) :
    Shadows (callProcedure (Builtin.run solve) pi goal args goals choices)
      (callProcedure equalityOnly pi goal args goals choices) := by
  refine Shadows.get_bind fun m => ?_
  rw [database_uncancelled]
  rcases m.database.find? pi with _ | ⟨b | p⟩
  · exact shadows_fail _ _
  · exact (shadows_run solve b args).bind fun _ => shadows_pure _
  · exact shadows_tryClauses _ _ _ _

theorem shadows_prove (frame : Frame) (goals : List Frame) (choices : Choices) :
    Shadows (Search.prove (Builtin.run solve) frame goals choices)
      (Search.prove equalityOnly frame goals choices) := by
  cases frame with
  | goal t barrier =>
    refine (shadows_look _).bind fun goal => (shadows_callee _).bind fun (name, args) =>
      (shadows_look _).bind fun control => ?_
    cases control with
    | succeed | fail | cut | both | ifThen => exact shadows_pure _
    | ifThenElse | either | not => exact (shadows_look _).bind fun _ => shadows_pure _
    | call => exact (shadows_withArgs _ _).bind fun _ => shadows_pure _
    | procedure => exact shadows_callProcedure solve _ _ _ _ _
  | cutTo | fail => exact shadows_pure _

theorem shadows_step (frame : Frame) (goals : List Frame) (choices : Choices) :
    Shadows (step (Builtin.run solve) frame goals choices) (step equalityOnly frame goals choices) := by
  refine (shadows_prove solve frame goals choices).bind fun result => ?_
  cases result with
  | some search => exact shadows_pure _
  | none => exact shadows_backtrack _

/-- Without cancelled contexts a look at the context does nothing. -/
theorem shadows_poll : Shadows poll poll := by
  intro m a m' hok
  have hpoll : poll m = if m.cancelled.contains m.context = true then .error (.error .cancelled) m
      else .ok () m := by
    show (if m.cancelled.contains m.context = true then fail .cancelled else pure () :
      MachineM Unit) m = _
    split <;> rfl
  rw [hpoll] at hok
  split at hok
  · cases hok
  · cases hok
    exact .inl rfl

theorem shadows_loop (fuel taken : Nat) (S : Search) :
    Shadows (loop (Builtin.run solve) fuel taken S) (loop equalityOnly fuel taken S) := by
  induction fuel generalizing taken S with
  | zero =>
    obtain ⟨_ | ⟨frame, goals⟩, choices⟩ := S
    · exact shadows_pure _
    · exact nofun
  | succ fuel ih =>
    obtain ⟨_ | ⟨frame, goals⟩, choices⟩ := S
    · exact shadows_pure _
    · rw [loop_cons, loop_cons]
      refine Shadows.bind ?_ fun _ => (shadows_step solve frame goals choices).bind fun result => ?_
      · split
        · exact shadows_poll
        · exact shadows_pure _
      · cases result with
        | some search => exact ih _ _
        | none => exact shadows_pure _

end

/-! ## Goals of a session -/

/-- The machine is asked for a proof of the goal: by a call in a session, or by what runs within one of
its operations, where directives share no variables with stored clauses. -/
inductive Asked : Machine → Ref → Prop
  /-- A goal that is not taken from stored clauses. -/
  | call {m : Machine} {t : Ref} (h : Session m) (ht : m.Fresh [t]) : Asked m t
  /-- A goal of a directive, of an expansion or of a built-in predicate. -/
  | within {m m₀ : Machine} {t : Ref} {a₀ : Activity} {fuel : Nat} (h : Session m₀)
    (hbegin : Operation m₀ a₀) (hmoves : ReflTransGen (Moves ∅) a₀ (.prove fuel m t)) : Asked m t

theorem Asked.intact (h : Asked m t) : m.Intact m.store ∅ [t] ∧ t.index < m.store.size := by
  cases h with
  | call h ht =>
    exact ⟨⟨h.sound.1, .refl _, ht.clear h.sound.2⟩, (ht t (List.mem_singleton_self t)).1⟩
  | within h hbegin hmoves =>
    obtain ⟨m₁, R, hm₁, hold⟩ := Activity.safe_of_moves h hbegin hmoves
    have hintact := hm₁.evolve hold.evolves
    exact ⟨⟨hintact.sound, .refl _, hintact.clear⟩, hold.lt (by simp [Frame.refs])⟩

/-! ## What a search decides -/

/-- The rules of a program are the clauses of a database as they were given. -/
theorem exists_clause_of_rules {pi : Indicator} {rules : List (Rule Ref)} {rule : Rule Ref}
    (h : m.program pi = .rules rules) (hrule : rule ∈ rules) : ∃ p c,
      m.database.find? pi = some (.defined p) ∧ c ∈ p.clauses ∧ rule = c.source m.store := by
  unfold program at h
  split at h
  · cases h
  · split at h <;> cases h
  · rename_i p hfind
    cases h
    obtain ⟨c, hc, rfl⟩ := List.mem_map.mp hrule
    exact ⟨p, c, hfind, hc, rfl⟩

/-- A predicate that is not built in is one of the program, or unknown. -/
theorem program_ne_foreign {pi : Indicator} (h : ∀ b, m.database.find? pi ≠ some (.builtin b)) :
    m.program pi ≠ .foreign := by
  unfold program
  split
  · exact Meaning.noConfusion
  · exact absurd ‹_› (h _)
  · exact Meaning.noConfusion

/-- The rules of a database are filed under their predicates. -/
theorem Sound.definite (h : m.Sound) (hgoals : ∀ pi rules, m.program pi = .rules rules →
    ∀ rule ∈ rules, ∀ goal ∈ rule.goals, Positive m.program goal) : m.program.Definite where
  head pi rules hrules rule hrule := by
    obtain ⟨p, c, hfind, hc, rfl⟩ := exists_clause_of_rules hrules hrule
    have hholds := Database.holds_of_find? hfind hc
    rw [← h.filed pi c hholds]
    exact (h.faithful pi c hholds).head
  goals := hgoals

/-- The goal of the query is over its own variables. -/
theorem upTo_query (s : Store) (t : Ref) : UpTo 0 (query s t) := by
  intro x hx
  obtain ⟨v, -, hx⟩ := Tree.mem_vars_bind.mp hx
  rw [Tree.vars_of_var, List.mem_singleton] at hx
  exact Nat.le_of_eq (congrArg Var.use hx)

/-- An answer that is shown makes the goal an instance of what was found. -/
theorem entailed_of_shows {P : Program} {s s' : Store} {vs : List Ref} {σ : Bindings}
    {m' : Machine} (hgrows : Grows s s' vs) (hs : s.Acyclic) (hs' : s'.Acyclic)
    (hm' : m'.store = s') (hshows : Shows s t (.ok true m') (.answer σ))
    (hentailed : Entailed P ((query s t).bind σ)) : Entailed P (s'.resolve t) := by
  subst hm'
  obtain ⟨hvariants⟩ := hshows
  obtain ⟨f, g, hfg⟩ := hvariants
  have heq : m'.store.resolve t = ((query s t).bind σ).bind g := by
    rw [hgrows.resolve_eq hs hs', query, Tree.bind_bind, Tree.bind_bind]
    refine Tree.bind_congr fun v hv => ?_
    rw [Tree.bind_of_var]
    exact (hfg _ (List.mem_map_of_mem hv)).2.symm
  rw [heq]
  exact hentailed.bind g

theorem entailed_of_answer {P : Program} (hP : P.Definite) {goal : Tree Var} (hgoal : Positive P goal)
    {depth : Nat} {σ : Bindings} (ho : (Reference.prove P depth 0 goal).outcome? = some (.answer σ)) :
    Entailed P (goal.bind σ) := by
  have hfound : ∀ answer ∈ (Reference.prove P depth 0 goal).found, Entailed P (goal.bind answer.2) :=
    entailed_of_found hP hgoal
  rcases hprove : Reference.prove P depth 0 goal with ⟨_ | ⟨answer, later⟩, ending⟩
  · rw [hprove] at ho
    cases ending <;> cases ho
  · rw [hprove] at ho hfound
    cases ho
    exact hfound answer List.mem_cons_self

/-- Where the answers begin with failure, no instance of the goal follows. -/
theorem not_entailed_of_failure {P : Program} (hP : P.Definite) {s : Store} {depth : Nat}
    (hgoal : Positive P (query s t))
    (ho : (Reference.prove P depth 0 (query s t)).outcome? = some .failure) {W : Type} (σ : Ref → Tree W) :
    ¬ Entailed P ((s.resolve t).bind σ) := by
  intro hentailed
  have hplain : (Reference.prove P depth 0 (query s t)).ending.Plain := prove_plain hP hgoal
  have hcovers : _ → Covers P 0 (query s t) (Reference.prove P depth 0 (query s t)) :=
    covers_of_exhausted hP hgoal (upTo_query s t)
  rcases hprove : Reference.prove P depth 0 (query s t) with ⟨_ | ⟨answer, later⟩, ending⟩
  · rw [hprove] at ho hplain hcovers
    cases ending with
    | exhausted =>
      have hinstance : (query s t).bind (fun x => σ x.ref) = (s.resolve t).bind σ := by
        rw [query, Tree.bind_bind]
        exact Tree.bind_congr fun v _ => Tree.bind_of_var _ _
      obtain ⟨answer, hanswer, -⟩ := hcovers rfl (fun x => σ x.ref) (hinstance ▸ hentailed)
      cases hanswer
    | cut => exact hplain
    | refused | foreign | unfinished => cases ho
  · rw [hprove] at ho
    cases ho

/-- Goals of the fragment come to no built-in predicate. -/
theorem ne_foreign_of_positive {P : Program} (hP : P.Definite) {goal : Tree Var} (hgoal : Positive P goal)
    {depth : Nat} {o : Outcome} (ho : (Reference.prove P depth 0 goal).outcome? = some o)
    (pi : Indicator) : o ≠ .foreign pi := by
  rintro rfl
  have hplain : (Reference.prove P depth 0 goal).ending.Plain := prove_plain hP hgoal
  rcases hprove : Reference.prove P depth 0 goal with ⟨_ | ⟨answer, later⟩, ending⟩
  · rw [hprove] at ho hplain
    cases ending with
    | foreign => exact hplain
    | exhausted | cut | refused | unfinished => cases ho
  · rw [hprove] at ho
    cases ho

/-- A search that ends with a truth value shows an outcome of the reference. -/
theorem Asked.shows (h : Asked m t) (hP : m.program.Definite)
    (ht : Positive m.program (m.store.resolve t)) {fuel : Nat} {b : Bool} {m' : Machine}
    (hsolve : solve fuel t m = .ok b m') : ∃ depth o,
      (Reference.prove m.program depth 0 (query m.store t)).outcome? = some o ∧
        Shows m.store t (.ok b m') o := by
  obtain ⟨hintact, hlt⟩ := h.intact
  have hgoal : Positive m.program (query m.store t) := ht.bind _
  obtain _ | fuel := fuel
  · cases hsolve
  have huncancelled : m.uncancelled.Intact m.uncancelled.store ∅ [t] := hintact.congr rfl rfl
  have hctx : m.uncancelled.cancelled.contains m.uncancelled.context = false := rfl
  -- The search on the machine without cancelled contexts does the same or gives up.
  have hshadow : first equalityOnly (fuel + 1) t m.uncancelled = .ok b m'.uncancelled ∨
      ∃ m'', first equalityOnly (fuel + 1) t m.uncancelled = .error (.error .cancelled) m'' :=
    shadows_loop (solve fuel) (fuel + 1) 0 _ m b m' hsolve
  have hhalts : ∀ m'', first equalityOnly (fuel + 1) t m.uncancelled ≠ .error .outOfFuel m'' := by
    intro m'' hm''
    rw [hm''] at hshadow
    rcases hshadow with hok | ⟨m₁, herror⟩
    · cases hok
    · cases herror
  rcases ho : (Reference.prove m.program (fuel + 1) 0 (query m.store t)).outcome? with _ | o
  · obtain ⟨m'', hm''⟩ := unfinished_of_unifies unifies_equalityOnly huncancelled hlt hctx ho
      (Nat.le_refl (fuel + 1))
    exact absurd hm'' (hhalts m'')
  · obtain ⟨j, hshort, hlong⟩ := outcome_of_unifies unifies_equalityOnly huncancelled hlt hctx ho
      (ne_foreign_of_positive hP hgoal ho)
    have hfuel : j ≤ fuel + 1 := by
      refine Nat.le_of_not_lt fun hltj => ?_
      obtain ⟨m'', hm''⟩ := hshort (fuel + 1) hltj
      exact hhalts m'' hm''
    have hshows := hlong (fuel + 1) hfuel
    refine ⟨fuel + 1, o, ho, ?_⟩
    rcases hshadow with hok | ⟨m₁, herror⟩
    · rw [hok] at hshows
      cases hshows with
      | answer hvariants => exact .answer hvariants
      | failure => exact .failure
    · rw [herror] at hshows
      cases hshows with
      | refusal hreported => cases hreported

/-- **A search decides what follows.**  On a machine of which the clauses are facts and rules with
bodies of truth, failure, conjunctions, disjunctions, equations and predicates that are not built in,
take a goal of the same kind.

If the search for the goal succeeds, then the goal, with its variables bound as they are after it,
follows from the clauses as a logic program over finite trees.  If it fails, then no instance of the
goal follows. -/
theorem Asked.search_decides (h : Asked m t)
    (hbodies : ∀ pi rules, m.program pi = .rules rules → ∀ rule ∈ rules, ∀ goal ∈ rule.goals,
      Positive m.program goal)
    (ht : Positive m.program (m.store.resolve t)) (fuel : Nat) (m' : Machine) :
    (solve fuel t m = .ok true m' → Entailed m.program (m'.store.resolve t)) ∧
    (solve fuel t m = .ok false m' →
      ∀ {W : Type} (σ : Ref → Tree W), ¬ Entailed m.program ((m.store.resolve t).bind σ)) := by
  obtain ⟨hintact, hlt⟩ := h.intact
  have hP := hintact.sound.definite hbodies
  have hgoal : Positive m.program (query m.store t) := ht.bind _
  refine ⟨fun hsolve => ?_, fun hsolve W σ => ?_⟩
  · obtain ⟨depth, o, ho, hshows⟩ := h.shows hP ht hsolve
    have hevolves := (proper_solve fuel hintact.sound hlt).of_ok hsolve
    obtain ⟨vs, hgrows⟩ := hevolves.grows
    cases hshows with
    | @answer m' σ hvariants =>
      exact entailed_of_shows hgrows hintact.sound.wellFormed.acyclic hevolves.sound.wellFormed.acyclic
        rfl (.answer hvariants) (entailed_of_answer hP hgoal ho)
  · obtain ⟨depth, o, ho, hshows⟩ := h.shows hP ht hsolve
    cases hshows
    exact not_entailed_of_failure hP hgoal ho σ

/-- New terms do not change what the clauses say. -/
theorem Sound.program_eq (h : m.Sound) {s : Store} (hs : s.WellFormed) (hp : Persists m.store s) :
    program { m with store := s } = m.program := by
  funext pi
  unfold program
  rcases hfind : m.database.find? pi with _ | ⟨b | p⟩
  · rfl
  · rfl
  · refine congrArg Meaning.rules (List.map_congr_left fun c hc => ?_)
    exact (h.faithful pi c (Database.holds_of_find? hfind hc)).source_eq h.wellFormed hs hp

/-- A goal that is built on a machine is asked of what the machine has. -/
theorem Session.asks_built (h : Session m) {x : Term} (hx : x.WellMade) :
    Asked { m with store := (m.store.build x).2 } (m.store.build x).1 ∧
      program { m with store := (m.store.build x).2 } = m.program := by
  obtain ⟨hsound, -⟩ := h.sound
  have hbuilt := (Adds.refl hsound.wellFormed).build hx
  refine ⟨.call (h.allocate hbuilt.adds) (h.fresh_of_allocates hbuilt), ?_⟩
  exact hsound.program_eq hbuilt.adds.wellFormed (hbuilt.adds.grows.persists hsound.trailed)

/-- With zero and successors, `nat(s(X))` succeeds and so has an instance that follows; `nat(s(a))`
fails, and has none. -/
theorem search_decides_successors : ∃ m s t u m' m'', Asked m t ∧ Asked { m with store := s } u ∧
    solve 64 t m = .ok true m' ∧ Entailed m.program (m'.store.resolve t) ∧
    solve 64 u { m with store := s } = .ok false m'' ∧
    ∀ σ : Ref → Tree Empty, ¬ Entailed (program { m with store := s }) ((s.resolve u).bind σ) := by
  let m₀ := after (compileText 8 ⟨0⟩ "nat(z). nat(s(X)) :- nat(X)." []) (build [] [] true)
  have hm₀ : Session m₀ := .compile (.build [] [] true) 8 ⟨0⟩ _ nofun
  have hmade : ∀ x : Term, x.WellMade → (Term.compound "nat" [.compound "s" [x]]).WellMade :=
    fun x hx => .compound (List.cons_ne_nil _ _) (List.forall_mem_singleton.mpr
      (.compound (List.cons_ne_nil _ _) (List.forall_mem_singleton.mpr hx)))
  obtain ⟨ht, htprogram⟩ := hm₀.asks_built (hmade (.var ⟨0, none⟩) (.var _))
  obtain ⟨hu, huprogram⟩ := hm₀.asks_built (hmade (.atom "a") (.literal trivial))
  let t := m₀.store.build (.compound "nat" [.compound "s" [.var ⟨0, none⟩]])
  let u := m₀.store.build (.compound "nat" [.compound "s" [.atom "a"]])
  -- The clauses are the terms at 1 and 6.
  have hclauses : ∀ e ∈ m₀.database.entries, ∀ p ∈ e.2.predicate?, ∀ c ∈ p.clauses,
      c.raw = ⟨1⟩ ∨ c.raw = ⟨6⟩ := by decide +kernel
  have hbuiltins : ∀ e ∈ m₀.database.entries, e.2.builtin?.isSome → e.1.name ≠ "nat" := by
    decide +kernel
  have hcells : (m₀.store.undoTo 0).cell? ⟨1⟩ = some (.compound "nat" [⟨0⟩]) ∧
      (m₀.store.undoTo 0).cell? ⟨6⟩ = some (.compound ":-" [⟨4⟩, ⟨5⟩]) ∧
      (m₀.store.undoTo 0).cell? ⟨5⟩ = some (.compound "nat" [⟨2⟩]) := by decide +kernel
  have hgoals : t.2.cell? t.1 = some (.compound "nat" [⟨8⟩]) ∧
      u.2.cell? u.1 = some (.compound "nat" [⟨8⟩]) := by decide +kernel
  have hfound : solve 64 t.1 { m₀ with store := t.2 } = .ok true _ := ok_after (by decide +kernel)
  have hfailed : solve 64 u.1 { m₀ with store := u.2 } = .ok false _ := ok_after (by decide +kernel)
  clear_value m₀
  have hnat : ∀ {V : Type} (a : Tree V), Positive m₀.program (.apply "nat" [a]) := fun a => by
    refine .call (show ¬ Constructs ⟨"nat", 1⟩ by decide) (program_ne_foreign fun b hfind => ?_)
    exact hbuiltins _ (Database.mem_of_find? hfind) rfl rfl
  have hs₀ := (hm₀.sound.1.wellFormed.undoTo 0).acyclic
  have hbodies : ∀ pi rules, m₀.program pi = .rules rules → ∀ rule ∈ rules, ∀ goal ∈ rule.goals,
      Positive m₀.program goal := by
    intro pi rules hrules rule hrule goal hgoal
    obtain ⟨p, c, hfind, hc, rfl⟩ := exists_clause_of_rules hrules hrule
    rw [Clause.source] at hgoal
    rcases hclauses _ (Database.mem_of_find? hfind) p rfl c hc with hraw | hraw
    · rw [hraw, hs₀.resolve_of_compound hcells.1] at hgoal
      cases hgoal
    · rw [hraw, hs₀.resolve_of_compound hcells.2.1] at hgoal
      have hgoal : goal ∈ ((m₀.store.undoTo 0).resolve ⟨5⟩).conjuncts.map Tree.asCall := hgoal
      rw [hs₀.resolve_of_compound hcells.2.2] at hgoal
      obtain rfl : goal = .compound "nat" [(m₀.store.undoTo 0).resolve ⟨2⟩] := by
        simpa [Tree.conjuncts, Tree.asCall] using hgoal
      exact hnat _
  have hpositive : ∀ {r : Ref × Store}, Asked { m₀ with store := r.2 } r.1 →
      r.2.cell? r.1 = some (.compound "nat" [⟨8⟩]) →
      Positive m₀.program (r.2.resolve r.1) := fun hask hcell => by
    rw [hask.intact.1.sound.wellFormed.acyclic.resolve_of_compound hcell]
    exact hnat _
  have hsucceeds := (ht.search_decides (by rwa [htprogram])
    (htprogram ▸ hpositive ht hgoals.1) 64 _).1 hfound
  have hfails : ∀ σ : Ref → Tree Empty, _ := (hu.search_decides (by rwa [huprogram])
    (huprogram ▸ hpositive hu hgoals.2) 64 _).2 hfailed
  exact ⟨_, u.2, t.1, u.1, _, _, ht, hu, hfound, hsucceeds, hfailed, hfails⟩

end Machine

end Clausal
