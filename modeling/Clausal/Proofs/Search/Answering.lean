import Clausal.Proofs.Search.Behaviour
import Clausal.Proofs.Search.Goals

/-! # Searches answer goals

Taking up a goal, a search runs through the answers that the reference gives for it
(`Search.answered_prove`).  This is by induction on the depth of the reference, with one lemma for
each of the constructs whose alternatives are kept on the stack: several goals one after the other
(`answered_all`), the clauses of a predicate (`answered_rules`), either of two goals, conditions and
negation.  In each of them the search is followed from the step that takes up the construct to the
places at which it takes up the goals within.
-/

namespace Clausal

open Store

namespace Machine

/-- What the database of a machine has to say about a predicate. -/
def program (m : Machine) : Reference.Program := fun pi =>
  match m.database.find? pi with
  | none => .unknown
  | some (.builtin b) => if b = .unify ∧ pi.arity = 2 then .equality else .foreign
  | some (.defined p) => .rules (p.clauses.map (·.source m.store))

end Machine

namespace Search

open Machine Reference

variable {m : Machine} {run : Builtin → List Ref → MachineM Bool} {n k : Nat}
  {prove : Nat → Tree Var → Answers} {p : Place} {uses : Nat} {t l r : Ref} {T L R : Tree Var}
  {σ : Bindings} {s s' : Store} {choices : Choices} {A : Answers} {M : Mode} {K : List Frame}

variable (m run n prove) in
/-- Wherever the search takes up a goal, it runs through the answers to it, for the number of steps. -/
def Proves : Prop :=
  ∀ (p : Place) (uses : Nat) (t : Ref) (T : Tree Var), p.Proper → Agrees m p.store uses p.family →
    (t, T) ∈ p.family →
    Answered m run p (prove uses T) n p.store (.running ⟨.goal t p.barrier :: p.goals, p.choices⟩)

/-- A place to which the search comes at an answer. -/
theorem Place.Proper.of_keeps (h : Choices.Keeps p.barrier p.choices choices) :
    Place.Proper ⟨s, p.goals, choices, p.barrier, p.family.bind σ⟩ :=
  ⟨h.proper, h.le⟩

variable (run) in
/-- The built-in predicates are carried out by an action that unifies for equality. -/
def Unifies : Prop := ∀ l r, run .unify [l, r] = onStore (·.unify l r)

theorem unifies_run (solve : Ref → MachineM Bool) : Unifies (Builtin.run solve) := fun _ _ => rfl

/-! ## Goals one after the other -/

/-- The goals of a body with the trees that they stand for, under the bindings of an answer. -/
theorem zip_andThen (body : List Ref) (goals : List (Tree Var)) (σ τ : Bindings) :
    body.zip (goals.map (Tree.bind (σ.andThen τ))) =
      Family.bind (body.zip (goals.map (Tree.bind σ))) τ := by
  have hgoals : goals.map (Tree.bind (σ.andThen τ)) = (goals.map (Tree.bind σ)).map (Tree.bind τ) := by
    rw [List.map_map]
    exact List.map_congr_left fun goal _ => (Tree.bind_bind σ τ goal).symm
  rw [hgoals, List.zip_map_right]
  rfl

/-- **The goals of a body.** -/
theorem answered_all (h : Proves m run n prove) (hp : p.Proper)
    (hagrees : Agrees m p.store uses p.family) {goals : List (Tree Var)} {body : List Ref}
    (hlength : body.length = goals.length)
    (hmem : ∀ q ∈ body.zip (goals.map (Tree.bind σ)), q ∈ p.family) :
    Answered m run p (proveAll prove σ uses goals) n p.store
      (.running ⟨body.map (.goal · p.barrier) ++ p.goals, p.choices⟩) := by
  induction goals generalizing body σ uses p with
  | nil =>
    rw [List.length_eq_zero_iff.mp hlength]
    exact behaves_one hp (.refl hagrees.wellFormed hagrees.trailed)
      (by rwa [Family.bind_var]) n
  | cons goal goals ih =>
    obtain ⟨b, body, rfl⟩ := List.exists_cons_of_length_eq_add_one hlength
    rw [List.map_cons, List.zip_cons_cons, List.forall_mem_cons] at hmem
    let K := body.map (Frame.goal · p.barrier) ++ p.goals
    refine Answered.bind
      (h { p with goals := K } uses b _ ⟨hp.choices, hp.barrier_le⟩ hagrees hmem.1) ?_
    intro uses' τ s' choices n' hn' hlater hkeeps hagrees'
    refine (ih (.of_keeps hkeeps) hagrees' (Nat.succ.inj hlength) fun q hq => ?_).mono hn'
    rw [zip_andThen] at hq
    obtain ⟨q', hq', rfl⟩ := List.mem_map.mp hq
    exact Family.mem_bind (hmem.2 q' hq') τ

/-! ## Clauses -/

theorem nameArity?_of_grows (h : Grows s s' []) (hs : s.WellFormed) (ht : t.index < s.size) :
    s'.nameArity? t = s.nameArity? t := by
  rw [nameArity?, nameArity?, h.view_of_nil hs ht]

theorem tryRules_cons (goal : Tree Var) (rule : Rule Ref) (rules : List (Rule Ref)) :
    tryRules prove uses goal (rule :: rules) =
      match Equations.solve [(goal, (renamed (uses + 1) rule).head)] with
      | some σ => ((proveAll prove σ (uses + 1) (renamed (uses + 1) rule).goals).after σ).append
          (tryRules prove uses goal rules)
      | none => tryRules prove uses goal rules := rfl

/-- **The clauses of a predicate**, with the cuts in them going back to where it was called. -/
theorem answered_rules (h : Proves m run n prove) (hm : m.Sound) (hp : p.Proper)
    (hbarrier : p.barrier = Choices.height p.choices) (hagrees : Agrees m p.store uses p.family)
    (ht : (t, T) ∈ p.family) {pi : Indicator}
    (hpi : p.store.nameArity? t = some (pi.name, pi.arity)) {clauses : List Clause}
    (hclauses : ∀ c ∈ clauses, m.database.Holds pi c) :
    Answered m run p (tryRules prove uses T (clauses.map (·.source m.store))) n p.store
      (.trying t clauses p.goals p.choices) := by
  induction clauses generalizing p with
  | nil =>
    have hlater : Later p.store p.store := .refl hagrees.wellFormed hagrees.trailed
    exact ((behaves_none hlater n).of_leads (leads_nil t p.goals p.choices p.store)).mono
      (Nat.le_add_left n 0)
  | cons c clauses ih =>
    rw [List.forall_mem_cons] at hclauses
    obtain ⟨hiff, hlater, henter⟩ := hagrees.enter hm ht hclauses.1 hpi rfl
    -- The clauses that are left, tried when the search has turned back to this place.
    have hrest : ∀ s', Later p.store s' →
        Answered m run p (tryRules prove uses T (clauses.map (·.source m.store))) n
          (s'.undoTo p.store.mark) (.trying t clauses p.goals p.choices) := by
      intro s' hs'
      obtain ⟨hundone, hgrows⟩ := hs'.undo
      refine Behaves.of_later hundone (ih (p := { p with store := s'.undoTo p.store.mark })
        ⟨hp.choices, hp.barrier_le⟩ hbarrier (hagrees.undo hs') ht ?_ hclauses.2)
      exact (nameArity?_of_grows hgrows hagrees.wellFormed (hagrees.lt _ ht)).trans hpi
    rw [List.map_cons, tryRules_cons]
    rcases hbody : (c.enter t p.store).1 with _ | body
    · have hnone : Equations.solve [(T, (renamed (uses + 1) (c.source m.store)).head)] = none := by
        rw [← Option.not_isSome_iff_eq_none, Option.isSome_iff_exists, ← hiff, hbody]
        exact nofun
      rw [hnone]
      exact ((hrest _ hlater).of_leads (leads_of_enter_none hbody)).mono (Nat.le_add_left n 0)
    · obtain ⟨σ, hσ⟩ := hiff.mp ⟨body, hbody⟩
      obtain ⟨hlength, hagrees'⟩ := henter body σ hbody hσ
      rw [hσ]
      let goals := (renamed (uses + 1) (c.source m.store)).goals
      let left := if clauses.isEmpty then p.choices
        else p.choices.push p.store.mark (.clauses t clauses p.goals)
      have hkeeps : Choices.Keeps p.barrier p.choices left := by
        dsimp only [left]
        split
        · exact .refl hp.choices hp.barrier_le
        · exact .push hp.choices hp.barrier_le _ _
      have hgoals : Answered m run { p with store := (c.enter t p.store).2, choices := left }
          ((proveAll prove σ (uses + 1) goals).after σ) n (c.enter t p.store).2
          (.running ⟨body.map (.goal · (Choices.height p.choices)) ++ p.goals, left⟩) := by
        rw [← hbarrier]
        refine Behaves.subset (F := body.zip goals ++ p.family) (Behaves.after ?_)
          fun q hq => List.mem_append_right _ hq
        refine answered_all (p := ⟨_, p.goals, left, p.barrier, _⟩) h ⟨hkeeps.proper, hkeeps.le⟩
          hagrees' hlength fun q hq => ?_
        rw [List.zip_map_right] at hq
        obtain ⟨q', hq', rfl⟩ := List.mem_map.mp hq
        exact Family.mem_bind (List.mem_append_left _ hq') σ
      refine ((Answered.append hlater hkeeps hgoals fun s' hs' => ?_).of_leads
        (leads_of_enter hbody)).mono (Nat.le_add_left n 0)
      have hlater' : Later p.store s' := hlater.trans hs'
      rcases hempty : clauses.isEmpty
      · have hleft : left = p.choices.push p.store.mark (.clauses t clauses p.goals) := by
          dsimp only [left]
          rw [hempty]
          rfl
        rw [hleft]
        exact ((hrest s' hlater').of_leads (leads_clauses rfl s')).mono (Nat.le_add_left n 0)
      · have hleft : left = p.choices := by
          dsimp only [left]
          rw [hempty]
          rfl
        rw [hleft, List.isEmpty_iff.mp hempty]
        exact behaves_none hlater' n

/-! ## Alternatives -/

section Alternatives

variable (h : Proves m run n prove) (hp : p.Proper) (hagrees : Agrees m p.store uses p.family)

include h hp hagrees

/-- The second of two goals, when the search has turned back to it. -/
theorem answered_resume (hR : (r, R) ∈ p.family) {frames : List Frame}
    (hframes : frames = .goal r p.barrier :: p.goals) (hs' : Later p.store s') :
    Answered m run p (prove uses R) n s'
      (.turning (p.choices.push p.store.mark (.resume frames))) := by
  subst hframes
  have hgoal := h { p with store := s'.undoTo p.store.mark } uses r R
    ⟨hp.choices, hp.barrier_le⟩ (hagrees.undo hs') hR
  exact ((Behaves.of_later hs'.undo.1 hgoal).of_leads (leads_resume rfl s')).mono
    (Nat.le_add_left n 0)

/-- **Either of two goals.** -/
theorem answered_either (hL : (l, L) ∈ p.family) (hR : (r, R) ∈ p.family) :
    Answered m run p ((prove uses L).append (prove uses R)) n p.store
      (.running ⟨.goal l p.barrier :: p.goals,
        p.choices.push p.store.mark (.resume (.goal r p.barrier :: p.goals))⟩) := by
  have hkeeps := Choices.Keeps.push hp.choices hp.barrier_le p.store.mark
    (.resume (.goal r p.barrier :: p.goals))
  refine Answered.append (.refl hagrees.wellFormed hagrees.trailed) hkeeps ?_
    fun s' hs' => answered_resume h hp hagrees hR rfl hs'
  exact h { p with choices := _ } uses l L ⟨hkeeps.proper, hkeeps.le⟩ hagrees hL

omit hp hagrees in
/-- What is proved after an answer to another goal. -/
theorem answered_next (hR : (r, R) ∈ p.family) (hA : Answered m run
      { p with goals := .goal r p.barrier :: p.goals } A n s M) :
    Answered m run p (A.bind fun uses σ => prove uses (R.bind σ)) n s M := by
  refine Answered.bind hA fun uses' σ s' choices n' hn' _ hkeeps hagrees' => ?_
  exact (h ⟨s', p.goals, choices, p.barrier, p.family.bind σ⟩ uses' r _ (.of_keeps hkeeps) hagrees'
    (Family.mem_bind hR σ)).mono hn'

/-- **Both of two goals.** -/
theorem answered_both (hL : (l, L) ∈ p.family) (hR : (r, R) ∈ p.family) :
    Answered m run p ((prove uses L).bind fun uses σ => prove uses (R.bind σ)) n p.store
      (.running ⟨.goal l p.barrier :: .goal r p.barrier :: p.goals, p.choices⟩) :=
  answered_next h hR (h { p with goals := .goal r p.barrier :: p.goals } uses l L
    ⟨hp.choices, hp.barrier_le⟩ hagrees hL)

end Alternatives

/-! ## Conditions -/

/-- What is proved if a condition has no answers. -/
theorem answered_otherwise {B : Answers} (hp : p.Proper) (hagrees : Agrees m p.store uses p.family)
    (hkeeps : Choices.Keeps (Choices.height p.choices) p.choices choices)
    (hA : Answered m run { p with
      goals := K, choices := choices, barrier := Choices.height choices } A n s M)
    (hnone : A.confined = ⟨[], .exhausted⟩)
    (hB : ∀ s', Later p.store s' → Answered m run p B n s' (.turning choices)) :
    Answered m run p B n s M := by
  have hkeeps' := hkeeps.mono hp.barrier_le
  have hconfined := Answered.confined (p := { p with goals := K, choices := choices })
    ⟨hkeeps'.proper, hkeeps'.le⟩ hA
  rw [hnone] at hconfined
  exact Answered.append (A := ⟨[], .exhausted⟩) (.refl hagrees.wellFormed hagrees.trailed) hkeeps'
    hconfined hB

section Committing

variable (hctx : m.cancelled.contains m.context = false)

include hctx

/-- A condition with an answer: only the first one counts. -/
theorem answered_first (hp : p.Proper)
    (hkeeps : Choices.Keeps (Choices.height p.choices) p.choices choices)
    (hA : Answered m run { p with
      goals := .cutTo (Choices.height p.choices) :: K, choices := choices,
      barrier := Choices.height choices } A n s M) (hfound : A.found ≠ []) :
    Answered m run { p with goals := K } A.confined.first n s M := by
  obtain ⟨found, ending⟩ := A
  obtain ⟨answer, later, rfl⟩ := List.exists_cons_of_ne_nil hfound
  have hcommit := Behaves.commit (p := { p with goals := K }) hctx ⟨hp.choices, hp.barrier_le⟩
    hkeeps hA
  cases ending <;> exact hcommit

/-- What fails after each answer has no answers. -/
theorem answered_failing (hA : Answered m run { p with goals := .fail :: K } A n s M) :
    Answered m run p (A.bind fun _ _ => .none) n s M := by
  refine Answered.bind hA fun uses' σ s' choices n' _ _ hkeeps hagrees' => ?_
  have hlater : Later s' s' := .refl hagrees'.wellFormed hagrees'.trailed
  have hstep : Leads m run 1 s' (.running ⟨.fail :: K, choices⟩) s' (.turning choices) :=
    leads_of_prove_none hctx rfl
  exact ((behaves_none (p := ⟨s', p.goals, choices, p.barrier, _⟩) hlater n').of_leads hstep).mono
    (Nat.le_add_left n' 1)

variable (h : Proves m run n prove) (hp : p.Proper) (hagrees : Agrees m p.store uses p.family)

include h hp hagrees

/-- **A goal under a condition.** -/
theorem answered_ifThen (hL : (l, L) ∈ p.family) (hR : (r, R) ∈ p.family) :
    Answered m run p
      ((prove uses L).confined.first.bind fun uses σ => prove uses (R.bind σ)) n p.store
      (.running ⟨.goal l (Choices.height p.choices) :: .cutTo (Choices.height p.choices) ::
        .goal r p.barrier :: p.goals, p.choices⟩) := by
  let K := Frame.goal r p.barrier :: p.goals
  have hA := h { p with
      goals := .cutTo (Choices.height p.choices) :: K, barrier := Choices.height p.choices }
    uses l L ⟨hp.choices, Nat.le_refl _⟩ hagrees hL
  refine answered_next h hR ?_
  by_cases hfound : (prove uses L).found = []
  · have hconfined := Answered.confined
      (p := { p with goals := .cutTo (Choices.height p.choices) :: K })
      ⟨hp.choices, hp.barrier_le⟩ hA
    rcases hL' : prove uses L with ⟨found, ending⟩
    rw [hL'] at hfound hconfined
    subst hfound
    cases ending <;> exact hconfined
  · exact answered_first hctx hp (.refl hp.choices (Nat.le_refl _)) hA hfound

/-- **A condition with two outcomes.** -/
theorem answered_ifThenElse {e : Ref} {E : Tree Var} (hL : (l, L) ∈ p.family)
    (hR : (r, R) ∈ p.family) (hE : (e, E) ∈ p.family) :
    Answered m run p
      (match (prove uses L).confined with
        | ⟨[], .exhausted⟩ => prove uses E
        | answers => answers.first.bind fun uses σ => prove uses (R.bind σ)) n p.store
      (.running ⟨.goal l (Choices.height p.choices + 1) :: .cutTo (Choices.height p.choices) ::
          .goal r p.barrier :: p.goals,
        p.choices.push p.store.mark (.resume (.goal e p.barrier :: p.goals))⟩) := by
  have hkeeps := Choices.Keeps.push hp.choices (Nat.le_refl _) p.store.mark
    (.resume (.goal e p.barrier :: p.goals))
  have hA := h ⟨p.store, .cutTo (Choices.height p.choices) :: .goal r p.barrier :: p.goals, _,
    Choices.height p.choices + 1, p.family⟩ uses l L ⟨hkeeps.proper, Nat.le_refl _⟩ hagrees hL
  rcases hL' : prove uses L with ⟨_ | ⟨answer, later⟩, ending⟩
  · rw [hL'] at hA
    cases ending with
    | exhausted | cut =>
      exact answered_otherwise hp hagrees hkeeps hA rfl
        fun s' hs' => answered_resume h hp hagrees hE rfl hs'
    | refused | foreign | unfinished => exact hA
  · have hfirst := answered_first hctx hp hkeeps hA (by rw [hL']; exact nofun)
    rw [hL'] at hfirst
    have hnext := answered_next h hR hfirst
    cases ending <;> exact hnext

/-- **Negation.** -/
theorem answered_not (hL : (l, L) ∈ p.family) :
    Answered m run p
      (match (prove uses L).confined with
        | ⟨[], .exhausted⟩ => .one uses
        | ⟨[], ending⟩ => ⟨[], ending⟩
        | _ => .none) n p.store
      (.running ⟨[.goal l (Choices.height p.choices + 1), .cutTo (Choices.height p.choices), .fail],
        p.choices.push p.store.mark (.resume p.goals)⟩) := by
  have hkeeps := Choices.Keeps.push hp.choices (Nat.le_refl _) p.store.mark (.resume p.goals)
  have hA := h ⟨p.store, [.cutTo (Choices.height p.choices), .fail], _,
    Choices.height p.choices + 1, p.family⟩ uses l L ⟨hkeeps.proper, Nat.le_refl _⟩ hagrees hL
  have hone : ∀ s', Later p.store s' → Answered m run p (.one uses) n s'
      (.turning (p.choices.push p.store.mark (.resume p.goals))) := by
    intro s' hs'
    have hgoals : Answered m run p (.one uses) n (s'.undoTo p.store.mark)
        (.running ⟨p.goals, p.choices⟩) :=
      behaves_one hp hs'.undo.1 (by rw [Family.bind_var]; exact hagrees.undo hs') n
    exact (hgoals.of_leads (leads_resume rfl s')).mono (Nat.le_add_left n 0)
  rcases hL' : prove uses L with ⟨_ | ⟨answer, later⟩, ending⟩
  · rw [hL'] at hA
    cases ending with
    | exhausted | cut => exact answered_otherwise hp hagrees hkeeps hA rfl hone
    | refused | foreign | unfinished => exact hA
  · have hfirst := answered_first hctx hp hkeeps hA (by rw [hL']; exact nofun)
    rw [hL'] at hfirst
    have hfailing := answered_failing hctx hfirst
    cases ending <;> exact hfailing

end Committing


/-! ## Taking up a goal -/

theorem procedure_of_control {name : String} {args us : List Ref} {pi : Indicator}
    (h : Control.of s name args = .procedure pi us) : pi = ⟨name, args.length⟩ ∧ us = args := by
  unfold Control.of at h
  split at h
  case h_6 => split at h <;> cases h
  case h_9 =>
    split at h
    · cases h
    · cases h
      exact ⟨rfl, rfl⟩
  case h_10 =>
    cases h
    exact ⟨rfl, rfl⟩
  all_goals cases h

section Step

variable {frame : Frame}

/-- **Unification.** -/
theorem answered_unify (hctx : m.cancelled.contains m.context = false) (hp : p.Proper)
    (hagrees : Agrees m p.store uses p.family) (hL : (l, L) ∈ p.family) (hR : (r, R) ∈ p.family)
    (hframe : Search.prove run frame p.goals p.choices { m with store := p.store } =
      .ok (if (p.store.unify l r).1 then some ⟨p.goals, p.choices⟩ else none)
        { m with store := (p.store.unify l r).2 }) :
    Answered m run p
      (match Equations.solve [(L, R)] with
        | some σ => ⟨[(uses, σ)], .exhausted⟩
        | none => .none) (n + 1) p.store (.running ⟨frame :: p.goals, p.choices⟩) := by
  obtain ⟨hiff, hlater, hbind⟩ := hagrees.unify hL hR
  rcases hσ : Equations.solve [(L, R)] with _ | σ
  · have hfails : (p.store.unify l r).1 = false := by
      rw [← Bool.not_eq_true, hiff, hσ]
      exact nofun
    rw [hfails] at hframe
    exact ((behaves_none hlater n).of_leads (leads_of_prove_none hctx hframe)).mono
      (Nat.le_of_eq (Nat.add_comm n 1))
  · rw [hiff.mpr ⟨σ, hσ⟩] at hframe
    exact ((behaves_one hp hlater (hbind σ hσ) n).of_leads (leads_of_prove hctx hframe)).mono
      (Nat.le_of_eq (Nat.add_comm n 1))

variable (hrun : Unifies run) (hm : m.Sound) (hctx : m.cancelled.contains m.context = false)
  (h : Proves m run n prove) (hp : p.Proper)
  (hagrees : Agrees m p.store uses p.family)

include hrun hm hctx h hp hagrees

/-- **Predicates of the database.** -/
theorem answered_procedure {val : Ref → Tree Var} {pi : Indicator} {args : List Ref}
    (ht : (t, T) ∈ p.family) (hargs : ∀ a ∈ args, (a, val a) ∈ p.family)
    (hpi : p.store.nameArity? t = some (pi.name, pi.arity)) (harity : pi.arity = args.length)
    (hframe : Search.prove run frame p.goals p.choices { m with store := p.store } =
      Search.callProcedure run pi t args p.goals p.choices
        { m with store := p.store }) :
    Answered m run p
      (Reference.callProcedure m.program prove uses T pi (args.map val)) (n + 1) p.store
      (.running ⟨frame :: p.goals, p.choices⟩) := by
  have hcall : Search.callProcedure run pi t args p.goals p.choices
      { m with store := p.store } =
      (match m.database.find? pi with
        | none => Machine.fail (.noProcedure pi)
        | some (.builtin b) => do
          pure (if ← run b args then some ⟨p.goals, p.choices⟩ else none)
        | some (.defined p') => tryClauses t p.goals p.choices p'.clauses :
        MachineM (Option Search)) { m with store := p.store } := rfl
  rw [hcall] at hframe
  unfold Reference.callProcedure Machine.program
  rcases hfind : m.database.find? pi with _ | ⟨b | procedure⟩
  · rw [hfind] at hframe
    exact ⟨1, _, refuses_of_prove hctx hframe, .unknown pi⟩
  · rw [hfind] at hframe
    dsimp only at hframe ⊢
    by_cases hb : b = .unify ∧ pi.arity = 2
    · obtain ⟨a, b', rfl⟩ := List.length_eq_two.mp (harity.symm.trans hb.2)
      rw [if_pos hb]
      rw [hb.1, hrun] at hframe
      exact answered_unify hctx hp hagrees (hargs a (by simp)) (hargs b' (by simp)) hframe
    · rw [if_neg hb]
      exact trivial
  · rw [hfind] at hframe
    have hrules := answered_rules h hm (p := { p with barrier := Choices.height p.choices })
      ⟨hp.choices, Nat.le_refl _⟩ rfl hagrees ht hpi fun c hc =>
        Database.holds_of_find? hfind hc
    refine (Answered.confined hp ?_).mono (Nat.le_of_eq (Nat.add_comm n 1))
    exact hrules.of_leads (leads_of_prove_clauses hctx hframe)

omit hrun hm in
/-- **Calling a goal with further arguments.** -/
theorem answered_call {val : Ref → Tree Var} (hval : Assigns m p.store uses p.family val)
    {goal : Ref} {extra : List Ref} (hgoal : p.family.Covers p.store goal)
    (hextra : ∀ a ∈ extra, p.family.Covers p.store a)
    (hframe : Search.prove run frame p.goals p.choices { m with store := p.store } =
      Search.proveControl run t p.barrier p.goals p.choices (.call goal extra)
        { m with store := p.store }) :
    Answered m run p
      (match Reference.withArgs (val goal) (extra.map val) with
        | .ok goal => (prove uses goal).confined
        | .error e => ⟨[], .refused e⟩) (n + 1) p.store
      (.running ⟨frame :: p.goals, p.choices⟩) := by
  have hwith := hval.withArgs hgoal hextra hagrees.wellFormed hagrees.trailed
  have hcall : Search.proveControl run t p.barrier p.goals p.choices
      (.call goal extra) { m with store := p.store } =
      EStateM.bind (Search.withArgs goal extra) (fun goal => pure
        (some ⟨.goal goal (Choices.height p.choices) :: p.goals, p.choices⟩))
        { m with store := p.store } := rfl
  rw [hcall, EStateM.bind] at hframe
  rcases hT : Reference.withArgs (val goal) (extra.map val) with e | T
  · rw [hT] at hwith
    obtain ⟨error, hrefused, hreported⟩ := hwith
    rw [hrefused] at hframe
    exact ⟨1, error, refuses_of_prove hctx hframe, hreported⟩
  · rw [hT] at hwith
    obtain ⟨u, s', hok, hlater, hagrees'⟩ := hwith
    rw [hok] at hframe
    have hgoal' := h ⟨s', p.goals, p.choices, Choices.height p.choices, (u, T) :: p.family⟩ uses u T
      ⟨hp.choices, Nat.le_refl _⟩ hagrees' List.mem_cons_self
    have hconfined : Answered m run { p with store := s' } (prove uses T).confined n s' _ :=
      Answered.confined ⟨hp.choices, hp.barrier_le⟩
        (Behaves.subset hgoal' fun r hr => List.mem_cons_of_mem _ hr)
    exact (Behaves.of_leads (leads_of_prove hctx hframe) (Behaves.of_later hlater hconfined)).mono
      (Nat.le_of_eq (Nat.add_comm n 1))

/-- **What a goal asks for.** -/
theorem answered_control {val : Ref → Tree Var} (hval : Assigns m p.store uses p.family val)
    (ht : p.family.Covers p.store t) {control : Control Ref}
    (hparts : ∀ r ∈ control.refs, p.family.Covers p.store r)
    (hcalls : ∀ pi args, control = .procedure pi args →
      p.store.nameArity? t = some (pi.name, pi.arity) ∧ pi.arity = args.length)
    (hframe : Search.prove run frame p.goals p.choices { m with store := p.store } =
      Search.proveControl run t p.barrier p.goals p.choices control
        { m with store := p.store }) :
    Answered m run p
      (Reference.proveControl m.program prove uses (val t) (control.map val)) (n + 1) p.store
      (.running ⟨frame :: p.goals, p.choices⟩) := by
  -- The goal and what it is about are added to the terms.
  let q : Place := { p with family := (t :: control.refs).map (fun r => (r, val r)) ++ p.family }
  have hq : q.Proper := ⟨hp.choices, hp.barrier_le⟩
  have hagrees' : Agrees m q.store uses q.family := hval.agrees _ (List.forall_mem_cons.mpr ⟨ht, hparts⟩)
  have hmem : ∀ r ∈ t :: control.refs, (r, val r) ∈ q.family := fun r hr =>
    List.mem_append_left _ (List.mem_map_of_mem hr)
  have hlater : Later p.store p.store := .refl hagrees.wellFormed hagrees.trailed
  -- After the step that takes up the goal.
  suffices hstep : ∀ A : Answers, ∀ S, Search.proveControl run t p.barrier p.goals
      p.choices control { m with store := p.store } = .ok (some S) { m with store := p.store } →
      Answered m run q A n p.store (.running S) →
      Answered m run p A (n + 1) p.store (.running ⟨frame :: p.goals, p.choices⟩) by
    cases control with
    | succeed =>
      exact hstep _ _ rfl (behaves_one hq hlater (by rwa [Family.bind_var]) n)
    | fail =>
      exact ((behaves_none hlater n).of_leads (leads_of_prove_none hctx hframe)).mono
        (Nat.le_of_eq (Nat.add_comm n 1))
    | cut =>
      refine hstep _ _ rfl ⟨0, p.store, _, ⟨.refl _ _, hlater, .of_cutTo hp.choices hp.barrier_le, ?_⟩,
        fun s' hs' => ⟨0, s', .refl _ _, hs'⟩⟩
      rwa [Family.bind_var]
    | both left right =>
      exact hstep _ _ rfl (answered_both h hq hagrees' (hmem left (by simp [Control.refs]))
        (hmem right (by simp [Control.refs])))
    | either left right =>
      exact hstep _ _ rfl (answered_either h hq hagrees' (hmem left (by simp [Control.refs]))
        (hmem right (by simp [Control.refs])))
    | ifThen condition consequence =>
      exact hstep _ _ rfl (answered_ifThen hctx h hq hagrees'
        (hmem condition (by simp [Control.refs])) (hmem consequence (by simp [Control.refs])))
    | ifThenElse condition consequence otherwise =>
      exact hstep _ _ rfl (answered_ifThenElse hctx h hq hagrees'
        (hmem condition (by simp [Control.refs])) (hmem consequence (by simp [Control.refs]))
        (hmem otherwise (by simp [Control.refs])))
    | not goal =>
      exact hstep _ _ rfl (answered_not hctx h hq hagrees' (hmem goal (by simp [Control.refs])))
    | call goal extra =>
      rw [Control.refs, List.forall_mem_cons] at hparts
      exact answered_call hctx h hp hagrees hval hparts.1 hparts.2 hframe
    | procedure pi args =>
      obtain ⟨hpi, harity⟩ := hcalls pi args rfl
      exact Behaves.subset (answered_procedure hrun hm hctx h hq hagrees'
        (hmem t List.mem_cons_self) (fun a ha => hmem a (List.mem_cons_of_mem _ ha)) hpi harity hframe)
        fun r hr => List.mem_append_right _ hr
  intro A S hS hA
  exact Behaves.subset ((hA.of_leads (leads_of_prove hctx (hframe.trans hS))).mono
    (Nat.le_of_eq (Nat.add_comm n 1))) fun r hr => List.mem_append_right _ hr

end Step

theorem prove_goal {name : String} {args : List Ref} (barrier : Nat) (goals : List Frame)
    (choices : Choices) (hcallee : Search.callee (s.deref t) { m with store := s } =
      .ok (name, args) { m with store := s }) :
    Search.prove run (.goal t barrier) goals choices { m with store := s } =
      Search.proveControl run (s.deref t) barrier goals choices (Control.of s name args)
        { m with store := s } := by
  show EStateM.bind (Search.callee (s.deref t)) _ _ = _
  rw [EStateM.bind, hcallee]
  rfl

theorem prove_goal_error {e : Error} (barrier : Nat) (goals : List Frame) (choices : Choices)
    (hcallee : Search.callee (s.deref t) { m with store := s } =
      .error (.error e) { m with store := s }) :
    Search.prove run (.goal t barrier) goals choices { m with store := s } =
      .error (.error e) { m with store := s } := by
  show EStateM.bind (Search.callee (s.deref t)) _ _ = _
  rw [EStateM.bind, hcallee]

/-- **Searches answer goals**: wherever the search takes up a goal, it runs through the answers that
the reference finds within the depth, and where the reference is cut off there, as many steps do not
bring the search to an end. -/
theorem answered_prove (hrun : Unifies run) (hm : m.Sound)
    (hctx : m.cancelled.contains m.context = false) (depth : Nat) :
    Proves m run depth (Reference.prove m.program depth) := by
  induction depth with
  | zero =>
    intro p uses t T _ _ _ fuel taken hfuel
    rw [Nat.le_zero.mp hfuel]
    exact ⟨_, exec_zero taken _ _ _ _⟩
  | succ depth ih =>
    intro p uses t T hp hagrees ht
    obtain ⟨val, hval⟩ := hagrees.assigns
    have hs := hagrees.wellFormed.acyclic
    have hcovers : p.family.Covers p.store (p.store.deref t) := ⟨_, ht, hs.reaches_deref t⟩
    have hT : val (p.store.deref t) = T := (hval.deref t).trans (hval.family _ ht)
    have hcallee := hval.callee hs hcovers
    rw [Reference.prove]
    rw [hT] at hcallee
    rcases hcalled : Reference.callee T with e | ⟨name, as⟩
    · rw [hcalled] at hcallee
      obtain ⟨error, herror, hreported⟩ := hcallee
      exact ⟨1, error, refuses_of_prove hctx (prove_goal_error _ _ _ herror), hreported⟩
    · rw [hcalled] at hcallee
      obtain ⟨args, hok, rfl, hname, hargs⟩ := hcallee
      dsimp only
      rw [hval.control name hargs, ← hT]
      refine answered_control hrun hm hctx ih hp hagrees hval hcovers (fun r hr => ?_)
        (fun pi us hcontrol => ?_) (prove_goal _ _ _ hok)
      · obtain ⟨a, ha, hreach⟩ := Control.reaches_of hs name hr
        obtain ⟨q, hq, hreach'⟩ := hargs a ha
        exact ⟨q, hq, hreach'.trans hreach⟩
      · obtain ⟨rfl, rfl⟩ := procedure_of_control hcontrol
        exact ⟨hname, rfl⟩

end Search

end Clausal
