import Clausal.Run
import Clausal.Proofs.Machine.Loading
import Clausal.Proofs.Store.Unification

/-! # Searching binds only what the goal reaches

A search holds on to the terms of its frames and choice points, and binds only what is reached from
them (`Holding`).  Each part of a step is described by what it does to them: what a goal is replaced
by is reached from the goal or was made from it, and turning back undoes to a mark that is not older
than the search.  By induction on the fuel, for searches that run within built-in predicates, this
makes the machine's own way of proving goals a proper one (`proper_solve`).
-/

namespace Clausal

open Store Relation

namespace Machine

variable {m m₀ m' : Machine} {s : Store} {R L L' K : List Ref} {t u v : Ref} {c : Clause}
  {α : Type} {solve : Ref → MachineM Bool}

/-! ## Evolutions of the store -/

theorem Evolves.mono (h : Evolves m m' R L) {R₁ : List Ref} (hR : ∀ r ∈ R, r ∈ R₁) :
    Evolves m m' R₁ L := by
  have hwithin := h.within (L := []) hR nofun
  rwa [List.append_nil] at hwithin

/-- Unifying two terms binds what they reach. -/
theorem Sound.evolves_unify (h : m.Sound) (ht : t.index < m.store.size) (hu : u.index < m.store.size) :
    Evolves m { m with store := (m.store.unify t u).2 } [t, u] [] := by
  have hunify := unifies_unify h.wellFormed ht hu
  obtain ⟨vs, hgrows, -⟩ := hunify.grows
  refine h.evolves_store hunify.wellFormed (hunify.trailed h.trailed) hgrows nofun fun v hf hout => ?_
  have havoid : Avoid m.store [(t, u)] v :=
    List.forall_mem_singleton.mpr ⟨hout t (by simp), hout u (by simp)⟩
  exact ⟨Clause.free_of_unifies hunify hf havoid, fun w _ hr => hunify.spares v havoid w hr, nofun⟩

/-- Entering a clause binds what the goal reaches. -/
theorem Sound.evolves_enter (h : m.Sound) (hc : c.InRange m.store) (ht : t.index < m.store.size) :
    Evolves m { m with store := (c.enter t m.store).2 } [t] ((c.enter t m.store).1.getD []) := by
  have henter := Clause.enters_enter h.wellFormed hc ht
  obtain ⟨vs, hgrows⟩ := henter.grows
  have hgoals : ∀ {P : Ref → Prop},
      (∀ goals, (c.enter t m.store).1 = some goals → ∀ g ∈ goals, P g) →
      ∀ g ∈ (c.enter t m.store).1.getD [], P g := by
    intro P hP g hg
    rcases hgoals : (c.enter t m.store).1 with _ | goals
    · rw [hgoals] at hg
      cases hg
    · rw [hgoals] at hg
      exact hP goals hgoals g hg
  refine h.evolves_store henter.wellFormed (henter.trailed h.trailed) hgrows (hgoals henter.lt)
    fun v hf hout => ?_
  obtain ⟨hfree, hspares, hbody⟩ := henter.spares v hf (hout t (List.mem_singleton_self t))
  exact ⟨hfree, hspares, hgoals hbody⟩

/-! ## Built-in predicates -/

theorem Settling.evolving {P : α → Machine → Prop} {action : MachineM α} (h : m.Sound)
    (haction : Settling m.store.size m action P) (R : List Ref) :
    Evolving m R action fun _ => [] :=
  haction.imp (fun _ _ hm' => (hm'.1.evolves (R := []) h nofun).mono nofun)
    fun _ hm' => (hm'.evolves (R := []) h nofun).mono nofun

theorem evolving_callWith (hsolve : Proper solve) (h : m.Sound) (pi : Indicator) {args : List Ref}
    (hargs : ∀ a ∈ args, a.index < m.store.size) :
    Evolving m args (callWith solve pi args) fun _ => [] := by
  unfold callWith
  have happly := h.evolves_apply pi.name hargs
  have hcall : Evolving m args (do solve (← onStore (·.apply pi.name args))) fun _ => [] := by
    refine (ends_onStore (Q := fun r m' => Evolves m m' args [r]) happly).bind fun g m' hm' => ?_
    exact (hsolve hm'.sound (hm'.lt g (List.mem_singleton_self g))).imp
      (fun _ _ hm'' => hm'.trans hm'') fun _ hm'' => hm'.trans hm''
  dsimp only
  split
  · exact Ends.bind (Q := fun _ _ => False) (h.evolves_nil args) fun _ _ => False.elim
  · exact hcall

theorem evolving_compileText (hsolve : Proper solve) (h : m.Sound) (c : Context) (t : Ref)
    (R : List Ref) : Evolving m R (Builtin.compileText solve c t) fun _ => [] := by
  refine Settling.evolving (P := fun _ _ => True) h ?_ R
  refine (settling_look (P := fun _ m' => m' = m) h rfl).bind fun text m' hm' heq => ?_
  subst heq
  split
  · exact (settling_compile hsolve h (Nat.le_refl _) c _ (by simp)).bind fun _ _ hm' _ =>
      settling_pure hm'.sound trivial
  · exact settling_fail h _ _

/-- **A built-in predicate binds only what its arguments reach.** -/
theorem evolving_run (hsolve : Proper solve) (h : m.Sound) (b : Builtin) {args : List Ref}
    (hargs : ∀ a ∈ args, a.index < m.store.size) :
    Evolving m args (Builtin.run solve b args) fun _ => [] := by
  have hnil := h.evolves_nil args
  have hsame : ∀ m' : Machine, m'.store = m.store → m'.database = m.database →
      Evolves m m' args [] := fun m' hs hdb => hnil.congr hs hdb
  unfold Builtin.run
  split
  · refine Ends.bind (Q := fun _ m' => m' = m) rfl fun isVar m' heq => ?_
    subst heq
    split
    · exact hnil
    · exact hnil
  · rename_i t u rest
    exact (h.evolves_unify (hargs t (by simp)) (hargs u (by simp))).mono (by simp_all)
  · refine Settling.evolving (P := fun _ _ => True) h (settling_get ?_) _
    exact (settling_consult hsolve h (Nat.le_refl _) _ _).bind fun _ _ hm' _ =>
      settling_pure hm'.sound trivial
  · exact hnil
  · exact hnil
  · exact hsame _ rfl rfl
  · exact hsame _ rfl rfl
  · exact evolving_compileText hsolve h _ _ _
  · have hnew := hsame { m with contexts := m.contexts + 1 } rfl rfl
    refine Ends.bind (m := newContext) (Q := fun _ m' => Evolves m m' _ []) hnew fun c m' hm' => ?_
    exact (evolving_compileText hsolve hm'.sound c _ []).imp (fun _ _ hm'' => hm'.trans hm'')
      fun _ hm'' => hm'.trans hm''
  · exact evolving_callWith hsolve h _ hargs
  · exact hnil
  · exact hnil
  · rename_i t u rest
    have hcopy := h.evolves_copy (hargs t (by simp)) (t :: u :: rest)
    have hboth : Evolves m { m with store := (m.store.copy t).2 } (t :: u :: rest)
        ([(m.store.copy t).1] ++ [u]) := by
      refine hcopy.within (fun _ => id) fun r hr => ?_
      rw [List.mem_singleton] at hr
      subst hr
      exact ⟨by simp, hargs r (by simp)⟩
    refine (ends_onStore (Q := fun r m' => Evolves m m' (t :: u :: rest) ([r] ++ [u]))
      hboth).bind fun copy m' hm' => ?_
    exact (evolving_callWith hsolve hm'.sound ⟨"=", 2⟩ hm'.lt).imp (fun _ _ hm'' => hm'.trans hm'')
      fun _ hm'' => hm'.trans hm''
  · exact hnil
  · exact hnil
  · refine Settling.evolving (P := fun _ _ => True) h ?_ _
    refine (settling_examine (P := fun _ _ => True) h fun _ _ => trivial).bind fun pi m' hm' _ => ?_
    exact settling_get (settling_pure hm'.sound trivial)
  · exact hnil
  · exact hnil
  · exact hnil

end Machine

/-! ## What a search holds on to -/

/-- The terms of a frame. -/
def Frame.refs : Frame → List Ref
  | .goal t _ => [t]
  | _ => []

namespace ChoicePoint

/-- The terms of a choice point. -/
def refs (point : ChoicePoint) : List Ref :=
  match point.alternative with
  | .resume goals => goals.flatMap Frame.refs
  | .clauses goal _ goals => goal :: goals.flatMap Frame.refs

/-- The clauses that a choice point has left. -/
def clauses (point : ChoicePoint) : List Clause :=
  match point.alternative with
  | .resume _ => []
  | .clauses _ rest _ => rest

end ChoicePoint

namespace Search

open Machine

variable {m m₀ m' : Machine} {R L L' K : List Ref} {t u v : Ref} {choices : Choices}
  {point : ChoicePoint} {goals : List Frame} {solve : Ref → MachineM Bool}

/-- The terms of a search. -/
def refs (S : Search) : List Ref := S.goals.flatMap Frame.refs ++ S.choices.flatMap ChoicePoint.refs

/-- A search that began in the machine `m₀` with the terms `R` has come to `m`, where it holds on to
the terms `L` and the choice points. -/
structure Holding (m₀ : Machine) (R : List Ref) (m : Machine) (L : List Ref) (choices : Choices) :
    Prop where
  /-- The machine has evolved. -/
  evolves : Evolves m₀ m R (L ++ choices.flatMap ChoicePoint.refs)
  /-- No choice point is older than the search. -/
  marks : ∀ point ∈ choices, m₀.store.mark ≤ point.mark
  /-- The clauses that are left have their terms in the store. -/
  clauses : ∀ point ∈ choices, ∀ c ∈ point.clauses, c.InRange m.store

theorem Holding.lt (h : Holding m₀ R m L choices) (ht : t ∈ L) : t.index < m.store.size :=
  h.evolves.lt t (List.mem_append_left _ ht)

theorem Holding.sound (h : Holding m₀ R m L choices) : m.Sound := h.evolves.sound

/-- Parts of the terms. -/
theorem Holding.parts (h : Holding m₀ R m L choices)
    (hL : ∀ r' ∈ L', ∃ r ∈ L, m.store.Reaches r r') : Holding m₀ R m L' choices where
  evolves := h.evolves.parts fun r' hr' => by
    rcases List.mem_append.mp hr' with hr' | hr'
    · obtain ⟨r, hr, hreach⟩ := hL r' hr'
      exact ⟨r, List.mem_append_left _ hr, hreach⟩
    · exact ⟨r', List.mem_append_right _ hr', .refl⟩
  marks := h.marks
  clauses := h.clauses

theorem Holding.subset (h : Holding m₀ R m L choices) (hL : ∀ r ∈ L', r ∈ L) :
    Holding m₀ R m L' choices :=
  h.parts fun r hr => ⟨r, hL r hr, .refl⟩

/-- The machine evolves from some of the terms, and others are kept. -/
theorem Holding.step (h : Holding m₀ R m (K ++ L) choices) (he : Evolves m m' K L') :
    Holding m₀ R m' (L' ++ L) choices where
  evolves := by
    have hstep : Evolves m m' (K ++ L ++ choices.flatMap ChoicePoint.refs)
        (L' ++ (L ++ choices.flatMap ChoicePoint.refs)) := by
      refine he.within (fun _ hr => List.mem_append_left _ (List.mem_append_left _ hr))
        fun r hr => ?_
      have hmem : r ∈ K ++ L ++ choices.flatMap ChoicePoint.refs := by
        rw [List.append_assoc]
        exact List.mem_append_right _ hr
      exact ⟨hmem, h.evolves.lt r hmem⟩
    rw [List.append_assoc]
    exact h.evolves.trans hstep
  marks := h.marks
  clauses point hp c hc := (h.clauses point hp c hc).mono he.size_le

/-- A choice point is added that was marked since the search began. -/
theorem Holding.push (h : Holding m₀ R m L choices) {mark : Nat} (hmark : m₀.store.mark ≤ mark)
    (alternative : Alternative)
    (hrefs : ∀ r ∈ (ChoicePoint.mk (Choices.height choices) mark alternative).refs, r ∈ L)
    (hclauses : ∀ c ∈ (ChoicePoint.mk (Choices.height choices) mark alternative).clauses,
      c.InRange m.store) :
    Holding m₀ R m L (choices.push mark alternative) where
  evolves := h.evolves.subset fun r hr => by
    rcases List.mem_append.mp hr with hr | hr
    · exact List.mem_append_left _ hr
    · rw [Choices.push, List.flatMap_cons, List.mem_append] at hr
      exact List.mem_append.mpr (hr.imp (hrefs r) id)
  marks := List.forall_mem_cons.mpr ⟨hmark, h.marks⟩
  clauses := List.forall_mem_cons.mpr ⟨hclauses, h.clauses⟩

theorem Holding.mark_le (h : Holding m₀ R m L choices) : m₀.store.mark ≤ m.store.mark :=
  h.evolves.mark_le

/-- Choice points are dropped. -/
theorem Holding.cutTo (h : Holding m₀ R m L choices) (height : Nat) :
    Holding m₀ R m L (choices.cutTo height) := by
  have hmem : ∀ point ∈ choices.cutTo height, point ∈ choices :=
    fun point hp => (List.dropWhile_suffix _).subset hp
  refine ⟨h.evolves.subset fun r hr => ?_, fun point hp => h.marks point (hmem point hp),
    fun point hp => h.clauses point (hmem point hp)⟩
  rcases List.mem_append.mp hr with hr | hr
  · exact List.mem_append_left _ hr
  · obtain ⟨point, hp, hr⟩ := List.mem_flatMap.mp hr
    exact List.mem_append_right _ (List.mem_flatMap.mpr ⟨point, hmem point hp, hr⟩)

/-- **Turning back** to a choice point. -/
theorem Holding.undo (h : Holding m₀ R m L (point :: choices)) :
    Holding m₀ R { m with store := m.store.undoTo point.mark } point.refs choices where
  evolves := (h.evolves.undoTo (h.marks point List.mem_cons_self)).subset fun _ hr =>
    List.mem_append_right _ hr
  marks p hp := h.marks p (List.mem_cons_of_mem _ hp)
  clauses p hp c hc := (h.clauses p (List.mem_cons_of_mem _ hp) c hc).mono
    (Nat.le_of_eq (size_undoTo _ _).symm)

/-! ## The steps of a search -/

/-- What a part of a step comes to: another search, or none, and then the terms `L` are left. -/
def Comes (m₀ : Machine) (R : List Ref) (L : List Ref) (choices : Choices) (r : Option Search)
    (m : Machine) : Prop :=
  match r with
  | some S => Holding m₀ R m (S.goals.flatMap Frame.refs) S.choices
  | none => Holding m₀ R m L choices

/-- Whatever the part of a step comes to. -/
abbrev Holds (m₀ : Machine) (R : List Ref) (m : Machine) (L : List Ref) (choices : Choices)
    (action : MachineM (Option Search)) : Prop :=
  Ends (action m) (Comes m₀ R L choices) fun m' => Evolves m₀ m' R []

theorem Holding.nil (h : Holding m₀ R m L choices) : Evolves m₀ m R [] :=
  h.evolves.subset nofun

theorem refs_map_goal (ts : List Ref) (barrier : Nat) :
    (ts.map (Frame.goal · barrier)).flatMap Frame.refs = ts := by
  induction ts with
  | nil => rfl
  | cons t ts ih => rw [List.map_cons, List.flatMap_cons, ih, Frame.refs, List.singleton_append]

/-- Trying clauses. -/
theorem holds_tryClauses {cs : List Clause} (hcs : ∀ c ∈ cs, c.InRange m.store)
    (h : Holding m₀ R m ([t] ++ goals.flatMap Frame.refs) choices) :
    Holds m₀ R m (goals.flatMap Frame.refs) choices (tryClauses t goals choices cs) := by
  induction cs generalizing m with
  | nil => exact h.subset fun r hr => List.mem_append_right _ hr
  | cons c rest ih =>
    rw [List.forall_mem_cons] at hcs
    have ht := h.lt (t := t) (by simp)
    have henter := h.sound.evolves_enter hcs.1 ht
    have hsize := henter.size_le
    rw [tryClauses]
    refine Ends.bind (Q := fun mark m' => m' = m ∧ mark = m.store.mark) ⟨rfl, rfl⟩
      fun mark m' hm' => ?_
    obtain ⟨rfl, rfl⟩ := hm'
    refine (ends_onStore (Q := fun r m₁ => m₁ = { m' with store := (c.enter t m'.store).2 } ∧
      r = (c.enter t m'.store).1) ⟨rfl, rfl⟩).bind fun r m₁ hm₁ => ?_
    obtain ⟨rfl, rfl⟩ := hm₁
    -- The goal is kept for the clauses that are left.
    have hkeep : Holding m₀ R m' ([t] ++ ([t] ++ goals.flatMap Frame.refs)) choices :=
      h.subset fun r hr => by simpa using hr
    rcases hbody : (c.enter t m'.store).1 with _ | body
    · have hback : Evolves m' { m' with store := (c.enter t m'.store).2.undoTo m'.store.mark }
          [t] [] := (henter.undoTo (Nat.le_refl _)).subset nofun
      have hundone := hkeep.step hback
      refine ih (fun c' hc' => (hcs.2 c' hc').mono ?_) hundone
      rw [size_undoTo]
      exact hsize
    · rw [hbody, Option.getD_some] at henter
      have hentered := hkeep.step henter
      have hframes : (body.map (Frame.goal · (Choices.height choices)) ++ goals).flatMap
          Frame.refs = body ++ goals.flatMap Frame.refs := by
        rw [List.flatMap_append, refs_map_goal]
      show Holding m₀ R _ ((body.map _ ++ goals).flatMap Frame.refs) _
      rw [hframes]
      by_cases hlast : rest.isEmpty = true
      · rw [if_pos hlast]
        exact hentered.subset fun r hr => by
          rcases List.mem_append.mp hr with hr | hr <;> simp [hr]
      · rw [if_neg hlast]
        refine (hentered.push h.mark_le (.clauses t rest goals) (fun r hr => ?_) fun c' hc' =>
          (hcs.2 c' hc').mono hsize).subset fun r hr => ?_
        · exact List.mem_append_right _ hr
        · rcases List.mem_append.mp hr with hr | hr <;> simp [hr]

/-- **Turning back holds on to no more than before.** -/
theorem holds_backtrack (h : Holding m₀ R m L choices) :
    Holds m₀ R m [] [] (backtrack choices) := by
  induction choices generalizing m L with
  | nil => exact ⟨h.evolves.subset nofun, nofun, nofun⟩
  | cons point choices ih =>
    have hundone := h.undo
    have hclauses : ∀ c ∈ point.clauses, c.InRange (m.store.undoTo point.mark) := fun c hc =>
      (h.clauses point List.mem_cons_self c hc).mono (Nat.le_of_eq (size_undoTo _ _).symm)
    rw [backtrack]
    refine (ends_onStore (Q := fun _ m₁ =>
      m₁ = { m with store := m.store.undoTo point.mark }) rfl).bind fun _ m₁ hm₁ => ?_
    subst hm₁
    obtain ⟨below, mark, alternative⟩ := point
    cases alternative with
    | resume goals => exact hundone
    | clauses goal rest goals =>
      refine Ends.bind (holds_tryClauses hclauses hundone) fun r m₂ hm₂ => ?_
      cases r with
      | some S => exact hm₂
      | none => exact ih hm₂

/-! ## Goals -/

/-- The terms that a control construct is about. -/
def Control.refs : Control Ref → List Ref
  | .succeed | .fail | .cut => []
  | .both left right | .either left right | .ifThen left right => [left, right]
  | .ifThenElse condition consequence otherwise => [condition, consequence, otherwise]
  | .not goal => [goal]
  | .call goal extra => goal :: extra
  | .procedure _ args => args

/-- A control construct is about its arguments and parts of them. -/
theorem Control.reaches_of (hs : s.Acyclic) (name : String) {args : List Ref} {r : Ref}
    (hr : r ∈ (Control.of s name args).refs) : ∃ a ∈ args, s.Reaches a r := by
  have hself : r ∈ args → ∃ a ∈ args, s.Reaches a r := fun h => ⟨r, h, .refl⟩
  unfold Control.of at hr
  split at hr
  case h_1 | h_2 | h_3 | h_4 => cases hr
  case h_5 | h_7 | h_8 | h_10 => exact hself hr
  case h_6 left right =>
    -- The condition and the consequence are parts of the first argument.
    split at hr
    · rename_i condition consequence hview
      have hpart : ∀ u ∈ [condition, consequence], s.Reaches left u := fun u hu =>
        hs.reaches_of_mem_args (by rw [Store.args, hview]; exact hu)
      simp only [refs, List.mem_cons, List.not_mem_nil, or_false] at hr
      rcases hr with rfl | rfl | rfl
      · exact ⟨left, by simp, hpart r (by simp)⟩
      · exact ⟨left, by simp, hpart r (by simp)⟩
      · exact hself (by simp)
    · exact hself hr
  case h_9 =>
    split at hr
    · exact hself hr
    · exact hself hr

/-- The arguments of a goal are parts of it. -/
theorem ends_callee (hs : m.store.Acyclic) (t : Ref) :
    Ends (callee t m) (fun r m' => m' = m ∧ ∀ a ∈ r.2, m.store.Reaches t a) fun m' => m' = m := by
  have hargs : ∀ {a : Ref}, a ∈ m.store.args t → m.store.Reaches t a := hs.reaches_of_mem_args
  unfold callee
  refine Ends.bind (Q := fun r m' => m' = m ∧ r = m.store.view t) ⟨rfl, rfl⟩ fun r m' hm' => ?_
  obtain ⟨rfl, hr⟩ := hm'
  split
  · exact rfl
  · exact ⟨rfl, nofun⟩
  · exact ⟨rfl, fun a ha => hargs (by rw [Store.args, ← hr]; exact ha)⟩
  · exact rfl

/-- A goal with further arguments is made of them and of parts of the goal. -/
theorem evolving_withArgs (h : m.Sound) {extra : List Ref} (ht : t.index < m.store.size)
    (hextra : ∀ a ∈ extra, a.index < m.store.size) :
    Evolving m (t :: extra) (withArgs t extra) fun g => [g] := by
  have hs := h.wellFormed.acyclic
  have hlt : ∀ r ∈ t :: extra, r.index < m.store.size := List.forall_mem_cons.mpr ⟨ht, hextra⟩
  have happly : ∀ {name : String} {us : List Ref},
      (∀ u ∈ us, ∃ r ∈ t :: extra, m.store.Reaches r u) →
      Evolving m (t :: extra) (onStore (·.apply name us)) fun g => [g] := by
    intro name us hus
    have hparts : Evolves m m (t :: extra) us := h.evolves_parts hlt hus
    exact hparts.trans (h.evolves_apply name hparts.lt)
  unfold withArgs
  refine Ends.bind (Q := fun r m' => m' = m ∧ r = m.store.deref t) ⟨rfl, rfl⟩ fun r m' hm' => ?_
  obtain ⟨rfl, rfl⟩ := hm'
  have hderef : m'.store.Reaches t (m'.store.deref t) := hs.reaches_deref t
  by_cases hempty : extra.isEmpty = true
  · rw [if_pos hempty]
    exact h.evolves_parts hlt (List.forall_mem_singleton.mpr ⟨t, List.mem_cons_self, hderef⟩)
  · rw [if_neg hempty]
    refine Ends.bind (Q := fun r m => m = m' ∧ r = m'.store.view (m'.store.deref t)) ⟨rfl, rfl⟩
      fun r m hm => ?_
    obtain ⟨rfl, hr⟩ := hm
    split
    · exact h.evolves_nil _
    · exact happly fun u hu => ⟨u, List.mem_cons_of_mem _ hu, .refl⟩
    · rename_i name args
      refine happly fun u hu => ?_
      rcases List.mem_append.mp hu with hu | hu
      · refine ⟨t, List.mem_cons_self, hderef.trans (hs.reaches_of_mem_args ?_)⟩
        rw [Store.args, ← hr]
        exact hu
      · exact ⟨u, List.mem_cons_of_mem _ hu, .refl⟩
    · exact h.evolves_nil _

/-- The clauses that a machine has stored have their terms in its store. -/
theorem inRange_of_find? (h : m.Sound) {pi : Indicator} {p : Predicate}
    (hp : m.database.find? pi = some (.defined p)) : ∀ c ∈ p.clauses, c.InRange m.store :=
  fun c hc => (h.faithful pi c (Database.holds_of_find? hp hc)).inRange

/-- Calling a predicate. -/
theorem holds_callProcedure (hsolve : Proper solve) (pi : Indicator) {args : List Ref}
    (h : Holding m₀ R m ([t] ++ args ++ goals.flatMap Frame.refs) choices) :
    Holds m₀ R m (goals.flatMap Frame.refs) choices
      (callProcedure (Builtin.run solve) pi t args goals choices) := by
  have hrest : Holding m₀ R m (args ++ goals.flatMap Frame.refs) choices :=
    h.subset fun r hr => by
      rw [List.append_assoc]
      exact List.mem_append_right _ hr
  unfold callProcedure
  refine Ends.bind (Q := fun m₁ m' => m' = m ∧ m₁ = m) ⟨rfl, rfl⟩ fun m₁ m' hm' => ?_
  obtain ⟨rfl, hm₁⟩ := hm'
  rcases hp : m₁.database.find? pi with _ | ⟨b | p⟩
  · exact h.nil
  · have hlt : ∀ a ∈ args, a.index < m'.store.size := fun a ha =>
      hrest.lt (List.mem_append_left _ ha)
    have hrun := evolving_run hsolve h.sound b hlt
    refine Ends.bind (hrun.imp (fun _ _ he => hrest.step he) fun _ he => (hrest.step he).nil)
      fun found m' hm' => ?_
    cases found with
    | true => exact hm'
    | false => exact hm'
  · refine holds_tryClauses (inRange_of_find? h.sound (hm₁ ▸ hp)) (h.subset fun r hr => ?_)
    rcases List.mem_append.mp hr with hr | hr
    · exact List.mem_append_left _ (List.mem_append_left _ hr)
    · exact List.mem_append_right _ hr

/-- Doing what a goal asks for. -/
theorem holds_proveControl (hsolve : Proper solve) (barrier : Nat) {control : Control Ref}
    (h : Holding m₀ R m ([t] ++ control.refs ++ goals.flatMap Frame.refs) choices) :
    Holds m₀ R m (goals.flatMap Frame.refs) choices
      (proveControl (Builtin.run solve) t barrier goals choices control) := by
  have hrest : Holding m₀ R m (goals.flatMap Frame.refs) choices :=
    h.subset fun r hr => List.mem_append_right _ hr
  have hrefs : Holding m₀ R m (control.refs ++ goals.flatMap Frame.refs) choices :=
    h.subset fun r hr => by
      rw [List.append_assoc]
      exact List.mem_append_right _ hr
  -- A choice point to go on with what is in the list.
  have hpush : ∀ frames : List Frame,
      (∀ r ∈ frames.flatMap Frame.refs, r ∈ control.refs ++ goals.flatMap Frame.refs) →
      Holding m₀ R m (control.refs ++ goals.flatMap Frame.refs)
        (choices.push m.store.mark (.resume frames)) :=
    fun _ hframes => hrefs.push h.mark_le _ hframes nofun
  cases control with
  | succeed => exact hrest
  | fail => exact hrest
  | cut => exact hrest.cutTo barrier
  | both left right => exact hrefs.subset fun r hr => by simpa [Frame.refs, Control.refs] using hr
  | ifThenElse condition consequence otherwise =>
    exact (hpush (.goal otherwise barrier :: goals) fun r hr => by
      simp [Frame.refs, Control.refs] at hr ⊢; tauto).subset fun r hr => by
      simp [Frame.refs, Control.refs] at hr ⊢; tauto
  | either left right =>
    exact (hpush (.goal right barrier :: goals) fun r hr => by
      simp [Frame.refs, Control.refs] at hr ⊢; tauto).subset fun r hr => by
      simp [Frame.refs, Control.refs] at hr ⊢; tauto
  | ifThen condition consequence =>
    exact hrefs.subset fun r hr => by simpa [Frame.refs, Control.refs] using hr
  | not goal =>
    exact (hpush goals fun r hr => List.mem_append_right _ hr).subset fun r hr => by
      simp [Frame.refs, Control.refs] at hr ⊢; tauto
  | call goal extra =>
    have hlt : ∀ r ∈ goal :: extra, r.index < m.store.size := fun r hr =>
      hrefs.lt (List.mem_append_left _ hr)
    rw [List.forall_mem_cons] at hlt
    have hgoal : Ends (withArgs goal extra m)
        (fun g m' => Holding m₀ R m' ([g] ++ goals.flatMap Frame.refs) choices)
        fun m' => Evolves m₀ m' R [] :=
      (evolving_withArgs h.sound hlt.1 hlt.2).imp (fun _ _ he => hrefs.step he)
        fun _ he => (hrefs.step he).nil
    exact Ends.bind hgoal fun g m' hm' => hm'
  | procedure pi args => exact holds_callProcedure hsolve pi h

/-- **Taking up a goal.** -/
theorem holds_proveGoal (hsolve : Proper solve) (barrier : Nat)
    (h : Holding m₀ R m ([t] ++ goals.flatMap Frame.refs) choices) :
    Holds m₀ R m (goals.flatMap Frame.refs) choices
      (proveGoal (Builtin.run solve) t barrier goals choices) := by
  have hs := h.sound.wellFormed.acyclic
  unfold proveGoal
  refine Ends.bind (Q := fun r m' => m' = m ∧ r = m.store.deref t) ⟨rfl, rfl⟩ fun r m' hm' => ?_
  obtain ⟨rfl, rfl⟩ := hm'
  have hderef : m'.store.Reaches t (m'.store.deref t) := hs.reaches_deref t
  refine Ends.bind ((ends_callee hs _).imp (fun _ _ => id) fun m' hm' => hm' ▸ h.nil)
    fun r m hm => ?_
  obtain ⟨rfl, hargs⟩ := hm
  refine Ends.bind (Q := fun control m' => m' = m ∧ control = Control.of m.store r.1 r.2)
    ⟨rfl, rfl⟩ fun control m' hm' => ?_
  obtain ⟨rfl, rfl⟩ := hm'
  refine holds_proveControl hsolve barrier (h.parts fun u hu => ?_)
  simp only [List.mem_append, List.mem_singleton] at hu
  rcases hu with (rfl | hu) | hu
  · exact ⟨t, by simp, hderef⟩
  · obtain ⟨a, ha, hr⟩ := Control.reaches_of hs _ hu
    exact ⟨t, by simp, hderef.trans ((hargs a ha).trans hr)⟩
  · exact ⟨u, List.mem_append_right _ hu, .refl⟩

/-- Taking up a frame. -/
theorem holds_prove (hsolve : Proper solve) {frame : Frame}
    (h : Holding m₀ R m ((frame :: goals).flatMap Frame.refs) choices) :
    Holds m₀ R m (goals.flatMap Frame.refs) choices
      (prove (Builtin.run solve) frame goals choices) := by
  have hrest : Holding m₀ R m (goals.flatMap Frame.refs) choices :=
    h.subset fun r hr => List.mem_append_right _ hr
  cases frame with
  | goal t barrier => exact holds_proveGoal hsolve barrier h
  | cutTo height => exact hrest.cutTo height
  | fail => exact hrest

/-- **A step of a search.** -/
theorem holds_step (hsolve : Proper solve) {frame : Frame}
    (h : Holding m₀ R m ((frame :: goals).flatMap Frame.refs) choices) :
    Holds m₀ R m [] [] (step (Builtin.run solve) frame goals choices) := by
  unfold step
  refine Ends.bind (holds_prove hsolve h) fun r m' hm' => ?_
  cases r with
  | some S => exact hm'
  | none => exact holds_backtrack hm'

theorem ends_poll (m : Machine) : Ends (poll m) (fun _ m' => m' = m) fun m' => m' = m := by
  refine Ends.bind (Q := fun _ m' => m' = m) rfl fun _ m' hm' => ?_
  subst hm'
  split
  · exact rfl
  · exact rfl

/-- A step of a search, with a look at the context from time to time. -/
theorem loop_cons (run : Builtin → List Ref → MachineM Bool) (fuel taken : Nat) (frame : Frame)
    (goals : List Frame) (choices : Choices) :
    loop run (fuel + 1) taken ⟨frame :: goals, choices⟩ = (do
      (if (taken + 1) % pollInterval = 0 then poll else pure () : MachineM Unit)
      match ← step run frame goals choices with
      | some search => loop run fuel (taken + 1) search
      | none => pure false) := by
  rw [loop]
  split
  · rfl
  · rfl

/-- **A search that goes on for a while.** -/
theorem evolves_loop (hsolve : Proper solve) (fuel taken : Nat) {S : Search}
    (h : Holding m₀ R m (S.goals.flatMap Frame.refs) S.choices) :
    Ends (loop (Builtin.run solve) fuel taken S m) (fun _ m' => Evolves m₀ m' R [])
      fun m' => Evolves m₀ m' R [] := by
  induction fuel generalizing m taken S with
  | zero =>
    obtain ⟨_ | ⟨frame, goals⟩, choices⟩ := S
    · exact h.nil
    · exact h.nil
  | succ fuel ih =>
    obtain ⟨_ | ⟨frame, goals⟩, choices⟩ := S
    · exact h.nil
    rw [loop_cons]
    have hpoll : Ends ((if (taken + 1) % pollInterval = 0 then poll else pure () : MachineM Unit) m)
        (fun _ m' => m' = m) fun m' => m' = m := by
      split
      · exact ends_poll m
      · exact rfl
    refine Ends.bind (hpoll.imp (fun _ _ => id) fun m' hm' => hm' ▸ h.nil) fun _ m' hm' => ?_
    subst hm'
    refine Ends.bind (holds_step hsolve h) fun r m' hm' => ?_
    cases r with
    | some S => exact ih _ hm'
    | none => exact hm'.nil

end Search

namespace Machine

/-- **The machine proves goals properly**, however deep searches and loads are nested. -/
theorem proper_solve (fuel : Nat) : Proper (solve fuel) := by
  induction fuel with
  | zero => exact fun h _ => h.evolves_nil _
  | succ fuel ih =>
    intro m goal h hgoal
    refine Search.evolves_loop ih (fuel + 1) 0 ⟨?_, nofun, nofun⟩
    exact (h.evolves_refl (List.forall_mem_singleton.mpr hgoal)).subset (by simp [Frame.refs])

end Machine

end Clausal
