import Clausal.Proofs.Clause.Resolution
import Clausal.Proofs.Store.Building

/-! # Stored clauses

A clause that is stored refers to cells of the store, in which bindings come and go.  What the clause
was compiled from is what its cells denote with all bindings undone, and that never changes: cells are
not given back, and undoing whatever was bound gives the old cells back as they were (`Persists`).
`Faithful s c` says that the clause means the rule that its term denotes in this sense.  It holds of
what is compiled from a detached term (`faithful_of_compile`), at whatever time, and from then on for
ever (`Faithful.persist`).

While the variables of the clause are free, it means the same with the bindings in force
(`Faithful.encodes`), so that entering it is a resolution step with the clause as it was compiled.
-/

namespace Clausal

namespace Store

variable {s s' s'' : Store} {t u v : Ref} {vs : List Ref} {n : Nat}

/-! ## What undoing everything leaves -/

/-- Undone, the earlier store is the later one without its new cells. -/
abbrev Persists (s s' : Store) : Prop := Grows (s.undoTo 0) (s'.undoTo 0) []

theorem Persists.refl (s : Store) : Persists s s := Grows.refl _

theorem Persists.trans (h : Persists s s') (h' : Persists s' s'') : Persists s s'' :=
  Grows.trans h h'

theorem mem_of_undoTo_zero (s : Store) (t : Ref) : (s.undoTo 0).cell? t =
    if t ∈ s.trail.toList then (s.cell? t).map unbound else s.cell? t := by
  rw [cell?_undoTo, List.drop_zero]

/-- Bindings and new cells leave the rest as it is. -/
theorem Grows.persists (h : Grows s s' vs) (hs : s.Trailed) : Persists s s' where
  size_le := by
    rw [size_undoTo, size_undoTo]
    exact h.size_le
  trail := by simp [trail_undoTo]
  kept {t} ht _ := by
    rw [size_undoTo] at ht
    rw [mem_of_undoTo_zero, mem_of_undoTo_zero, h.trail]
    by_cases hold : t ∈ s.trail.toList
    · obtain ⟨name, u, hc⟩ := (hs.bound_iff t).mpr hold
      have hnf : ¬ s.Free t := fun hf => hf.not_bound ⟨name, u, hc⟩
      rw [if_pos (List.mem_append_left _ hold), if_pos hold, h.cell?_of_not_free hc hnf, hc]
    · rw [if_neg hold]
      by_cases hnew : t ∈ vs
      · obtain ⟨name, u, hc, hc'⟩ := h.bound ht hnew
        rw [if_pos (List.mem_append_right _ hnew), hc, hc']
        rfl
      · rw [if_neg (by simp [hold, hnew]), h.kept ht hnew]
  bound _ hmem := by cases hmem

/-- Undoing leaves less to be undone. -/
theorem persists_undoTo (s : Store) (k : Nat) : Persists s (s.undoTo k) where
  size_le := by simp only [size_undoTo, Nat.le_refl]
  trail := by simp [trail_undoTo]
  kept {t} _ _ := by
    have hsplit : t ∈ s.trail.toList ↔ t ∈ s.trail.toList.take k ∨ t ∈ s.trail.toList.drop k := by
      rw [← List.mem_append, List.take_append_drop]
    rw [mem_of_undoTo_zero, mem_of_undoTo_zero, cell?_undoTo, trail_undoTo]
    by_cases htake : t ∈ s.trail.toList.take k
    · rw [if_pos htake, if_pos (hsplit.mpr (.inl htake))]
      split
      · rw [Option.map_map]
        exact congrArg (Option.map · _) (funext unbound_unbound)
      · rfl
    · rw [if_neg htake]
      by_cases hdrop : t ∈ s.trail.toList.drop k
      · rw [if_pos hdrop, if_pos (hsplit.mpr (.inr hdrop))]
      · rw [if_neg hdrop, if_neg fun h => (hsplit.mp h).elim htake hdrop]
  bound _ hmem := by cases hmem

/-- The bindings in force were made since everything was undone. -/
theorem Trailed.grows_undoTo (hs : s.Trailed) : Grows (s.undoTo 0) s s.trail.toList where
  size_le := by rw [size_undoTo]
  trail := by simp [trail_undoTo]
  kept {t} _ hmem := by rw [mem_of_undoTo_zero, if_neg hmem]
  bound {t} _ hmem := by
    obtain ⟨name, u, hc⟩ := (hs.bound_iff t).mpr hmem
    exact ⟨name, u, by rw [mem_of_undoTo_zero, if_pos hmem, hc]; rfl, hc⟩

/-- Undoing does not change what has no binding in force in it. -/
theorem Detached.resolve_undoTo (h : s.Detached n t) (hs : s.WellFormed) (ht : s.Trailed) :
    (s.undoTo 0).resolve t = s.resolve t := by
  have hundone := hs.undoTo 0
  refine (ht.grows_undoTo.resolve_eq_self hundone.acyclic hs.acyclic fun v hv => ?_).symm
  have hlt : t.index < (s.undoTo 0).size := by
    rw [size_undoTo]
    exact h.lt
  obtain ⟨hfree, hr⟩ := (hundone.mem_vars_iff hlt).mp hv
  have hr := spares_undoTo s 0 v t h.lt hr
  exact (ht.grows_undoTo.free_or_bound hfree).resolve_right (h.unbound v hr)

end Store

namespace Clause

open Store

variable {s s' : Store} {c : Clause} {t u v : Ref} {head : Ref} {gs : List Ref} {n : Nat}

/-! ## Operands -/

theorem mem_of_operand? {i : Instruction} (h : c.operand? i = some u) :
    .term u ∈ c.table ∨ u ∈ c.vars := by
  rcases i with n | n | _ | n | _
  case const =>
    left
    simp only [operand?, term?] at h
    split at h
    · cases h
      exact List.mem_of_getElem? ‹_›
    · cases h
  case var => exact .inr (List.mem_of_getElem? h)
  all_goals cases h

theorem mem_of_readHead {code rest : List Instruction} {us : List Ref}
    (h : c.readHead code = some (us, rest)) (hu : u ∈ us) : .term u ∈ c.table ∨ u ∈ c.vars := by
  induction code generalizing us with
  | nil => cases h
  | cons i code ih =>
    rcases i with n | n | _ | n | _
    case enter =>
      cases h
      cases hu
    case exit =>
      rcases code with _ | ⟨j, code⟩
      · cases h
        cases hu
      · cases h
    all_goals
      simp only [readHead] at h
      split at h
      · rename_i w hop
        obtain ⟨⟨us', rest'⟩, hrest, heq⟩ := Option.map_eq_some_iff.mp h
        cases heq
        rcases List.mem_cons.mp hu with rfl | hu
        · exact mem_of_operand? hop
        · exact ih hrest hu
      · cases h

theorem mem_of_mem_calls {pushed : List Ref} {code : List Instruction}
    {calls : List (Indicator × List Ref)} (h : c.readBody pushed code = some calls)
    (hpushed : ∀ u ∈ pushed, .term u ∈ c.table ∨ u ∈ c.vars) {call : Indicator × List Ref}
    (hcall : call ∈ calls) (hu : u ∈ call.2) : .term u ∈ c.table ∨ u ∈ c.vars := by
  induction code generalizing pushed calls with
  | nil => cases h
  | cons i code ih =>
    rcases i with n | n | _ | n | _
    case exit =>
      rcases code with _ | ⟨j, code⟩
      · simp only [readBody] at h
        split at h
        · cases h
          cases hcall
        · cases h
      · cases h
    case call =>
      simp only [readBody] at h
      split at h
      · split at h
        · obtain ⟨calls, hrest, rfl⟩ := Option.map_eq_some_iff.mp h
          rcases List.mem_cons.mp hcall with rfl | hcall
          · exact hpushed u (List.mem_reverse.mp hu)
          · exact ih hrest (List.forall_mem_nil _) hcall
        · cases h
      · cases h
    all_goals
      simp only [readBody] at h
      split at h
      · exact ih h (List.forall_mem_cons.mpr ⟨mem_of_operand? ‹_›, hpushed⟩) hcall
      · cases h

/-- What the instructions of a clause mention is in its table or one of its variables. -/
theorem mem_of_reading {r : Reading} (h : c.reading? = some r)
    (hu : u ∈ r.head ∨ ∃ call ∈ r.body, u ∈ call.2) : .term u ∈ c.table ∨ u ∈ c.vars := by
  rw [reading?] at h
  split at h
  · split at h
    · obtain ⟨calls, hbody, rfl⟩ := Option.map_eq_some_iff.mp h
      rcases hu with hu | ⟨call, hcall, hu⟩
      · exact mem_of_readHead ‹_› hu
      · exact mem_of_mem_calls hbody (List.forall_mem_nil _) hcall hu
    · cases h
  · cases h

/-! ## Rules -/

/-- A compound of two subtrees has two arguments. -/
theorem exists_view_pair (hs : s.Acyclic) {name : String} {x y : Tree Ref}
    (h : s.resolve t = .compound name [x, y]) : ∃ l r, s.view t = .compound name [l, r] := by
  obtain ⟨args, hview, hargs⟩ := hs.view_of_resolve_compound h
  obtain ⟨l, ls, rfl, -, hrest⟩ := List.map_eq_cons_iff.mp hargs
  obtain ⟨r, rs, rfl, -, hnil⟩ := List.map_eq_cons_iff.mp hrest
  rw [List.map_eq_nil_iff.mp hnil] at hview
  exact ⟨l, r, hview⟩

theorem conjuncts_resolve (hs : s.Acyclic) (h : s.Conjuncts t gs) :
    (s.resolve t).conjuncts = gs.map s.resolve := by
  induction h with
  | both view _ _ ihl ihr =>
    rw [hs.resolve_of_view_compound view, List.map_append, ← ihl, ← ihr]
    exact Tree.conjuncts_both _ _
  | one view =>
    refine Tree.conjuncts_of_ne fun left right heq => ?_
    obtain ⟨l, r, hview⟩ := exists_view_pair hs heq
    exact view l r hview

/-- What a clause is split into is its rule. -/
theorem Splits.rule_eq (h : Splits s t head gs) (hs : s.Acyclic) :
    (s.resolve t).rule = ⟨s.resolve head, gs.map fun g => (s.resolve g).asCall⟩ := by
  cases h with
  | rule view body =>
    rw [hs.resolve_of_view_compound view]
    show Rule.mk _ ((s.resolve _).conjuncts.map Tree.asCall) = _
    rw [conjuncts_resolve hs body, List.map_map]
    rfl
  | fact view =>
    refine Tree.rule_of_ne fun head body heq => ?_
    obtain ⟨l, r, hview⟩ := exists_view_pair hs heq
    exact view l r hview

/-! ## Faithful clauses -/

/-- The rule that the clause was compiled from. -/
def source (s : Store) (c : Clause) : Rule Ref := ((s.undoTo 0).resolve c.raw).rule

/-- With all bindings undone, the clause means the rule that its term denotes. -/
structure Faithful (s : Store) (c : Clause) : Prop where
  /-- The term has a cell. -/
  raw_lt : c.raw.index < s.size
  /-- The head has the name and the number of arguments of the predicate. -/
  head : (c.source s).head = .apply c.pi.name (c.source s).head.args ∧
    (c.source s).head.args.length = c.pi.arity
  /-- The instructions say what the rule says. -/
  encodes : Encodes (s.undoTo 0) c (c.source s).head.args (c.source s).goals

theorem Faithful.inRange (h : c.Faithful s) : c.InRange s := by
  intro u hu
  have hlt := h.encodes.inRange u hu
  rwa [size_undoTo] at hlt

theorem Faithful.lt (h : c.Faithful s) (hv : v ∈ c.vars) : v.index < s.size := by
  obtain ⟨name, hc⟩ := h.encodes.free v hv
  have hlt := index_lt_of_cell? hc
  rwa [size_undoTo] at hlt

/-- The clause stays compiled from what it was compiled from. -/
theorem Faithful.source_eq (h : c.Faithful s) (hs : s.WellFormed) (hs' : s'.WellFormed)
    (hp : Persists s s') : c.source s' = c.source s := by
  have hlt : c.raw.index < (s.undoTo 0).size := by
    rw [size_undoTo]
    exact h.raw_lt
  rw [source, source, hp.resolve_of_nil (hs.undoTo 0) (hs'.undoTo 0).acyclic hlt]

/-- **A faithful clause stays faithful**, whatever is added, bound and undone. -/
theorem Faithful.persist (h : c.Faithful s) (hs : s.WellFormed) (hs' : s'.WellFormed)
    (hp : Persists s s') : c.Faithful s' := by
  have hsource := h.source_eq hs hs' hp
  have hsize := hp.size_le
  rw [size_undoTo, size_undoTo] at hsize
  refine ⟨Nat.lt_of_lt_of_le h.raw_lt hsize, by rw [hsource]; exact h.head, ?_⟩
  rw [hsource]
  exact h.encodes.grow (hs.undoTo 0).acyclic (hs'.undoTo 0).acyclic hp fun v hv =>
    hp.free_of_nil (h.encodes.free v hv)

/-- **A faithful clause whose variables are free means what it was compiled from**, whatever other
bindings are in force. -/
theorem Faithful.encodes_now (h : c.Faithful s) (hs : s.WellFormed) (ht : s.Trailed)
    (hfree : ∀ v ∈ c.vars, s.Free v) :
    Encodes s c (c.source s).head.args (c.source s).goals :=
  h.encodes.grow (hs.undoTo 0).acyclic hs.acyclic ht.grows_undoTo hfree

/-- Entering the clause is a resolution step with its rule, for every goal for its predicate that does
not contain its variables. -/
def Resolvable (s : Store) (c : Clause) : Prop :=
  ∀ goal, goal.index < s.size → s.nameArity? goal = some (c.pi.name, c.pi.arity) →
    (∀ v ∈ c.vars, v ∉ (s.resolve goal).vars) →
    ResolutionStep s c goal (c.renamed s (c.source s).head)
      ((c.source s).goals.map (c.renamed s)) (c.enter goal s)

theorem Faithful.resolvable (h : c.Faithful s) (hs : s.WellFormed) (ht : s.Trailed)
    (hfree : ∀ v ∈ c.vars, s.Free v) : c.Resolvable s := by
  intro goal hgoal hpi hapart
  obtain ⟨htree, hlen⟩ := resolve_of_nameArity hs hpi
  have hnow := h.encodes_now hs ht hfree
  have henters := enters_enter hs hnow.inRange hgoal
  have hlater : ∀ v ∈ c.vars, (c.enter goal s).2.Free v := by
    intro v hv
    have hreach : ¬ s.Reaches goal v := fun hr =>
      hapart v hv ((hs.mem_vars_iff hgoal).mpr ⟨hfree v hv, hr⟩)
    exact (henters.spares v (hfree v hv) hreach).1
  exact (hnow.resolves hs hgoal (hlen.trans h.head.2.symm) hlater).resolutionStep hs htree h.head.1
    henters.grows henters.wellFormed.acyclic

/-- The variables of the rule are those of the clause. -/
theorem Faithful.covered (h : c.Faithful s) :
    ∀ t ∈ (c.source s).head :: (c.source s).goals, ∀ u ∈ t.vars, u ∈ c.vars := by
  rw [List.forall_mem_cons]
  refine ⟨fun u hu => ?_, fun t ht => h.encodes.covered t (List.mem_append_right _ ht)⟩
  rw [h.head.1, Tree.vars_apply, List.mem_flatMap] at hu
  obtain ⟨t, ht, hu⟩ := hu
  exact h.encodes.covered t (List.mem_append_left _ ht) u hu

/-- What a clause means in a store it means in the store with everything undone, if no binding is in
force in it. -/
theorem Encodes.undo {args goals : List (Tree Ref)} (h : Encodes s c args goals)
    (ht : s.Trailed) (hterms : ∀ u, .term u ∈ c.table → (s.undoTo 0).resolve u = s.resolve u) :
    Encodes (s.undoTo 0) c args goals := by
  obtain ⟨r, hr, hargs, hgoals⟩ := h.reading
  have hfree : ∀ v ∈ c.vars, (s.undoTo 0).Free v := fun v hv => by
    obtain ⟨name, hc⟩ := h.free v hv
    have hnot : v ∉ s.trail.toList := fun hmem =>
      (h.free v hv).not_bound ((ht.bound_iff v).mpr hmem)
    exact ⟨name, by rw [mem_of_undoTo_zero, if_neg hnot, hc]⟩
  have hsame : ∀ u, (u ∈ r.head ∨ ∃ call ∈ r.body, u ∈ call.2) →
      (s.undoTo 0).resolve u = s.resolve u := by
    intro u hu
    rcases mem_of_reading hr hu with hu | hu
    · exact hterms u hu
    · rw [resolve_of_free (hfree u hu), resolve_of_free (h.free u hu)]
  refine ⟨⟨r, hr, ?_, ?_⟩, fun u hu => ?_, h.nodup, hfree, h.covered⟩
  · rw [← hargs]
    exact List.map_congr_left fun u hu => hsame u (.inl hu)
  · rw [← hgoals]
    refine List.map_congr_left fun call hcall => congrArg _ (List.map_congr_left fun u hu => ?_)
    exact hsame u (.inr ⟨call, hcall, hu⟩)
  · rw [size_undoTo]
    exact h.inRange u hu

/-- **A clause that is compiled from a detached term is faithful**, and its variables are those of the
term, which are free. -/
theorem faithful_of_compile (hs : s.WellFormed) (ht : s.Trailed) (hd : s.Detached n t)
    (h : compile s t = .ok c) :
    c.Faithful s ∧ ∀ v ∈ c.vars, n ≤ v.index ∧ s.Free v ∧ s.Reaches t v := by
  obtain ⟨head, gs, hsplits⟩ := exists_splits hs.acyclic t
  obtain ⟨hencodes, hhead⟩ := encodes_of_compile hs hd.lt h hsplits
  obtain ⟨-, hreads⟩ := reads_of_compile hs.acyclic hsplits h
  have hrule : c.source s = ⟨s.resolve head, gs.map fun g => (s.resolve g).asCall⟩ := by
    have hend := hd.of_reaches hs (hs.acyclic.reaches_deref t)
    rw [source, hreads.raw, hend.resolve_undoTo hs ht, hs.acyclic.resolve_deref,
      hsplits.rule_eq hs.acyclic]
  obtain ⟨htree, hlen⟩ := resolve_of_nameArity hs hhead
  have hargs : (c.source s).head.args = (s.args head).map s.resolve := by
    rw [hrule]
    show (s.resolve head).args = _
    rw [htree, Tree.args_apply]
  refine ⟨⟨?_, ⟨?_, ?_⟩, ?_⟩, fun v hv => ?_⟩
  · rw [hreads.raw]
    exact hs.deref_lt hd.lt
  · rw [hargs, hrule]
    exact htree
  · rw [hargs, List.length_map, hlen]
  · rw [hargs, hrule]
    exact hencodes.undo ht fun u hu =>
      (hd.of_reaches hs (hreads.reached u hu)).resolve_undoTo hs ht
  · have hfree := hencodes.free v hv
    have hr : s.Reaches t v := by
      rw [hreads.vars, hs.acyclic.freeVars_eq, mem_addVars] at hv
      exact hs.acyclic.reaches_of_mem_vars (hv.resolve_left nofun)
    exact ⟨hd.le v hr, hfree, hr⟩

end Clause

end Clausal
