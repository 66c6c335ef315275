import Clausal.Proofs.Clause.Activation
import Clausal.Proofs.Clause.Compilation
import Clausal.Proofs.Tree.Rule

/-! # Entering a clause is a resolution step

`Clause.Encodes` says what a clause means in a store: the trees of its head's arguments and of the
goals of its body.  It holds of what was just compiled (`encodes_of_compile`), and from then on in
every later store in which the clause's variables are free (`Encodes.grow`).

Under it, entering the clause unifies the arguments of the goal with the head under a renaming of
the variables to new ones, and the goals it gives are those of the body under the same renaming.
Head and templates are copied one after the other, while unification already binds the fresh
variables; that this makes no difference is because the correspondence is one of solutions
(`Store.Models`): the equations that matching adds are those of the renamed head, in whatever order
they are added.  The clause's own variables must stay free meanwhile, or the copies made after one of
them is bound are copies of something else.  A goal that does not contain them cannot bind them.
-/

namespace Clausal

namespace Clause

open Store Activation

variable {c : Clause} {act : Activation} {s s' : Store} {t u v : Ref} {vs : List Ref}
  {args goals : List (Tree Ref)} {head : Ref} {gs : List Ref} {W : Type}

/-! ## What a clause means -/

/-- The tree of a call. -/
def callTree (s : Store) (call : Indicator × List Ref) : Tree Ref :=
  .apply call.1.name (call.2.map s.resolve)

/-- The clause has a head with the given arguments and a body of the given goals. -/
structure Encodes (s : Store) (c : Clause) (args goals : List (Tree Ref)) : Prop where
  /-- The instructions say so. -/
  reading : ∃ r, c.reading? = some r ∧ r.head.map s.resolve = args ∧
    r.body.map (callTree s) = goals
  /-- The terms of the table have cells. -/
  inRange : c.InRange s
  /-- No variable has two slots. -/
  nodup : c.vars.Nodup
  /-- The variables are free. -/
  free : ∀ v ∈ c.vars, s.Free v
  /-- All variables have slots. -/
  covered : ∀ t ∈ args ++ goals, ∀ v ∈ t.vars, v ∈ c.vars

/-- The operands of the head and of the calls have variables with slots only. -/
theorem Encodes.operand_covered (h : Encodes s c args goals) {r : Reading}
    (hargs : r.head.map s.resolve = args)
    (hgoals : r.body.map (callTree s) = goals)
    (hu : u ∈ r.head ∨ ∃ call ∈ r.body, u ∈ call.2) : ∀ v ∈ (s.resolve u).vars, v ∈ c.vars := by
  intro v hv
  rcases hu with hu | ⟨call, hcall, hu⟩
  · exact h.covered _ (List.mem_append_left _ (hargs ▸ List.mem_map_of_mem hu)) v hv
  · refine h.covered _ (List.mem_append_right _ (hgoals ▸ List.mem_map_of_mem hcall)) v ?_
    rw [callTree, Tree.vars_apply]
    exact List.mem_flatMap.mpr ⟨_, List.mem_map_of_mem hu, hv⟩

/-- A clause keeps its meaning as long as its variables are free. -/
theorem Encodes.grow (h : Encodes s c args goals) (hs : s.Acyclic) (hs' : s'.Acyclic)
    (hgrows : Grows s s' vs) (hfree : ∀ v ∈ c.vars, s'.Free v) : Encodes s' c args goals := by
  obtain ⟨r, hr, hargs, hgoals⟩ := h.reading
  have hsame : ∀ u, (u ∈ r.head ∨ ∃ call ∈ r.body, u ∈ call.2) → s'.resolve u = s.resolve u :=
    fun u hu => hgrows.resolve_eq_self hs hs' fun v hv =>
      hfree v (h.operand_covered hargs hgoals hu v hv)
  refine ⟨⟨r, hr, ?_, ?_⟩, h.inRange.mono hgrows.size_le, h.nodup, hfree, h.covered⟩
  · rw [← hargs]
    exact List.map_congr_left fun u hu => hsame u (.inl hu)
  · rw [← hgoals]
    refine List.map_congr_left fun call hcall => congrArg _ (List.map_congr_left fun u hu => ?_)
    exact hsame u (.inr ⟨call, hcall, hu⟩)

theorem Agree.map_resolve (hs : s.WellFormed) {us ts : List Ref} (h : Agree s us ts) :
    us.map s.resolve = ts.map s.resolve := by
  induction h with
  | nil => rfl
  | cons hsame _ ih => rw [List.map_cons, List.map_cons, hs.same_iff.mp hsame, ih]

/-- What a goal calls is the goal. -/
theorem Calls.callTree_eq (hs : s.WellFormed) {call : Indicator × List Ref} {g : Ref}
    (h : Calls s call g) :
    callTree s call = (s.resolve g).asCall := by
  cases h with
  | atom view =>
    rw [hs.acyclic.resolve_of_view_literal view]
    rfl
  | @compound _ _ args _ view agree =>
    have hne : args ≠ [] := hs.made (cell?_deref_of_view_compound view)
    rw [hs.acyclic.resolve_of_view_compound view, callTree, agree.map_resolve hs, Tree.apply,
      if_neg (by simpa using hne)]
    rfl
  | var view agree =>
    rw [hs.acyclic.resolve_of_view_var view, callTree, agree.map_resolve hs]
    simp [Tree.apply, hs.acyclic.resolve_of_view_var view, Tree.asCall]

theorem Calls.args_eq (hs : s.WellFormed) {call : Indicator × List Ref} (h : Calls s call head)
    (hcallable : Callable s head) : call.2.map s.resolve = (s.args head).map s.resolve := by
  cases h with
  | atom view =>
    rw [Store.args, view]
  | compound view agree =>
    rw [Store.args, view]
    exact agree.map_resolve hs
  | var view _ =>
    rcases hcallable with ⟨name, h⟩ | ⟨name, args, h⟩ <;> rw [view] at h <;> cases h

theorem Calls.map_callTree (hs : s.WellFormed) {calls : List (Indicator × List Ref)}
    (h : List.Forall₂ (Calls s) calls gs) :
    calls.map (callTree s) = gs.map fun g => (s.resolve g).asCall := by
  induction h with
  | nil => rfl
  | cons hcall _ ih => rw [List.map_cons, List.map_cons, hcall.callTree_eq hs, ih]

/-- What was split off a clause has its variables. -/
theorem Splits.mem_vars (h : Splits s t head gs) (hs : s.Acyclic) {u : Ref}
    (hu : u = head ∨ u ∈ gs) {v : Ref} (hv : v ∈ (s.resolve u).vars) : v ∈ (s.resolve t).vars := by
  cases h with
  | rule view body =>
    rw [hs.resolve_of_view_compound view, Tree.vars_compound]
    rcases hu with rfl | hu
    · simp [hv]
    · have hbody := body.vars_eq hs
      simp only [List.map_cons, List.map_nil, List.flatMap_cons, List.flatMap_nil, List.append_nil,
        List.mem_append, hbody]
      exact .inr (List.mem_flatMap.mpr ⟨u, hu, hv⟩)
  | fact _ =>
    rcases hu with rfl | hu
    · exact hv
    · cases hu

theorem Reads.encodes (h : Reads s t head gs c) (hs : s.WellFormed) (ht : t.index < s.size)
    (hsplits : Splits s t head gs) (hcallable : Callable s head) :
    Encodes s c ((s.args head).map s.resolve) (gs.map fun g => (s.resolve g).asCall) := by
  obtain ⟨r, hr, hhead, hbody⟩ := h.reading
  have hvars : ∀ v, v ∈ c.vars ↔ v ∈ (s.resolve t).vars := by
    intro v
    rw [h.vars, hs.acyclic.freeVars_eq, mem_addVars]
    simp
  refine ⟨⟨r, hr, ?_, ?_⟩, fun u hu => hs.lt_of_reaches ht (h.reached u hu), ?_, fun v hv => ?_,
    fun u hu v hv => ?_⟩
  · exact hhead.args_eq hs hcallable
  · exact Calls.map_callTree hs hbody
  · rw [h.vars, hs.acyclic.freeVars_eq]
    exact nodup_addVars .nil _
  · exact hs.free_of_mem_vars ht ((hvars v).mp hv)
  · rw [hvars]
    rcases List.mem_append.mp hu with hu | hu
    · obtain ⟨a, ha, rfl⟩ := List.mem_map.mp hu
      refine hsplits.mem_vars hs.acyclic (.inl rfl) ?_
      rw [vars_of_callable hs.acyclic hcallable]
      exact List.mem_flatMap.mpr ⟨a, ha, hv⟩
    · obtain ⟨g, hg, rfl⟩ := List.mem_map.mp hu
      rw [Tree.vars_asCall] at hv
      exact hsplits.mem_vars hs.acyclic (.inr hg) hv

/-- What the name and the number of arguments say of a term. -/
theorem resolve_of_nameArity (hs : s.WellFormed) {name : String} {n : Nat}
    (h : s.nameArity? t = some (name, n)) :
    s.resolve t = .apply name ((s.args t).map s.resolve) ∧ (s.args t).length = n := by
  rw [nameArity?] at h
  rw [Store.args]
  rcases hview : s.view t with v | l | ⟨f, ts⟩
  · simp [hview] at h
  · rw [hview] at h
    cases l <;> cases h
    rw [hs.acyclic.resolve_of_view_literal hview]
    exact ⟨rfl, rfl⟩
  · rw [hview] at h
    cases h
    have hne : ts ≠ [] := hs.made (cell?_deref_of_view_compound hview)
    rw [hs.acyclic.resolve_of_view_compound hview, Tree.apply, if_neg (by simpa using hne)]
    exact ⟨rfl, rfl⟩

theorem Calls.nameArity_eq {call : Indicator × List Ref} (h : Calls s call head)
    (hcallable : Callable s head) : s.nameArity? head = some (call.1.name, call.1.arity) := by
  cases h with
  | atom view => rw [nameArity?, view]
  | compound view _ => rw [nameArity?, view]
  | var view _ =>
    rcases hcallable with ⟨name, h⟩ | ⟨name, args, h⟩ <;> rw [view] at h <;> cases h

/-- **A compiled clause means what it was compiled from.** -/
theorem encodes_of_compile (hs : s.WellFormed) (ht : t.index < s.size)
    (h : compile s t = .ok c) (hsplits : Splits s t head gs) :
    Encodes s c ((s.args head).map s.resolve) (gs.map fun g => (s.resolve g).asCall) ∧
      s.nameArity? head = some (c.pi.name, c.pi.arity) := by
  obtain ⟨hcallable, hreads⟩ := reads_of_compile hs.acyclic hsplits h
  obtain ⟨r, -, hhead, -⟩ := hreads.reading
  exact ⟨hreads.encodes hs ht hsplits hcallable, hhead.nameArity_eq hcallable⟩

/-! ## Fresh variables -/

/-- The fresh variable for a variable of the clause: the slots have the cells that are next in the
store. -/
def rename (c : Clause) (s : Store) (v : Ref) : Ref := ⟨s.size + c.vars.idxOf v⟩

/-- A tree of the clause under the renaming to fresh variables. -/
def renamed (c : Clause) (s : Store) (t : Tree Ref) : Tree Ref := t.bind fun v => .var (c.rename s v)

theorem lookup_zip_range {vars : List Ref} (hv : v ∈ vars) (n : Nat) :
    (vars.zip ((List.range' n vars.length).map Ref.mk)).lookup v = some ⟨n + vars.idxOf v⟩ := by
  induction vars generalizing n with
  | nil => cases hv
  | cons w vars ih =>
    rw [List.length_cons, List.range'_succ, List.map_cons, List.zip_cons_cons, List.lookup_cons]
    by_cases h : v = w
    · subst h
      simp
    · have hmem := (List.mem_cons.mp hv).resolve_left h
      rw [beq_eq_false_iff_ne.mpr h, ih hmem, List.idxOf_cons_ne _ (Ne.symm h)]
      simp
      omega

theorem lookup_begin (hs : s.WellFormed) (hv : v ∈ c.vars) :
    (c.begin s).fresh.lookup v = some (c.rename s v) := by
  have hframes := frames_freshFrame hs c.vars
  show (c.vars.zip (freshFrame s c.vars).1).lookup v = _
  rw [hframes.frame, lookup_zip_range hv]
  rfl

theorem frame_begin (hs : s.WellFormed) (hnodup : c.vars.Nodup) {n : Nat}
    (hn : c.vars[n]? = some v) : (c.begin s).frame[n]? = some (c.rename s v) := by
  have hframes := frames_freshFrame hs c.vars
  obtain ⟨hlt, rfl⟩ := List.getElem?_eq_some_iff.mp hn
  show (freshFrame s c.vars).1[n]? = _
  rw [hframes.frame, rename, hnodup.idxOf_getElem n hlt]
  simp [hlt]

/-- An activation of a clause with a meaning, whose variables are still free. -/
structure Active (s : Store) (c : Clause) (act : Activation) : Prop where
  /-- The clause was entered in the store `s`. -/
  advances : (c.begin s).Advances act
  /-- The clause's variables are free. -/
  free : ∀ v ∈ c.vars, act.store.Free v

theorem Active.grows (h : Active s c act) (hs : s.WellFormed) :
    ∃ vs, Grows s act.store vs := by
  obtain ⟨vs, hgrows⟩ := h.advances.grows
  exact ⟨_, (grows_begin hs c).trans hgrows⟩

/-- What stands for the clause's variables does not change. -/
theorem Active.lookup (h : Active s c act) (hs : s.WellFormed) (hv : v ∈ c.vars) :
    act.fresh.lookup v = some (c.rename s v) :=
  h.advances.kept v _ (lookup_begin hs hv)

/-- The terms of the clause denote what they did. -/
theorem Active.resolve_eq (h : Active s c act) (hs : s.WellFormed)
    (hu : ∀ v ∈ (s.resolve u).vars, v ∈ c.vars) : act.store.resolve u = s.resolve u := by
  obtain ⟨vs, hgrows⟩ := h.grows hs
  exact hgrows.resolve_eq_self hs.acyclic h.advances.good.wellFormed.acyclic
    fun v hv => h.free v (hu v hv)

/-- An earlier activation had the clause's variables free. -/
theorem Active.of_advances {act' : Activation} (h : act.Advances act')
    (hbegin : (c.begin s).Advances act) (hlt : ∀ v ∈ c.vars, v.index < act.store.size)
    (hfree : ∀ v ∈ c.vars, act'.store.Free v) : Active s c act where
  advances := hbegin
  free v hv := by
    obtain ⟨vs, hgrows⟩ := h.grows
    exact hgrows.free_of_free (hlt v hv) (hfree v hv)

/-- The value of a tree of the clause under the renaming. -/
theorem bind_renamed (c : Clause) (s : Store) (t : Tree Ref) (val : Ref → Tree W) :
    (c.renamed s t).bind val = t.bind fun v => val (c.rename s v) := by
  rw [renamed, Tree.bind_bind]
  exact Tree.bind_congr fun v _ => Tree.bind_of_var _ _

/-- **An operand is its term under the renaming.** -/
theorem Active.operand (h : Active s c act) (hs : s.WellFormed) (hc : c.InRange s)
    (hnodup : c.vars.Nodup) {i : Instruction} (hop : c.operand? i = some u)
    (hu : ∀ v ∈ (s.resolve u).vars, v ∈ c.vars) :
    ∃ t, (c.operand act i).1 = some t ∧ ∀ {W : Type} (val : Ref → Tree W),
      (c.operand act i).2.store.Models val → val t = (c.renamed s (s.resolve u)).bind val := by
  obtain ⟨vs, hgrows⟩ := h.grows hs
  rcases i with n | n | _ | n | _
  case const =>
    have hterm : c.term? n = some u := hop
    have hlt := (hc.mono hgrows.size_le).term?_lt hterm
    have hcopy := copies_copyWith h.advances.good.wellFormed h.advances.good.inRange hlt
    have hresolve := h.resolve_eq hs hu
    have hlookup := fun v hv => h.lookup hs (v := v) hv
    obtain ⟨frame, s₁, fresh⟩ := act
    simp only [Clause.operand, hterm]
    rcases heq : s₁.copyWith fresh u with ⟨t, s₂, fresh'⟩
    rw [heq] at hcopy
    refine ⟨t, rfl, fun val hm => ?_⟩
    have hval := hcopy.renamed val hm
    simp only [List.map_cons, List.map_nil, List.cons.injEq, and_true] at hval
    rw [hval, hresolve, bind_renamed]
    refine Tree.bind_congr fun v hv => ?_
    rw [Renaming.image_of_lookup (hcopy.kept v _ (hlookup v (hu v hv)))]
  case var =>
    have hmem : u ∈ c.vars := List.mem_of_getElem? hop
    have hframe : act.frame[n]? = some (c.rename s u) := by
      rw [h.advances.frame]
      exact frame_begin hs hnodup hop
    refine ⟨c.rename s u, hframe, fun val _ => ?_⟩
    rw [← h.resolve_eq hs hu, resolve_of_free (h.free u hmem), bind_renamed, Tree.bind_of_var]
  all_goals cases hop

/-- What a solution says of the renamed terms depends on the cells that are there. -/
theorem bind_renamed_congr (hs : s.WellFormed) (h : (c.begin s).Advances act) {T : Tree Ref}
    (hT : ∀ v ∈ T.vars, v ∈ c.vars) {val val' : Ref → Tree W}
    (hag : ∀ t, t.index < act.store.size → val' t = val t) :
    (c.renamed s T).bind val' = (c.renamed s T).bind val := by
  rw [bind_renamed, bind_renamed]
  refine Tree.bind_congr fun v hv => hag _ ?_
  exact h.good.inRange v _ (h.kept v _ (lookup_begin hs (hT v hv)))

/-! ## The head -/

/-- What it means that matching the arguments `as` with the operands `us` came to `r`. -/
structure Fits (s : Store) (c : Clause) (act : Activation) (as us : List Ref)
    (rest : List Instruction) (r : Option (List Instruction) × Activation) : Prop where
  /-- The instructions of the body follow. -/
  code : ∀ code, r.1 = some code → code = rest
  /-- The arguments are the operands under the renaming. -/
  solved : ∀ code, r.1 = some code → ∀ {W : Type} (val : Ref → Tree W), r.2.store.Models val →
    as.map val = us.map fun u => (c.renamed s (s.resolve u)).bind val
  /-- Every solution of these equations is one of the new store. -/
  general : ∀ code, r.1 = some code → ∀ {W : Type} (val : Ref → Tree W), act.store.Models val →
    (as.map val = us.map fun u => (c.renamed s (s.resolve u)).bind val) →
    ∃ val' : Ref → Tree W, r.2.store.Models val' ∧ ∀ t, t.index < act.store.size → val' t = val t
  /-- If they do not match, the equations have no solution. -/
  unsolvable : r.1 = none → ∀ {W : Type} (val : Ref → Tree W), act.store.Models val →
    as.map val ≠ us.map fun u => (c.renamed s (s.resolve u)).bind val

theorem fits_nil (s : Store) (c : Clause) (act : Activation) (code : List Instruction) :
    Fits s c act [] [] code (some code, act) where
  code _ h := (Option.some.inj h).symm
  solved _ _ _ _ _ := rfl
  general _ _ _ val hm _ := ⟨val, hm, fun _ _ => rfl⟩
  unsolvable h := by cases h

/-- An operand that unifies with its argument, and what comes after it. -/
theorem Fits.cons {act₁ : Activation} {a : Ref} {as us : List Ref} {rest : List Instruction}
    {r : Option (List Instruction) × Activation} (hs : s.WellFormed) (hact : (c.begin s).Advances act)
    (hgrows : Grows act.store act₁.store []) (hwf : act₁.store.WellFormed)
    (ha : a.index < act.store.size) (has : ∀ a ∈ as, a.index < act.store.size)
    (hu : ∀ w ∈ u :: us, ∀ v ∈ (s.resolve w).vars, v ∈ c.vars)
    (hval : ∀ {W : Type} (val : Ref → Tree W), act₁.store.Models val →
      val t = (c.renamed s (s.resolve u)).bind val)
    (hunify : Unifies act₁.store [(a, t)] (true, s'))
    (hrest : Fits s c { act₁ with store := s' } as us rest r)
    (hlater : ∃ vs, Grows s' r.2.store vs) : Fits s c act (a :: as) (u :: us) rest r := by
  obtain ⟨vs, hgrows', -⟩ := hunify.grows
  obtain ⟨ws, hlater⟩ := hlater
  -- Every solution of the arguments' equations extends to the copy of the operand.
  have hextend : ∀ {W : Type} (val : Ref → Tree W), act.store.Models val →
      ((a :: as).map val = (u :: us).map fun u => (c.renamed s (s.resolve u)).bind val) →
      ∃ val' : Ref → Tree W, s'.Models val' ∧
        (as.map val' = us.map fun u => (c.renamed s (s.resolve u)).bind val') ∧
        ∀ t, t.index < act.store.size → val' t = val t := by
    intro W val hm heqs
    rw [List.map_cons, List.map_cons, List.cons.injEq] at heqs
    obtain ⟨val', hm', hag⟩ := hgrows.extend_models hact.good.wellFormed hwf.acyclic hm
    have hcongr : ∀ w ∈ u :: us, (c.renamed s (s.resolve w)).bind val' =
        (c.renamed s (s.resolve w)).bind val := fun w hw =>
      bind_renamed_congr hs hact (hu w hw) hag
    refine ⟨val', (hunify.solved rfl val').mpr ⟨hm', ?_⟩, ?_, hag⟩
    · rw [List.forall_mem_singleton, hval val' hm', hag a ha, heqs.1,
        hcongr u List.mem_cons_self]
    · rw [List.map_congr_left fun a ha => hag a (has a ha), heqs.2]
      exact List.map_congr_left fun w hw => (hcongr w (List.mem_cons_of_mem _ hw)).symm
  refine ⟨hrest.code, fun code hcode W val hm => ?_, fun code hcode W val hm heqs => ?_,
    fun hnone W val hm heqs => ?_⟩
  · obtain ⟨hm', heq⟩ := (hunify.solved rfl val).mp (hlater.models hm)
    rw [List.forall_mem_singleton] at heq
    rw [List.map_cons, List.map_cons, heq, hval val hm', hrest.solved code hcode val hm]
  · obtain ⟨val', hm', heqs', hag⟩ := hextend val hm heqs
    obtain ⟨val'', hm'', hag'⟩ := hrest.general code hcode val' hm' heqs'
    refine ⟨val'', hm'', fun t ht => (hag' t ?_).trans (hag t ht)⟩
    exact Nat.lt_of_lt_of_le ht (hgrows.size_le.trans hgrows'.size_le)
  · obtain ⟨val', hm', heqs', -⟩ := hextend val hm heqs
    exact hrest.unsolvable hnone val' hm' heqs'

/-- An operand that does not unify with its argument. -/
theorem fits_of_fail {act₁ : Activation} {a : Ref} {as us : List Ref} {rest : List Instruction}
    (hs : s.WellFormed) (hact : (c.begin s).Advances act)
    (hgrows : Grows act.store act₁.store []) (hwf : act₁.store.WellFormed)
    (ha : a.index < act.store.size) (hu : ∀ v ∈ (s.resolve u).vars, v ∈ c.vars)
    (hval : ∀ {W : Type} (val : Ref → Tree W), act₁.store.Models val →
      val t = (c.renamed s (s.resolve u)).bind val)
    (hunify : Unifies act₁.store [(a, t)] (false, s')) :
    Fits s c act (a :: as) (u :: us) rest (none, { act₁ with store := s' }) := by
  refine ⟨nofun, nofun, nofun, fun _ W val hm heqs => ?_⟩
  rw [List.map_cons, List.map_cons, List.cons.injEq] at heqs
  obtain ⟨val', hm', hag⟩ := hgrows.extend_models hact.good.wellFormed hwf.acyclic hm
  refine hunify.unsolvable rfl val' hm' ?_
  rw [List.forall_mem_singleton, hval val' hm', hag a ha, heqs.1, bind_renamed_congr hs hact hu hag]

theorem size_le_of_begin (hs : s.WellFormed) (h : (c.begin s).Advances act) :
    s.size ≤ act.store.size :=
  (grows_begin hs c).size_le.trans h.size_le

/-- **Matching the head is unifying with it under the renaming**, if the clause's variables are free
afterwards. -/
theorem fits_matchHead (hs : s.WellFormed) (hc : c.InRange s) (hnodup : c.vars.Nodup)
    (hvars : ∀ v ∈ c.vars, v.index < s.size) {as us : List Ref} {code rest : List Instruction}
    (hact : (c.begin s).Advances act) (hread : c.readHead code = some (us, rest))
    (hlen : as.length = us.length) (has : ∀ a ∈ as, a.index < act.store.size)
    (hu : ∀ w ∈ us, ∀ v ∈ (s.resolve w).vars, v ∈ c.vars)
    (hfree : ∀ v ∈ c.vars, (c.matchHead act code as).2.store.Free v) :
    Fits s c act as us rest (c.matchHead act code as) := by
  induction code generalizing act as us with
  | nil => cases hread
  | cons i code ih =>
    by_cases hexit : i = .exit
    · subst hexit
      rcases code with _ | ⟨j, code⟩
      · cases hread
        obtain rfl := List.eq_nil_of_length_eq_zero hlen
        exact fits_nil s c act [.exit]
      · cases hread
    by_cases henter : i = .enter
    · subst henter
      cases hread
      obtain rfl := List.eq_nil_of_length_eq_zero hlen
      exact fits_nil s c act _
    obtain ⟨u, us, hop, hreads, rfl⟩ : ∃ u us', c.operand? i = some u ∧
        c.readHead code = some (us', rest) ∧ us = u :: us' := by
      cases i with
      | exit => exact absurd rfl hexit
      | enter => exact absurd rfl henter
      | const n | var n | call n =>
        simp only [readHead] at hread
        split at hread
        · rename_i u hop
          obtain ⟨⟨us', rest'⟩, hreads, heq⟩ := Option.map_eq_some_iff.mp hread
          cases heq
          exact ⟨u, us', hop, hreads, rfl⟩
        · cases hread
    obtain ⟨a, as, rfl⟩ := List.exists_cons_of_length_eq_add_one hlen
    rw [List.forall_mem_cons] at has
    have hsize := size_le_of_begin hs hact
    have hlt : ∀ v ∈ c.vars, v.index < act.store.size := fun v hv =>
      Nat.lt_of_lt_of_le (hvars v hv) hsize
    have hadv := matches_matchHead hact.good (hc.mono hsize) (a :: as)
      (by rwa [List.forall_mem_cons]) (i :: code)
    have hactive := Active.of_advances hadv.advances hact hlt hfree
    have hyields := yields_operand hact.good (hc.mono hsize) i
    obtain ⟨t, ht, hval⟩ := hactive.operand hs hc hnodup hop (hu u List.mem_cons_self)
    rw [matchHead_operand hexit henter] at hfree ⊢
    rcases hmade : c.operand act i with ⟨o, act₁⟩
    rw [hmade] at hyields ht hval hfree
    obtain rfl : o = some t := ht
    have hwf := hyields.advances.good.wellFormed
    have hunify := unifies_unify hwf (Nat.lt_of_lt_of_le has.1 hyields.grows.size_le)
      (hyields.lt t rfl)
    obtain ⟨hstep, -⟩ := hyields.unifies hact.good rfl hunify has.1
    dsimp only at hfree ⊢
    rcases heq : act₁.store.unify a t with ⟨ok, s₂⟩
    rw [heq] at hunify hstep hfree
    cases ok with
    | false => exact fits_of_fail hs hact hyields.grows hwf has.1 (hu u List.mem_cons_self) hval hunify
    | true =>
      have has' : ∀ a ∈ as, a.index < s₂.size := fun a ha =>
        Nat.lt_of_lt_of_le (has.2 a ha) hstep.size_le
      have hlater := (matches_matchHead hstep.good (hc.mono (hsize.trans hstep.size_le)) as has'
        code).advances.grows
      have hrest := ih (hact.trans hstep) hreads (Nat.succ.inj hlen) has'
        (fun w hw => hu w (List.mem_cons_of_mem _ hw)) hfree
      exact Fits.cons hs hact hyields.grows hwf has.1 has.2 hu hval hunify hrest hlater

/-! ## The body -/

theorem mem_of_readBody {pushed : List Ref} {code : List Instruction}
    {calls : List (Indicator × List Ref)} (h : c.readBody pushed code = some calls)
    (hu : u ∈ pushed) : ∃ call ∈ calls, u ∈ call.2 := by
  induction code generalizing pushed calls with
  | nil => cases h
  | cons i code ih =>
    cases i with
    | exit =>
      rcases code with _ | ⟨j, code⟩
      · simp only [readBody] at h
        split at h
        · rename_i hnil
          subst hnil
          cases hu
        · cases h
      · cases h
    | call n =>
      simp only [readBody] at h
      split at h
      · split at h
        · obtain ⟨calls, -, rfl⟩ := Option.map_eq_some_iff.mp h
          exact ⟨_, List.mem_cons_self, List.mem_reverse.mpr hu⟩
        · cases h
      · cases h
    | const n | var n | enter =>
      simp only [readBody] at h
      split at h
      · exact ih h (List.mem_cons_of_mem _ hu)
      · cases h

theorem bind_renamed_callTree (c : Clause) (s : Store) (call : Indicator × List Ref)
    (val : Ref → Tree W) :
    (c.renamed s (callTree s call)).bind val =
      .apply call.1.name (call.2.map fun u => (c.renamed s (s.resolve u)).bind val) := by
  rw [callTree, renamed, Tree.bind_apply, Tree.bind_apply, List.map_map, List.map_map]
  rfl

/-- **The goals that are built are the calls of the body under the renaming.** -/
theorem goals_buildBody (hs : s.WellFormed) (hc : c.InRange s) (hnodup : c.vars.Nodup)
    (pushed goals : List Ref) {pushed' : List Ref} {code : List Instruction}
    {calls : List (Indicator × List Ref)} (hact : Active s c act)
    (hlt : ∀ t ∈ pushed ++ goals, t.index < act.store.size)
    (hread : c.readBody pushed' code = some calls)
    (hu : ∀ call ∈ calls, ∀ u ∈ call.2, ∀ v ∈ (s.resolve u).vars, v ∈ c.vars)
    (hpushed : ∀ {W : Type} (val : Ref → Tree W), act.store.Models val →
      pushed.map val = pushed'.map fun u => (c.renamed s (s.resolve u)).bind val) :
    ∃ gs, (c.buildBody act pushed goals code).1 = some gs ∧
      ∀ {W : Type} (val : Ref → Tree W), (c.buildBody act pushed goals code).2.store.Models val →
        gs.map val = goals.reverse.map val ++
          calls.map fun call => (c.renamed s (callTree s call)).bind val := by
  induction code generalizing act pushed goals pushed' calls with
  | nil => cases hread
  | cons i code ih =>
    have hsize := size_le_of_begin hs hact.advances
    by_cases hexit : i = .exit
    · subst hexit
      rcases code with _ | ⟨j, code⟩
      · simp only [readBody] at hread
        split at hread
        · cases hread
          exact ⟨goals.reverse, rfl, fun val _ => by simp⟩
        · cases hread
      · cases hread
    by_cases hcall : ∃ n, i = .call n
    · obtain ⟨n, rfl⟩ := hcall
      simp only [readBody] at hread
      split at hread
      · rename_i pi hpi
        split at hread
        · obtain ⟨calls, hrest, rfl⟩ := Option.map_eq_some_iff.mp hread
          have hgrows := grows_apply act.store pi.name pushed.reverse
          have hargs : ∀ t ∈ pushed.reverse, t.index < act.store.size := fun t ht =>
            hlt t (List.mem_append_left _ (List.mem_reverse.mp ht))
          have hadv := advances_store hact.advances.good hgrows
            (hact.advances.good.wellFormed.apply pi.name hargs) fun ht => ht.apply _ _
          have hact' : Active s c
              { act with store := (act.store.apply pi.name pushed.reverse).2 } :=
            ⟨hact.advances.trans hadv, fun v hv => hgrows.free_of_nil (hact.free v hv)⟩
          have hlt' : ∀ t ∈ [] ++ (act.store.apply pi.name pushed.reverse).1 :: goals,
              t.index < (act.store.apply pi.name pushed.reverse).2.size := by
            rw [List.nil_append, List.forall_mem_cons]
            exact ⟨apply_lt _ _ _, fun g hg =>
              Nat.lt_of_lt_of_le (hlt g (List.mem_append_right _ hg)) hgrows.size_le⟩
          rw [List.forall_mem_cons] at hu
          obtain ⟨gs, hgs, hval⟩ := ih [] (_ :: goals) hact' hlt' hrest hu.2 fun _ _ => rfl
          rw [buildBody_call hpi]
          refine ⟨gs, hgs, fun val hm => ?_⟩
          have hbuilds :=
            builds_buildBody hadv.good (hc.mono (hsize.trans hgrows.size_le)) [] _ hlt' code
          have hmodels := hbuilds.grows.models hm
          have hgoal : val (act.store.apply pi.name pushed.reverse).1 =
              (c.renamed s (callTree s (pi, pushed'.reverse))).bind val := by
            rw [Models.apply hmodels, bind_renamed_callTree, List.map_reverse, List.map_reverse,
              hpushed val (hgrows.models hmodels)]
          rw [hval val hm, List.reverse_cons, List.map_append, List.map_singleton, hgoal,
            List.append_assoc]
          rfl
        · cases hread
      · cases hread
    · obtain ⟨u, hop, hreads⟩ : ∃ u, c.operand? i = some u ∧
          c.readBody (u :: pushed') code = some calls := by
        cases i with
        | exit => exact absurd rfl hexit
        | call n => exact absurd ⟨n, rfl⟩ hcall
        | const n | var n | enter =>
          simp only [readBody] at hread
          split at hread
          · exact ⟨_, ‹_›, hread⟩
          · cases hread
      obtain ⟨call, hmem, hucall⟩ := mem_of_readBody hreads List.mem_cons_self
      have hyields := yields_operand hact.advances.good (hc.mono hsize) i
      obtain ⟨t, ht, hval⟩ := hact.operand hs hc hnodup hop (hu call hmem u hucall)
      rw [buildBody_operand hexit fun n hn => hcall ⟨n, hn⟩]
      rcases hmade : c.operand act i with ⟨o, act₁⟩
      rw [hmade] at hyields ht hval
      obtain rfl : o = some t := ht
      have hact' : Active s c act₁ :=
        ⟨hact.advances.trans hyields.advances, fun v hv => hyields.grows.free_of_nil (hact.free v hv)⟩
      refine ih (t :: pushed) goals hact' ?_ hreads hu fun val hm => ?_
      · rw [List.cons_append, List.forall_mem_cons]
        exact ⟨hyields.lt t rfl, fun u hu => Nat.lt_of_lt_of_le (hlt u hu) hyields.grows.size_le⟩
      · rw [List.map_cons, List.map_cons, hval val hm, hpushed val (hyields.grows.models hm)]

/-! ## The resolution step -/

/-- What it means that entering a clause with the given arguments of the head and goals of the body
was a resolution step. -/
structure Resolves (s : Store) (c : Clause) (goal : Ref) (args goals : List (Tree Ref))
    (r : Option (List Ref) × Store) : Prop where
  /-- The bindings unify the arguments with the head. -/
  solved : ∀ gs, r.1 = some gs →
    (s.args goal).map r.2.resolve = args.map fun T => (c.renamed s T).bind r.2.resolve
  /-- The goals are those of the body under the same renaming. -/
  goals : ∀ gs, r.1 = some gs →
    gs.map r.2.resolve = goals.map fun T => (c.renamed s T).bind r.2.resolve
  /-- Every other unifier is an instance of the bindings. -/
  general : ∀ gs, r.1 = some gs → ∀ {W : Type} (f : Ref → Tree W),
    ((s.args goal).map fun a => (s.resolve a).bind f) = args.map (fun T => (c.renamed s T).bind f) →
    ∃ g : Ref → Tree W, ∀ v, (s.Free v ∨ ∃ w ∈ c.vars, v = c.rename s w) →
      (r.2.resolve v).bind g = f v
  /-- If the clause is not entered, there is no unifier. -/
  unsolvable : r.1 = none → ∀ {W : Type} (f : Ref → Tree W),
    ((s.args goal).map fun a => (s.resolve a).bind f) ≠ args.map fun T => (c.renamed s T).bind f

/-- Every substitution gives a solution of the store with the fresh variables. -/
theorem exists_models_begin (hs : s.WellFormed) (c : Clause) (f : Ref → Tree W) :
    ∃ val : Ref → Tree W, (c.begin s).store.Models val ∧
      (∀ t, t.index < s.size → val t = (s.resolve t).bind f) ∧
      ∀ v, (s.Free v ∨ ∃ w ∈ c.vars, v = c.rename s w) →
        v.index < (c.begin s).store.size ∧ val v = f v := by
  have hframes := frames_freshFrame hs c.vars
  have hgood := good_begin hs c
  refine ⟨fun t => ((c.begin s).store.resolve t).bind f,
    hgood.wellFormed.acyclic.models_bind_resolve f, fun t ht => ?_, fun v hv => ?_⟩
  · show ((c.begin s).store.resolve t).bind f = _
    rw [(grows_begin hs c).resolve_of_nil hs hgood.wellFormed.acyclic ht]
  · have hfree : (c.begin s).store.Free v := by
      rcases hv with hv | ⟨w, hw, rfl⟩
      · exact hframes.grows.free_of_nil hv
      · exact hframes.free _ (mem_of_lookup_zip (lookup_begin hs hw))
    refine ⟨?_, ?_⟩
    · obtain ⟨name, hcell⟩ := hfree
      exact index_lt_of_cell? hcell
    · show ((c.begin s).store.resolve v).bind f = _
      rw [resolve_of_free hfree, Tree.bind_of_var]

theorem args_begin (hs : s.WellFormed) (ht : t.index < s.size) (c : Clause) :
    (c.begin s).store.args t = s.args t := by
  rw [Store.args, Store.args, (grows_begin hs c).view_of_nil hs ht]

/-- **Entering a clause is a resolution step**, if the clause's variables are free afterwards. -/
theorem Encodes.resolves (h : Encodes s c args goals) (hs : s.WellFormed) (ht : t.index < s.size)
    (hlen : (s.args t).length = args.length) (hfree : ∀ v ∈ c.vars, (c.enter t s).2.Free v) :
    Resolves s c t args goals (c.enter t s) := by
  obtain ⟨⟨us, calls⟩, hr, rfl, rfl⟩ := h.reading
  obtain ⟨rest, hhead, hbody⟩ : ∃ rest, c.readHead c.code = some (us, rest) ∧
      c.readBody [] rest = some calls := by
    rw [reading?] at hr
    split at hr
    · split at hr
      · obtain ⟨calls', hbody, heq⟩ := Option.map_eq_some_iff.mp hr
        cases heq
        exact ⟨_, ‹_›, hbody⟩
      · cases hr
    · cases hr
  have hgood := good_begin hs c
  have hgrows := grows_begin hs c
  have hargs : ∀ a ∈ s.args t, a.index < (c.begin s).store.size := fun a ha =>
    Nat.lt_of_lt_of_le (hs.args_lt t a ha) hgrows.size_le
  have hvars : ∀ v ∈ c.vars, v.index < s.size := fun v hv => by
    obtain ⟨name, hcell⟩ := h.free v hv
    exact index_lt_of_cell? hcell
  have hcov := fun u hu => h.operand_covered (u := u) rfl rfl (.inl hu)
  have hmatch := matches_matchHead hgood (h.inRange.mono hgrows.size_le) _ hargs c.code
  have hfits := fits_matchHead hs h.inRange h.nodup hvars (.refl hgood) hhead
    (by simpa using hlen) hargs hcov
  rw [enter_eq, args_begin hs ht] at hfree ⊢
  -- What a substitution makes of both sides, said of the solution that it gives.
  have hsides : ∀ {W : Type} (f val : Ref → Tree W),
      (∀ t, t.index < s.size → val t = (s.resolve t).bind f) →
      (∀ v, (s.Free v ∨ ∃ w ∈ c.vars, v = c.rename s w) →
        v.index < (c.begin s).store.size ∧ val v = f v) →
      ((s.args t).map fun a => (s.resolve a).bind f) =
        (us.map s.resolve).map (fun T => (c.renamed s T).bind f) →
      (s.args t).map val = us.map fun u => (c.renamed s (s.resolve u)).bind val := by
    intro W f val hold hnew heqs
    rw [List.map_congr_left fun a ha => hold a (hs.args_lt t a ha), heqs, List.map_map]
    refine List.map_congr_left fun u hu => ?_
    show (c.renamed s (s.resolve u)).bind f = _
    rw [bind_renamed, bind_renamed]
    exact Tree.bind_congr fun v hv => (hnew _ (.inr ⟨v, hcov u hu v hv, rfl⟩)).2.symm
  rcases heq : c.matchHead (c.begin s) c.code (s.args t) with ⟨_ | code, act⟩
  · rw [heq] at hfree hfits
    refine ⟨?_, ?_, ?_, fun _ W f heqs => ?_⟩
    · intro _ hgoals
      cases hgoals
    · intro _ hgoals
      cases hgoals
    · intro _ hgoals
      cases hgoals
    obtain ⟨val, hm, hold, hnew⟩ := exists_models_begin hs c f
    exact (hfits hfree).unsolvable rfl val hm (hsides f val hold hnew heqs)
  · rw [heq] at hfree hfits hmatch
    have hrange := h.inRange.mono (hgrows.size_le.trans hmatch.advances.size_le)
    have hbuilds := builds_buildBody hmatch.advances.good hrange [] [] (List.forall_mem_nil _) code
    have hact : Active s c act := by
      refine .of_advances hbuilds.advances hmatch.advances (fun v hv => ?_) hfree
      exact Nat.lt_of_lt_of_le (hvars v hv) (hgrows.size_le.trans hmatch.advances.size_le)
    have hfits := hfits hact.free
    obtain rfl := hfits.code code rfl
    obtain ⟨gs, hgs, hval⟩ := goals_buildBody hs h.inRange h.nodup [] []
      hact (List.forall_mem_nil _) hbody
      (fun call hcall u hu => h.operand_covered rfl rfl (.inr ⟨call, hcall, hu⟩)) fun _ _ => rfl
    have hacyclic := hbuilds.advances.good.wellFormed.acyclic
    refine ⟨fun _ _ => ?_, fun gs' hgs' => ?_, fun _ _ W f heqs => ?_, fun hnone => ?_⟩
    · rw [List.map_map]
      exact hfits.solved code rfl _ (hbuilds.grows.models hacyclic.models_resolve)
    · obtain rfl := Option.some.inj (hgs.symm.trans hgs')
      have hgoals := hval _ hacyclic.models_resolve
      rw [List.map_map]
      exact hgoals
    · obtain ⟨val, hm, hold, hnew⟩ := exists_models_begin hs c f
      obtain ⟨val', hm', hag⟩ := hfits.general code rfl val hm (hsides f val hold hnew heqs)
      obtain ⟨val'', hm'', hag'⟩ :=
        hbuilds.grows.extend_models hmatch.advances.good.wellFormed hacyclic hm'
      refine ⟨val'', fun v hv => ?_⟩
      obtain ⟨hlt, hf⟩ := hnew v hv
      rw [← hm''.eq_bind hacyclic, hag' v (Nat.lt_of_lt_of_le hlt hmatch.advances.size_le),
        hag v hlt, hf]
    · cases hgs.symm.trans hnone

/-- What it means that `r` came of resolving a goal with a clause whose head and body were renamed
apart to `head` and `body`. -/
structure ResolutionStep (s : Store) (c : Clause) (goal : Ref) (head : Tree Ref)
    (body : List (Tree Ref)) (r : Option (List Ref) × Store) : Prop where
  /-- The clause is entered exactly if the goal and the head have a unifier. -/
  enters_iff : (∃ gs, r.1 = some gs) ↔
    ∃ f : Ref → Tree Ref, (s.resolve goal).bind f = head.bind f
  /-- The bindings are a unifier. -/
  unifies : ∀ gs, r.1 = some gs → (s.resolve goal).bind r.2.resolve = head.bind r.2.resolve
  /-- Every unifier is an instance of the bindings. -/
  general : ∀ gs, r.1 = some gs → ∀ {W : Type} (f : Ref → Tree W),
    (s.resolve goal).bind f = head.bind f → ∃ g : Ref → Tree W,
      ∀ v, (s.Free v ∨ ∃ w ∈ c.vars, v = c.rename s w) → (r.2.resolve v).bind g = f v
  /-- The goals are those of the body under the bindings. -/
  goals : ∀ gs, r.1 = some gs → gs.map r.2.resolve = body.map fun T => T.bind r.2.resolve

/-- The fresh variables are new, and different for different variables of the clause. -/
theorem rename_fresh (c : Clause) (s : Store) :
    (∀ w, s.cell? (c.rename s w) = none) ∧
      ∀ w ∈ c.vars, ∀ w' ∈ c.vars, c.rename s w = c.rename s w' → w = w' := by
  refine ⟨fun w => Array.getElem?_eq_none (Nat.le_add_right _ _), fun w hw w' hw' heq => ?_⟩
  have hidx : c.vars.idxOf w = c.vars.idxOf w' := Nat.add_left_cancel (congrArg Ref.index heq)
  rw [← List.getElem_idxOf (List.idxOf_lt_length_iff.mpr hw),
    ← List.getElem_idxOf (List.idxOf_lt_length_iff.mpr hw')]
  simp only [hidx]

theorem Resolves.resolutionStep {goal : Ref} {name : String} {H : Tree Ref} {as : List (Tree Ref)}
    {r : Option (List Ref) × Store} (h : Resolves s c goal as goals r) (hs : s.WellFormed)
    (hgoal : s.resolve goal = .apply name ((s.args goal).map s.resolve))
    (hhead : H = .apply name as) (hgrows : ∃ vs, Grows s r.2 vs) (hacyclic : r.2.Acyclic) :
    ResolutionStep s c goal (c.renamed s H) (goals.map (c.renamed s)) r := by
  have hiff : ∀ {W : Type} (f : Ref → Tree W), (s.resolve goal).bind f = (c.renamed s H).bind f ↔
      ((s.args goal).map fun a => (s.resolve a).bind f) =
        as.map fun T => (c.renamed s T).bind f := by
    intro W f
    rw [hgoal, hhead, renamed, Tree.bind_apply, Tree.bind_apply, Tree.bind_apply, Tree.apply_inj,
      List.map_map, List.map_map]
    rfl
  obtain ⟨vs, hgrows⟩ := hgrows
  have hunifies : ∀ gs, r.1 = some gs →
      (s.resolve goal).bind r.2.resolve = (c.renamed s H).bind r.2.resolve := by
    intro gs hgs
    rw [hiff, ← h.solved gs hgs]
    exact List.map_congr_left fun a _ => (hgrows.resolve_eq hs.acyclic hacyclic a).symm
  refine ⟨⟨fun ⟨gs, hgs⟩ => ⟨r.2.resolve, hunifies gs hgs⟩, fun ⟨f, hf⟩ => ?_⟩, hunifies,
    fun gs hgs W f hf => h.general gs hgs f ((hiff f).mp hf), fun gs hgs => ?_⟩
  · rcases hr : r.1 with _ | gs
    · exact absurd ((hiff f).mp hf) (h.unsolvable hr f)
    · exact ⟨gs, rfl⟩
  · rw [h.goals gs hgs, List.map_map]
    rfl

/-- **Entering a clause is a resolution step for every goal that leaves the clause's variables
alone**, and a goal that does not contain them does.

The clause was compiled in the store `s₀`, which has grown to `s`, where its variables are free.  The
goal has its name and its number of arguments.  If the goal does not contain the variables of the
clause, they stay free.  If they stay free, the clause is entered exactly if the goal and the head,
renamed apart with new variables, have a unifier over finite trees; the bindings are a most general
one; and the goals are those of the body under the same renaming. -/
theorem enter_is_resolution {s₀ : Store} {goal : Ref} (hs₀ : s₀.WellFormed)
    (ht : t.index < s₀.size) (hcompile : compile s₀ t = .ok c) (hsplits : Splits s₀ t head gs)
    (hgrows : Grows s₀ s vs) (hs : s.WellFormed) (hfree : ∀ v ∈ c.vars, s.Free v)
    (hgoal : goal.index < s.size)
    (hpi : s.nameArity? goal = some (c.pi.name, c.pi.arity)) :
    ((∀ v ∈ c.vars, v ∉ (s.resolve goal).vars) → ∀ v ∈ c.vars, (c.enter goal s).2.Free v) ∧
      ((∀ v ∈ c.vars, (c.enter goal s).2.Free v) →
        ((∀ w, s.cell? (c.rename s w) = none) ∧
          ∀ w ∈ c.vars, ∀ w' ∈ c.vars, c.rename s w = c.rename s w' → w = w') ∧
        ResolutionStep s c goal (c.renamed s (s₀.resolve head))
          (gs.map fun g => c.renamed s (s₀.resolve g).asCall) (c.enter goal s)) := by
  obtain ⟨hencodes, hhead⟩ := encodes_of_compile hs₀ ht hcompile hsplits
  obtain ⟨hheadtree, hheadlen⟩ := resolve_of_nameArity hs₀ hhead
  obtain ⟨hgoaltree, hgoallen⟩ := resolve_of_nameArity hs hpi
  have hnow := hencodes.grow hs₀.acyclic hs.acyclic hgrows hfree
  have henters := enters_enter hs hnow.inRange hgoal
  refine ⟨fun hapart v hv => ?_, fun hlater => ⟨rename_fresh c s, ?_⟩⟩
  · have hreach : ¬ s.Reaches goal v := fun hr =>
      hapart v hv ((hs.mem_vars_iff hgoal).mpr ⟨hfree v hv, hr⟩)
    exact (henters.spares v (hfree v hv) hreach).1
  · have hlen : (s.args goal).length = ((s₀.args head).map s₀.resolve).length := by
      rw [hgoallen, List.length_map, hheadlen]
    have hstep := (hnow.resolves hs hgoal hlen hlater).resolutionStep hs hgoaltree hheadtree
      henters.grows henters.wellFormed.acyclic
    rwa [List.map_map] at hstep

/-- The clause `p(X, f(X)) :- q(X, Y)`, entered with the goal `p(Z, f(a))`. -/
theorem enter_is_resolution_rule : ∃ s₀ t c head gs s goal,
    compile s₀ t = .ok c ∧ Splits s₀ t head gs ∧ (∃ vs, Grows s₀ s vs) ∧ c.vars.length = 2 ∧
    (∃ goals, (c.enter goal s).1 = some goals) ∧
    ResolutionStep s c goal (c.renamed s (s₀.resolve head))
      (gs.map fun g => c.renamed s (s₀.resolve g).asCall) (c.enter goal s) := by
  let x : Term := .var ⟨0, none⟩
  let rule : Term := .compound ":-" [.compound "p" [x, .compound "f" [x]],
    .compound "q" [x, .var ⟨1, none⟩]]
  let call : Term := .compound "p" [.var ⟨2, none⟩, .compound "f" [.atom "a"]]
  have hx : x.WellMade := .var _
  have hrule : rule.WellMade := by
    refine .compound nofun (List.forall_mem_cons.mpr ⟨?_, List.forall_mem_singleton.mpr ?_⟩)
    · refine .compound nofun (List.forall_mem_cons.mpr ⟨hx, List.forall_mem_singleton.mpr ?_⟩)
      exact .compound nofun (List.forall_mem_singleton.mpr hx)
    · exact .compound nofun (List.forall_mem_cons.mpr ⟨hx, List.forall_mem_singleton.mpr (.var _)⟩)
  have hcall : call.WellMade := by
    refine .compound nofun (List.forall_mem_cons.mpr ⟨.var _, List.forall_mem_singleton.mpr ?_⟩)
    exact .compound nofun (List.forall_mem_singleton.mpr (.literal trivial))
  let built := ({} : Store).build rule
  let goal := built.2.build call
  have hbuilt := (Adds.refl wellFormed_empty).build hrule
  have hgoal := (Adds.refl hbuilt.adds.wellFormed).build hcall
  have hok : (match compile built.2 built.1 with
      | .ok c => c.vars.length == 2 && (c.enter goal.1 goal.2).1.isSome &&
        goal.2.nameArity? goal.1 == some (c.pi.name, c.pi.arity)
      | .error _ => false) = true := by decide +kernel
  rcases hc : compile built.2 built.1 with e | c
  · rw [hc] at hok
    cases hok
  · rw [hc, Bool.and_eq_true, Bool.and_eq_true, beq_iff_eq, beq_iff_eq,
      Option.isSome_iff_exists] at hok
    obtain ⟨⟨hlen, henters⟩, hpi⟩ := hok
    obtain ⟨head, gs, hsplits⟩ := exists_splits hbuilt.adds.wellFormed.acyclic built.1
    have hfree : ∀ v ∈ c.vars, goal.2.Free v := fun v hv =>
      hgoal.adds.grows.free_of_nil ((encodes_of_compile hbuilt.adds.wellFormed hbuilt.new.lt hc
        hsplits).1.free v hv)
    obtain ⟨hstays, hstep⟩ := enter_is_resolution hbuilt.adds.wellFormed hbuilt.new.lt hc hsplits
      hgoal.adds.grows hgoal.adds.wellFormed hfree hgoal.new.lt hpi
    -- The goal is made of new cells, among which the variables of the clause are not.
    have hnew := hgoal.detached
    refine ⟨_, _, c, head, gs, _, _, hc, hsplits, ⟨_, hgoal.adds.grows⟩, hlen, henters,
      (hstep (hstays fun v hv hmem => ?_)).2⟩
    have hle := hnew.le v (hgoal.adds.wellFormed.acyclic.reaches_of_mem_vars hmem)
    obtain ⟨name, hcell⟩ := (encodes_of_compile hbuilt.adds.wellFormed hbuilt.new.lt hc
      hsplits).1.free v hv
    exact absurd (index_lt_of_cell? hcell) (Nat.not_lt.mpr hle)

end Clause

end Clausal
