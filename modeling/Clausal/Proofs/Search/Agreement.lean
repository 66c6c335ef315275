import Clausal.Proofs.Machine.Sessions
import Clausal.Proofs.Search.Reference
import Clausal.Proofs.Tree.Variants

/-! # Terms of a machine and trees of a reference search

While a search goes on, terms of the store stand for trees of the reference search.  A `Family` lists
which; the terms and the trees agree if they are variants, all of them together, so that variables are
shared on both sides in the same way (`Agrees`).  What the reference search does to its trees by
substituting, the machine does to its terms by binding: the theorems below say so of parts of terms,
of terms with further arguments, of unification and of entering clauses, and of turning back.

Clauses have to mean the same all the time for this.  That they do is part of the agreement, in the
form that no variable of a stored clause is bound or reached from the terms (`Machine.Intact`).
-/

namespace Clausal

open Store Relation

namespace Store

variable {s s' s'' : Store}

/-- The store `s'` came of `s` by adding cells and binding variables. -/
structure Later (s s' : Store) : Prop where
  /-- The store is well formed. -/
  wellFormed : s'.WellFormed
  /-- The trail lists the bound variables. -/
  trailed : s'.Trailed
  /-- The store has grown. -/
  grows : ∃ vs, Grows s s' vs

theorem Later.refl (hs : s.WellFormed) (ht : s.Trailed) : Later s s := ⟨hs, ht, [], .refl s⟩

theorem Later.trans (h : Later s s') (h' : Later s' s'') : Later s s'' := by
  obtain ⟨vs, hgrows⟩ := h.grows
  obtain ⟨ws, hgrows'⟩ := h'.grows
  exact ⟨h'.wellFormed, h'.trailed, _, hgrows.trans hgrows'⟩

/-- Undoing what was bound since leaves new cells only. -/
theorem Later.undo (h : Later s s') : Later s (s'.undoTo s.mark) ∧ Grows s (s'.undoTo s.mark) [] := by
  obtain ⟨vs, hgrows⟩ := h.grows
  have hundone := hgrows.undoTo_mark h.trailed
  exact ⟨⟨h.wellFormed.undoTo _, h.trailed.undoTo _, _, hundone⟩, hundone⟩

end Store

namespace Reference

open Machine

/-- Terms of the store with the trees that they stand for. -/
abbrev Family := List (Ref × Tree Var)

namespace Family

/-- The terms. -/
def refs (F : Family) : List Ref := F.map Prod.fst

/-- The trees under further bindings. -/
def bind (F : Family) (σ : Bindings) : Family := F.map fun p => (p.1, p.2.bind σ)

variable {F : Family} {σ τ : Bindings} {p : Ref × Tree Var}

theorem refs_bind (F : Family) (σ : Bindings) : (F.bind σ).refs = F.refs := by
  rw [refs, refs, bind, List.map_map]
  rfl

theorem bind_bind (F : Family) (σ τ : Bindings) : (F.bind σ).bind τ = F.bind (σ.andThen τ) := by
  rw [bind, bind, bind, List.map_map]
  exact List.map_congr_left fun p _ => congrArg (Prod.mk p.1) (Tree.bind_bind σ τ p.2)

theorem bind_var (F : Family) : F.bind .var = F := by
  rw [bind, List.map_congr_left fun p _ => congrArg (Prod.mk p.1) (Tree.bind_var p.2)]
  exact List.map_id' F

theorem mem_bind (h : p ∈ F) (σ : Bindings) : (p.1, p.2.bind σ) ∈ F.bind σ :=
  List.mem_map_of_mem h

theorem mem_refs (h : p ∈ F) : p.1 ∈ F.refs := List.mem_map_of_mem h

end Family

/-- The terms of the family stand for its trees, in a search of the machine `m` that has come to the
store `s`. -/
structure Agrees (m : Machine) (s : Store) (uses : Nat) (F : Family) : Prop where
  /-- Stored clauses are out of reach. -/
  intact : Intact m.store ∅ F.refs { m with store := s }
  /-- The terms have cells. -/
  lt : ∀ p ∈ F, p.1.index < s.size
  /-- The variables of later uses are new. -/
  use_le : ∀ p ∈ F, ∀ x ∈ p.2.vars, x.use ≤ uses
  /-- What the terms denote differs from the trees in the names of variables. -/
  variants : Tree.Variants (F.map fun p => (s.resolve p.1, p.2))

variable {m : Machine} {s s' : Store} {uses n : Nat} {F F' : Family} {t a b v : Ref} {T A B : Tree Var}
  {σ : Bindings}

theorem Agrees.wellFormed (h : Agrees m s uses F) : s.WellFormed := h.intact.sound.wellFormed

theorem Agrees.trailed (h : Agrees m s uses F) : s.Trailed := h.intact.sound.trailed

theorem Agrees.subset (h : Agrees m s uses F) (hF : ∀ p ∈ F', p ∈ F) : Agrees m s uses F' where
  intact := by
    have hrefs : ∀ r ∈ F'.refs, r ∈ F.refs := fun r hr => by
      obtain ⟨p, hp, rfl⟩ := List.mem_map.mp hr
      exact Family.mem_refs (hF p hp)
    have hlt : ∀ r ∈ F.refs, r.index < s.size := fun r hr => by
      obtain ⟨p, hp, rfl⟩ := List.mem_map.mp hr
      exact h.lt p hp
    exact h.intact.evolve ((h.intact.sound.evolves_refl hlt).subset hrefs)
  lt p hp := h.lt p (hF p hp)
  use_le p hp := h.use_le p (hF p hp)
  variants := h.variants.subset fun q hq => by
    obtain ⟨p, hp, rfl⟩ := List.mem_map.mp hq
    exact List.mem_map_of_mem (hF p hp)

theorem Agrees.refs_lt (h : Agrees m s uses F) : ∀ r ∈ F.refs, r.index < s.size := by
  intro r hr
  obtain ⟨p, hp, rfl⟩ := List.mem_map.mp hr
  exact h.lt p hp

/-- The variables of the terms are free. -/
theorem Agrees.free (h : Agrees m s uses F) {p : Ref × Tree Var} (hp : p ∈ F)
    (hv : v ∈ (s.resolve p.1).vars) : s.Free v :=
  h.wellFormed.free_of_mem_vars (h.lt p hp) hv

/-- A store in which there are only new cells. -/
theorem Agrees.grow (h : Agrees m s uses F) (hs : s'.WellFormed) (ht : s'.Trailed)
    (hgrows : Grows s s' []) : Agrees m s' uses F where
  intact := by
    have hsound := h.intact.sound
    refine Intact.evolve h.intact (hsound.evolves_store hs ht hgrows
      (fun r hr => Nat.lt_of_lt_of_le (h.refs_lt r hr) hgrows.size_le) fun v hf hout => ?_)
    refine ⟨hgrows.free_of_nil hf, hgrows.spares hsound.wellFormed v, fun r hr hreach => ?_⟩
    exact hout r hr (hgrows.reaches_of_reaches hsound.wellFormed (h.refs_lt r hr) hreach)
  lt p hp := Nat.lt_of_lt_of_le (h.lt p hp) hgrows.size_le
  use_le := h.use_le
  variants := by
    have hsame : ∀ p ∈ F, (s'.resolve p.1, p.2) = (s.resolve p.1, p.2) := fun p hp => by
      rw [hgrows.resolve_of_nil h.wellFormed hs.acyclic (h.lt p hp)]
    rw [List.map_congr_left hsame]
    exact h.variants

/-- **Turning back**: with the bindings since undone, terms and trees agree again. -/
theorem Agrees.undo (h : Agrees m s uses F) (hlater : Later s s') :
    Agrees m (s'.undoTo s.mark) uses F :=
  h.grow hlater.undo.1.wellFormed hlater.undo.1.trailed hlater.undo.2

/-! ## Parts of terms -/

/-- The term is part of one of the family. -/
def Family.Covers (F : Family) (s : Store) (r : Ref) : Prop := ∃ p ∈ F, s.Reaches p.1 r

/-- To the parts of the terms, the function assigns the trees that they stand for. -/
structure Assigns (m : Machine) (s : Store) (uses : Nat) (F : Family) (val : Ref → Tree Var) :
    Prop where
  /-- The terms themselves. -/
  family : ∀ p ∈ F, val p.1 = p.2
  /-- Bindings are followed. -/
  deref : ∀ r, val (s.deref r) = val r
  /-- Constants, by their value. -/
  literal : ∀ r l, s.view r = .literal l → val r = .literal l.canon
  /-- Compounds. -/
  compound : ∀ r name args, s.view r = .compound name args → val r = .compound name (args.map val)
  /-- Variables. -/
  var : ∀ r v, F.Covers s r → s.view r = .var v → ∃ x, val r = .var x
  /-- Parts can be added to the family. -/
  agrees : ∀ rs : List Ref, (∀ r ∈ rs, F.Covers s r) →
    Agrees m s uses (rs.map (fun r => (r, val r)) ++ F)

/-- **Parts of the terms stand for parts of the trees.** -/
theorem Agrees.assigns (h : Agrees m s uses F) : ∃ val, Assigns m s uses F val := by
  obtain ⟨f, g, hfg⟩ := h.variants
  have hs := h.wellFormed
  have hpairs : ∀ p ∈ F, (s.resolve p.1).bind f = p.2 ∧ p.2.bind g = s.resolve p.1 := fun p hp =>
    hfg _ (List.mem_map_of_mem hp)
  -- The variables of a part are variables of the whole.
  have hvars : ∀ {r : Ref} {q : Ref × Tree Var}, q ∈ F → s.Reaches q.1 r →
      ∀ v ∈ (s.resolve r).vars, v ∈ (s.resolve q.1).vars := by
    intro r q hq hr v hv
    have hlt := hs.lt_of_reaches (h.lt q hq) hr
    obtain ⟨hfree, hreach⟩ := (hs.mem_vars_iff hlt).mp hv
    exact (hs.mem_vars_iff (h.lt q hq)).mpr ⟨hfree, hr.trans hreach⟩
  have hback : ∀ {q : Ref × Tree Var}, q ∈ F → ((s.resolve q.1).bind f).bind g = s.resolve q.1 :=
    fun hq => by rw [(hpairs _ hq).1, (hpairs _ hq).2]
  refine ⟨fun r => (s.resolve r).bind f, fun p hp => (hpairs p hp).1, fun r => ?_, fun r l hl => ?_,
    fun r name args hr => ?_, fun r v hr hv => ?_, fun rs hrs => ?_⟩
  · show (s.resolve (s.deref r)).bind f = _
    rw [hs.acyclic.resolve_deref]
  · show (s.resolve r).bind f = _
    rw [hs.acyclic.resolve_of_view_literal hl, Tree.bind_literal]
  · show (s.resolve r).bind f = _
    rw [hs.acyclic.resolve_of_view_compound hr, Tree.bind_compound, List.map_map]
    rfl
  · obtain ⟨q, hq, hreach⟩ := hr
    have hmem : v ∈ (s.resolve q.1).vars := hvars hq hreach v (by
      rw [hs.acyclic.resolve_of_view_var hv, Tree.vars_of_var]
      exact List.mem_singleton_self v)
    show ∃ x, (s.resolve r).bind f = _
    rw [hs.acyclic.resolve_of_view_var hv, Tree.bind_of_var]
    exact Tree.exists_eq_var (hback hq) hmem
  · have hreached : ∀ p ∈ rs.map (fun r => (r, (s.resolve r).bind f)) ++ F,
        p.2 = (s.resolve p.1).bind f ∧ ∃ q ∈ F, s.Reaches q.1 p.1 := by
      intro p hp
      rcases List.mem_append.mp hp with hp | hp
      · obtain ⟨r, hr, rfl⟩ := List.mem_map.mp hp
        exact ⟨rfl, hrs r hr⟩
      · exact ⟨(hpairs p hp).1.symm, p, hp, .refl⟩
    refine ⟨?_, fun p hp => ?_, fun p hp x hx => ?_, f, g, fun e he => ?_⟩
    · refine h.intact.evolve (h.intact.sound.evolves_parts h.refs_lt fun r hr => ?_)
      obtain ⟨p, hp, rfl⟩ := List.mem_map.mp hr
      obtain ⟨q, hq, hreach⟩ := (hreached p hp).2
      exact ⟨q.1, Family.mem_refs hq, hreach⟩
    · obtain ⟨q, hq, hreach⟩ := (hreached p hp).2
      exact hs.lt_of_reaches (h.lt q hq) hreach
    · obtain ⟨heq, q, hq, hreach⟩ := hreached p hp
      rw [heq, Tree.mem_vars_bind] at hx
      obtain ⟨v, hv, hx⟩ := hx
      refine h.use_le q hq x ?_
      rw [← (hpairs q hq).1, Tree.mem_vars_bind]
      exact ⟨v, hvars hq hreach v hv, hx⟩
    · obtain ⟨p, hp, rfl⟩ := List.mem_map.mp he
      obtain ⟨heq, q, hq, hreach⟩ := hreached p hp
      refine ⟨heq.symm, ?_⟩
      show p.2.bind g = s.resolve p.1
      rw [heq, Tree.bind_bind]
      refine (Tree.bind_congr fun v hv => ?_).trans (Tree.bind_var _)
      have hq' := hback hq
      rw [Tree.bind_bind] at hq'
      exact Tree.eq_of_bind_eq (hq'.trans (Tree.bind_var _).symm) (hvars hq hreach v hv)

/-- A name applied to some of the terms stands for the name applied to their trees. -/
theorem Agrees.apply (h : Agrees m s uses F) (name : String) (hF : ∀ p ∈ F', p ∈ F) :
    Later s (s.apply name F'.refs).2 ∧
    Agrees m (s.apply name F'.refs).2 uses
      (((s.apply name F'.refs).1, .apply name (F'.map Prod.snd)) :: F) := by
  have hs := h.wellFormed
  have hlt : ∀ r ∈ F'.refs, r.index < s.size := (h.subset hF).refs_lt
  have hgrows := grows_apply s name F'.refs
  have hwell := hs.apply name hlt
  have hold : ∀ p ∈ F, (s.apply name F'.refs).2.resolve p.1 = s.resolve p.1 := fun p hp =>
    hgrows.resolve_of_nil hs hwell.acyclic (h.lt p hp)
  refine ⟨⟨hwell, h.trailed.apply name _, [], hgrows⟩, ?_, ?_, ?_, ?_⟩
  · refine h.intact.evolve ((h.intact.sound.evolves_apply name hlt).within (L := F.refs)
      (fun r hr => ?_) fun r hr => ⟨hr, h.refs_lt r hr⟩)
    obtain ⟨p, hp, rfl⟩ := List.mem_map.mp hr
    exact Family.mem_refs (hF p hp)
  · exact List.forall_mem_cons.mpr
      ⟨apply_lt _ _ _, fun p hp => Nat.lt_of_lt_of_le (h.lt p hp) hgrows.size_le⟩
  · refine List.forall_mem_cons.mpr ⟨fun x hx => ?_, h.use_le⟩
    rw [Tree.vars_apply, List.mem_flatMap] at hx
    obtain ⟨T, hT, hx⟩ := hx
    obtain ⟨p, hp, rfl⟩ := List.mem_map.mp hT
    exact h.use_le p (hF p hp) x hx
  · obtain ⟨f, g, hfg⟩ := h.variants
    have hpairs : ∀ p ∈ F, (s.resolve p.1).bind f = p.2 ∧ p.2.bind g = s.resolve p.1 := fun p hp =>
      hfg _ (List.mem_map_of_mem hp)
    have happly : (s.apply name F'.refs).2.resolve (s.apply name F'.refs).1 =
        .apply name (F'.map fun p => s.resolve p.1) := by
      rw [Models.apply hwell.acyclic.models_resolve, Family.refs, List.map_map]
      exact congrArg _ (List.map_congr_left fun p hp => hold p (hF p hp))
    refine ⟨f, g, fun q hq => ?_⟩
    rw [List.map_cons, List.mem_cons] at hq
    rcases hq with rfl | hq
    · rw [happly, Tree.bind_apply, Tree.bind_apply, List.map_map, List.map_map]
      exact ⟨congrArg _ (List.map_congr_left fun p hp => (hpairs p (hF p hp)).1),
        congrArg _ (List.map_congr_left fun p hp => (hpairs p (hF p hp)).2)⟩
    · obtain ⟨p, hp, rfl⟩ := List.mem_map.mp hq
      rw [hold p hp]
      exact hpairs p hp

/-! ## Unification -/

/-- Unifying does not bring in variables. -/
theorem use_le_bind (hσ : Equations.Principal σ [(A, B)]) (hA : ∀ x ∈ A.vars, x.use ≤ n)
    (hB : ∀ x ∈ B.vars, x.use ≤ n) (hT : ∀ x ∈ T.vars, x.use ≤ n) :
    ∀ x ∈ (T.bind σ).vars, x.use ≤ n := by
  intro x hx
  obtain ⟨y, hy, hx⟩ := Tree.mem_vars_bind.mp hx
  have hvars : ∀ z ∈ Equations.vars [(A, B)], z.use ≤ n := fun z hz => by
    simp only [Equations.vars, List.flatMap_cons, List.flatMap_nil, List.append_nil,
      List.mem_append] at hz
    exact hz.elim (hA z) (hB z)
  by_cases hmem : y ∈ Equations.vars [(A, B)]
  · exact hvars x (hσ.inside y hmem x hx)
  · rw [hσ.outside y hmem, Tree.vars_of_var, List.mem_singleton] at hx
    exact hx ▸ hT y hy

/-- Two trees have a solution exactly if they have a unifier. -/
theorem exists_solve_iff : (∃ σ, Equations.solve [(A, B)] = some σ) ↔
    ∃ τ : Bindings, A.bind τ = B.bind τ := by
  constructor
  · rintro ⟨σ, hσ⟩
    exact ⟨σ, (Equations.principal_of_solve hσ).solved _ (List.mem_singleton_self _)⟩
  · rintro ⟨τ, hτ⟩
    rcases hσ : Equations.solve [(A, B)] with _ | σ
    · have hsolved : Equations.Solved τ [(A, B)] := List.forall_mem_singleton.mpr hτ
      exact absurd hsolved (Equations.not_solved_of_solve hσ τ)
    · exact ⟨σ, rfl⟩

/-- **Unification of terms is unification of the trees.** -/
theorem Agrees.unify (h : Agrees m s uses F) (ha : (a, A) ∈ F) (hb : (b, B) ∈ F) :
    ((s.unify a b).1 = true ↔ ∃ σ, Equations.solve [(A, B)] = some σ) ∧
    Later s (s.unify a b).2 ∧
    ∀ σ, Equations.solve [(A, B)] = some σ → Agrees m (s.unify a b).2 uses (F.bind σ) := by
  have hs := h.wellFormed
  have hunify := unifies_unify hs (h.lt _ ha) (h.lt _ hb)
  obtain ⟨vs, hgrows, -⟩ := hunify.grows
  obtain ⟨hsolved, hgeneral⟩ := unify_principal hs (h.lt _ ha) (h.lt _ hb)
  have hpair : ∀ {p : Ref × Tree Var}, p ∈ F →
      (s.resolve p.1, p.2) ∈ F.map fun p => (s.resolve p.1, p.2) := List.mem_map_of_mem
  have hok : (s.unify a b).1 = true ↔ ∃ σ, Equations.solve [(A, B)] = some σ := by
    rw [exists_solve_iff, ← h.variants.unifiable_iff (hpair ha) (hpair hb)]
    exact ⟨fun hok => ⟨_, hsolved hok⟩, fun ⟨f, hf⟩ => (hgeneral f hf).1⟩
  refine ⟨hok, ⟨hunify.wellFormed, hunify.trailed h.trailed, vs, hgrows⟩, fun σ hσ => ?_⟩
  · have hσ' := Equations.principal_of_solve hσ
    have hvariants := h.variants.unify (hpair ha) (hpair hb) (hsolved (hok.mpr ⟨σ, hσ⟩))
      (fun f hf => (hgeneral f hf).2) hσ' fun q hq v hv => by
        obtain ⟨p, hp, rfl⟩ := List.mem_map.mp hq
        exact h.free hp hv
    have hevolves := h.intact.sound.evolves_unify (h.lt _ ha) (h.lt _ hb)
    refine ⟨?_, fun q hq => ?_, fun q hq => ?_, ?_⟩
    · rw [Family.refs_bind]
      refine h.intact.evolve ((hevolves.within (L := F.refs) (fun r hr => ?_) fun r hr =>
        ⟨hr, h.refs_lt r hr⟩).subset fun r hr => List.mem_append_right _ hr)
      simp only [List.mem_cons, List.not_mem_nil, or_false] at hr
      rcases hr with rfl | rfl
      · exact Family.mem_refs ha
      · exact Family.mem_refs hb
    · obtain ⟨p, hp, rfl⟩ := List.mem_map.mp hq
      exact Nat.lt_of_lt_of_le (h.lt p hp) hgrows.size_le
    · obtain ⟨p, hp, rfl⟩ := List.mem_map.mp hq
      exact use_le_bind hσ' (h.use_le _ ha) (h.use_le _ hb) (h.use_le p hp)
    · rw [List.map_map] at hvariants
      rw [Family.bind, List.map_map]
      refine hvariants.subset fun q hq => ?_
      obtain ⟨p, hp, rfl⟩ := List.mem_map.mp hq
      refine List.mem_map.mpr ⟨p, hp, ?_⟩
      show ((s.resolve p.1).bind _, p.2.bind σ) = ((s.unify a b).2.resolve p.1, p.2.bind σ)
      rw [← hgrows.resolve_eq hs.acyclic hunify.wellFormed.acyclic]

/-! ## Entering clauses -/

/-- The fresh variables of a clause do not occur in the terms. -/
theorem Agrees.rename_not_mem (h : Agrees m s uses F) {p : Ref × Tree Var} (hp : p ∈ F) (c : Clause)
    (w : Ref) : c.rename s w ∉ (s.resolve p.1).vars := by
  intro hmem
  obtain ⟨name, hcell⟩ := h.free hp hmem
  rw [(Clause.rename_fresh c s).1 w] at hcell
  cases hcell

/-- The clause of a machine, in a search that has come to the store `s`. -/
theorem Agrees.resolvable (h : Agrees m s uses F) (hm : m.Sound) {pi : Indicator} {c : Clause}
    (hc : m.database.Holds pi c) : c.Faithful s ∧ (∀ v ∈ c.vars, s.Free v) ∧
      c.Resolvable s ∧ c.source s = c.source m.store := by
  have hfree : ∀ v ∈ c.vars, s.Free v := fun v hv => (h.intact.clear pi c hc v hv nofun).1
  have hfaithful : c.Faithful s := h.intact.sound.faithful pi c hc
  refine ⟨hfaithful, hfree, hfaithful.resolvable h.wellFormed h.trailed hfree, ?_⟩
  exact (hm.faithful pi c hc).source_eq hm.wellFormed h.wellFormed h.intact.persists

/-- **Entering a clause is resolution with its rule**, renamed with the next number. -/
theorem Agrees.enter (h : Agrees m s uses F) (hm : m.Sound) (ht : (t, T) ∈ F) {pi : Indicator}
    {c : Clause} (hc : m.database.Holds pi c) (hpi : s.nameArity? t = some (pi.name, pi.arity))
    {rule : Rule Var} (hrule : rule = renamed (uses + 1) (c.source m.store)) :
    ((∃ body, (c.enter t s).1 = some body) ↔ ∃ σ, Equations.solve [(T, rule.head)] = some σ) ∧
    Later s (c.enter t s).2 ∧
    ∀ body σ, (c.enter t s).1 = some body → Equations.solve [(T, rule.head)] = some σ →
      body.length = rule.goals.length ∧
      Agrees m (c.enter t s).2 (uses + 1) (Family.bind (body.zip rule.goals ++ F) σ) := by
  obtain ⟨hfaithful, hfree, hresolvable, hsource⟩ := h.resolvable hm hc
  rw [← hsource] at hrule
  have hs := h.wellFormed
  have hlt := h.lt _ ht
  have hcpi : c.pi = pi := hm.filed pi c hc
  have hapart : ∀ v ∈ c.vars, v ∉ (s.resolve t).vars := fun v hv hmem =>
    (h.intact.clear pi c hc v hv nofun).2 t (Family.mem_refs ht)
      (hs.acyclic.reaches_of_mem_vars hmem)
  have hstep := hresolvable t hlt (hcpi ▸ hpi) hapart
  have henters := Clause.enters_enter hs hfaithful.inRange hlt
  obtain ⟨vs, hgrows⟩ := henters.grows
  -- The pairs of trees before the step, with the rule renamed on both sides.
  let rules := ((c.source s).head :: (c.source s).goals).map fun t =>
    (c.renamed s t, t.bind fun v => (.var ⟨uses + 1, v⟩ : Tree Var))
  have hpair : ∀ {p : Ref × Tree Var}, p ∈ F →
      (s.resolve p.1, p.2) ∈ rules ++ F.map fun p => (s.resolve p.1, p.2) :=
    fun hp => List.mem_append_right _ (List.mem_map_of_mem hp)
  have hrules : ∀ {t : Tree Ref}, t ∈ (c.source s).head :: (c.source s).goals →
      (c.renamed s t, t.bind fun v => (.var ⟨uses + 1, v⟩ : Tree Var)) ∈
        rules ++ F.map fun p => (s.resolve p.1, p.2) :=
    fun ht => List.mem_append_left _ (List.mem_map_of_mem ht)
  have hvariants : Tree.Variants (rules ++ F.map fun p => (s.resolve p.1, p.2)) := by
    have hright : ∀ u ∈ c.vars, ∀ u' ∈ c.vars, (⟨uses + 1, u⟩ : Var) = ⟨uses + 1, u'⟩ → u = u' :=
      fun u _ u' _ heq => congrArg Var.ref heq
    refine h.variants.renamed (Clause.rename_fresh c s).2 hright (fun q hq u hu => ?_)
      hfaithful.covered
    obtain ⟨p, hp, rfl⟩ := List.mem_map.mp hq
    refine ⟨h.rename_not_mem hp c u, fun hmem => ?_⟩
    have hle : uses + 1 ≤ uses := h.use_le p hp _ hmem
    omega
  have hhead := hrules List.mem_cons_self
  subst hrule
  refine ⟨?_, ⟨henters.wellFormed, henters.trailed h.trailed, vs, hgrows⟩, fun body σ hbody hσ => ?_⟩
  · rw [hstep.enters_iff, exists_solve_iff]
    exact hvariants.unifiable_iff (hpair ht) hhead
  · have hσ' := Equations.principal_of_solve hσ
    have hgoals := hstep.goals body hbody
    have hlength : body.length = (c.source s).goals.length := by
      have hlengths := congrArg List.length hgoals
      rwa [List.length_map, List.length_map, List.length_map] at hlengths
    have hunified := hvariants.unify (hpair ht) hhead (hstep.unifies body hbody)
      (fun f => hstep.general body hbody f) hσ' fun q hq v hv => by
        rcases List.mem_append.mp hq with hq | hq
        · obtain ⟨u, hu, rfl⟩ := List.mem_map.mp hq
          obtain ⟨w, hw, rfl⟩ := Tree.mem_vars_rename.mp hv
          exact .inr ⟨w, hfaithful.covered u hu w hw, rfl⟩
        · obtain ⟨p, hp, rfl⟩ := List.mem_map.mp hq
          exact .inl (h.free hp hv)
    have hrule : ∀ {u : Tree Ref}, ∀ x ∈ (u.bind fun v => (.var ⟨uses + 1, v⟩ : Tree Var)).vars,
        x.use ≤ uses + 1 := fun x hx => by
      obtain ⟨w, -, rfl⟩ := Tree.mem_vars_rename.mp hx
      exact Nat.le_refl _
    have hlength : body.length = (renamed (uses + 1) (c.source s)).goals.length :=
      hlength.trans (List.length_map _).symm
    refine ⟨hlength, ?_, fun q hq => ?_, fun q hq => ?_, ?_⟩
    · have hwithin := (h.intact.sound.evolves_enter hfaithful.inRange hlt).within (L := F.refs)
        (List.forall_mem_singleton.mpr (Family.mem_refs ht)) fun r hr => ⟨hr, h.refs_lt r hr⟩
      refine h.intact.evolve (hwithin.subset fun r hr => ?_)
      show r ∈ (c.enter t s).1.getD [] ++ F.refs
      rw [Family.refs_bind, Family.refs, List.map_append,
        List.map_fst_zip (Nat.le_of_eq hlength)] at hr
      rwa [hbody, Option.getD_some]
    · obtain ⟨q, hmem, rfl⟩ := List.mem_map.mp hq
      rcases List.mem_append.mp hmem with hq | hq
      · exact henters.lt body hbody _ (List.of_mem_zip hq).1
      · exact Nat.lt_of_lt_of_le (h.lt q hq) hgrows.size_le
    · have hold : ∀ p ∈ F, ∀ x ∈ p.2.vars, x.use ≤ uses + 1 := fun p hp x hx =>
        Nat.le_succ_of_le (h.use_le p hp x hx)
      obtain ⟨q, hmem, rfl⟩ := List.mem_map.mp hq
      rcases List.mem_append.mp hmem with hq | hq
      · obtain ⟨u, -, heq⟩ := List.mem_map.mp (List.of_mem_zip hq).2
        rw [← heq]
        exact use_le_bind hσ' (hold _ ht) hrule hrule
      · exact use_le_bind hσ' (hold _ ht) hrule (hold q hq)
    · refine hunified.subset fun q hq => ?_
      rw [Family.bind, List.map_append, List.map_append, List.mem_append] at hq
      rcases hq with hq | hq
      · have hzip : (body.map (c.enter t s).2.resolve).zip
            ((renamed (uses + 1) (c.source s)).goals.map (Tree.bind σ)) = _ := List.zip_map
        have hrenamed : (renamed (uses + 1) (c.source s)).goals.map (Tree.bind σ) =
            (c.source s).goals.map fun u => (u.bind fun v => .var ⟨uses + 1, v⟩).bind σ :=
          List.map_map
        rw [hgoals, hrenamed, List.map_map, List.zip_map'] at hzip
        rw [List.map_map] at hq
        obtain ⟨u, hu, rfl⟩ := List.mem_map.mp (hzip ▸ hq : q ∈ _)
        exact List.mem_map.mpr ⟨_, hrules (List.mem_cons_of_mem _ hu), rfl⟩
      · rw [List.map_map] at hq
        obtain ⟨p, hp, rfl⟩ := List.mem_map.mp hq
        refine List.mem_map.mpr ⟨_, hpair hp, ?_⟩
        show ((s.resolve p.1).bind _, p.2.bind σ) = ((c.enter t s).2.resolve p.1, p.2.bind σ)
        rw [← hgrows.resolve_eq hs.acyclic henters.wellFormed.acyclic]

end Reference

end Clausal
