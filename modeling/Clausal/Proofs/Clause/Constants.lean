import Clausal.Proofs.Clause.Compilation
import Clausal.Proofs.Store.Order
import Clausal.Store.Unify

/-! # Shared constants

Two terms of a clause share an entry of its table if they are the same.  In an acyclic store this says
exactly that they unify as they stand, without any binding (`Acyclic.same_iff_unify`): what unification
does not have to bind for, a call cannot tell apart.

The comparison and unification go through the terms by themselves and treat integers differently; what
both decide is whether the trees are equal.  A binding is never taken back while terms are unified
(`StaysOrBinds`), so a run that leaves the store as it was has bound nothing on the way either.
-/

namespace Clausal

namespace Store

variable {s s' s'' : Store} {a b : Ref} {xs ys : List Ref}

/-! ## Unification without bindings -/

/-- The store is the same, or variables were bound. -/
def StaysOrBinds (s s' : Store) : Prop := s' = s ∨ s.mark < s'.mark

theorem StaysOrBinds.mark_le (h : StaysOrBinds s s') : s.mark ≤ s'.mark := by
  rcases h with rfl | h
  · exact Nat.le_refl _
  · exact Nat.le_of_lt h

theorem StaysOrBinds.trans (h : StaysOrBinds s s') (h' : StaysOrBinds s' s'') :
    StaysOrBinds s s'' := by
  rcases h with rfl | h
  · exact h'
  · exact .inr (Nat.lt_of_lt_of_le h h'.mark_le)

/-- What ends in the same store has not left it on the way. -/
theorem StaysOrBinds.antisymm (h : StaysOrBinds s s') (h' : StaysOrBinds s' s) : s' = s := by
  rcases h with h | h
  · exact h
  · exact absurd h'.mark_le (Nat.not_le.mpr h)

theorem staysOrBinds_bind (s : Store) (v u : Ref) : StaysOrBinds s (s.bind v u) := by
  refine .inr ?_
  simp [bind, mark]

theorem staysOrBinds_bindChecked (s : Store) (v u : Ref) : StaysOrBinds s (s.bindChecked v u).2 := by
  rw [bindChecked]
  split
  · exact .inl rfl
  · exact staysOrBinds_bind s v u

theorem staysOrBinds_unifyPairs {one : Store → Ref → Ref → Bool × Store}
    (hone : ∀ s a b, StaysOrBinds s (one s a b).2) (s : Store) (xs ys : List Ref) :
    StaysOrBinds s (unifyPairs one s xs ys).2 := by
  induction xs generalizing s ys with
  | nil => exact .inl (by rw [unifyPairs]; simp)
  | cons x xs ih =>
    rcases ys with _ | ⟨y, ys⟩
    · exact .inl rfl
    · rw [unifyPairs]
      have hx := hone s x y
      rcases hrun : one s x y with ⟨_ | _, s'⟩ <;> rw [hrun] at hx
      · exact hx
      · exact hx.trans (ih s' ys)

theorem staysOrBinds_unifyFrom (n : Nat) (s : Store) (a b : Ref) :
    StaysOrBinds s (unifyFrom n s a b).2 := by
  induction n generalizing s a b with
  | zero => exact .inl rfl
  | succ n ih =>
    rw [unifyFrom]
    by_cases heq : s.deref a = s.deref b
    · rw [if_pos heq]
      exact .inl rfl
    · rw [if_neg heq]
      rcases s.view (s.deref a) with v | l | ⟨f, xs⟩ <;>
        rcases s.view (s.deref b) with w | m | ⟨g, ys⟩
      case var.var =>
        dsimp only
        split <;> exact staysOrBinds_bind s _ _
      case var.literal | var.compound => exact staysOrBinds_bindChecked s _ _
      case literal.var | compound.var => exact staysOrBinds_bindChecked s _ _
      case compound.compound =>
        dsimp only
        split
        · exact staysOrBinds_unifyPairs ih s xs ys
        · exact .inl rfl
      all_goals exact .inl rfl

theorem bind_ne (s : Store) (v u : Ref) : s.bind v u ≠ s := by
  intro h
  have hmark : (s.bind v u).mark = s.mark + 1 := by simp [bind, mark]
  rw [h] at hmark
  omega

theorem bindChecked_ne (s : Store) (v u : Ref) : s.bindChecked v u ≠ (true, s) := by
  rw [bindChecked]
  split
  · exact fun h => nomatch congrArg Prod.fst h
  · exact fun h => s.bind_ne v u (congrArg Prod.snd h)

/-- Unification of lists leaves the store as it was if it does so for each pair. -/
theorem unifyPairs_stays_iff {one : Store → Ref → Ref → Bool × Store} {f : Ref → Tree Ref}
    (hone : ∀ s a b, StaysOrBinds s (one s a b).2) (hlen : xs.length = ys.length)
    (h : ∀ x ∈ xs, ∀ y ∈ ys, one s x y = (true, s) ↔ f x = f y) :
    unifyPairs one s xs ys = (true, s) ↔ xs.map f = ys.map f := by
  induction xs generalizing ys with
  | nil =>
    obtain rfl := List.eq_nil_of_length_eq_zero hlen.symm
    exact iff_of_true rfl rfl
  | cons x xs ih =>
    obtain ⟨y, ys, rfl⟩ := List.exists_cons_of_length_eq_add_one hlen.symm
    have hrest := ih (Nat.succ.inj hlen) fun x hx y hy =>
      h x (List.mem_cons_of_mem _ hx) y (List.mem_cons_of_mem _ hy)
    rw [List.map_cons, List.map_cons, List.cons.injEq, ← hrest,
      ← h x List.mem_cons_self y List.mem_cons_self, unifyPairs]
    have hx := hone s x y
    rcases hrun : one s x y with ⟨_ | _, s'⟩ <;> rw [hrun] at hx
    · simp
    · constructor
      · intro hpairs
        have hback : StaysOrBinds s' s := by
          have := staysOrBinds_unifyPairs hone s' xs ys
          rwa [show unifyPairs one s' xs ys = (true, s) from hpairs] at this
        obtain rfl : s' = s := hx.antisymm hback
        exact ⟨rfl, hpairs⟩
      · rintro ⟨hx, hpairs⟩
        cases hx
        exact hpairs

/-- Terms that denote the same tree unify as they stand, and no others do. -/
theorem Acyclic.unifyFrom_stays_iff (hs : s.Acyclic) {n : Nat} (hn : s.rank a < n) :
    unifyFrom n s a b = (true, s) ↔ s.resolve a = s.resolve b := by
  induction n generalizing a b with
  | zero => omega
  | succ n ih =>
    rw [unifyFrom, ← hs.resolve_deref a, ← hs.resolve_deref b]
    by_cases heq : s.deref a = s.deref b
    · simp [heq]
    · simp only [heq, ite_false]
      rw [hs.view_deref, hs.view_deref, hs.resolve_deref, hs.resolve_deref]
      rcases ha : s.view a with v | l | ⟨f, xs⟩ <;> rcases hb : s.view b with w | m | ⟨g, ys⟩
      case var.var =>
        rw [hs.resolve_of_view_var ha, hs.resolve_of_view_var hb]
        rw [deref_of_view_var ha, deref_of_view_var hb] at heq ⊢
        refine iff_of_false (fun h => ?_) fun h => heq (Tree.var.inj h)
        have hbind := congrArg Prod.snd h
        dsimp only at hbind
        split at hbind <;> exact s.bind_ne _ _ hbind
      case literal.literal =>
        rw [hs.resolve_of_view_literal ha, hs.resolve_of_view_literal hb, Tree.literal.injEq,
          ← Literal.same_iff_canon]
        simp
      case compound.compound =>
        rw [hs.resolve_of_view_compound ha, hs.resolve_of_view_compound hb, Tree.compound.injEq]
        dsimp only
        by_cases hfunctor : (f = g && xs.length = ys.length) = true
        · rw [if_pos hfunctor]
          obtain ⟨rfl, hlen⟩ : f = g ∧ xs.length = ys.length := by simpa using hfunctor
          have hrank : ∀ x ∈ xs, s.rank x < n := fun x hx =>
            Nat.lt_of_lt_of_le (hs.rank_lt_of_view ha hx) (Nat.le_of_lt_succ hn)
          rw [eq_self_iff_true, true_and]
          exact unifyPairs_stays_iff (staysOrBinds_unifyFrom n) hlen fun x hx y _ => ih (hrank x hx)
        · rw [if_neg hfunctor]
          refine iff_of_false nofun fun h => hfunctor ?_
          have hlen : xs.length = ys.length := by simpa using congrArg List.length h.2
          simp [h.1, hlen]
      case var.literal =>
        rw [hs.resolve_of_view_var ha, hs.resolve_of_view_literal hb]
        exact iff_of_false (s.bindChecked_ne _ _) nofun
      case var.compound =>
        rw [hs.resolve_of_view_var ha, hs.resolve_of_view_compound hb]
        exact iff_of_false (s.bindChecked_ne _ _) nofun
      case literal.var =>
        rw [hs.resolve_of_view_literal ha, hs.resolve_of_view_var hb]
        exact iff_of_false (s.bindChecked_ne _ _) nofun
      case compound.var =>
        rw [hs.resolve_of_view_compound ha, hs.resolve_of_view_var hb]
        exact iff_of_false (s.bindChecked_ne _ _) nofun
      case literal.compound =>
        rw [hs.resolve_of_view_literal ha, hs.resolve_of_view_compound hb]
        exact iff_of_false nofun nofun
      case compound.literal =>
        rw [hs.resolve_of_view_compound ha, hs.resolve_of_view_literal hb]
        exact iff_of_false nofun nofun

theorem Acyclic.same_iff_unify (hs : s.Acyclic) (hcan : s.Canonical) :
    s.same a b = true ↔ s.unify a b = (true, s) := by
  rw [hs.same_iff hcan, unify, hs.unifyFrom_stays_iff (Nat.lt_succ_of_le (s.rank_le_size a))]

end Store

namespace Clause

open Store

variable {s : Store} {c : Clause} {d : Draft} {t u : Ref}

/-! ## The table of a clause -/

/-- A term gets no entry of its own exactly if there is one for the same term. -/
theorem Draft.termOffset_eq_iff (s : Store) (d : Draft) (t : Ref) :
    (d.termOffset s t).2 = d ↔ ∃ u, .term u ∈ d.table ∧ s.same t u = true := by
  simp only [termOffset]
  rcases hfound : d.table.findIdx? _ with _ | n
  · rw [List.findIdx?_eq_none_iff] at hfound
    refine iff_of_false (fun h => ?_) ?_
    · simpa using congrArg (·.table.length) h
    · rintro ⟨u, hu, hsame⟩
      exact absurd hsame (by simpa using hfound _ hu)
  · obtain ⟨hlt, hn, -⟩ := List.findIdx?_eq_some_iff_getElem.mp hfound
    refine iff_of_true rfl ?_
    rcases he : d.table[n] with u | pi <;> rw [he] at hn
    · exact ⟨u, he ▸ List.getElem_mem hlt, hn⟩
    · cases hn

theorem distinct_of_compile (hs : s.Acyclic) (hc : compile s t = .ok c) : Distinct s c.table := by
  obtain ⟨head, goals, hsplits⟩ := exists_splits hs t
  cases hsplits with
  | fact hview => exact (reads_of_fact hs hview hc).2.distinct
  | rule hview hbody => exact (reads_of_rule hs hview hbody hc).2.2.distinct

/-- **Terms that share an entry are those that unify without a binding.**  Two terms are the same
exactly if they unify and no variable is bound; a term is given the entry of a term that it so unifies
with, and a new one only if there is none; and no two entries of a clause so unify. -/
theorem shared_iff_unify (hs : s.Acyclic) (hcan : s.Canonical) :
    (∀ a b, s.same a b = true ↔ s.unify a b = (true, s)) ∧
    (∀ (d : Draft) (t : Ref),
      (∃ u, (d.termOffset s t).2.table[(d.termOffset s t).1]? = some (.term u) ∧
        s.unify t u = (true, s)) ∧
      ((d.termOffset s t).2 = d ↔ ∃ u, .term u ∈ d.table ∧ s.unify t u = (true, s))) ∧
    ∀ (t : Ref) (c : Clause), compile s t = .ok c → ∀ (i j : Nat) (u v : Ref),
      c.table[i]? = some (.term u) → c.table[j]? = some (.term v) →
        (i = j ↔ s.unify u v = (true, s)) := by
  refine ⟨fun _ _ => hs.same_iff_unify hcan, fun d t => ⟨?_, ?_⟩, fun t c hc i j u v hu hv => ?_⟩
  · obtain ⟨u, hu, hsame⟩ := Draft.term_termOffset s d t
    exact ⟨u, hu, (hs.same_iff_unify hcan).mp (same_comm s u t ▸ hsame)⟩
  · simp only [Draft.termOffset_eq_iff, hs.same_iff_unify hcan]
  · rw [← hs.same_iff_unify hcan]
    constructor
    · rintro rfl
      cases hu.symm.trans hv
      exact same_refl s u
    · intro hsame
      by_contra hij
      have hne := (distinct_of_compile hs hc).ne hij hu hv
      rw [sameEntry, hsame] at hne
      cases hne

/-- The fact `p(f(X), f(X), f(Y))`: two of its arguments are apart in the store and share an entry. -/
theorem shared_iff_unify_fact :
    let f (n : Nat) : Term := .compound "f" [.var ⟨n, none⟩]
    let built := ({} : Store).build (.compound "p" [f 0, f 0, f 1])
    let s := built.2
    ∃ a b c clause, s.Acyclic ∧ s.Canonical ∧ s.args built.1 = [a, b, c] ∧ a ≠ b ∧
      compile s built.1 = .ok clause ∧ clause.table = [.term a, .term c] ∧
      s.unify a b = (true, s) ∧ s.unify a c ≠ (true, s) := by
  intro f built s
  have hf : ∀ n, (f n).WellMade := fun n =>
    .compound (List.cons_ne_nil _ _) (List.forall_mem_singleton.mpr (.var _))
  have hs : s.WellFormed := by
    refine ((Adds.refl wellFormed_empty).build (.compound (List.cons_ne_nil _ _) ?_)).adds.wellFormed
    simp only [List.forall_mem_cons]
    exact ⟨hf 0, hf 0, hf 1, nofun⟩
  have hok : (match compile s built.1 with
      | .ok c => c.table == [.term ⟨1⟩, .term ⟨4⟩]
      | .error _ => false) = true := by decide +kernel
  rcases hc : compile s built.1 with e | clause
  · rw [hc] at hok
    cases hok
  · rw [hc, beq_iff_eq] at hok
    obtain ⟨hsame, -, htable⟩ := shared_iff_unify hs.acyclic hs.canonical
    refine ⟨⟨1⟩, ⟨2⟩, ⟨4⟩, clause, hs.acyclic, hs.canonical, by decide +kernel, by decide, rfl, hok,
      (hsame _ _).mp (by decide +kernel), fun hunify => ?_⟩
    have hfirst : clause.table[0]? = some (.term ⟨1⟩) := by rw [hok]; rfl
    have hsecond : clause.table[1]? = some (.term ⟨4⟩) := by rw [hok]; rfl
    exact absurd ((htable _ clause hc 0 1 _ _ hfirst hsecond).mpr hunify) (by decide)

end Clause

end Clausal
