import Clausal.Store.Unify
import Clausal.Proofs.Store.Growth

/-! # Unification adds equations

Unifying two terms of a store adds the equation between them to the store (`unifies_unify`): if it
succeeds, the solutions of the new store are the solutions of the old one that make the two trees
equal, and if it fails there are none.  Since a store's solutions are the instances of what it
denotes, the bindings are a most general unifier of the trees, over finite trees and with the occurs
check.

The count of levels never runs out.  Each level descends from a compound to its arguments, and the
cells above an argument are those above the compound and the compound itself; bindings only put more
cells above others.  So the levels left and the cells above the current terms together exceed the
size of the store at all times (`above`), and a chain of cells is no longer than the store.
-/

namespace Clausal.Store

open Relation

variable {s s' : Store} {a b t u v : Ref} {eqs : List (Ref × Ref)} {r : Bool × Store} {W : Type}

/-! ## The occurs check -/

theorem Acyclic.occursFrom_iff (hs : s.Acyclic) {n : Nat} (hn : s.rank t < n) :
    s.occursFrom v n t = true ↔ v ∈ (s.resolve t).vars := by
  induction n generalizing t with
  | zero => omega
  | succ n ih =>
    rcases hview : s.view t with w | l | ⟨name, args⟩
    · rw [occursFrom, hview, hs.resolve_of_view_var hview]
      simp [eq_comm]
    · rw [occursFrom, hview, hs.resolve_of_view_literal hview]
      simp
    · have hlt : ∀ u ∈ args, s.rank u < n := fun u hu =>
        Nat.lt_of_lt_of_le (hs.rank_lt_of_view hview hu) (Nat.le_of_lt_succ hn)
      rw [occursFrom, hview, hs.resolve_of_view_compound hview]
      simp only [List.any_eq_true, Tree.vars_compound, List.mem_flatMap, List.mem_map,
        exists_exists_and_eq_and]
      exact exists_congr fun u => and_congr_right fun hu => ih (hlt u hu)

theorem Acyclic.occurs_iff (hs : s.Acyclic) : s.occurs v t = true ↔ v ∈ (s.resolve t).vars :=
  hs.occursFrom_iff (Nat.lt_succ_of_le (s.rank_le_size t))

/-! ## The cells above a place -/

open Classical in
/-- How many cells have a path to a place. -/
noncomputable def above (s : Store) (t : Ref) : Nat :=
  (Finset.univ.filter fun i : Fin s.size => TransGen s.Points ⟨i⟩ t).card

theorem above_le_size (s : Store) (t : Ref) : s.above t ≤ s.size := by
  classical
  exact (Finset.card_le_univ _).trans_eq (Fintype.card_fin _)

theorem above_le_of_reaches (h : s.Reaches t u) : s.above t ≤ s.above u := by
  classical
  refine Finset.card_le_card fun i hi => ?_
  rw [Finset.mem_filter] at hi ⊢
  exact ⟨hi.1, hi.2.trans_left h⟩

theorem Acyclic.above_lt (hs : s.Acyclic) (h : s.Points t u) : s.above t < s.above u := by
  classical
  refine Finset.card_lt_card (Finset.ssubset_iff_of_subset ?_ |>.mpr ⟨⟨t.index, h.index_lt⟩, ?_, ?_⟩)
  · intro i hi
    rw [Finset.mem_filter] at hi ⊢
    exact ⟨hi.1, hi.2.tail h⟩
  · rw [Finset.mem_filter]
    exact ⟨Finset.mem_univ _, .single h⟩
  · rw [Finset.mem_filter]
    rintro ⟨-, hr⟩
    exact hs t hr

/-- Bindings put more cells above a place. -/
theorem Grows.above_le {vs : List Ref} (h : Grows s s' vs) (hsize : s'.size = s.size) (t : Ref) :
    s.above t ≤ s'.above t := by
  classical
  refine Finset.card_le_card_of_injOn (Fin.cast hsize.symm) (fun i hi => ?_) ?_
  · rw [Finset.mem_coe, Finset.mem_filter] at hi ⊢
    exact ⟨Finset.mem_univ _, hi.2.lift id fun _ _ hp => h.points hp⟩
  · exact (Fin.cast_injective _).injOn

/-! ## What unification does -/

/-- No term of the pairs reaches `v`. -/
def Avoid (s : Store) (eqs : List (Ref × Ref)) (v : Ref) : Prop :=
  ∀ e ∈ eqs, ¬ s.Reaches e.1 v ∧ ¬ s.Reaches e.2 v

/-- What it means for `r` to be the outcome of unifying the two terms of every pair. -/
structure Unifies (s : Store) (eqs : List (Ref × Ref)) (r : Bool × Store) : Prop where
  /-- Nothing but bindings was made, of variables that the terms reach. -/
  grows : ∃ vs, Grows s r.2 vs ∧ ∀ v ∈ vs, ¬ Avoid s eqs v
  /-- There are no new cells. -/
  size : r.2.size = s.size
  /-- The store is well formed. -/
  wellFormed : r.2.WellFormed
  /-- The trail lists the bound variables. -/
  trailed : s.Trailed → r.2.Trailed
  /-- What the terms do not reach stays out of reach. -/
  spares : ∀ v, Avoid s eqs v → ∀ t, r.2.Reaches t v → s.Reaches t v
  /-- Success adds the equations to the store. -/
  solved : r.1 = true → ∀ {W : Type} (val : Ref → Tree W),
    r.2.Models val ↔ s.Models val ∧ ∀ e ∈ eqs, val e.1 = val e.2
  /-- Failure means that they have no solution. -/
  unsolvable : r.1 = false → ∀ {W : Type} (val : Ref → Tree W),
    s.Models val → ¬ ∀ e ∈ eqs, val e.1 = val e.2

theorem avoid_cons {e : Ref × Ref} : Avoid s (e :: eqs) v ↔ Avoid s [e] v ∧ Avoid s eqs v := by
  simp [Avoid]

theorem Unifies.avoid (h : Unifies s eqs r) {eqs' : List (Ref × Ref)} (hv : Avoid s eqs v)
    (hv' : Avoid s eqs' v) : Avoid r.2 eqs' v :=
  fun e he => ⟨fun hr => (hv' e he).1 (h.spares v hv _ hr), fun hr => (hv' e he).2 (h.spares v hv _ hr)⟩

theorem Unifies.nil (hs : s.WellFormed) : Unifies s [] (true, s) where
  grows := ⟨[], Grows.refl s, by simp⟩
  size := rfl
  wellFormed := hs
  trailed := id
  spares _ _ _ := id
  solved _ _ _ := by simp
  unsolvable h := by cases h

/-- Equations that say the same as others, of terms that reach no less, can stand for them. -/
theorem Unifies.of_iff (h : Unifies s eqs r) {eqs' : List (Ref × Ref)}
    (hiff : ∀ {W : Type} (val : Ref → Tree W), s.Models val →
      ((∀ e ∈ eqs', val e.1 = val e.2) ↔ ∀ e ∈ eqs, val e.1 = val e.2))
    (havoid : ∀ v, Avoid s eqs' v → Avoid s eqs v) : Unifies s eqs' r where
  grows := by
    obtain ⟨vs, hgrows, hvs⟩ := h.grows
    exact ⟨vs, hgrows, fun v hv hav => hvs v hv (havoid v hav)⟩
  size := h.size
  wellFormed := h.wellFormed
  trailed := h.trailed
  spares v hv := h.spares v (havoid v hv)
  solved hr _ val := by
    rw [h.solved hr]
    exact and_congr_right fun hm => (hiff val hm).symm
  unsolvable hr _ val hm := by
    rw [hiff val hm]
    exact h.unsolvable hr val hm

/-- A pair that unifies, followed by others. -/
theorem Unifies.cons {e : Ref × Ref} (h : Unifies s [e] (true, s')) (h' : Unifies s' eqs r) :
    Unifies s (e :: eqs) r where
  grows := by
    obtain ⟨vs, hgrows, hvs⟩ := h.grows
    obtain ⟨ws, hgrows', hws⟩ := h'.grows
    refine ⟨vs ++ ws, hgrows.trans hgrows', fun v hv hav => ?_⟩
    obtain ⟨he, heqs⟩ := avoid_cons.mp hav
    rcases List.mem_append.mp hv with hv | hv
    · exact hvs v hv he
    · exact hws v hv (h.avoid he heqs)
  size := h'.size.trans h.size
  wellFormed := h'.wellFormed
  trailed ht := h'.trailed (h.trailed ht)
  spares v hv t hr := by
    obtain ⟨he, heqs⟩ := avoid_cons.mp hv
    exact h.spares v he t (h'.spares v (h.avoid he heqs) t hr)
  solved hr _ val := by
    rw [h'.solved hr, h.solved rfl]
    simp [and_assoc]
  unsolvable hr _ val hm heqs := by
    rw [List.forall_mem_cons] at heqs
    have hm' := (h.solved rfl val).mpr ⟨hm, by simpa using heqs.1⟩
    exact h'.unsolvable hr val hm' heqs.2

/-- A pair that does not unify, whatever comes after it. -/
theorem Unifies.cons_of_fail {e : Ref × Ref} (h : Unifies s [e] (false, s')) :
    Unifies s (e :: eqs) (false, s') where
  grows := by
    obtain ⟨vs, hgrows, hvs⟩ := h.grows
    exact ⟨vs, hgrows, fun v hv hav => hvs v hv (avoid_cons.mp hav).1⟩
  size := h.size
  wellFormed := h.wellFormed
  trailed := h.trailed
  spares v hv := h.spares v (avoid_cons.mp hv).1
  solved hr := by cases hr
  unsolvable _ _ val hm heqs := by
    rw [List.forall_mem_cons] at heqs
    exact h.unsolvable rfl val hm (by simpa using heqs.1)

/-- Two terms with nothing to bind: that they agree is decided by what they are. -/
theorem unifies_of_forall (hs : s.WellFormed) (ok : Bool)
    (hok : ∀ {W : Type} (val : Ref → Tree W), s.Models val → (val a = val b ↔ ok = true)) :
    Unifies s [(a, b)] (ok, s) where
  grows := ⟨[], Grows.refl s, by simp⟩
  size := rfl
  wellFormed := hs
  trailed := id
  spares _ _ _ := id
  solved hr _ val := by
    rw [List.forall_mem_singleton]
    exact ⟨fun hm => ⟨hm, (hok val hm).mpr hr⟩, And.left⟩
  unsolvable hr _ val hm := by
    rw [List.forall_mem_singleton, hok val hm]
    exact Bool.eq_false_iff.mp hr

theorem Free.models_bind_iff (hf : s.Free v) (val : Ref → Tree W) :
    (s.bind v u).Models val ↔ s.Models val ∧ val v = val u := by
  obtain ⟨name, hc⟩ := hf
  have hgrows : Grows s (s.bind v u) [v] := Free.grows_bind ⟨name, hc⟩ u
  constructor
  · intro hm
    exact ⟨hgrows.models hm, hm v _ (cell?_bind_self u hc)⟩
  · rintro ⟨hm, heq⟩ t c htc
    by_cases ht : t = v
    · rw [ht, cell?_bind_self u hc] at htc
      cases htc
      rw [ht]
      exact heq
    · rw [cell?_bind_of_ne u ht] at htc
      exact hm t c htc

/-- A free variable bound to a term in which it does not occur. -/
theorem unifies_bind (hs : s.WellFormed) (hf : s.Free v) (hu : u.index < s.size)
    (hoccurs : ¬ s.Reaches u v) : Unifies s [(v, u)] (true, s.bind v u) where
  grows := by
    refine ⟨[v], hf.grows_bind u, fun w hw hav => ?_⟩
    rw [List.mem_singleton] at hw
    subst hw
    exact (hav (w, u) List.mem_cons_self).1 .refl
  size := size_bind s v u
  wellFormed := hs.bind hf hu hoccurs
  trailed ht := ht.bind hf u
  spares w hw t hr := hf.reaches_of_bind (hw (v, u) List.mem_cons_self).2 hr
  solved _ _ val := by
    rw [List.forall_mem_singleton]
    exact hf.models_bind_iff val
  unsolvable hr := by cases hr

theorem Unifies.symm (h : Unifies s [(a, b)] r) : Unifies s [(b, a)] r := by
  refine h.of_iff (fun val _ => ?_) fun v hv => ?_
  · simp [eq_comm]
  · simpa [Avoid, and_comm] using hv

/-- The ends of two chains of bindings stand for the terms. -/
theorem Unifies.of_deref (hs : s.WellFormed) (h : Unifies s [(s.deref a, s.deref b)] r) :
    Unifies s [(a, b)] r := by
  refine h.of_iff (fun val hm => ?_) fun v hv => ?_
  · simp [hm.deref hs.acyclic]
  · simp only [Avoid, List.forall_mem_singleton] at hv ⊢
    exact ⟨fun hr => hv.1 ((hs.acyclic.reaches_deref a).trans hr),
      fun hr => hv.2 ((hs.acyclic.reaches_deref b).trans hr)⟩

/-- A free variable unifies with every term in which it does not occur. -/
theorem unifies_bindChecked (hs : s.WellFormed) (hf : s.Free v) (hu : u.index < s.size)
    (hne : s.resolve u ≠ .var v) : Unifies s [(v, u)] (s.bindChecked v u) := by
  rw [bindChecked]
  by_cases hoccurs : s.occurs v u = true
  · rw [if_pos hoccurs]
    rw [hs.acyclic.occurs_iff] at hoccurs
    refine unifies_of_forall hs false fun val hm => ?_
    rw [hm.eq_bind hs.acyclic u]
    simpa using Tree.ne_bind_of_mem_vars hoccurs hne
  · rw [if_neg hoccurs]
    rw [hs.acyclic.occurs_iff] at hoccurs
    exact unifies_bind hs hf hu fun hr => hoccurs (hs.acyclic.mem_vars_of_reaches hf hr)

theorem forall_mem_zip_iff (val : Ref → Tree W) : ∀ {xs ys : List Ref}, xs.length = ys.length →
    ((∀ e ∈ xs.zip ys, val e.1 = val e.2) ↔ xs.map val = ys.map val)
  | [], [], _ => by simp
  | x :: xs, y :: ys, h => by
    rw [List.zip_cons_cons, List.forall_mem_cons, forall_mem_zip_iff val (Nat.succ.inj h)]
    simp

/-- Compounds unify if their names and the numbers of their arguments agree, and then as their
arguments do. -/
theorem Unifies.of_args {f : String} {xs ys : List Ref}
    (ha : s.cell? a = some (.compound f xs)) (hb : s.cell? b = some (.compound f ys))
    (hlen : xs.length = ys.length) (h : Unifies s (xs.zip ys) r) : Unifies s [(a, b)] r := by
  refine h.of_iff (fun val hm => ?_) fun v hv e he => ?_
  · have hva : val a = .compound f (xs.map val) := hm a _ ha
    have hvb : val b = .compound f (ys.map val) := hm b _ hb
    rw [List.forall_mem_singleton, forall_mem_zip_iff val hlen, hva, hvb, Tree.compound.injEq]
    exact and_iff_right rfl
  · obtain ⟨hx, hy⟩ := List.of_mem_zip he
    have hab := hv (a, b) List.mem_cons_self
    exact ⟨fun hr => hab.1 (.head (.arg ha hx) hr), fun hr => hab.2 (.head (.arg hb hy) hr)⟩

/-! ## The unification algorithm -/

theorem unifies_unifyPairs {one : Store → Ref → Ref → Bool × Store} (bound : Store → Ref → Prop)
    (hone : ∀ {s x y}, s.WellFormed → x.index < s.size → y.index < s.size → bound s x →
      Unifies s [(x, y)] (one s x y))
    (hbound : ∀ {s s' vs x}, Grows s s' vs → s'.size = s.size → bound s x → bound s' x)
    {xs ys : List Ref} (hs : s.WellFormed) (hx : ∀ x ∈ xs, x.index < s.size ∧ bound s x)
    (hy : ∀ y ∈ ys, y.index < s.size) : Unifies s (xs.zip ys) (unifyPairs one s xs ys) := by
  induction xs generalizing s ys with
  | nil => simpa [unifyPairs] using Unifies.nil hs
  | cons x xs ih =>
    cases ys with
    | nil => simpa [unifyPairs] using Unifies.nil hs
    | cons y ys =>
      rw [List.forall_mem_cons] at hx hy
      have hfirst := hone hs hx.1.1 hy.1 hx.1.2
      rw [unifyPairs, List.zip_cons_cons]
      rcases heq : one s x y with ⟨ok, s'⟩
      rw [heq] at hfirst
      cases ok with
      | false => exact hfirst.cons_of_fail
      | true =>
        obtain ⟨vs, hgrows, -⟩ := hfirst.grows
        have hsize : s'.size = s.size := hfirst.size
        refine hfirst.cons (ih hfirst.wellFormed (fun x hmem => ?_) fun y hmem => ?_)
        · exact ⟨hsize ▸ (hx.2 x hmem).1, hbound hgrows hsize (hx.2 x hmem).2⟩
        · exact hsize ▸ hy.2 y hmem

theorem resolve_ne_var_of_literal {l : Literal} (h : s.cell? u = some (.literal l)) :
    s.resolve u ≠ .var v := by
  rw [resolve_of_literal h]
  nofun

theorem Acyclic.resolve_ne_var_of_compound (hs : s.Acyclic) {f : String} {xs : List Ref}
    (h : s.cell? u = some (.compound f xs)) : s.resolve u ≠ .var v := by
  rw [hs.resolve_of_compound h]
  nofun

/-- The levels left and the cells above a term exceed the size of the store. -/
theorem unifies_unifyFrom {n : Nat} (hs : s.WellFormed) (ha : a.index < s.size)
    (hb : b.index < s.size) (hn : s.size < n + s.above a) :
    Unifies s [(a, b)] (unifyFrom n s a b) := by
  induction n generalizing s a b with
  | zero =>
    have := s.above_le_size a
    omega
  | succ n ih =>
    refine Unifies.of_deref hs ?_
    have hda := hs.deref_lt ha
    have hdb := hs.deref_lt hb
    have habove := above_le_of_reaches (hs.acyclic.reaches_deref a)
    have hba := hs.acyclic.not_bound_deref a
    have hbb := hs.acyclic.not_bound_deref b
    rw [unifyFrom]
    generalize s.deref a = a at *
    generalize s.deref b = b at *
    by_cases heq : a = b
    · subst heq
      rw [if_pos rfl]
      exact unifies_of_forall hs true fun val _ => by simp
    rw [if_neg heq]
    obtain ⟨c, hca⟩ := exists_cell? hda
    obtain ⟨d, hcb⟩ := exists_cell? hdb
    rcases c with l | ⟨f, xs⟩ | ⟨name, _ | u⟩
    · rcases d with m | ⟨g, ys⟩ | ⟨name', _ | u'⟩
      · rw [view_of_literal hca, view_of_literal hcb]
        refine unifies_of_forall hs _ fun val hm => ?_
        rw [show val a = _ from hm a _ hca, show val b = _ from hm b _ hcb, Literal.same_iff_canon,
          Tree.literal.injEq]
      · rw [view_of_literal hca, view_of_compound hcb]
        refine unifies_of_forall hs false fun val hm => ?_
        rw [show val a = _ from hm a _ hca, show val b = _ from hm b _ hcb]
        simp
      · rw [view_of_literal hca, view_of_free ⟨name', hcb⟩]
        exact (unifies_bindChecked hs ⟨name', hcb⟩ hda (resolve_ne_var_of_literal hca)).symm
      · exact absurd ⟨name', u', hcb⟩ hbb
    · rcases d with m | ⟨g, ys⟩ | ⟨name', _ | u'⟩
      · rw [view_of_compound hca, view_of_literal hcb]
        refine unifies_of_forall hs false fun val hm => ?_
        rw [show val a = _ from hm a _ hca, show val b = _ from hm b _ hcb]
        simp
      · rw [view_of_compound hca, view_of_compound hcb]
        by_cases hsame : f = g ∧ xs.length = ys.length
        · obtain ⟨rfl, hlen⟩ := hsame
          have hlt : ∀ x ∈ xs, s.size < n + s.above x := by
            intro x hx
            have := hs.acyclic.above_lt (.arg hca hx)
            omega
          simp only [decide_true, hlen, Bool.and_self, ite_true]
          refine Unifies.of_args hca hcb hlen ?_
          refine unifies_unifyPairs (fun s x => s.size < n + s.above x) ih ?_ hs
            (fun x hx => ⟨hs.closed (.arg hca hx), hlt x hx⟩) fun y hy => hs.closed (.arg hcb hy)
          intro s s' vs x hgrows hsize hx
          have := hgrows.above_le hsize x
          omega
        · have hdiffer : (decide (f = g) && decide (xs.length = ys.length)) = false := by
            simpa using hsame
          simp only [hdiffer, Bool.false_eq_true, ite_false]
          refine unifies_of_forall hs false fun val hm => ?_
          rw [show val a = _ from hm a _ hca, show val b = _ from hm b _ hcb, Tree.compound.injEq]
          refine iff_of_false (fun hargs => hsame ⟨hargs.1, ?_⟩) Bool.false_ne_true
          simpa using congrArg List.length hargs.2
      · rw [view_of_compound hca, view_of_free ⟨name', hcb⟩]
        exact (unifies_bindChecked hs ⟨name', hcb⟩ hda
          (hs.acyclic.resolve_ne_var_of_compound hca)).symm
      · exact absurd ⟨name', u', hcb⟩ hbb
    · rcases d with m | ⟨g, ys⟩ | ⟨name', _ | u'⟩
      · rw [view_of_free ⟨name, hca⟩, view_of_literal hcb]
        exact unifies_bindChecked hs ⟨name, hca⟩ hdb (resolve_ne_var_of_literal hcb)
      · rw [view_of_free ⟨name, hca⟩, view_of_compound hcb]
        exact unifies_bindChecked hs ⟨name, hca⟩ hdb (hs.acyclic.resolve_ne_var_of_compound hcb)
      · rw [view_of_free ⟨name, hca⟩, view_of_free ⟨name', hcb⟩]
        have hfa : s.Free a := ⟨name, hca⟩
        have hfb : s.Free b := ⟨name', hcb⟩
        by_cases hage : b.index < a.index
        · simp only [hage, ite_true]
          refine unifies_bind hs hfa hdb fun hr => heq ?_
          exact eq_of_reaches (fun _ => not_points_of_free hfb) hr
        · simp only [hage, ite_false]
          refine (unifies_bind hs hfb hda fun hr => heq ?_).symm
          exact (eq_of_reaches (fun _ => not_points_of_free hfa) hr).symm
      · exact absurd ⟨name', u', hcb⟩ hbb
    · exact absurd ⟨name, u, hca⟩ hba

/-- **Unification is right**: it adds the equation of the two terms to the store, or finds that it
has no solution. -/
theorem unifies_unify (hs : s.WellFormed) (ha : a.index < s.size) (hb : b.index < s.size) :
    Unifies s [(a, b)] (s.unify a b) :=
  unifies_unifyFrom hs ha hb (by omega)

/-- **Unification finds a most general unifier** of the trees that two terms denote. -/
theorem unify_principal (hs : s.WellFormed) (ha : a.index < s.size) (hb : b.index < s.size) :
    ((s.unify a b).1 = true → (s.resolve a).bind (s.unify a b).2.resolve =
      (s.resolve b).bind (s.unify a b).2.resolve) ∧
    ∀ {W : Type} (f : Ref → Tree W), (s.resolve a).bind f = (s.resolve b).bind f →
      (s.unify a b).1 = true ∧ ∃ g : Ref → Tree W, ∀ v, s.Free v →
        ((s.unify a b).2.resolve v).bind g = f v := by
  have hunify := unifies_unify hs ha hb
  have hacyclic := hunify.wellFormed.acyclic
  obtain ⟨vs, hgrows, -⟩ := hunify.grows
  refine ⟨fun hok => ?_, fun f hf => ?_⟩
  · have heqs := ((hunify.solved hok _).mp hacyclic.models_resolve).2 (a, b)
      (List.mem_singleton_self _)
    rwa [← hgrows.resolve_eq hs.acyclic hacyclic, ← hgrows.resolve_eq hs.acyclic hacyclic]
  · -- The substitution gives a solution of the store in which the two are equal.
    have hmodels := hs.acyclic.models_bind_resolve f
    have heqs : ∀ e ∈ [(a, b)], (s.resolve e.1).bind f = (s.resolve e.2).bind f :=
      List.forall_mem_singleton.mpr hf
    have hok : (s.unify a b).1 = true := by
      by_contra hno
      exact hunify.unsolvable (Bool.eq_false_of_not_eq_true hno) _ hmodels heqs
    have hlater := (hunify.solved hok _).mpr ⟨hmodels, heqs⟩
    refine ⟨hok, fun t => (s.resolve t).bind f, fun v hv => ?_⟩
    rw [← hlater.eq_bind hacyclic v, resolve_of_free hv, Tree.bind_of_var]

end Clausal.Store
