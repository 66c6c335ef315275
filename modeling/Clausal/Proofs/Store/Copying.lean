import Clausal.Store.Copy
import Clausal.Proofs.Store.Growth

/-! # A copy is an instance of what it copies

A copy denotes the tree of the original with each variable replaced by what stands for it
(`copies_copyWith`).  This is said of the solutions of the store with the copy in it, so that it
stays true when variables of the copy are bound later: a copy that is made after some variables of
the renaming were bound is the same instance as one made before.  All that copying does to the store
is to add cells, and it adds entries to the renaming only for variables that lack one.

Copies share the compounds that hold no variables.  This is why the statement is about trees and not
about places, and why a place that a copy reaches may be an old one; a free variable that it reaches
is reached from what stands for some variable of the original (`Copies.exists_reaches`).
-/

namespace Clausal

/-- What stands for a variable; one without an entry stands for itself. -/
def Renaming.image (fresh : Renaming) (v : Ref) : Ref := (fresh.lookup v).getD v

theorem Renaming.image_of_lookup {fresh : Renaming} {v x : Ref} (h : fresh.lookup v = some x) :
    fresh.image v = x := by
  rw [Renaming.image, h, Option.getD_some]

/-- What stands for variables has cells. -/
def Renaming.InRange (fresh : Renaming) (s : Store) : Prop :=
  ∀ v x, fresh.lookup v = some x → x.index < s.size

namespace Store

variable {s s' : Store} {fresh fresh' : Renaming} {st st' : Store × Renaming}
  {r : List Ref × Store × Renaming} {t u v : Ref} {ts us : List Ref} {W : Type}

/-- What it means for `r` to hold copies of the terms `ts`. -/
structure Copies (st : Store × Renaming) (ts : List Ref) (r : List Ref × Store × Renaming) :
    Prop where
  /-- There are only new cells. -/
  grows : Grows st.1 r.2.1 []
  /-- The store is well formed. -/
  wellFormed : r.2.1.WellFormed
  /-- The trail lists the bound variables. -/
  trailed : st.1.Trailed → r.2.1.Trailed
  /-- The copies have cells. -/
  lt : ∀ u ∈ r.1, u.index < r.2.1.size
  /-- Entries of the renaming stay. -/
  kept : ∀ v x, st.2.lookup v = some x → r.2.2.lookup v = some x
  /-- New entries are for new variables. -/
  added : ∀ v x, r.2.2.lookup v = some x →
    st.2.lookup v = some x ∨ (st.1.size ≤ x.index ∧ r.2.1.Free x)
  /-- All variables of the terms have entries. -/
  covered : ∀ t ∈ ts, ∀ v ∈ (st.1.resolve t).vars, ∃ x, r.2.2.lookup v = some x
  /-- The copies are the terms under the renaming. -/
  renamed : ∀ {W : Type} (val : Ref → Tree W), r.2.1.Models val →
    r.1.map val = ts.map fun t => (st.1.resolve t).bind fun v => val (r.2.2.image v)

theorem Copies.inRange (h : Copies st ts r) (hr : st.2.InRange st.1) : r.2.2.InRange r.2.1 := by
  intro v x hx
  rcases h.added v x hx with hx | ⟨-, name, hc⟩
  · exact Nat.lt_of_lt_of_le (hr v x hx) h.grows.size_le
  · exact index_lt_of_cell? hc

theorem Copies.nil (hs : s.WellFormed) : Copies (s, fresh) [] ([], s, fresh) where
  grows := Grows.refl s
  wellFormed := hs
  trailed := id
  lt _ h := by cases h
  kept _ _ := id
  added _ _ := .inl
  covered _ h := by cases h
  renamed _ _ := rfl

/-- A copy, and then copies of further terms under the same renaming. -/
theorem Copies.cons (h : Copies st [t] ([u], st')) (h' : Copies st' ts (us, r.2))
    (hs : st.1.WellFormed) (hts : ∀ t ∈ ts, t.index < st.1.size) :
    Copies st (t :: ts) (u :: us, r.2) where
  grows := h.grows.trans h'.grows
  wellFormed := h'.wellFormed
  trailed ht := h'.trailed (h.trailed ht)
  lt := by
    rw [List.forall_mem_cons]
    exact ⟨Nat.lt_of_lt_of_le (h.lt u (List.mem_singleton_self u)) h'.grows.size_le, h'.lt⟩
  kept v x hx := h'.kept v x (h.kept v x hx)
  added v x hx := by
    rcases h'.added v x hx with hx | ⟨hle, hfree⟩
    · rcases h.added v x hx with hx | ⟨hle, hfree⟩
      · exact .inl hx
      · exact .inr ⟨hle, h'.grows.free_of_nil hfree⟩
    · exact .inr ⟨Nat.le_trans h.grows.size_le hle, hfree⟩
  covered := by
    rw [List.forall_mem_cons]
    refine ⟨fun v hv => ?_, fun t ht v hv => ?_⟩
    · obtain ⟨x, hx⟩ := h.covered t (List.mem_singleton_self t) v hv
      exact ⟨x, h'.kept v x hx⟩
    · rw [← h.grows.resolve_of_nil hs h.wellFormed.acyclic (hts t ht)] at hv
      exact h'.covered t ht v hv
  renamed val hm := by
    have hfirst := h.renamed val (h'.grows.models hm)
    simp only [List.map_cons, List.map_nil, List.cons.injEq, and_true] at hfirst
    rw [List.map_cons, List.map_cons, h'.renamed val hm, hfirst]
    refine congrArg₂ _ (Tree.bind_congr fun v hv => ?_) (List.map_congr_left fun t ht => ?_)
    · obtain ⟨x, hx⟩ := h.covered t (List.mem_singleton_self t) v hv
      rw [Renaming.image_of_lookup hx, Renaming.image_of_lookup (h'.kept v x hx)]
    · rw [h.grows.resolve_of_nil hs h.wellFormed.acyclic (hts t ht)]

/-- The end of a chain of bindings stands for the term. -/
theorem Copies.of_deref (hs : s.Acyclic) (h : Copies (s, fresh) [s.deref t] r) :
    Copies (s, fresh) [t] r where
  grows := h.grows
  wellFormed := h.wellFormed
  trailed := h.trailed
  lt := h.lt
  kept := h.kept
  added := h.added
  covered := by simpa [hs.resolve_deref] using h.covered
  renamed val hm := by simpa [hs.resolve_deref] using h.renamed val hm

theorem copies_literal {l : Literal} (hs : s.WellFormed) (hc : s.cell? t = some (.literal l)) :
    Copies (s, fresh) [t] ([t], s, fresh) where
  grows := Grows.refl s
  wellFormed := hs
  trailed := id
  lt := by simpa using index_lt_of_cell? hc
  kept _ _ := id
  added _ _ := .inl
  covered := by simp [resolve_of_literal hc]
  renamed val hm := by
    have hval : val t = .literal l.canon := hm t _ hc
    simp [resolve_of_literal hc, hval]

/-- A variable that has an entry. -/
theorem copies_known (hs : s.WellFormed) (hr : fresh.InRange s) (hf : s.Free t)
    (hu : fresh.lookup t = some u) : Copies (s, fresh) [t] ([u], s, fresh) where
  grows := Grows.refl s
  wellFormed := hs
  trailed := id
  lt := by simpa using hr t u hu
  kept _ _ := id
  added _ _ := .inl
  covered := by simp [resolve_of_free hf, hu]
  renamed val hm := by simp [resolve_of_free hf, Renaming.image_of_lookup hu]

/-- A variable that gets an entry. -/
theorem copies_new (hs : s.WellFormed) (hf : s.Free t) (hnone : fresh.lookup t = none) :
    Copies (s, fresh) [t] ([⟨s.size⟩], (s.push (.var none none)).2, (t, ⟨s.size⟩) :: fresh) := by
  have hself : ((t, ⟨s.size⟩) :: fresh).lookup t = some (⟨s.size⟩ : Ref) := by simp
  have hother : ∀ {v : Ref}, v ≠ t → ((t, (⟨s.size⟩ : Ref)) :: fresh).lookup v = fresh.lookup v := by
    intro v hne
    rw [List.lookup_cons, beq_eq_false_iff_ne.mpr hne]
  refine ⟨grows_push s _, hs.push trivial (by simp [Cell.mentions]),
    fun ht => ht.push (by simp), by simp, fun v x hx => ?_, fun v x hx => ?_, ?_, fun val hm => ?_⟩
  · have hne : v ≠ t := by
      rintro rfl
      rw [hnone] at hx
      cases hx
    exact (hother hne).trans hx
  · by_cases hv : v = t
    · subst hv
      rw [hself] at hx
      cases hx
      exact .inr ⟨Nat.le_refl _, none, cell?_push_self s _⟩
    · exact .inl ((hother hv).symm.trans hx)
  · simp [resolve_of_free hf]
  · simp [resolve_of_free hf, Renaming.image_of_lookup hself]

section Compound

variable {name : String} {args : List Ref}

theorem Copies.covered_compound (h : Copies (s, fresh) args r) (hs : s.WellFormed)
    (hc : s.cell? t = some (.compound name args)) :
    ∀ u ∈ [t], ∀ v ∈ (s.resolve u).vars, ∃ x, r.2.2.lookup v = some x := by
  rw [List.forall_mem_singleton, hs.acyclic.resolve_of_compound hc, Tree.vars_compound]
  intro v hv
  obtain ⟨_, hmem, hv⟩ := List.mem_flatMap.mp hv
  obtain ⟨u, hu, rfl⟩ := List.mem_map.mp hmem
  exact h.covered u hu v hv

theorem Copies.renamed_compound (h : Copies (s, fresh) args r) (hs : s.WellFormed)
    (hc : s.cell? t = some (.compound name args)) {val : Ref → Tree W} (hm : r.2.1.Models val) :
    [Tree.compound name (r.1.map val)] =
      [t].map fun u => (s.resolve u).bind fun v => val (r.2.2.image v) := by
  rw [List.map_singleton, h.renamed val hm, hs.acyclic.resolve_of_compound hc, Tree.bind_compound,
    List.map_map]
  rfl

/-- A compound whose arguments copy to themselves is its own copy. -/
theorem Copies.share (hs : s.WellFormed)
    (hc : s.cell? t = some (.compound name args)) (h : Copies (s, fresh) args (args, st')) :
    Copies (s, fresh) [t] ([t], st') where
  grows := h.grows
  wellFormed := h.wellFormed
  trailed := h.trailed
  lt := by simpa using Nat.lt_of_lt_of_le (index_lt_of_cell? hc) h.grows.size_le
  kept := h.kept
  added := h.added
  covered := h.covered_compound hs hc
  renamed val hm := by
    have hc' := h.grows.cell?_of_not_free hc fun ⟨_, hf⟩ => by rw [hc] at hf; cases hf
    have hval : val t = .compound name (args.map val) := hm t _ hc'
    rw [List.map_singleton, hval, h.renamed_compound hs hc hm]

/-- A compound is copied from the copies of its arguments. -/
theorem Copies.compound (hs : s.WellFormed) (hc : s.cell? t = some (.compound name args))
    (h : Copies (s, fresh) args (us, s', fresh')) :
    Copies (s, fresh) [t] ([⟨s'.size⟩], (s'.push (.compound name us)).2, fresh') where
  grows := h.grows.trans (grows_push s' _)
  wellFormed := by
    refine h.wellFormed.push (fun hnil => hs.made hc ?_) h.lt
    have hlen := congrArg List.length (h.renamed s'.resolve h.wellFormed.acyclic.models_resolve)
    simpa [hnil, eq_comm] using hlen
  trailed ht := (h.trailed ht).push (by simp)
  lt := by simp
  kept := h.kept
  added v x hx := by
    rcases h.added v x hx with hx | ⟨hle, hf⟩
    · exact .inl hx
    · exact .inr ⟨hle, (grows_push s' _).free_of_nil hf⟩
  covered := h.covered_compound hs hc
  renamed val hm := by
    have hval : val ⟨s'.size⟩ = .compound name (us.map val) := hm _ _ (cell?_push_self s' _)
    rw [List.map_singleton, hval, h.renamed_compound hs hc ((grows_push s' _).models hm)]

end Compound

/-! ## The copying algorithm -/

theorem copies_copyAll {one : Store × Renaming → Ref → Ref × Store × Renaming}
    (bound : Store → Ref → Prop)
    (hone : ∀ {s fresh t}, s.WellFormed → fresh.InRange s → t.index < s.size → bound s t →
      Copies (s, fresh) [t] ([(one (s, fresh) t).1], (one (s, fresh) t).2))
    (hbound : ∀ {s s' t}, Grows s s' [] → s.WellFormed → t.index < s.size → bound s t → bound s' t)
    (hs : s.WellFormed) (hr : fresh.InRange s) (hts : ∀ t ∈ ts, t.index < s.size ∧ bound s t) :
    Copies (s, fresh) ts (copyAll one (s, fresh) ts) := by
  induction ts generalizing s fresh with
  | nil => exact Copies.nil hs
  | cons t ts ih =>
    rw [List.forall_mem_cons] at hts
    have hfirst := hone hs hr hts.1.1 hts.1.2
    rw [copyAll]
    rcases heq : one (s, fresh) t with ⟨u, s', fresh'⟩
    rw [heq] at hfirst
    refine hfirst.cons (ih hfirst.wellFormed (hfirst.inRange hr) fun t ht => ?_) hs
      fun t ht => (hts.2 t ht).1
    exact ⟨Nat.lt_of_lt_of_le (hts.2 t ht).1 hfirst.grows.size_le,
      hbound hfirst.grows hs (hts.2 t ht).1 (hts.2 t ht).2⟩

theorem copies_copyFrom {n : Nat} (hs : s.WellFormed) (hr : fresh.InRange s)
    (ht : t.index < s.size) (hn : s.rank t < n) :
    Copies (s, fresh) [t] ([(copyFrom n (s, fresh) t).1], (copyFrom n (s, fresh) t).2) := by
  induction n generalizing s fresh t with
  | zero => omega
  | succ n ih =>
    refine Copies.of_deref hs.acyclic ?_
    have hd := hs.deref_lt ht
    have hrank := hs.acyclic.rank_deref_le t
    have hb := hs.acyclic.not_bound_deref t
    rw [copyFrom]
    generalize s.deref t = t at *
    obtain ⟨c, hc⟩ := exists_cell? hd
    rcases c with l | ⟨name, args⟩ | ⟨name, _ | u⟩
    · simp only [hc]
      exact copies_literal hs hc
    · have hargs : ∀ u ∈ args, u.index < s.size ∧ s.rank u < n := by
        intro u hu
        have hlt := hs.acyclic.rank_lt (.arg hc hu)
        exact ⟨hs.closed (.arg hc hu), by omega⟩
      have hall := copies_copyAll (fun s t => s.rank t < n) ih
        (fun hgrows hs ht hlt => Nat.lt_of_le_of_lt (hgrows.rank_le hs ht) hlt) hs hr hargs
      simp only [hc]
      rcases heq : copyAll (copyFrom n) (s, fresh) args with ⟨us, s', fresh'⟩
      rw [heq] at hall
      by_cases hshare : us = args
      · subst hshare
        simp only [ite_true]
        exact hall.share hs hc
      · simp only [hshare, ite_false]
        exact hall.compound hs hc
    · simp only [hc]
      rcases hlookup : fresh.lookup t with _ | u
      · exact copies_new hs ⟨name, hc⟩ hlookup
      · exact copies_known hs hr ⟨name, hc⟩ hlookup
    · exact absurd ⟨name, u, hc⟩ hb

/-- **Copying is right**: the copy of a term is the term under the renaming. -/
theorem copies_copyWith (hs : s.WellFormed) (hr : fresh.InRange s) (ht : t.index < s.size) :
    Copies (s, fresh) [t] ([(s.copyWith fresh t).1], (s.copyWith fresh t).2) :=
  copies_copyFrom hs hr ht (Nat.lt_succ_of_le (s.rank_le_size t))

/-- A free variable that a copy reaches is reached from what stands for a variable of the term. -/
theorem Copies.exists_reaches (h : Copies st [t] ([u], st')) (hf : st'.1.Free v)
    (hr : st'.1.Reaches u v) : ∃ w x, w ∈ (st.1.resolve t).vars ∧ st'.2.lookup w = some x ∧
      st'.1.Reaches x v := by
  have hacyclic := h.wellFormed.acyclic
  have htree := h.renamed st'.1.resolve hacyclic.models_resolve
  simp only [List.map_cons, List.map_nil, List.cons.injEq, and_true] at htree
  have hv := hacyclic.mem_vars_of_reaches hf hr
  rw [htree, Tree.mem_vars_bind] at hv
  obtain ⟨w, hw, hv⟩ := hv
  obtain ⟨x, hx⟩ := h.covered t (List.mem_singleton_self t) w hw
  rw [Renaming.image_of_lookup hx] at hv
  exact ⟨w, x, hw, hx, hacyclic.reaches_of_mem_vars hv⟩

/-- What it means that `r` is a copy of a term with fresh variables throughout. -/
structure CopiesApart (s : Store) (r : Ref × Store) : Prop where
  /-- There are only new cells. -/
  grows : Grows s r.2 []
  /-- The store is well formed. -/
  wellFormed : r.2.WellFormed
  /-- The trail lists the bound variables. -/
  trailed : s.Trailed → r.2.Trailed
  /-- The copy has a cell. -/
  lt : r.1.index < r.2.size
  /-- The copy has none of the variables that there were. -/
  apart : ∀ v, s.Free v → ¬ r.2.Reaches r.1 v

theorem copiesApart_copy (hs : s.WellFormed) (ht : t.index < s.size) :
    CopiesApart s (s.copy t) := by
  have hnone : Renaming.InRange [] s := nofun
  have hcopy := copies_copyWith hs hnone ht
  refine ⟨hcopy.grows, hcopy.wellFormed, hcopy.trailed, hcopy.lt _ (List.mem_singleton_self _),
    fun v hf hr => ?_⟩
  obtain ⟨w, x, -, hx, hr⟩ := hcopy.exists_reaches (hcopy.grows.free_of_nil hf) hr
  rcases hcopy.added w x hx with hx | ⟨hle, hfree⟩
  · cases hx
  · obtain ⟨name, hc⟩ := hf
    have hlt := index_lt_of_cell? hc
    rw [eq_of_reaches (fun _ => not_points_of_free hfree) hr] at hlt
    exact absurd hlt (Nat.not_lt.mpr hle)

end Store

end Clausal
