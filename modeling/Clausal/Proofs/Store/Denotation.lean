import Clausal.Proofs.Store.Building
import Clausal.Proofs.Store.Traversals

/-! # What places denote

A place denotes the term that is read off the store there (`Store.Denotes`).  New cells do not change
that (`Denotes.grow`), and each of the operations that add terms makes a place that denotes the term
(`Store.Makes`).
-/

namespace Clausal.Store

variable {s s' : Store} {t u : Ref} {x : Term} {xs : List Term} {ts : List Ref} {name : String}

/-! ## The term at a place -/

theorem snapshot_of_literal {l : Literal} (h : s.cell? t = some (.literal l)) :
    s.snapshot t = .literal l := by
  rw [snapshot, snapshotFrom, view_of_literal h]

theorem snapshot_of_free {name : Option String} (h : s.cell? t = some (.var name none)) :
    s.snapshot t = .var ⟨t.index, name⟩ := by
  have hfree : s.Free t := ⟨name, h⟩
  simp only [snapshot, snapshotFrom, view_of_free hfree, varName?,
    deref_of_not_bound hfree.not_bound, h]

theorem Acyclic.snapshot_of_compound (hs : s.Acyclic)
    (h : s.cell? t = some (.compound name ts)) :
    s.snapshot t = .compound name (ts.map s.snapshot) := by
  rw [hs.snapshot_eq, view_of_compound h]

theorem Acyclic.snapshot_of_bound (hs : s.Acyclic) {name : Option String}
    (h : s.cell? t = some (.var name (some u))) : s.snapshot t = s.snapshot u :=
  snapshotFrom_of_view_eq (hs.view_of_bound h) _

theorem Acyclic.snapshot_deref (hs : s.Acyclic) (t : Ref) : s.snapshot (s.deref t) = s.snapshot t :=
  snapshotFrom_of_view_eq (hs.view_deref t) _

/-- New cells do not change the terms at the places there were. -/
theorem Grows.snapshot_of_nil (h : Grows s s' []) (hs : s.WellFormed) (hs' : s'.Acyclic)
    (ht : t.index < s.size) : s'.snapshot t = s.snapshot t := by
  induction t using hs.acyclic.induction with
  | h t ih =>
    obtain ⟨c, hc⟩ := exists_cell? ht
    have hc' : s'.cell? t = some c := by rw [h.kept ht List.not_mem_nil, hc]
    rcases c with l | ⟨name, args⟩ | ⟨name, _ | u⟩
    · rw [snapshot_of_literal hc, snapshot_of_literal hc']
    · rw [hs.acyclic.snapshot_of_compound hc, hs'.snapshot_of_compound hc']
      refine congrArg _ (List.map_congr_left fun u hu => ?_)
      exact ih u (.arg hc hu) (hs.closed (.arg hc hu))
    · rw [snapshot_of_free hc, snapshot_of_free hc']
    · rw [hs.acyclic.snapshot_of_bound hc, hs'.snapshot_of_bound hc']
      exact ih u (.binding hc) (hs.closed (.binding hc))

/-- There is a cell at the place, and it stands for the term. -/
structure Denotes (s : Store) (t : Ref) (x : Term) : Prop where
  /-- The place is one of the store. -/
  lt : t.index < s.size
  /-- The term. -/
  eq : s.snapshot t = x

theorem Denotes.grow (h : Denotes s t x) (hs : s.WellFormed) (hgrows : Grows s s' [])
    (hs' : s'.Acyclic) : Denotes s' t x :=
  ⟨Nat.lt_of_lt_of_le h.lt hgrows.size_le, (hgrows.snapshot_of_nil hs hs' h.lt).trans h.eq⟩

/-- The places denote the terms, one by one. -/
structure DenotesAll (s : Store) (ts : List Ref) (xs : List Term) : Prop where
  /-- The places are those of the store. -/
  lt : ∀ t ∈ ts, t.index < s.size
  /-- The terms. -/
  eq : ts.map s.snapshot = xs

theorem DenotesAll.nil : DenotesAll s [] [] := ⟨nofun, rfl⟩

theorem DenotesAll.cons (h : Denotes s t x) (hs : DenotesAll s ts xs) :
    DenotesAll s (t :: ts) (x :: xs) where
  lt := List.forall_mem_cons.mpr ⟨h.lt, hs.lt⟩
  eq := by rw [List.map_cons, h.eq, hs.eq]

theorem DenotesAll.append {ts' : List Ref} {xs' : List Term} (h : DenotesAll s ts xs)
    (h' : DenotesAll s ts' xs') : DenotesAll s (ts ++ ts') (xs ++ xs') where
  lt := List.forall_mem_append.mpr ⟨h.lt, h'.lt⟩
  eq := by rw [List.map_append, h.eq, h'.eq]

theorem DenotesAll.grow (h : DenotesAll s ts xs) (hs : s.WellFormed) (hgrows : Grows s s' [])
    (hs' : s'.Acyclic) : DenotesAll s' ts xs where
  lt t ht := Nat.lt_of_lt_of_le (h.lt t ht) hgrows.size_le
  eq := (List.map_congr_left fun t ht => hgrows.snapshot_of_nil hs hs' (h.lt t ht)).trans h.eq

/-! ## Making terms -/

/-- What it means that `r` is the term `x`, made by adding cells to the store `s`. -/
structure Makes (s : Store) (r : Ref × Store) (x : Term) : Prop where
  /-- There are only new cells. -/
  grows : Grows s r.2 []
  /-- The store is well formed. -/
  wellFormed : r.2.WellFormed
  /-- The term. -/
  denotes : Denotes r.2 r.1 x

theorem Makes.after {r : Ref × Store} (h : Makes s' r x) (hgrows : Grows s s' []) :
    Makes s r x :=
  ⟨hgrows.trans h.grows, h.wellFormed, h.denotes⟩

theorem WellFormed.makes_push (hs : s.WellFormed) {c : Cell} (hmade : c.WellMade)
    (hlt : ∀ u ∈ c.mentions, u.index < s.size) (hx : (s.push c).2.snapshot ⟨s.size⟩ = x) :
    Makes s (s.push c) x where
  grows := grows_push s c
  wellFormed := hs.push hmade hlt
  denotes := ⟨by rw [push_fst, size_push]; exact Nat.lt_succ_self _, hx⟩

theorem WellFormed.makes_literal (hs : s.WellFormed) {l : Literal} (hl : l.Canonical) :
    Makes s (s.literal l) (.literal l) :=
  hs.makes_push (c := .literal l) hl nofun (snapshot_of_literal (cell?_push_self s _))

theorem WellFormed.makes_atom (hs : s.WellFormed) (name : String) :
    Makes s (s.atom name) (.atom name) :=
  hs.makes_literal (l := .atom name) trivial

theorem WellFormed.makes_var (hs : s.WellFormed) (name : Option String) :
    Makes s (s.var name) (.var ⟨(s.var name).1.index, name⟩) :=
  hs.makes_push (c := .var name none) trivial nofun (snapshot_of_free (cell?_push_self s _))

theorem WellFormed.makes_apply (hs : s.WellFormed) (name : String) (h : DenotesAll s ts xs)
    (hne : ts ≠ []) : Makes s (s.apply name ts) (.compound name xs) := by
  have hcell : applyCell name ts = .compound name ts := by
    rw [applyCell, if_neg (by rwa [List.isEmpty_iff])]
  rw [apply_eq, hcell]
  have hpush := hs.push (c := .compound name ts) hne h.lt
  refine hs.makes_push hne h.lt ?_
  rw [hpush.acyclic.snapshot_of_compound (cell?_push_self s _),
    (h.grow hs (grows_push s _) hpush.acyclic).eq]

theorem WellFormed.makes_partialList (hs : s.WellFormed) (h : DenotesAll s ts xs)
    (ht : Denotes s t x) : Makes s (s.partialList ts t) (.partialList xs x) := by
  obtain ⟨hlt, rfl⟩ := h
  induction ts with
  | nil => exact ⟨Grows.refl s, hs, ht⟩
  | cons u ts ih =>
    rw [List.forall_mem_cons] at hlt
    have htail := ih hlt.2
    have hhead : Denotes s u (s.snapshot u) := ⟨hlt.1, rfl⟩
    have hcons : DenotesAll (s.partialList ts t).2 [u, (s.partialList ts t).1] _ :=
      .cons (hhead.grow hs htail.grows htail.wellFormed.acyclic) (.cons htail.denotes .nil)
    exact (htail.wellFormed.makes_apply "." hcons (List.cons_ne_nil _ _)).after htail.grows

theorem WellFormed.makes_list (hs : s.WellFormed) (h : DenotesAll s ts xs) :
    Makes s (s.list ts) (.list xs) := by
  have hnil := hs.makes_atom "[]"
  have hitems := h.grow hs hnil.grows hnil.wellFormed.acyclic
  exact (hnil.wellFormed.makes_partialList hitems hnil.denotes).after hnil.grows

/-- Constants that are added denote themselves. -/
theorem WellFormed.denotes_literals (hs : s.WellFormed) {ls : List Literal}
    (hls : ∀ l ∈ ls, l.Canonical) : (s.literals ls).2.WellFormed ∧ Grows s (s.literals ls).2 [] ∧
      DenotesAll (s.literals ls).2 (s.literals ls).1 (ls.map .literal) := by
  induction ls using List.reverseRecOn with
  | nil => exact ⟨hs, .refl s, .nil⟩
  | append_singleton ls l ih =>
    rw [List.forall_mem_append, List.forall_mem_singleton] at hls
    obtain ⟨hs', hgrows, hitems⟩ := ih hls.1
    have hlit := hs'.makes_literal hls.2
    rw [literals_concat, List.map_append]
    refine ⟨hlit.wellFormed, hgrows.trans hlit.grows, ?_⟩
    exact (hitems.grow hs' hlit.grows hlit.wellFormed.acyclic).append (.cons hlit.denotes .nil)

theorem WellFormed.makes_literalList (hs : s.WellFormed) (ls : List Literal)
    (hls : ∀ l ∈ ls, l.Canonical) :
    Makes s ((s.literals ls).2.list (s.literals ls).1) (.list (ls.map .literal)) := by
  obtain ⟨hs', hgrows, hitems⟩ := hs.denotes_literals hls
  exact (hs'.makes_list hitems).after hgrows

end Clausal.Store
