import Clausal.Store.Basic
import Mathlib.Data.Fintype.Card
import Mathlib.Logic.Relation

/-! # The graph of a store

The cells of a store form a graph: a compound points at its arguments, and a bound variable at what
it is bound to.  Every function that follows terms counts a number of levels down, because nothing in
the type of a store forbids a cycle.  Where there is none (`Acyclic`), the number is never what ends
it: the cells that can be reached from a place get fewer with every edge (`rank`), and there are never
more of them than the store has cells.

So this module turns the counted functions into equations without a count: `deref` and `view` follow
a bound variable, and stop at every other cell.
-/

namespace Clausal.Store

open Relation

variable {s : Store} {t u : Ref}

/-! ## Edges -/

/-- An edge from a cell to one that it mentions. -/
inductive Points (s : Store) : Ref → Ref → Prop
  /-- A compound points at each of its arguments. -/
  | arg {t u : Ref} {name : String} {args : List Ref}
    (cell : s.cell? t = some (.compound name args)) (mem : u ∈ args) : Points s t u
  /-- A bound variable points at what it is bound to. -/
  | binding {t u : Ref} {name : Option String}
    (cell : s.cell? t = some (.var name (some u))) : Points s t u

/-- A path of any number of edges. -/
abbrev Reaches (s : Store) : Ref → Ref → Prop := ReflTransGen s.Points

/-- No path leads back to where it began. -/
def Acyclic (s : Store) : Prop := ∀ t, ¬ TransGen s.Points t t

/-- A variable is bound. -/
def Bound (s : Store) (t : Ref) : Prop := ∃ name u, s.cell? t = some (.var name (some u))

/-- A variable is free. -/
def Free (s : Store) (t : Ref) : Prop := ∃ name, s.cell? t = some (.var name none)

theorem Points.index_lt (h : s.Points t u) : t.index < s.size := by
  cases h with
  | arg cell _ => exact (Array.getElem?_eq_some_iff.mp cell).1
  | binding cell => exact (Array.getElem?_eq_some_iff.mp cell).1

theorem index_lt_of_cell? {c : Cell} (h : s.cell? t = some c) : t.index < s.size :=
  (Array.getElem?_eq_some_iff.mp h).1

theorem points_of_bound {name : Option String} {w : Ref}
    (h : s.cell? t = some (.var name (some w))) : s.Points t u ↔ u = w := by
  constructor
  · intro hp
    cases hp with
    | arg cell mem =>
      rw [h] at cell
      cases cell
    | binding cell =>
      rw [h] at cell
      cases cell
      rfl
  · rintro rfl
    exact .binding h

theorem points_of_compound {name : String} {args : List Ref}
    (h : s.cell? t = some (.compound name args)) : s.Points t u ↔ u ∈ args := by
  constructor
  · intro hp
    cases hp with
    | arg cell mem =>
      rw [h] at cell
      cases cell
      exact mem
    | binding cell =>
      rw [h] at cell
      cases cell
  · exact .arg h

theorem not_points_of_free (h : s.Free t) : ¬ s.Points t u := by
  obtain ⟨name, h⟩ := h
  intro hp
  cases hp with
  | arg cell mem => rw [h] at cell; cases cell
  | binding cell => rw [h] at cell; cases cell

theorem not_points_of_literal {l : Literal} (h : s.cell? t = some (.literal l)) : ¬ s.Points t u := by
  intro hp
  cases hp with
  | arg cell mem => rw [h] at cell; cases cell
  | binding cell => rw [h] at cell; cases cell

/-- From a cell without edges only the cell itself is reached. -/
theorem eq_of_reaches (h : ∀ w, ¬ s.Points t w) (hr : s.Reaches t u) : u = t := by
  rcases ReflTransGen.cases_head hr with rfl | ⟨w, hw, -⟩
  · rfl
  · exact absurd hw (h w)

/-! ## How far paths lead -/

open Classical in
/-- How many cells can be reached from a place. -/
noncomputable def rank (s : Store) (t : Ref) : Nat :=
  (Finset.univ.filter fun i : Fin s.size => s.Reaches t ⟨i⟩).card

theorem rank_le_size (s : Store) (t : Ref) : s.rank t ≤ s.size := by
  classical
  exact (Finset.card_le_univ _).trans_eq (Fintype.card_fin _)

theorem Acyclic.rank_lt (hs : s.Acyclic) (h : s.Points t u) : s.rank u < s.rank t := by
  classical
  refine Finset.card_lt_card (Finset.ssubset_iff_of_subset ?_ |>.mpr ⟨⟨t.index, h.index_lt⟩, ?_, ?_⟩)
  · intro i hi
    rw [Finset.mem_filter] at hi ⊢
    exact ⟨hi.1, .head h hi.2⟩
  · rw [Finset.mem_filter]
    exact ⟨Finset.mem_univ _, .refl⟩
  · rw [Finset.mem_filter]
    rintro ⟨-, hr⟩
    exact hs t (TransGen.head' h hr)

theorem Acyclic.rank_le_of_reaches (hs : s.Acyclic) (h : s.Reaches t u) : s.rank u ≤ s.rank t := by
  induction h with
  | refl => exact Nat.le_refl _
  | tail _ hp ih => exact (Nat.le_of_lt (hs.rank_lt hp)).trans ih

/-- What holds of a place whenever it holds of all that it points at holds of every place. -/
theorem Acyclic.induction (hs : s.Acyclic) {P : Ref → Prop}
    (h : ∀ t, (∀ u, s.Points t u → P u) → P t) (t : Ref) : P t := by
  induction hn : s.rank t using Nat.strongRecOn generalizing t with
  | ind n ih => exact h t fun u hu => ih _ (hn ▸ hs.rank_lt hu) u rfl

/-! ## Following bindings -/

theorem derefFrom_of_not_bound (h : ¬ s.Bound t) (n : Nat) : s.derefFrom n t = t := by
  cases n with
  | zero => rfl
  | succ n =>
    rw [derefFrom]
    split
    · rename_i name u hc
      exact absurd ⟨name, u, hc⟩ h
    · rfl

/-- Any count that covers the rank gives the same end. -/
theorem Acyclic.derefFrom_eq (hs : s.Acyclic) {n m : Nat} (hn : s.rank t ≤ n) (hm : s.rank t ≤ m) :
    s.derefFrom n t = s.derefFrom m t := by
  induction n generalizing t m with
  | zero =>
    have hb : ¬ s.Bound t := by
      rintro ⟨name, u, hc⟩
      have := hs.rank_lt (.binding hc)
      omega
    rw [derefFrom_of_not_bound hb, derefFrom_of_not_bound hb]
  | succ n ih =>
    by_cases hb : s.Bound t
    · obtain ⟨name, u, hc⟩ := hb
      have hlt := hs.rank_lt (.binding hc)
      obtain ⟨m, rfl⟩ := Nat.exists_eq_add_of_lt (Nat.lt_of_lt_of_le (Nat.zero_lt_of_lt hlt) hm)
      rw [derefFrom, hc, Nat.zero_add, derefFrom, hc]
      exact ih (by omega) (by omega)
    · rw [derefFrom_of_not_bound hb, derefFrom_of_not_bound hb]

theorem deref_of_not_bound (h : ¬ s.Bound t) : s.deref t = t :=
  derefFrom_of_not_bound h _

theorem Acyclic.deref_of_bound (hs : s.Acyclic) {name : Option String}
    (h : s.cell? t = some (.var name (some u))) : s.deref t = s.deref u := by
  have hlt := hs.rank_lt (.binding h)
  have hle := s.rank_le_size t
  obtain ⟨n, hn⟩ := Nat.exists_eq_add_of_lt (Nat.lt_of_lt_of_le (Nat.zero_lt_of_lt hlt) hle)
  rw [deref, deref, hn, Nat.zero_add, derefFrom, h]
  exact hs.derefFrom_eq (by omega) (by omega)

/-- The end of a chain of bindings is not bound. -/
theorem Acyclic.not_bound_deref (hs : s.Acyclic) (t : Ref) : ¬ s.Bound (s.deref t) := by
  induction t using hs.induction with
  | h t ih =>
    by_cases hb : s.Bound t
    · obtain ⟨name, u, hc⟩ := hb
      rw [hs.deref_of_bound hc]
      exact ih u (.binding hc)
    · rwa [deref_of_not_bound hb]

theorem Acyclic.reaches_deref (hs : s.Acyclic) (t : Ref) : s.Reaches t (s.deref t) := by
  induction t using hs.induction with
  | h t ih =>
    by_cases hb : s.Bound t
    · obtain ⟨name, u, hc⟩ := hb
      rw [hs.deref_of_bound hc]
      exact .head (.binding hc) (ih u (.binding hc))
    · rw [deref_of_not_bound hb]

theorem Acyclic.rank_deref_le (hs : s.Acyclic) (t : Ref) : s.rank (s.deref t) ≤ s.rank t :=
  hs.rank_le_of_reaches (hs.reaches_deref t)

/-- The arguments of a compound have lower ranks. -/
theorem Acyclic.rank_lt_of_compound (hs : s.Acyclic) {name : String} {args : List Ref}
    (hc : s.cell? (s.deref t) = some (.compound name args)) (hu : u ∈ args) : s.rank u < s.rank t :=
  Nat.lt_of_lt_of_le (hs.rank_lt (.arg hc hu)) (hs.rank_deref_le t)

theorem Acyclic.deref_deref (hs : s.Acyclic) (t : Ref) : s.deref (s.deref t) = s.deref t :=
  deref_of_not_bound (hs.not_bound_deref t)

/-! ## What a place stands for -/

theorem Acyclic.view_deref (hs : s.Acyclic) (t : Ref) : s.view (s.deref t) = s.view t := by
  simp only [view, hs.deref_deref]

theorem Acyclic.view_of_bound (hs : s.Acyclic) {name : Option String}
    (h : s.cell? t = some (.var name (some u))) : s.view t = s.view u := by
  simp only [view, hs.deref_of_bound h]

theorem not_bound_of_literal {l : Literal} (h : s.cell? t = some (.literal l)) : ¬ s.Bound t := by
  rintro ⟨name, u, hc⟩
  rw [h] at hc
  cases hc

theorem not_bound_of_compound {name : String} {args : List Ref}
    (h : s.cell? t = some (.compound name args)) : ¬ s.Bound t := by
  rintro ⟨name', u, hc⟩
  rw [h] at hc
  cases hc

theorem Free.not_bound (h : s.Free t) : ¬ s.Bound t := by
  obtain ⟨name, h⟩ := h
  rintro ⟨name', u, hc⟩
  rw [h] at hc
  cases hc

theorem view_of_literal {l : Literal} (h : s.cell? t = some (.literal l)) :
    s.view t = .literal l := by
  simp only [view, deref_of_not_bound (not_bound_of_literal h), h]

theorem view_of_compound {name : String} {args : List Ref}
    (h : s.cell? t = some (.compound name args)) : s.view t = .compound name args := by
  simp only [view, deref_of_not_bound (not_bound_of_compound h), h]

theorem view_of_free (h : s.Free t) : s.view t = .var t := by
  have hb := h.not_bound
  obtain ⟨name, h⟩ := h
  simp only [view, deref_of_not_bound hb, h]

theorem view_of_none (h : s.cell? t = none) : s.view t = .var t := by
  have hb : ¬ s.Bound t := by
    rintro ⟨name, u, hc⟩
    rw [h] at hc
    cases hc
  simp only [view, deref_of_not_bound hb, h]

/-- The cell at the end of a chain of bindings, by what the place stands for. -/
theorem cell?_deref_of_view_literal {l : Literal} (h : s.view t = .literal l) :
    s.cell? (s.deref t) = some (.literal l) := by
  simp only [view] at h
  split at h <;> simp_all

theorem cell?_deref_of_view_compound {name : String} {args : List Ref}
    (h : s.view t = .compound name args) : s.cell? (s.deref t) = some (.compound name args) := by
  simp only [view] at h
  split at h <;> simp_all

theorem Acyclic.rank_lt_of_view (hs : s.Acyclic) {name : String} {args : List Ref}
    (hview : s.view t = .compound name args) (hu : u ∈ args) : s.rank u < s.rank t :=
  hs.rank_lt_of_compound (cell?_deref_of_view_compound hview) hu

theorem Acyclic.args_deref (hs : s.Acyclic) (t : Ref) : s.args (s.deref t) = s.args t := by
  rw [args, args, hs.view_deref]

theorem args_of_literal {l : Literal} (h : s.cell? t = some (.literal l)) : s.args t = [] := by
  rw [args, view_of_literal h]

theorem args_of_free (h : s.Free t) : s.args t = [] := by
  rw [args, view_of_free h]

theorem args_of_compound {name : String} {args : List Ref}
    (h : s.cell? t = some (.compound name args)) : s.args t = args := by
  rw [Store.args, view_of_compound h]

theorem Acyclic.reaches_of_mem_args (hs : s.Acyclic) (h : u ∈ s.args t) : s.Reaches t u := by
  rw [args] at h
  split at h
  · exact (hs.reaches_deref t).tail (.arg (cell?_deref_of_view_compound ‹_›) h)
  · cases h

theorem deref_of_view_var {v : Ref} (h : s.view t = .var v) : s.deref t = v := by
  simp only [view] at h
  split at h <;> simp_all

theorem Acyclic.free_or_none_of_view_var (hs : s.Acyclic) {v : Ref} (h : s.view t = .var v) :
    s.Free v ∨ s.cell? v = none := by
  have hb := hs.not_bound_deref t
  rw [deref_of_view_var h] at hb
  have hd := deref_of_view_var h
  simp only [view, hd] at h
  rcases hc : s.cell? v with _ | ⟨l | ⟨name, args⟩ | ⟨name, _ | u⟩⟩
  · exact .inr rfl
  · simp [hc] at h
  · simp [hc] at h
  · exact .inl ⟨name, hc⟩
  · exact absurd ⟨name, u, hc⟩ hb

end Clausal.Store
