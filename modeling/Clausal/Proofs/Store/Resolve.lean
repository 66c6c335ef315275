import Clausal.Store.Snapshot
import Clausal.Proofs.Store.Graph
import Clausal.Proofs.Tree.Renaming

/-! # The trees that a store denotes

`resolve` reads a term of a store as a finite tree: its `snapshot`, with the places of the free
variables as variables and constants up to identity.  In an acyclic store it obeys the equations that
one expects (`resolve_of_compound`, `resolve_of_bound`, …), which mention no level count.

The second reading of a store is as a system of equations between the trees at its places
(`Models`): a compound's tree is made of its arguments' trees, and a bound variable's tree is that of
what it is bound to.  A solution is fixed by what it says of the free variables, since it is that
substitution applied to `resolve` (`Models.eq_bind`), and any substitution gives one
(`models_bind_resolve`).  So the solutions of a store are exactly the instances of what it denotes.
Unification and the matching of heads are proved to be right in these terms: they add equations.
-/

namespace Clausal

namespace Store

variable {s s' : Store} {t u : Ref} {W : Type}

/-- The tree that the term at `t` stands for. -/
def resolve (s : Store) (t : Ref) : Tree Ref := (s.snapshot t).tree

/-! ## The equations of `resolve` -/

theorem snapshotFrom_of_view_eq (h : s.view t = s.view u) (n : Nat) :
    s.snapshotFrom n t = s.snapshotFrom n u := by
  cases n with
  | zero => rfl
  | succ n => simp only [snapshotFrom, h, varName?]

theorem Acyclic.snapshotFrom_eq (hs : s.Acyclic) {n m : Nat} (hn : s.rank t < n)
    (hm : s.rank t < m) : s.snapshotFrom n t = s.snapshotFrom m t := by
  induction t using hs.induction generalizing n m with
  | h t ih =>
    rcases hc : s.cell? t with _ | ⟨l | ⟨name, args⟩ | ⟨name, _ | u⟩⟩
    · obtain ⟨n, rfl⟩ := Nat.exists_eq_add_of_lt hn
      obtain ⟨m, rfl⟩ := Nat.exists_eq_add_of_lt hm
      simp only [snapshotFrom, view_of_none hc]
    · obtain ⟨n, rfl⟩ := Nat.exists_eq_add_of_lt hn
      obtain ⟨m, rfl⟩ := Nat.exists_eq_add_of_lt hm
      simp only [snapshotFrom, view_of_literal hc]
    · obtain ⟨n, rfl⟩ := Nat.exists_eq_add_of_lt hn
      obtain ⟨m, rfl⟩ := Nat.exists_eq_add_of_lt hm
      simp only [snapshotFrom, view_of_compound hc]
      refine congrArg _ (List.map_congr_left fun u hu => ?_)
      have hlt := hs.rank_lt (.arg hc hu)
      exact ih u (.arg hc hu) (by omega) (by omega)
    · obtain ⟨n, rfl⟩ := Nat.exists_eq_add_of_lt hn
      obtain ⟨m, rfl⟩ := Nat.exists_eq_add_of_lt hm
      simp only [snapshotFrom, view_of_free ⟨name, hc⟩]
    · have hlt := hs.rank_lt (.binding hc)
      have heq := snapshotFrom_of_view_eq (hs.view_of_bound hc)
      rw [heq, heq]
      exact ih u (.binding hc) (by omega) (by omega)

theorem resolve_of_literal {l : Literal} (h : s.cell? t = some (.literal l)) :
    s.resolve t = .literal l.canon := by
  simp only [resolve, snapshot, snapshotFrom, view_of_literal h, Term.tree]

theorem Acyclic.resolve_of_compound (hs : s.Acyclic) {name : String} {args : List Ref}
    (h : s.cell? t = some (.compound name args)) :
    s.resolve t = .compound name (args.map s.resolve) := by
  simp only [resolve, snapshot, snapshotFrom, view_of_compound h, Term.tree, List.map_map]
  refine congrArg _ (List.map_congr_left fun u hu => ?_)
  have hlt := hs.rank_lt (.arg h hu)
  have hle := s.rank_le_size t
  exact congrArg Term.tree (hs.snapshotFrom_eq (by omega) (by omega))

theorem Acyclic.resolve_of_bound (hs : s.Acyclic) {name : Option String}
    (h : s.cell? t = some (.var name (some u))) : s.resolve t = s.resolve u :=
  congrArg Term.tree (snapshotFrom_of_view_eq (hs.view_of_bound h) _)

theorem resolve_of_free (h : s.Free t) : s.resolve t = .var t := by
  simp only [resolve, snapshot, snapshotFrom, view_of_free h, Term.tree]

theorem resolve_of_none (h : s.cell? t = none) : s.resolve t = .var t := by
  simp only [resolve, snapshot, snapshotFrom, view_of_none h, Term.tree]

theorem Acyclic.resolve_deref (hs : s.Acyclic) (t : Ref) : s.resolve (s.deref t) = s.resolve t :=
  congrArg Term.tree (snapshotFrom_of_view_eq (hs.view_deref t) _)

theorem Acyclic.resolve_of_view_var (hs : s.Acyclic) {v : Ref} (h : s.view t = .var v) :
    s.resolve t = .var v := by
  rw [← hs.resolve_deref, deref_of_view_var h]
  rcases hs.free_or_none_of_view_var h with hf | hn
  · exact resolve_of_free hf
  · exact resolve_of_none hn

theorem Acyclic.resolve_of_view_literal (hs : s.Acyclic) {l : Literal}
    (h : s.view t = .literal l) : s.resolve t = .literal l.canon := by
  rw [← hs.resolve_deref, resolve_of_literal (cell?_deref_of_view_literal h)]

theorem Acyclic.resolve_of_view_compound (hs : s.Acyclic) {name : String} {args : List Ref}
    (h : s.view t = .compound name args) : s.resolve t = .compound name (args.map s.resolve) := by
  rw [← hs.resolve_deref, hs.resolve_of_compound (cell?_deref_of_view_compound h)]

/-- What stands for a compound is one. -/
theorem Acyclic.view_of_resolve_compound (hs : s.Acyclic) {name : String} {ts : List (Tree Ref)}
    (h : s.resolve t = .compound name ts) :
    ∃ args, s.view t = .compound name args ∧ args.map s.resolve = ts := by
  rcases hview : s.view t with v | l | ⟨f, args⟩
  · rw [hs.resolve_of_view_var hview] at h
    cases h
  · rw [hs.resolve_of_view_literal hview] at h
    cases h
  · rw [hs.resolve_of_view_compound hview, Tree.compound.injEq] at h
    exact ⟨args, h.1 ▸ rfl, h.2⟩

/-- The variables of the tree at a place are the cells without edges that are reached from it. -/
theorem Acyclic.reaches_of_mem_vars (hs : s.Acyclic) {v : Ref} (hv : v ∈ (s.resolve t).vars) :
    s.Reaches t v := by
  induction t using hs.induction with
  | h t ih =>
    rcases hc : s.cell? t with _ | ⟨l | ⟨name, args⟩ | ⟨name, _ | u⟩⟩
    · rw [resolve_of_none hc, Tree.vars_of_var, List.mem_singleton] at hv
      rw [hv]
    · rw [resolve_of_literal hc, Tree.vars_literal] at hv
      cases hv
    · rw [hs.resolve_of_compound hc, Tree.vars_compound] at hv
      obtain ⟨_, hmem, hv⟩ := List.mem_flatMap.mp hv
      obtain ⟨u, hu, rfl⟩ := List.mem_map.mp hmem
      exact .head (.arg hc hu) (ih u (.arg hc hu) hv)
    · rw [resolve_of_free ⟨name, hc⟩, Tree.vars_of_var, List.mem_singleton] at hv
      rw [hv]
    · rw [hs.resolve_of_bound hc] at hv
      exact .head (.binding hc) (ih u (.binding hc) hv)

/-- The free variables that are reached from a place are variables of its tree. -/
theorem Acyclic.mem_vars_of_reaches (hs : s.Acyclic) {v : Ref} (hv : s.Free v)
    (hr : s.Reaches t v) : v ∈ (s.resolve t).vars := by
  induction hr using Relation.ReflTransGen.head_induction_on with
  | refl => rw [resolve_of_free hv, Tree.vars_of_var, List.mem_singleton]
  | head hp _ ih =>
    cases hp with
    | arg hc hmem =>
      rw [hs.resolve_of_compound hc, Tree.vars_compound]
      exact List.mem_flatMap.mpr ⟨_, List.mem_map_of_mem hmem, ih⟩
    | binding hc => rwa [hs.resolve_of_bound hc]

/-! ## Solutions -/

/-- The equation that a cell makes between the trees at the places. -/
def CellModels (val : Ref → Tree W) (t : Ref) : Cell → Prop
  | .literal l => val t = .literal l.canon
  | .compound name args => val t = .compound name (args.map val)
  | .var _ (some u) => val t = val u
  | .var _ none => True

/-- The trees at the places solve the equations of all cells. -/
def Models (s : Store) (val : Ref → Tree W) : Prop :=
  ∀ t c, s.cell? t = some c → CellModels val t c

theorem Acyclic.models_resolve (hs : s.Acyclic) : s.Models s.resolve := by
  intro t c hc
  match c with
  | .literal l => exact resolve_of_literal hc
  | .compound name args => exact hs.resolve_of_compound hc
  | .var name (some u) => exact hs.resolve_of_bound hc
  | .var name none => trivial

/-- A solution is what it makes of the free variables, applied to what the store denotes. -/
theorem Models.eq_bind (hs : s.Acyclic) {val : Ref → Tree W} (h : s.Models val) (t : Ref) :
    val t = (s.resolve t).bind val := by
  induction t using hs.induction with
  | h t ih =>
    rcases hc : s.cell? t with _ | ⟨l | ⟨name, args⟩ | ⟨name, _ | u⟩⟩
    · rw [resolve_of_none hc, Tree.bind_of_var]
    · rw [resolve_of_literal hc, Tree.bind_literal]
      exact h t _ hc
    · rw [hs.resolve_of_compound hc, Tree.bind_compound, List.map_map]
      exact (h t _ hc).trans (congrArg _ (List.map_congr_left fun u hu => ih u (.arg hc hu)))
    · rw [resolve_of_free ⟨name, hc⟩, Tree.bind_of_var]
    · rw [hs.resolve_of_bound hc]
      exact (h t _ hc).trans (ih u (.binding hc))

/-- Every instance of what a store denotes is a solution. -/
theorem Acyclic.models_bind_resolve (hs : s.Acyclic) (f : Ref → Tree W) :
    s.Models fun t => (s.resolve t).bind f := by
  intro t c hc
  match c with
  | .literal l =>
    simp only [CellModels, resolve_of_literal hc, Tree.bind_literal]
  | .compound name args =>
    simp only [CellModels, hs.resolve_of_compound hc, Tree.bind_compound, List.map_map]
    rfl
  | .var name (some u) => simp only [CellModels, hs.resolve_of_bound hc]
  | .var name none => trivial

theorem Models.deref (hs : s.Acyclic) {val : Ref → Tree W} (h : s.Models val) (t : Ref) :
    val (s.deref t) = val t := by
  rw [h.eq_bind hs, h.eq_bind hs t, hs.resolve_deref]

end Store

end Clausal
