import Clausal.Proofs.Store.Resolve
import Mathlib.Data.List.Nodup

/-! # How a store changes

Whatever runs on a store only adds cells at its end, binds free variables and records each on the
trail.  `Grows s s' vs` says that `s'` came from `s` in this way and that `vs` are the variables
bound on the way, in order.  The relation composes (`Grows.trans`), edges and paths persist under
it, and a solution of the later store is one of the earlier (`Grows.models`), so that what a place
denotes later is an instance of what it denoted before (`Grows.resolve_eq`).

Undoing is the one step back.  It is exact on what the trail records (`cell?_undoTo`), so a store
that has grown and is then undone to where it was has its old cells back as they were
(`Grows.undoTo`), as long as no variable is on the trail twice (`Trailed`).
-/

namespace Clausal

/-- What every cell of a store satisfies: integers are in the representation of their size, and
compounds have arguments. -/
def Cell.WellMade : Cell → Prop
  | .literal l => l.Canonical
  | .compound _ args => args ≠ []
  | .var _ _ => True

/-- The places that a cell mentions. -/
def Cell.mentions : Cell → List Ref
  | .literal _ => []
  | .compound _ args => args
  | .var _ binding => binding.toList

namespace Store

open Relation

variable {s s' s'' : Store} {t u v : Ref} {vs ws : List Ref} {W : Type}

/-- A store as operations leave it: no place is mentioned that has no cell, no path is a cycle, and
cells are well made. -/
structure WellFormed (s : Store) : Prop where
  /-- Every place that a cell mentions has a cell. -/
  closed : ∀ {t u}, s.Points t u → u.index < s.size
  /-- There are no cycles. -/
  acyclic : s.Acyclic
  /-- Every cell is well made. -/
  made : ∀ {t c}, s.cell? t = some c → c.WellMade

/-- The trail lists the bound variables, each once. -/
structure Trailed (s : Store) : Prop where
  /-- No variable is on the trail twice. -/
  nodup : s.trail.toList.Nodup
  /-- A variable is bound exactly if it is on the trail. -/
  bound_iff : ∀ t, s.Bound t ↔ t ∈ s.trail.toList

theorem not_cell?_empty {c : Cell} : ¬ ({} : Store).cell? t = some c := by
  simp [cell?]

theorem not_points_empty : ¬ ({} : Store).Points t u := by
  intro hp
  cases hp with
  | arg hc _ => exact not_cell?_empty hc
  | binding hc => exact not_cell?_empty hc

/-- The empty store is well formed. -/
theorem wellFormed_empty : ({} : Store).WellFormed where
  closed hp := absurd hp not_points_empty
  acyclic t hp := by
    obtain ⟨u, hp, -⟩ := TransGen.head'_iff.mp hp
    exact not_points_empty hp
  made hc := absurd hc not_cell?_empty

theorem trailed_empty : ({} : Store).Trailed where
  nodup := List.nodup_nil
  bound_iff _ := ⟨fun ⟨_, _, hc⟩ => absurd hc not_cell?_empty, nofun⟩

theorem Bound.index_lt (h : s.Bound t) : t.index < s.size := by
  obtain ⟨name, u, hc⟩ := h
  exact index_lt_of_cell? hc

/-- Every place that a cell mentions has a cell. -/
def Closed (s : Store) : Prop := ∀ t u, s.Points t u → u.index < s.size

theorem Closed.lt_of_reaches (hs : s.Closed) (ht : t.index < s.size) (h : s.Reaches t u) :
    u.index < s.size := by
  rcases ReflTransGen.cases_tail h with rfl | ⟨w, -, hw⟩
  · exact ht
  · exact hs w u hw

theorem WellFormed.isClosed (hs : s.WellFormed) : s.Closed := fun _ _ => hs.closed

theorem WellFormed.lt_of_reaches (hs : s.WellFormed) (ht : t.index < s.size) (h : s.Reaches t u) :
    u.index < s.size :=
  hs.isClosed.lt_of_reaches ht h

theorem WellFormed.deref_lt (hs : s.WellFormed) (ht : t.index < s.size) :
    (s.deref t).index < s.size :=
  hs.lt_of_reaches ht (hs.acyclic.reaches_deref t)

theorem WellFormed.args_lt (hs : s.WellFormed) (t : Ref) : ∀ u ∈ s.args t, u.index < s.size := by
  intro u hu
  rw [args] at hu
  split at hu
  · exact hs.closed (.arg (cell?_deref_of_view_compound ‹_›) hu)
  · cases hu

theorem exists_cell? (h : t.index < s.size) : ∃ c, s.cell? t = some c :=
  ⟨_, Array.getElem?_eq_getElem h⟩

/-- The variables of the tree at a place are free. -/
theorem WellFormed.free_of_mem_vars (hs : s.WellFormed) (ht : t.index < s.size)
    (hv : v ∈ (s.resolve t).vars) : s.Free v := by
  induction t using hs.acyclic.induction with
  | h t ih =>
    obtain ⟨c, hc⟩ := exists_cell? ht
    rcases c with l | ⟨name, args⟩ | ⟨name, _ | u⟩
    · rw [resolve_of_literal hc, Tree.vars_literal] at hv
      cases hv
    · rw [hs.acyclic.resolve_of_compound hc, Tree.vars_compound] at hv
      obtain ⟨_, hmem, hv⟩ := List.mem_flatMap.mp hv
      obtain ⟨u, hu, rfl⟩ := List.mem_map.mp hmem
      exact ih u (.arg hc hu) (hs.closed (.arg hc hu)) hv
    · rw [resolve_of_free ⟨name, hc⟩, Tree.vars_of_var, List.mem_singleton] at hv
      exact ⟨name, hv ▸ hc⟩
    · rw [hs.acyclic.resolve_of_bound hc] at hv
      exact ih u (.binding hc) (hs.closed (.binding hc)) hv

theorem WellFormed.mem_vars_iff (hs : s.WellFormed) (ht : t.index < s.size) :
    v ∈ (s.resolve t).vars ↔ s.Free v ∧ s.Reaches t v :=
  ⟨fun hv => ⟨hs.free_of_mem_vars ht hv, hs.acyclic.reaches_of_mem_vars hv⟩,
    fun hv => hs.acyclic.mem_vars_of_reaches hv.1 hv.2⟩

/-! ## Growth -/

/-- The store `s'` has all that `s` has, up to the free variables `vs` that were bound since. -/
structure Grows (s s' : Store) (vs : List Ref) : Prop where
  /-- Cells are never given back. -/
  size_le : s.size ≤ s'.size
  /-- What was bound is recorded. -/
  trail : s'.trail.toList = s.trail.toList ++ vs
  /-- Nothing else happened to the cells that were there. -/
  kept : ∀ {t}, t.index < s.size → t ∉ vs → s'.cell? t = s.cell? t
  /-- The variables were free and are bound now. -/
  bound : ∀ {t}, t.index < s.size → t ∈ vs →
    ∃ name u, s.cell? t = some (.var name none) ∧ s'.cell? t = some (.var name (some u))

theorem Grows.refl (s : Store) : Grows s s [] where
  size_le := Nat.le_refl _
  trail := (List.append_nil _).symm
  kept _ _ := rfl
  bound _ h := by cases h

theorem Grows.trans (h : Grows s s' vs) (h' : Grows s' s'' ws) : Grows s s'' (vs ++ ws) where
  size_le := Nat.le_trans h.size_le h'.size_le
  trail := by rw [h'.trail, h.trail, List.append_assoc]
  kept ht hmem := by
    rw [List.mem_append, not_or] at hmem
    rw [h'.kept (Nat.lt_of_lt_of_le ht h.size_le) hmem.2, h.kept ht hmem.1]
  bound {t} ht hmem := by
    have ht' := Nat.lt_of_lt_of_le ht h.size_le
    by_cases hv : t ∈ vs
    · obtain ⟨name, u, hc, hc'⟩ := h.bound ht hv
      have hw : t ∉ ws := by
        intro hw
        obtain ⟨name', u', hfree, -⟩ := h'.bound ht' hw
        rw [hc'] at hfree
        cases hfree
      exact ⟨name, u, hc, by rw [h'.kept ht' hw, hc']⟩
    · obtain ⟨name, u, hc, hc'⟩ := h'.bound ht' ((List.mem_append.mp hmem).resolve_left hv)
      exact ⟨name, u, by rw [← h.kept ht hv, hc], hc'⟩

theorem Grows.mark_le (h : Grows s s' vs) : s.mark ≤ s'.mark := by
  have := congrArg List.length h.trail
  simp only [Array.length_toList, List.length_append] at this
  simp only [mark]
  omega

/-- Nothing happens to a compound, a constant or a bound variable. -/
theorem Grows.cell?_of_not_free (h : Grows s s' vs) {c : Cell} (hc : s.cell? t = some c)
    (hf : ¬ s.Free t) : s'.cell? t = some c := by
  have hlt := index_lt_of_cell? hc
  rw [h.kept hlt, hc]
  intro hmem
  obtain ⟨name, u, hfree, -⟩ := h.bound hlt hmem
  exact hf ⟨name, hfree⟩

theorem Grows.free_or_bound (h : Grows s s' vs) (hf : s.Free t) : s'.Free t ∨ s'.Bound t := by
  obtain ⟨name, hc⟩ := hf
  have hlt := index_lt_of_cell? hc
  by_cases hv : t ∈ vs
  · obtain ⟨name, u, -, hc'⟩ := h.bound hlt hv
    exact .inr ⟨name, u, hc'⟩
  · exact .inl ⟨name, by rw [h.kept hlt hv, hc]⟩

/-- What is bound stays bound. -/
theorem Grows.bound_of_bound (h : Grows s s' vs) (hb : s.Bound t) : s'.Bound t := by
  obtain ⟨name, u, hc⟩ := hb
  refine ⟨name, u, h.cell?_of_not_free hc ?_⟩
  rintro ⟨name', hf⟩
  rw [hc] at hf
  cases hf

/-- A variable that is free later was free before. -/
theorem Grows.free_of_free (h : Grows s s' vs) (ht : t.index < s.size) (hf : s'.Free t) :
    s.Free t := by
  obtain ⟨name, hc⟩ := hf
  by_cases hv : t ∈ vs
  · obtain ⟨name', u, -, hc'⟩ := h.bound ht hv
    rw [hc] at hc'
    cases hc'
  · exact ⟨name, by rw [← h.kept ht hv, hc]⟩

theorem Grows.points (h : Grows s s' vs) (hp : s.Points t u) : s'.Points t u := by
  cases hp with
  | arg hc hmem =>
    refine .arg (h.cell?_of_not_free hc ?_) hmem
    rintro ⟨name, hf⟩
    rw [hc] at hf
    cases hf
  | binding hc =>
    refine .binding (h.cell?_of_not_free hc ?_)
    rintro ⟨name, hf⟩
    rw [hc] at hf
    cases hf

/-- A store that was grown has more equations. -/
theorem Grows.models (h : Grows s s' vs) {val : Ref → Tree W} (hm : s'.Models val) :
    s.Models val := by
  intro t c hc
  by_cases hf : s.Free t
  · obtain ⟨name, hfree⟩ := hf
    rw [hc] at hfree
    cases hfree
    trivial
  · exact hm t c (h.cell?_of_not_free hc hf)

/-- What a place denotes later is an instance of what it denoted before. -/
theorem Grows.resolve_eq (h : Grows s s' vs) (hs : s.Acyclic) (hs' : s'.Acyclic) (t : Ref) :
    s'.resolve t = (s.resolve t).bind s'.resolve :=
  (h.models hs'.models_resolve).eq_bind hs t

/-- A term whose variables are free later denotes what it did before. -/
theorem Grows.resolve_eq_self (h : Grows s s' vs) (hs : s.Acyclic) (hs' : s'.Acyclic)
    (hf : ∀ v ∈ (s.resolve t).vars, s'.Free v) : s'.resolve t = s.resolve t := by
  rw [h.resolve_eq hs hs', Tree.bind_congr fun v hv => resolve_of_free (hf v hv), Tree.bind_var]

theorem Grows.cell?_of_nil (h : Grows s s' []) {c : Cell} (hc : s.cell? t = some c) :
    s'.cell? t = some c :=
  (h.kept (index_lt_of_cell? hc) List.not_mem_nil).trans hc

theorem Grows.free_of_nil (h : Grows s s' []) (hf : s.Free t) : s'.Free t := by
  obtain ⟨name, hc⟩ := hf
  exact ⟨name, h.cell?_of_nil hc⟩

/-- New cells change nothing for the old ones. -/
theorem Grows.resolve_of_nil (h : Grows s s' []) (hs : s.WellFormed) (hs' : s'.Acyclic)
    (ht : t.index < s.size) : s'.resolve t = s.resolve t :=
  h.resolve_eq_self hs.acyclic hs' fun _ hv => h.free_of_nil (hs.free_of_mem_vars ht hv)

theorem Grows.derefFrom_of_nil (h : Grows s s' []) (hcl : s.Closed) (ht : t.index < s.size)
    (n : Nat) : s'.derefFrom n t = s.derefFrom n t := by
  induction n generalizing t with
  | zero => rfl
  | succ n ih =>
    rw [derefFrom, derefFrom, h.kept ht List.not_mem_nil]
    split
    · exact ih (hcl _ _ (.binding ‹_›))
    · rfl

/-- New cells do not change where chains of bindings end. -/
theorem Grows.deref_of_nil (h : Grows s s' []) (hs : s.Acyclic) (hcl : s.Closed)
    (ht : t.index < s.size) : s'.deref t = s.deref t := by
  rw [deref, deref, h.derefFrom_of_nil hcl ht]
  exact hs.derefFrom_eq ((s.rank_le_size t).trans h.size_le) (s.rank_le_size t)

theorem Grows.view_of_nil (h : Grows s s' []) (hs : s.WellFormed) (ht : t.index < s.size) :
    s'.view t = s.view t := by
  have hcell := h.kept (hs.deref_lt ht) List.not_mem_nil
  simp only [view, h.deref_of_nil hs.acyclic hs.isClosed ht, hcell]

/-- A solution extends to new cells. -/
theorem Grows.extend_models (h : Grows s s' []) (hs : s.WellFormed) (hs' : s'.Acyclic)
    {val : Ref → Tree W} (hm : s.Models val) :
    ∃ val' : Ref → Tree W, s'.Models val' ∧ ∀ t, t.index < s.size → val' t = val t := by
  refine ⟨fun t => (s'.resolve t).bind val, hs'.models_bind_resolve val, fun t ht => ?_⟩
  show (s'.resolve t).bind val = val t
  rw [h.resolve_of_nil hs hs' ht, ← hm.eq_bind hs.acyclic]

/-! ## Variables out of reach -/

/-- No cell of the earlier store reaches `v` later that did not reach it before. -/
def Spares (s s' : Store) (v : Ref) : Prop :=
  ∀ t, t.index < s.size → s'.Reaches t v → s.Reaches t v

theorem Spares.refl (s : Store) (v : Ref) : Spares s s v := fun _ _ hr => hr

theorem Spares.trans (h : Spares s s' v) (h' : Spares s' s'' v) (hle : s.size ≤ s'.size) :
    Spares s s'' v :=
  fun t ht hr => h t ht (h' t (Nat.lt_of_lt_of_le ht hle) hr)

/-- Where nothing was bound, old cells reach what they did. -/
theorem Grows.reaches_of_reaches (h : Grows s s' []) (hs : s.WellFormed) (ht : t.index < s.size)
    (hr : s'.Reaches t u) : s.Reaches t u := by
  induction hr using ReflTransGen.head_induction_on with
  | refl => exact .refl
  | head hp _ ih =>
    rename_i t w _
    have hold : s.Points t w := by
      have hcell := h.kept ht List.not_mem_nil
      cases hp with
      | arg hc hmem => exact .arg (hcell ▸ hc) hmem
      | binding hc => exact .binding (hcell ▸ hc)
    exact .head hold (ih (hs.closed hold))

theorem Grows.rank_le (h : Grows s s' []) (hs : s.WellFormed) (ht : t.index < s.size) :
    s'.rank t ≤ s.rank t := by
  classical
  have hlt : ∀ {i : Nat}, s'.Reaches t ⟨i⟩ → i < s.size := fun hr =>
    hs.lt_of_reaches ht (h.reaches_of_reaches hs ht hr)
  refine Finset.card_le_card_of_injOn (fun i => if hi : i.1 < s.size then ⟨i.1, hi⟩ else ⟨t.index, ht⟩)
    (fun i hi => ?_) fun i hi j hj heq => ?_
  · rw [Finset.mem_coe, Finset.mem_filter] at hi ⊢
    simp only [dif_pos (hlt hi.2)]
    exact ⟨Finset.mem_univ _, h.reaches_of_reaches hs ht hi.2⟩
  · rw [Finset.mem_coe, Finset.mem_filter] at hi hj
    simp only [dif_pos (hlt hi.2), dif_pos (hlt hj.2), Fin.mk.injEq] at heq
    exact Fin.ext heq

theorem Grows.spares (h : Grows s s' []) (hs : s.WellFormed) (v : Ref) : Spares s s' v :=
  fun _ ht hr => h.reaches_of_reaches hs ht hr

/-! ## New cells -/

@[simp] theorem size_push (s : Store) (c : Cell) : (s.push c).2.size = s.size + 1 := by
  simp [push, size]

theorem push_fst (s : Store) (c : Cell) : (s.push c).1 = ⟨s.size⟩ := rfl

theorem cell?_push_of_lt (c : Cell) (h : t.index < s.size) : (s.push c).2.cell? t = s.cell? t := by
  simp only [cell?, push]
  exact Array.getElem?_push_lt h ▸ (Array.getElem?_eq_getElem h).symm

theorem cell?_push_self (s : Store) (c : Cell) : (s.push c).2.cell? ⟨s.size⟩ = some c := by
  simp [cell?, push, size]

theorem cell?_push_cases {c d : Cell} (h : (s.push c).2.cell? t = some d) :
    (t.index < s.size ∧ s.cell? t = some d) ∨ (t = ⟨s.size⟩ ∧ c = d) := by
  have hlt := index_lt_of_cell? h
  rw [size_push] at hlt
  rcases Nat.lt_succ_iff_lt_or_eq.mp hlt with hlt | heq
  · exact .inl ⟨hlt, by rwa [cell?_push_of_lt c hlt] at h⟩
  · obtain ⟨i⟩ := t
    subst heq
    rw [cell?_push_self] at h
    exact .inr ⟨rfl, Option.some.inj h⟩

theorem grows_push (s : Store) (c : Cell) : Grows s (s.push c).2 [] where
  size_le := by rw [size_push]; exact Nat.le_succ _
  trail := (List.append_nil _).symm
  kept ht _ := cell?_push_of_lt c ht
  bound _ h := by cases h

theorem points_push_cases {c : Cell} (h : (s.push c).2.Points t u) :
    s.Points t u ∨ (t = ⟨s.size⟩ ∧ u ∈ c.mentions) := by
  cases h with
  | arg hc hmem =>
    rcases cell?_push_cases hc with ⟨-, hc⟩ | ⟨rfl, rfl⟩
    · exact .inl (.arg hc hmem)
    · exact .inr ⟨rfl, hmem⟩
  | binding hc =>
    rcases cell?_push_cases hc with ⟨-, hc⟩ | ⟨rfl, rfl⟩
    · exact .inl (.binding hc)
    · exact .inr ⟨rfl, by simp [Cell.mentions]⟩

theorem WellFormed.push (hs : s.WellFormed) {c : Cell} (hmade : c.WellMade)
    (hlt : ∀ u ∈ c.mentions, u.index < s.size) : (s.push c).2.WellFormed := by
  have hclosed : ∀ {t u}, (s.push c).2.Points t u → u.index < s.size := by
    intro t u hp
    rcases points_push_cases hp with hp | ⟨-, hu⟩
    · exact hs.closed hp
    · exact hlt u hu
  refine ⟨fun hp => ?_, fun t hcycle => ?_, fun hc => ?_⟩
  · rw [size_push]
    exact Nat.lt_succ_of_lt (hclosed hp)
  · -- No edge leads to the new cell, so a cycle would be one of old cells.
    have hold : ∀ {t u}, TransGen (s.push c).2.Points t u → t.index < s.size →
        TransGen s.Points t u := by
      intro t u hp
      induction hp using TransGen.head_induction_on with
      | single hp =>
        intro ht
        rcases points_push_cases hp with hp | ⟨rfl, -⟩
        · exact .single hp
        · exact absurd ht (Nat.lt_irrefl _)
      | head hp _ ih =>
        intro ht
        have ih := ih (hclosed hp)
        rcases points_push_cases hp with hp | ⟨rfl, -⟩
        · exact .head hp ih
        · exact absurd ht (Nat.lt_irrefl _)
    obtain ⟨w, -, hw⟩ := TransGen.tail'_iff.mp hcycle
    exact hs.acyclic t (hold hcycle (hclosed hw))
  · rcases cell?_push_cases hc with ⟨-, hc⟩ | ⟨-, rfl⟩
    · exact hs.made hc
    · exact hmade

/-- A new cell leads where the cells that it mentions lead. -/
theorem WellFormed.reaches_of_push (hs : s.WellFormed) {c : Cell}
    (hlt : ∀ u ∈ c.mentions, u.index < s.size) (hv : v.index < s.size)
    (hr : (s.push c).2.Reaches ⟨s.size⟩ v) : ∃ u ∈ c.mentions, s.Reaches u v := by
  rcases ReflTransGen.cases_head hr with rfl | ⟨w, hp, hr⟩
  · exact absurd hv (Nat.lt_irrefl _)
  · rcases points_push_cases hp with hp | ⟨-, hmem⟩
    · exact absurd hp.index_lt (Nat.lt_irrefl _)
    · exact ⟨w, hmem, (grows_push s c).reaches_of_reaches hs (hlt w hmem) hr⟩

theorem bound_push_iff {c : Cell} (hc : ∀ name u, c ≠ .var name (some u)) :
    (s.push c).2.Bound t ↔ s.Bound t := by
  constructor
  · rintro ⟨name, u, h⟩
    rcases cell?_push_cases h with ⟨-, h⟩ | ⟨-, h⟩
    · exact ⟨name, u, h⟩
    · exact absurd h (hc name u)
  · rintro ⟨name, u, h⟩
    exact ⟨name, u, by rw [cell?_push_of_lt c (index_lt_of_cell? h), h]⟩

theorem Trailed.push (hs : s.Trailed) {c : Cell} (hc : ∀ name u, c ≠ .var name (some u)) :
    (s.push c).2.Trailed where
  nodup := hs.nodup
  bound_iff t := (bound_push_iff hc).trans (hs.bound_iff t)

/-- The cell of a name applied to arguments. -/
def applyCell (name : String) (args : List Ref) : Cell :=
  if args.isEmpty then .literal (.atom name) else .compound name args

theorem apply_eq (s : Store) (name : String) (args : List Ref) :
    s.apply name args = s.push (applyCell name args) := by
  rw [apply, applyCell]
  split <;> rfl

theorem applyCell_wellMade (name : String) (args : List Ref) : (applyCell name args).WellMade := by
  rw [applyCell]
  split
  · trivial
  · rename_i h
    exact fun hnil => h (by simp [hnil])

theorem mem_mentions_applyCell {name : String} {args : List Ref}
    (h : u ∈ (applyCell name args).mentions) : u ∈ args := by
  rw [applyCell] at h
  split at h
  · cases h
  · exact h

theorem applyCell_ne_bound (name : String) (args : List Ref) (n : Option String) (u : Ref) :
    applyCell name args ≠ .var n (some u) := by
  rw [applyCell]
  split <;> nofun

theorem grows_apply (s : Store) (name : String) (args : List Ref) :
    Grows s (s.apply name args).2 [] :=
  apply_eq s name args ▸ grows_push s _

theorem apply_lt (s : Store) (name : String) (args : List Ref) :
    (s.apply name args).1.index < (s.apply name args).2.size := by
  rw [apply_eq, size_push]
  exact Nat.lt_succ_self _

theorem WellFormed.apply (hs : s.WellFormed) (name : String) {args : List Ref}
    (hlt : ∀ u ∈ args, u.index < s.size) : (s.apply name args).2.WellFormed := by
  rw [apply_eq]
  exact hs.push (applyCell_wellMade name args) fun u hu => hlt u (mem_mentions_applyCell hu)

theorem Trailed.apply (hs : s.Trailed) (name : String) (args : List Ref) :
    (s.apply name args).2.Trailed := by
  rw [apply_eq]
  exact hs.push (applyCell_ne_bound name args)

/-- A name applied to arguments leads where these lead. -/
theorem WellFormed.reaches_of_apply (hs : s.WellFormed) {name : String} {args : List Ref}
    (hlt : ∀ u ∈ args, u.index < s.size) (hv : v.index < s.size)
    (hr : (s.apply name args).2.Reaches (s.apply name args).1 v) : ∃ u ∈ args, s.Reaches u v := by
  rw [apply_eq] at hr
  obtain ⟨u, hu, hr⟩ :=
    hs.reaches_of_push (fun u hu => hlt u (mem_mentions_applyCell hu)) hv hr
  exact ⟨u, mem_mentions_applyCell hu, hr⟩

/-- A name applied to arguments denotes the name over their trees. -/
theorem Models.apply {name : String} {args : List Ref} {val : Ref → Tree W}
    (hm : (s.apply name args).2.Models val) :
    val (s.apply name args).1 = Tree.apply name (args.map val) := by
  rw [apply_eq] at hm ⊢
  have hcell := hm _ _ (cell?_push_self s (applyCell name args))
  rw [applyCell] at hcell
  rcases args with _ | ⟨t, ts⟩
  · exact hcell
  · exact hcell

theorem literals_concat (s : Store) (ls : List Literal) (l : Literal) :
    s.literals (ls ++ [l]) =
      ((s.literals ls).1 ++ [((s.literals ls).2.literal l).1], ((s.literals ls).2.literal l).2) := by
  simp only [literals, List.foldl_append, List.foldl_cons, List.foldl_nil, List.reverse_cons]

/-! ## New bindings -/

@[simp] theorem size_bind (s : Store) (v u : Ref) : (s.bind v u).size = s.size := by
  simp [bind, setBinding, size]

theorem trail_bind (s : Store) (v u : Ref) : (s.bind v u).trail.toList = s.trail.toList ++ [v] := by
  simp [bind]

theorem cell?_bind_of_ne (u : Ref) (h : t ≠ v) : (s.bind v u).cell? t = s.cell? t := by
  have hne : v.index ≠ t.index := fun heq => h (congrArg Ref.mk heq.symm)
  simp [bind, setBinding, cell?, Array.getElem?_modify, hne]

theorem cell?_bind_self (u : Ref) {name : Option String} {b : Option Ref}
    (h : s.cell? v = some (.var name b)) : (s.bind v u).cell? v = some (.var name (some u)) := by
  simp only [cell?] at h
  simp [bind, setBinding, cell?, Array.getElem?_modify, h]

theorem Free.grows_bind (hf : s.Free v) (u : Ref) : Grows s (s.bind v u) [v] where
  size_le := by rw [size_bind]
  trail := trail_bind s v u
  kept _ hmem := cell?_bind_of_ne u fun heq => hmem (List.mem_singleton.mpr heq)
  bound {t} _ hmem := by
    obtain ⟨name, hc⟩ := hf
    rw [List.mem_singleton] at hmem
    subst hmem
    exact ⟨name, u, hc, cell?_bind_self u hc⟩

theorem Free.points_bind_cases (hf : s.Free v) {w : Ref} (h : (s.bind v w).Points t u) :
    s.Points t u ∨ (t = v ∧ u = w) := by
  by_cases ht : t = v
  · subst ht
    obtain ⟨name, hc⟩ := hf
    exact .inr ⟨rfl, (points_of_bound (cell?_bind_self w hc)).mp h⟩
  · left
    cases h with
    | arg hc hmem => exact .arg (cell?_bind_of_ne w ht ▸ hc) hmem
    | binding hc => exact .binding (cell?_bind_of_ne w ht ▸ hc)

/-- Binding a free variable to a term that it does not occur in makes no cycle. -/
theorem WellFormed.bind (hs : s.WellFormed) (hf : s.Free v) (hu : u.index < s.size)
    (hoccurs : ¬ s.Reaches u v) : (s.bind v u).WellFormed := by
  refine ⟨fun hp => ?_, fun t hcycle => ?_, fun {t c} hc => ?_⟩
  · rw [size_bind]
    rcases hf.points_bind_cases hp with hp | ⟨-, rfl⟩
    · exact hs.closed hp
    · exact hu
  · -- A path that uses the new edge leads to `v` and goes on from `u`.
    have hpath : ∀ {t w}, TransGen (s.bind v u).Points t w →
        TransGen s.Points t w ∨ (s.Reaches t v ∧ s.Reaches u w) := by
      intro t w hp
      induction hp with
      | single hp =>
        rcases hf.points_bind_cases hp with hp | ⟨rfl, rfl⟩
        · exact .inl (.single hp)
        · exact .inr ⟨.refl, .refl⟩
      | tail _ hp ih =>
        rcases hf.points_bind_cases hp with hp | ⟨rfl, rfl⟩
        · rcases ih with ih | ⟨htv, huw⟩
          · exact .inl (ih.tail hp)
          · exact .inr ⟨htv, huw.tail hp⟩
        · rcases ih with ih | ⟨htv, -⟩
          · exact .inr ⟨ih.to_reflTransGen, .refl⟩
          · exact .inr ⟨htv, .refl⟩
    rcases hpath hcycle with hp | ⟨htv, hut⟩
    · exact hs.acyclic t hp
    · exact hoccurs (hut.trans htv)
  · by_cases ht : t = v
    · obtain ⟨name, hcv⟩ := hf
      rw [ht, cell?_bind_self u hcv] at hc
      cases hc
      trivial
    · exact hs.made (cell?_bind_of_ne u ht ▸ hc)

/-- A binding leads nowhere that its value does not lead. -/
theorem Free.reaches_of_bind (hf : s.Free v) {w : Ref} (hu : ¬ s.Reaches u w)
    (hr : (s.bind v u).Reaches t w) : s.Reaches t w := by
  induction hr using ReflTransGen.head_induction_on with
  | refl => exact .refl
  | head hp _ ih =>
    rcases hf.points_bind_cases hp with hp | ⟨rfl, rfl⟩
    · exact .head hp ih
    · exact absurd ih hu

theorem Trailed.bind (hs : s.Trailed) (hf : s.Free v) (u : Ref) : (s.bind v u).Trailed where
  nodup := by
    rw [trail_bind]
    refine hs.nodup.append (List.nodup_singleton v) fun w hw hmem => ?_
    rw [List.mem_singleton] at hmem
    exact hf.not_bound ((hs.bound_iff v).mpr (hmem ▸ hw))
  bound_iff t := by
    rw [trail_bind, List.mem_append, List.mem_singleton, ← hs.bound_iff]
    by_cases ht : t = v
    · subst ht
      obtain ⟨name, hc⟩ := hf
      exact iff_of_true ⟨name, u, cell?_bind_self u hc⟩ (.inr rfl)
    · simp only [Bound, cell?_bind_of_ne u ht, ht, or_false]

/-! ## Undoing -/

/-- The cell with its variable freed. -/
def unbound : Cell → Cell
  | .var name _ => .var name none
  | c => c

theorem unbound_unbound (c : Cell) : unbound (unbound c) = unbound c := by
  cases c <;> rfl

theorem getElem?_setBinding_none (cells : Array Cell) (v : Ref) (i : Nat) :
    (setBinding cells v none)[i]? = if v.index = i then cells[i]?.map unbound else cells[i]? := by
  rw [setBinding, Array.getElem?_modify]
  congr 1

theorem getElem?_foldl_setBinding (vs : List Ref) (cells : Array Cell) (i : Nat) :
    (vs.foldl (fun cells v => setBinding cells v none) cells)[i]? =
      if ⟨i⟩ ∈ vs then cells[i]?.map unbound else cells[i]? := by
  induction vs generalizing cells with
  | nil => simp
  | cons v vs ih =>
    rw [List.foldl_cons, ih, getElem?_setBinding_none]
    obtain ⟨j⟩ := v
    by_cases hj : j = i
    · subst hj
      simp only [List.mem_cons, true_or, ite_true]
      split
      · rw [Option.map_map]
        exact congrArg (Option.map · _) (funext unbound_unbound)
      · rfl
    · have hne : (⟨i⟩ : Ref) ≠ ⟨j⟩ := fun heq => hj (congrArg Ref.index heq).symm
      simp only [hj, ite_false, List.mem_cons, hne, false_or]

/-- **Undoing is exact**: the variables on the trail beyond the mark are freed, and nothing else
happens. -/
theorem cell?_undoTo (s : Store) (k : Nat) (t : Ref) :
    (s.undoTo k).cell? t =
      if t ∈ s.trail.toList.drop k then (s.cell? t).map unbound else s.cell? t := by
  have hfold : (s.undoTo k).cells =
      (s.trail.toList.drop k).foldl (fun cells v => setBinding cells v none) s.cells := by
    simp only [undoTo]
    rw [Array.foldl_eq_foldl_extract, ← Array.foldl_toList, Array.toList_extract,
      List.extract_eq_take_drop, List.take_of_length_le (by simp)]
  rw [cell?, hfold, getElem?_foldl_setBinding]
  rfl

theorem trail_undoTo (s : Store) (k : Nat) :
    (s.undoTo k).trail.toList = s.trail.toList.take k := by
  simp [undoTo]

theorem mark_undoTo (s : Store) (k : Nat) : (s.undoTo k).mark = min k s.mark := by
  have hlen := congrArg List.length (trail_undoTo s k)
  rwa [List.length_take, Array.length_toList, Array.length_toList] at hlen

@[simp] theorem size_undoTo (s : Store) (k : Nat) : (s.undoTo k).size = s.size := by
  have hlt : ∀ i, i < (s.undoTo k).size ↔ i < s.size := by
    intro i
    have hcell := cell?_undoTo s k ⟨i⟩
    have hnone : (s.undoTo k).cell? ⟨i⟩ = none ↔ s.cell? ⟨i⟩ = none := by
      rw [hcell]
      split <;> simp
    simp only [cell?, Array.getElem?_eq_none_iff] at hnone
    simp only [size]
    omega
  have h := hlt s.size
  have h' := hlt (s.undoTo k).size
  omega

theorem points_of_undoTo {k : Nat} (h : (s.undoTo k).Points t u) : s.Points t u := by
  have hcell := cell?_undoTo s k t
  by_cases hmem : t ∈ s.trail.toList.drop k
  · rw [if_pos hmem] at hcell
    cases h with
    | arg hc hu =>
      rw [hcell] at hc
      obtain ⟨c, hc, hun⟩ := Option.map_eq_some_iff.mp hc
      cases c <;> cases hun
      exact .arg hc hu
    | binding hc =>
      rw [hcell] at hc
      obtain ⟨c, -, hun⟩ := Option.map_eq_some_iff.mp hc
      cases c <;> cases hun
  · rw [if_neg hmem] at hcell
    cases h with
    | arg hc hu => exact .arg (hcell ▸ hc) hu
    | binding hc => exact .binding (hcell ▸ hc)

theorem spares_undoTo (s : Store) (k : Nat) (v : Ref) : Spares s (s.undoTo k) v :=
  fun _ _ hr => hr.lift id fun _ _ hp => points_of_undoTo hp

theorem WellFormed.undoTo (hs : s.WellFormed) (k : Nat) : (s.undoTo k).WellFormed where
  closed hp := by
    rw [size_undoTo]
    exact hs.closed (points_of_undoTo hp)
  acyclic t hcycle := hs.acyclic t (hcycle.lift id fun _ _ hp => points_of_undoTo hp)
  made {t c} hc := by
    rw [cell?_undoTo] at hc
    split at hc
    · obtain ⟨d, hd, rfl⟩ := Option.map_eq_some_iff.mp hc
      have hmade := hs.made hd
      cases d <;> exact hmade
    · exact hs.made hc

theorem not_bound_undoTo {k : Nat} (h : t ∈ s.trail.toList.drop k) : ¬ (s.undoTo k).Bound t := by
  rintro ⟨name, u, hc⟩
  rw [cell?_undoTo, if_pos h] at hc
  obtain ⟨c, -, hun⟩ := Option.map_eq_some_iff.mp hc
  cases c <;> cases hun

theorem Trailed.undoTo (hs : s.Trailed) (k : Nat) : (s.undoTo k).Trailed where
  nodup := by
    rw [trail_undoTo]
    exact hs.nodup.sublist (List.take_sublist _ _)
  bound_iff t := by
    rw [trail_undoTo]
    have hsplit : t ∈ s.trail.toList ↔ t ∈ s.trail.toList.take k ∨ t ∈ s.trail.toList.drop k := by
      rw [← List.mem_append, List.take_append_drop]
    by_cases hmem : t ∈ s.trail.toList.drop k
    · exact iff_of_false (not_bound_undoTo hmem) fun h =>
        List.disjoint_take_drop hs.nodup (Nat.le_refl k) h hmem
    · have hcell := cell?_undoTo s k t
      rw [if_neg hmem] at hcell
      rw [Bound, hcell, ← Bound, hs.bound_iff, hsplit, or_iff_left hmem]

/-- **A store that has grown and is undone has grown by what is left of the bindings.** -/
theorem Grows.undoTo (h : Grows s s' vs) (hs' : s'.Trailed) {k : Nat} (hk : s.mark ≤ k) :
    Grows s (s'.undoTo k) (vs.take (k - s.mark)) := by
  have hdrop : s'.trail.toList.drop k = vs.drop (k - s.mark) := by
    rw [h.trail, List.drop_append, List.drop_of_length_le (by simpa [mark] using hk), mark]
    simp
  have hnodup : vs.Nodup := by
    have := hs'.nodup
    rw [h.trail] at this
    exact this.of_append_right
  refine ⟨by rw [size_undoTo]; exact h.size_le, ?_, fun {t} ht hmem => ?_, fun {t} ht hmem => ?_⟩
  · rw [trail_undoTo, h.trail, List.take_append, List.take_of_length_le (by simpa [mark] using hk),
      mark]
    simp
  · rw [cell?_undoTo, hdrop]
    by_cases hv : t ∈ vs
    · have hdropped : t ∈ vs.drop (k - s.mark) := by
        rw [← List.take_append_drop (k - s.mark) vs, List.mem_append] at hv
        exact hv.resolve_left hmem
      obtain ⟨name, u, hc, hc'⟩ := h.bound ht hv
      rw [if_pos hdropped, hc', hc]
      rfl
    · rw [if_neg fun hd => hv (List.mem_of_mem_drop hd), h.kept ht hv]
  · rw [cell?_undoTo, hdrop,
      if_neg fun hd => List.disjoint_take_drop hnodup (Nat.le_refl _) hmem hd]
    exact h.bound ht (List.mem_of_mem_take hmem)

/-- A store that has grown and is undone to where it was has its cells back. -/
theorem Grows.undoTo_mark (h : Grows s s' vs) (hs' : s'.Trailed) : Grows s (s'.undoTo s.mark) [] := by
  have hundone := h.undoTo hs' (Nat.le_refl _)
  rwa [Nat.sub_self, List.take_zero] at hundone

end Store

end Clausal
