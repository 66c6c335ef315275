import Clausal.Proofs.Store.Rebuilding

/-! # Settled places

A place is settled if the term there can be read off without following a binding: the arguments of a
compound are older cells and are settled themselves.  New cells do not change that (`Settled.grow`), and
what is added to a store is settled (`Settles`), whatever else there is in the store.

A term that is built has new variables in it, one for each of its own (`exists_settles_build`).
-/

namespace Clausal.Store

open List (Forall₂)

variable {s s' : Store} {t : Ref} {x : Term} {ts : List Ref} {xs : List Term} {name : String}

/-- The place holds the term, with no variable bound and older cells for the arguments of a compound. -/
inductive Settled (s : Store) : Ref → Term → Prop
  /-- A constant. -/
  | literal {t : Ref} {l : Literal} (cell : s.cell? t = some (.literal l)) : Settled s t (.literal l)
  /-- A free variable, whose number is its place. -/
  | var {t : Ref} {name : Option String} (cell : s.cell? t = some (.var name none)) :
    Settled s t (.var ⟨t.index, name⟩)
  /-- A compound comes after its arguments. -/
  | compound {t : Ref} {name : String} {ts : List Ref} {xs : List Term}
    (cell : s.cell? t = some (.compound name ts)) (older : ∀ u ∈ ts, u.index < t.index)
    (length_eq : ts.length = xs.length) (parts : ∀ p ∈ ts.zip xs, Settled s p.1 p.2) :
    Settled s t (.compound name xs)

theorem Settled.lt (h : Settled s t x) : t.index < s.size := by
  cases h with
  | literal cell => exact index_lt_of_cell? cell
  | var cell => exact index_lt_of_cell? cell
  | compound cell => exact index_lt_of_cell? cell

theorem Settled.grow (h : Settled s t x) (hgrows : Grows s s' []) : Settled s' t x := by
  have hcell : ∀ {t c}, s.cell? t = some c → s'.cell? t = some c := by
    intro t c hc
    exact (hgrows.kept (index_lt_of_cell? hc) List.not_mem_nil).trans hc
  induction h with
  | literal cell => exact .literal (hcell cell)
  | var cell => exact .var (hcell cell)
  | compound cell older length_eq _ ih => exact .compound (hcell cell) older length_eq ih

/-- What is settled is read off, going down to older cells. -/
theorem Settled.snapshotFrom_eq (h : Settled s t x) {n : Nat} (hn : t.index < n) :
    s.snapshotFrom n t = x := by
  induction h generalizing n with
  | literal cell =>
    obtain ⟨n, rfl⟩ := Nat.exists_eq_add_of_lt hn
    rw [snapshotFrom, view_of_literal cell]
  | @var t name cell =>
    obtain ⟨n, rfl⟩ := Nat.exists_eq_add_of_lt hn
    have hfree : s.Free t := ⟨name, cell⟩
    rw [snapshotFrom, view_of_free hfree]
    simp only [varName?, deref_of_not_bound hfree.not_bound, cell]
  | @compound t name ts xs cell older length_eq _ ih =>
    obtain ⟨n, rfl⟩ := Nat.exists_eq_add_of_lt hn
    have hargs : ts.map (s.snapshotFrom (t.index + n)) = xs.map id := by
      refine map_eq_map_of_zip length_eq fun p hmem => ih p hmem ?_
      have hlt := older p.1 (List.of_mem_zip hmem).1
      omega
    rw [List.map_id] at hargs
    rw [snapshotFrom, view_of_compound cell]
    exact congrArg (Term.compound name) hargs

theorem Settled.snapshot_eq (h : Settled s t x) : s.snapshot t = x :=
  h.snapshotFrom_eq (Nat.lt_succ_of_lt h.lt)

/-- The variables of what is settled are places of the store. -/
theorem Settled.id_lt (h : Settled s t x) : ∀ v ∈ x.vars, v.id < s.size := by
  induction h with
  | literal cell =>
    rw [Term.vars_literal]
    exact nofun
  | var cell =>
    rw [Term.vars_var, List.forall_mem_singleton]
    exact index_lt_of_cell? cell
  | compound cell _ length_eq _ ih =>
    intro v hv
    rw [Term.vars_compound, List.mem_flatMap] at hv
    obtain ⟨x, hx, hv⟩ := hv
    rw [← List.map_snd_zip length_eq.ge, List.mem_map] at hx
    obtain ⟨p, hp, rfl⟩ := hx
    exact ih p hp v hv

/-! ## What is added -/

/-- The place in `r` holds the term, which was made by adding cells to the store. -/
structure Settles (s : Store) (r : Ref × Store) (x : Term) : Prop where
  /-- There are only new cells. -/
  grows : Grows s r.2 []
  /-- The term. -/
  settled : Settled r.2 r.1 x

theorem Settles.after {r : Ref × Store} (h : Settles s' r x) (hgrows : Grows s s' []) : Settles s r x :=
  ⟨hgrows.trans h.grows, h.settled⟩

theorem settles_literal (s : Store) (l : Literal) : Settles s (s.literal l) (.literal l) :=
  ⟨grows_push s _, .literal (cell?_push_self s _)⟩

theorem settles_var (s : Store) (name : Option String) :
    Settles s (s.var name) (.var ⟨s.size, name⟩) :=
  ⟨grows_push s _, .var (cell?_push_self s _)⟩

theorem settles_apply (name : String) (h : Forall₂ (Settled s) ts xs) (hne : ts ≠ []) :
    Settles s (s.apply name ts) (.compound name xs) := by
  have hcell : applyCell name ts = .compound name ts := by
    rw [applyCell, if_neg (by rwa [List.isEmpty_iff])]
  obtain ⟨hlength, hparts⟩ := List.forall₂_iff_zip.mp h
  have hlt : ∀ u ∈ ts, u.index < s.size := by
    intro u hu
    rw [← List.map_fst_zip hlength.le, List.mem_map] at hu
    obtain ⟨p, hp, rfl⟩ := hu
    exact (hparts hp).lt
  have hgrows := grows_push s (.compound name ts)
  rw [apply_eq, hcell]
  exact ⟨hgrows, .compound (cell?_push_self s _) hlt hlength fun p hp => (hparts hp).grow hgrows⟩

theorem settles_partialList (h : Forall₂ (Settled s) ts xs) (ht : Settled s t x) :
    Settles s (s.partialList ts t) (.partialList xs x) := by
  induction h with
  | nil => exact ⟨.refl s, ht⟩
  | @cons u y ts xs hu _ ih =>
    have hcons : Forall₂ (Settled (s.partialList ts t).2) [u, (s.partialList ts t).1]
        [y, .partialList xs x] := .cons (hu.grow ih.grows) (.cons ih.settled .nil)
    exact (settles_apply "." hcons (List.cons_ne_nil _ _)).after ih.grows

theorem settles_list (h : Forall₂ (Settled s) ts xs) : Settles s (s.list ts) (.list xs) := by
  have hnil := settles_literal s (.atom "[]")
  have hitems : Forall₂ (Settled (s.atom "[]").2) ts xs := h.imp fun _ _ hx => hx.grow hnil.grows
  exact (settles_partialList hitems hnil.settled).after hnil.grows

theorem settles_literalList (s : Store) (ls : List Literal) :
    Settles s ((s.literals ls).2.list (s.literals ls).1) (.list (ls.map .literal)) := by
  have hitems : Grows s (s.literals ls).2 [] ∧
      Forall₂ (Settled (s.literals ls).2) (s.literals ls).1 (ls.map .literal) := by
    induction ls using List.reverseRecOn with
    | nil => exact ⟨.refl s, .nil⟩
    | append_singleton ls l ih =>
      have hlast := settles_literal (s.literals ls).2 l
      rw [literals_concat, List.map_append]
      refine ⟨ih.1.trans hlast.grows, List.rel_append (ih.2.imp fun _ _ hx => hx.grow hlast.grows) ?_⟩
      exact .cons hlast.settled .nil
  exact (settles_list hitems.2).after hitems.1

/-! ## What is built -/

/-- The places that stand for variables after a term was built are those from before and new ones. -/
theorem index_buildWith (x : Term) (s : Store) (placed : Placed) :
    s.size ≤ (buildWith s placed x).2.1.size ∧ ∀ v t, (buildWith s placed x).2.2.lookup v = some t →
      placed.lookup v = some t ∨ s.size ≤ t.index := by
  induction x using Term.induct generalizing s placed with
  | literal l =>
    rw [buildWith]
    exact ⟨(grows_push s _).size_le, fun _ _ => .inl⟩
  | var v =>
    rw [buildWith]
    split
    · exact ⟨Nat.le_refl _, fun _ _ => .inl⟩
    · refine ⟨(grows_push s _).size_le, ?_⟩
      intro w t hw
      rw [List.lookup_cons] at hw
      split at hw
      · cases hw
        exact .inr (Nat.le_refl _)
      · exact .inl hw
  | compound name xs ih =>
    have hargs : s.size ≤ (buildArgs s placed xs).2.1.size ∧
        ∀ v t, (buildArgs s placed xs).2.2.lookup v = some t →
          placed.lookup v = some t ∨ s.size ≤ t.index := by
      clear name
      induction xs generalizing s placed with
      | nil => exact ⟨Nat.le_refl _, fun _ _ => .inl⟩
      | cons x xs ihs =>
        rw [List.forall_mem_cons] at ih
        obtain ⟨hle, hfirst⟩ := ih.1 s placed
        obtain ⟨hle', hrest⟩ := ihs ih.2 (buildWith s placed x).2.1 (buildWith s placed x).2.2
        rw [buildArgs]
        refine ⟨hle.trans hle', fun v t hv => ?_⟩
        rcases hrest v t hv with hv | ht
        · exact hfirst v t hv
        · exact .inr (hle.trans ht)
    rw [buildWith]
    exact ⟨hargs.1.trans (grows_push _ _).size_le, hargs.2⟩

/-- A term that was stored is settled, with the places of its variables as their numbers. -/
theorem Stored.settled {placed : Placed} (h : Stored s placed t x) (hp : placed.Named s) :
    Settled s t (x.rename placed.termVar) := by
  induction h with
  | literal cell =>
    rw [Term.rename_literal]
    exact .literal cell
  | @var t v entry =>
    have hvar : placed.termVar v = ⟨t.index, v.name⟩ := by
      rw [Placed.termVar, entry, Option.getD_some]
    rw [Term.rename_var, hvar]
    exact .var (hp.cell entry)
  | @compound t name ts xs cell older length_eq _ ih =>
    rw [Term.rename_compound]
    refine .compound cell older (length_eq.trans (List.length_map _).symm) ?_
    intro p hp
    rw [List.zip_map_right, List.mem_map] at hp
    obtain ⟨q, hq, rfl⟩ := hp
    exact ih q hq

/-- A term that is built in a store has new variables there, different ones for its different variables,
with the same names. -/
theorem exists_settles_build (s : Store) (x : Term) : ∃ f : TermVar → TermVar,
    Settles s (s.build x) (x.rename f) ∧ ∀ v ∈ x.vars, (f v).name = v.name ∧ s.size ≤ (f v).id ∧
      ∀ w ∈ x.vars, (f v).id = (f w).id → v = w := by
  have hbuilt := stores_buildWith x (Placed.Named.nil s)
  have hstored := hbuilt.stored _ (List.mem_singleton_self _)
  have hnew := (index_buildWith x s []).2
  refine ⟨Placed.termVar (buildWith s [] x).2.2, ⟨hbuilt.grows, hstored.settled hbuilt.named⟩, ?_⟩
  intro v hv
  obtain ⟨t, ht⟩ := hstored.covered v hv
  simp only [Placed.termVar, ht, Option.getD_some]
  have hnone : ¬ [].lookup v = some t := fun h => by cases h
  refine ⟨trivial, (hnew v t ht).resolve_left hnone, ?_⟩
  intro w hw heq
  obtain ⟨u, hu⟩ := hstored.covered w hw
  rw [hu, Option.getD_some] at heq
  obtain rfl : t = u := congrArg Ref.mk heq
  exact hbuilt.named.injective ht hu

end Clausal.Store
