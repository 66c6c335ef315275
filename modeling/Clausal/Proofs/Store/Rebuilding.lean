import Clausal.Proofs.Store.Duplicating

/-! # Terms put into a store and taken out again

A term that is built has a cell for each of its constants and compounds, and one for each of its
variables, told apart by number and name (`Stored`).  All of these are new, and arguments come before the
compound that they are arguments of, so a snapshot of the result goes down from cell to older cell and
meets the term again, with the places of the new cells as the numbers of its variables
(`Stored.snapshotFrom_eq`).

So a term comes out of any store as it was put in, up to a renumbering that keeps variables apart and
keeps their names (`snapshot_build`).  If it came out of a store in the first place, the result is a
variant of it.
-/

namespace Clausal

/-- The other term is this one with the variables numbered anew: different variables have different
numbers then, and all keep their names. -/
def Term.Renumbered (x y : Term) : Prop :=
  ∃ f : TermVar → TermVar, (∀ v ∈ x.vars, ∀ w ∈ x.vars, (f v).id = (f w).id ↔ v = w) ∧
    (∀ v ∈ x.vars, (f v).name = v.name) ∧ y = x.rename f

/-- No two variables have the same number. -/
def Term.Numbered (x : Term) : Prop := ∀ v ∈ x.vars, ∀ w ∈ x.vars, v.id = w.id → v = w

/-- Renumbering makes a variant exactly if the numbers told the variables apart before. -/
theorem Term.Renumbered.isVariant_iff {x y : Term} (h : x.Renumbered y) :
    y.isVariant x = true ↔ x.Numbered := by
  obtain ⟨f, hf, -, rfl⟩ := h
  rw [Term.isVariant_rename_iff]
  constructor
  · intro hapart v hv w hw heq
    exact (hf v hv w hw).mp ((hapart v hv w hw).mpr heq)
  · intro hx v hv w hw
    rw [hf v hv w hw]
    exact ⟨fun heq => congrArg TermVar.id heq, hx v hv w hw⟩

namespace Store

variable {s s' : Store} {placed placed' : Placed} {t : Ref} {v : TermVar} {x : Term} {xs : List Term}

/-- The places that stand for variables are those of free variables of the same names, and each stands
for one. -/
structure Placed.Named (placed : Placed) (s : Store) : Prop where
  /-- The variable is free and has the name. -/
  cell : ∀ {v t}, placed.lookup v = some t → s.cell? t = some (.var v.name none)
  /-- Different places stand for different variables. -/
  injective : ∀ {v w t}, placed.lookup v = some t → placed.lookup w = some t → v = w

theorem Placed.Named.nil (s : Store) : Placed.Named [] s := ⟨nofun, nofun⟩

theorem Placed.Named.grow (h : placed.Named s) (hgrows : Grows s s' []) : placed.Named s' where
  cell hv := (hgrows.kept (index_lt_of_cell? (h.cell hv)) List.not_mem_nil).trans (h.cell hv)
  injective := h.injective

/-- The variable that is added stands for one that was not met before. -/
theorem Placed.Named.var (h : placed.Named s) (v : TermVar) :
    Placed.Named ((v, (s.var v.name).1) :: placed) (s.var v.name).2 := by
  have hnew : (s.var v.name).2.cell? (s.var v.name).1 = some (.var v.name none) :=
    cell?_push_self s _
  have hold := h.grow (grows_push s (.var v.name none))
  have hapart : ∀ w, placed.lookup w ≠ some (s.var v.name).1 := by
    intro w hw
    exact absurd (index_lt_of_cell? (h.cell hw)) (Nat.lt_irrefl s.size)
  constructor
  · intro w t hw
    rw [List.lookup_cons] at hw
    cases heq : w == v <;> rw [heq] at hw
    · exact hold.cell hw
    · obtain rfl := eq_of_beq heq
      exact Option.some.inj hw ▸ hnew
  · intro w w' t hw hw'
    rw [List.lookup_cons] at hw hw'
    cases heq : w == v <;> rw [heq] at hw <;> cases heq' : w' == v <;> rw [heq'] at hw'
    · exact h.injective hw hw'
    · exact absurd (hw.trans hw'.symm) (hapart w)
    · exact absurd (hw'.trans hw.symm) (hapart w')
    · exact (eq_of_beq heq).trans (eq_of_beq heq').symm

/-- The variable that a placed one becomes. -/
def Placed.termVar (placed : Placed) (v : TermVar) : TermVar :=
  ⟨((placed.lookup v).getD default).index, v.name⟩

/-- The place `t` holds the term, with older cells for its arguments. -/
inductive Stored (s : Store) (placed : Placed) : Ref → Term → Prop
  /-- A constant has a cell of its own. -/
  | literal {t : Ref} {l : Literal} (cell : s.cell? t = some (.literal l)) :
    Stored s placed t (.literal l)
  /-- A variable is placed. -/
  | var {t : Ref} {v : TermVar} (entry : placed.lookup v = some t) : Stored s placed t (.var v)
  /-- A compound comes after its arguments. -/
  | compound {t : Ref} {name : String} {ts : List Ref} {xs : List Term}
    (cell : s.cell? t = some (.compound name ts)) (older : ∀ u ∈ ts, u.index < t.index)
    (length_eq : ts.length = xs.length) (parts : ∀ p ∈ ts.zip xs, Stored s placed p.1 p.2) :
    Stored s placed t (.compound name xs)

theorem Stored.grow (h : Stored s placed t x) (hgrows : Grows s s' [])
    (hkept : ∀ v t, placed.lookup v = some t → placed'.lookup v = some t) :
    Stored s' placed' t x := by
  have hcell : ∀ {t c}, s.cell? t = some c → s'.cell? t = some c := by
    intro t c hc
    exact (hgrows.kept (index_lt_of_cell? hc) List.not_mem_nil).trans hc
  induction h with
  | literal cell => exact .literal (hcell cell)
  | var entry => exact .var (hkept _ _ entry)
  | compound cell older length_eq _ ih => exact .compound (hcell cell) older length_eq ih

/-- All variables of a stored term are placed. -/
theorem Stored.covered (h : Stored s placed t x) : ∀ v ∈ x.vars, ∃ u, placed.lookup v = some u := by
  induction h with
  | literal cell =>
    rw [Term.vars_literal]
    exact nofun
  | var entry =>
    rw [Term.vars_var, List.forall_mem_singleton]
    exact ⟨_, entry⟩
  | compound cell _ length_eq _ ih =>
    intro v hv
    rw [Term.vars_compound, List.mem_flatMap] at hv
    obtain ⟨x, hx, hv⟩ := hv
    rw [← List.map_snd_zip length_eq.ge, List.mem_map] at hx
    obtain ⟨p, hp, rfl⟩ := hx
    exact ih p hp v hv

/-- What is stored is met again, going down to older cells. -/
theorem Stored.snapshotFrom_eq (h : Stored s placed t x) (hp : placed.Named s) {n : Nat}
    (hn : t.index < n) : s.snapshotFrom n t = x.rename placed.termVar := by
  induction h generalizing n with
  | literal cell =>
    obtain ⟨n, rfl⟩ := Nat.exists_eq_add_of_lt hn
    rw [snapshotFrom, view_of_literal cell, Term.rename_literal]
  | @var t v entry =>
    obtain ⟨n, rfl⟩ := Nat.exists_eq_add_of_lt hn
    have hfree : s.Free t := ⟨v.name, hp.cell entry⟩
    rw [snapshotFrom, view_of_free hfree, Term.rename_var]
    simp only [varName?, deref_of_not_bound hfree.not_bound, hp.cell entry, Placed.termVar, entry,
      Option.getD_some]
  | @compound t name ts xs cell older length_eq _ ih =>
    obtain ⟨n, rfl⟩ := Nat.exists_eq_add_of_lt hn
    rw [snapshotFrom, view_of_compound cell, Term.rename_compound]
    refine congrArg _ (map_eq_map_of_zip length_eq fun p hmem => ih p hmem ?_)
    have hlt := older p.1 (List.of_mem_zip hmem).1
    omega

/-! ## Building -/

/-- What it means that the terms were stored, and which places stand for their variables. -/
structure Stores (s : Store) (placed : Placed) (r : List Ref × Store × Placed) (xs : List Term) :
    Prop where
  /-- There are only new cells. -/
  grows : Grows s r.2.1 []
  /-- Variables that were placed stay where they are. -/
  kept : ∀ v t, placed.lookup v = some t → r.2.2.lookup v = some t
  /-- The places are those of free variables. -/
  named : r.2.2.Named r.2.1
  /-- There is a place for each term. -/
  length_eq : r.1.length = xs.length
  /-- The places are those of cells. -/
  lt : ∀ t ∈ r.1, t.index < r.2.1.size
  /-- The terms are there. -/
  stored : ∀ p ∈ r.1.zip xs, Stored r.2.1 r.2.2 p.1 p.2

theorem stores_buildArgs (hone : ∀ x ∈ xs, ∀ {s placed}, placed.Named s →
      Stores s placed ([(buildWith s placed x).1], (buildWith s placed x).2) [x])
    (hp : placed.Named s) : Stores s placed (buildArgs s placed xs) xs := by
  induction xs generalizing s placed with
  | nil => exact ⟨.refl s, fun _ _ => id, hp, rfl, nofun, nofun⟩
  | cons x xs ih =>
    rw [List.forall_mem_cons] at hone
    have hfirst := hone.1 hp
    have hrest := ih hone.2 hfirst.named
    rw [buildArgs]
    refine ⟨hfirst.grows.trans hrest.grows, fun v t hv => hrest.kept v t (hfirst.kept v t hv),
      hrest.named, congrArg Nat.succ hrest.length_eq, ?_, ?_⟩
    · rw [List.forall_mem_cons]
      exact ⟨Nat.lt_of_lt_of_le (hfirst.lt _ (List.mem_singleton_self _)) hrest.grows.size_le,
        hrest.lt⟩
    · rw [List.zip_cons_cons, List.forall_mem_cons]
      exact ⟨(hfirst.stored _ (List.mem_singleton_self _)).grow hrest.grows hrest.kept, hrest.stored⟩

theorem stores_buildWith (x : Term) (hp : placed.Named s) :
    Stores s placed ([(buildWith s placed x).1], (buildWith s placed x).2) [x] := by
  -- A single place and a single term.
  have hsingle : ∀ {s placed t s' placed' x}, Grows s s' [] →
      (∀ v t, placed.lookup v = some t → placed'.lookup v = some t) → Placed.Named placed' s' →
      t.index < s'.size → Stored s' placed' t x → Stores s placed ([t], s', placed') [x] := by
    intro s placed t s' placed' x hgrows hkept hnamed hlt hstored
    refine ⟨hgrows, hkept, hnamed, rfl, List.forall_mem_singleton.mpr hlt, ?_⟩
    exact List.forall_mem_singleton.mpr hstored
  induction x using Term.induct generalizing s placed with
  | literal l =>
    have hgrows := grows_push s (.literal l)
    have hcell := cell?_push_self s (.literal l)
    rw [buildWith]
    exact hsingle hgrows (fun _ _ => id) (hp.grow hgrows) (index_lt_of_cell? hcell) (.literal hcell)
  | var v =>
    rw [buildWith]
    split
    · rename_i t entry
      exact hsingle (.refl s) (fun _ _ => id) hp (index_lt_of_cell? (hp.cell entry)) (.var entry)
    · rename_i hnone
      have hself : List.lookup v ((v, (s.var v.name).1) :: placed) = some (s.var v.name).1 :=
        List.lookup_cons_self
      have hkept : ∀ w t, placed.lookup w = some t →
          List.lookup w ((v, (s.var v.name).1) :: placed) = some t := by
        intro w t hw
        have hne : (w == v) = false := by
          rw [beq_eq_false_iff_ne]
          rintro rfl
          rw [hnone] at hw
          cases hw
        rw [List.lookup_cons, hne]
        exact hw
      have hnamed := hp.var v
      exact hsingle (grows_push s _) hkept hnamed (index_lt_of_cell? (hnamed.cell hself)) (.var hself)
  | compound name xs ih =>
    have hargs := stores_buildArgs (fun x hx => ih x hx) hp
    rw [buildWith]
    generalize buildArgs s placed xs = r at hargs
    obtain ⟨ts, s', placed'⟩ := r
    have hgrows := grows_push s' (.compound name ts)
    have hcell := cell?_push_self s' (.compound name ts)
    refine hsingle (hargs.grows.trans hgrows) hargs.kept (hargs.named.grow hgrows)
      (index_lt_of_cell? hcell) (.compound hcell hargs.lt hargs.length_eq ?_)
    exact fun p hmem => (hargs.stored p hmem).grow hgrows fun _ _ => id

/-- The term that is taken out after it was built in the store. -/
def rebuilt (s : Store) (x : Term) : Term :=
  let (t, s) := s.build x
  s.snapshot t

/-- The term that is taken out is the one that was built, with its variables numbered anew. -/
theorem renumbered_rebuilt (s : Store) (x : Term) : x.Renumbered (s.rebuilt x) := by
  have hbuilt := stores_buildWith x (Placed.Named.nil s)
  have hstored := hbuilt.stored _ (List.mem_singleton_self _)
  have hlt := hbuilt.lt _ (List.mem_singleton_self _)
  refine ⟨Placed.termVar (buildWith s [] x).2.2, ?_, fun _ _ => rfl,
    hstored.snapshotFrom_eq hbuilt.named (Nat.lt_succ_of_lt hlt)⟩
  intro v hv w hw
  obtain ⟨t, ht⟩ := hstored.covered v hv
  obtain ⟨u, hu⟩ := hstored.covered w hw
  simp only [Placed.termVar, ht, hu, Option.getD_some]
  constructor
  · intro heq
    obtain rfl : t = u := congrArg Ref.mk heq
    exact hbuilt.named.injective ht hu
  · rintro rfl
    rw [ht] at hu
    exact congrArg Ref.index (Option.some.inj hu)

/-- Variables that were taken out of a store are told apart by their numbers, which are their places. -/
theorem numbered_snapshot (s : Store) (t : Ref) : (s.snapshot t).Numbered := by
  have hname : ∀ n t, ∀ v ∈ (s.snapshotFrom n t).vars, v.name = s.varName? ⟨v.id⟩ := by
    intro n
    induction n with
    | zero =>
      intro t v hv
      rw [snapshotFrom, Term.atom, Term.vars_literal] at hv
      cases hv
    | succ n ih =>
      intro t v hv
      rw [snapshotFrom] at hv
      rcases hview : s.view t with u | l | ⟨name, args⟩
      · rw [hview, Term.vars_var, List.mem_singleton] at hv
        rw [hv]
      · rw [hview, Term.vars_literal] at hv
        cases hv
      · rw [hview, Term.vars_compound, List.mem_flatMap] at hv
        obtain ⟨x, hx, hv⟩ := hv
        obtain ⟨u, -, rfl⟩ := List.mem_map.mp hx
        exact ih u v hv
  rintro ⟨i, name⟩ hv ⟨j, name'⟩ hw heq
  dsimp only at heq
  subst heq
  exact congrArg (TermVar.mk i) ((hname _ t _ hv).trans (hname _ t _ hw).symm)

/-- **Terms survive a store.**  Building a term changes no cell that was there, and binds nothing; what
is taken out then is the term with its variables renamed one to one, as they are told apart by number and
name, with their names kept and all else the same.  A term that was taken out of any store and is built
in another one comes out as a variant of itself, with the same names in the same places. -/
theorem snapshot_build (s : Store) (x : Term) :
    (∀ t, t.index < s.size → (s.build x).2.cell? t = s.cell? t) ∧ (s.build x).2.trail = s.trail ∧
      x.Renumbered (s.rebuilt x) ∧
      ∀ (s' : Store) (t : Ref), (s.rebuilt (s'.snapshot t)).isVariant (s'.snapshot t) = true ∧
        (s'.snapshot t).Renumbered (s.rebuilt (s'.snapshot t)) := by
  have hgrows := (stores_buildWith x (Placed.Named.nil s)).grows
  refine ⟨fun t ht => hgrows.kept ht List.not_mem_nil, ?_, renumbered_rebuilt s x, ?_⟩
  · have htrail := hgrows.trail
    rw [List.append_nil] at htrail
    exact Array.toList_inj.mp htrail
  · intro s' t
    have hrenumbered := renumbered_rebuilt s (s'.snapshot t)
    exact ⟨hrenumbered.isVariant_iff.mpr (numbered_snapshot s' t), hrenumbered⟩

end Store

end Clausal
