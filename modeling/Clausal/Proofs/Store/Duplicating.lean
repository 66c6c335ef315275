import Clausal.Store.Copy
import Clausal.Proofs.Store.Denotation
import Clausal.Proofs.Tree.Renaming

/-! # Copies outlive what they were copied from

A copy is made of new cells, and of old ones that hold no variable (`Copied`).  So its term is the
original's with new variables for the free ones, no binding is in force in it, and undoing to a mark
that was there before the copy cannot change it, whatever happens to the original
(`Acyclic.duplicates_copy`).

A compound is shared if its arguments copy to themselves.  An argument that is a bound variable copies
to the end of its chain, which is another place, and so no compound is shared from which a binding is
reached.
-/

namespace Clausal

/-- What stands for variables is new: unnamed variables, one for each. -/
structure Renaming.Fresh (fresh : Renaming) (base s : Store) : Prop where
  /-- They were not there before. -/
  new : ∀ {v x}, fresh.lookup v = some x → base.size ≤ x.index
  /-- They are free and have no name. -/
  unnamed : ∀ {v x}, fresh.lookup v = some x → s.cell? x = some (.var none none)
  /-- They are different for different variables. -/
  injective : ∀ {v w x}, fresh.lookup v = some x → fresh.lookup w = some x → v = w

/-- The variable of a copied term. -/
def Renaming.termVar (fresh : Renaming) (v : TermVar) : TermVar :=
  ⟨((fresh.lookup ⟨v.id⟩).getD ⟨v.id⟩).index, none⟩

theorem Renaming.Fresh.keepsApart {fresh : Renaming} {base s : Store} {vs : List TermVar}
    (h : fresh.Fresh base s) (hcovered : ∀ v ∈ vs, ∃ x, fresh.lookup ⟨v.id⟩ = some x) :
    Term.KeepsApart fresh.termVar vs := by
  intro v hv w hw
  obtain ⟨x, hx⟩ := hcovered v hv
  obtain ⟨y, hy⟩ := hcovered w hw
  simp only [Renaming.termVar, hx, hy, Option.getD_some]
  constructor
  · intro heq
    obtain rfl : x = y := congrArg Ref.mk heq
    exact congrArg Ref.index (h.injective hx hy)
  · intro heq
    rw [heq, hy] at hx
    cases hx
    rfl

namespace Store

open Relation

variable {s s' s'' : Store} {fresh fresh' : Renaming} {t u x : Ref}

/-! ## The cells of a copy -/

/-- The place `u` of the later store `s'` holds a copy of the term that is at `t` in `s`. -/
inductive Copied (s s' : Store) (fresh : Renaming) : Ref → Ref → Prop
  /-- A constant is its own copy. -/
  | literal {t : Ref} {l : Literal} (cell : s.cell? (s.deref t) = some (.literal l)) :
    Copied s s' fresh t (s.deref t)
  /-- A free variable is renamed. -/
  | var {t x : Ref} (free : s.Free (s.deref t)) (entry : fresh.lookup (s.deref t) = some x) :
    Copied s s' fresh t x
  /-- A compound whose arguments are their own copies is its own copy. -/
  | shared {t : Ref} {name : String} {args : List Ref}
    (cell : s.cell? (s.deref t) = some (.compound name args))
    (parts : ∀ a ∈ args, Copied s s' fresh a a) : Copied s s' fresh t (s.deref t)
  /-- Any other compound has a new cell for the copies of its arguments. -/
  | compound {t u : Ref} {name : String} {args copies : List Ref}
    (cell : s.cell? (s.deref t) = some (.compound name args))
    (copy : s'.cell? u = some (.compound name copies)) (differs : copies ≠ args)
    (length_eq : args.length = copies.length)
    (parts : ∀ p ∈ args.zip copies, Copied s s' fresh p.1 p.2) : Copied s s' fresh t u

/-- A copy stays one while its compounds stay. -/
theorem Copied.mono (h : Copied s s' fresh t u)
    (hcells : ∀ u name args, s'.cell? u = some (.compound name args) →
      s''.cell? u = some (.compound name args))
    (hkept : ∀ v x, fresh.lookup v = some x → fresh'.lookup v = some x) :
    Copied s s'' fresh' t u := by
  induction h with
  | literal cell => exact .literal cell
  | var free entry => exact .var free (hkept _ _ entry)
  | shared cell _ ih => exact .shared cell ih
  | compound cell copy differs length_eq _ ih =>
    exact .compound cell (hcells _ _ _ copy) differs length_eq ih

theorem Copied.of_deref (hs : s.Acyclic) (h : Copied s s' fresh t u) :
    Copied s s' fresh (s.deref t) u := by
  have hd := hs.deref_deref t
  cases h with
  | literal cell =>
    have h : Copied s s' fresh (s.deref t) (s.deref (s.deref t)) := .literal (by rwa [hd])
    rwa [hd] at h
  | var free entry => exact .var (by rwa [hd]) (by rwa [hd])
  | shared cell parts =>
    have h : Copied s s' fresh (s.deref t) (s.deref (s.deref t)) := .shared (by rwa [hd]) parts
    rwa [hd] at h
  | compound cell copy differs length_eq parts =>
    exact .compound (by rwa [hd]) copy differs length_eq parts

/-- What a store has to keep of an earlier one, and of what stands for its variables, for copies to be
read in it. -/
structure Holds (s s' : Store) (fresh : Renaming) : Prop where
  /-- It is at least as large. -/
  size_le : s.size ≤ s'.size
  /-- Constants stay. -/
  literal : ∀ {t l}, s.cell? t = some (.literal l) → s'.cell? t = some (.literal l)
  /-- Compounds stay. -/
  compound : ∀ {t name args}, s.cell? t = some (.compound name args) →
    s'.cell? t = some (.compound name args)
  /-- What stands for variables is free and has no name. -/
  unnamed : ∀ {v x}, fresh.lookup v = some x → s'.cell? x = some (.var none none)

theorem map_eq_map_of_zip {α β γ : Type} {f : α → γ} {g : β → γ} {xs : List α} {ys : List β}
    (hlen : xs.length = ys.length) (h : ∀ p ∈ xs.zip ys, f p.1 = g p.2) : xs.map f = ys.map g := by
  calc xs.map f = (xs.zip ys).map (f ∘ Prod.fst) := by rw [← List.map_map, List.map_fst_zip hlen.le]
    _ = (xs.zip ys).map (g ∘ Prod.snd) := List.map_congr_left h
    _ = ys.map g := by rw [← List.map_map, List.map_snd_zip hlen.ge]

/-- The copy of a term is the term with its variables renamed. -/
theorem Copied.snapshotFrom_eq (h : Copied s s' fresh t u) (hs : s.Acyclic) (hh : Holds s s' fresh)
    {n : Nat} (hn : s.rank t < n) :
    s'.snapshotFrom n u = (s.snapshot t).rename fresh.termVar := by
  induction h generalizing n with
  | @literal t l cell =>
    obtain ⟨n, rfl⟩ := Nat.exists_eq_add_of_lt hn
    rw [← hs.snapshot_deref, snapshot_of_literal cell, Term.rename_literal, snapshotFrom,
      view_of_literal (hh.literal cell)]
  | @var t x free entry =>
    obtain ⟨n, rfl⟩ := Nat.exists_eq_add_of_lt hn
    obtain ⟨name, hc⟩ := free
    have hfree : s'.Free x := ⟨none, hh.unnamed entry⟩
    rw [← hs.snapshot_deref, snapshot_of_free hc, Term.rename_var, snapshotFrom, view_of_free hfree]
    simp only [varName?, deref_of_not_bound hfree.not_bound, hh.unnamed entry, Renaming.termVar, entry,
      Option.getD_some]
  | @shared t name args cell _ ih =>
    obtain ⟨n, rfl⟩ := Nat.exists_eq_add_of_lt hn
    rw [← hs.snapshot_deref, hs.snapshot_of_compound cell, Term.rename_compound, List.map_map,
      snapshotFrom, view_of_compound (hh.compound cell)]
    refine congrArg _ (List.map_congr_left fun a ha => ih a ha ?_)
    have hlt := hs.rank_lt_of_compound cell ha
    omega
  | @compound t u name args copies cell copy _ length_eq _ ih =>
    obtain ⟨n, rfl⟩ := Nat.exists_eq_add_of_lt hn
    rw [← hs.snapshot_deref, hs.snapshot_of_compound cell, Term.rename_compound, List.map_map,
      snapshotFrom, view_of_compound copy]
    refine congrArg _ (map_eq_map_of_zip length_eq fun p hp => (ih p hp ?_).symm).symm
    have hlt := hs.rank_lt_of_compound cell (List.of_mem_zip hp).1
    omega

theorem Copied.snapshot_eq (h : Copied s s' fresh t u) (hs : s.Acyclic) (hh : Holds s s' fresh) :
    s'.snapshot u = (s.snapshot t).rename fresh.termVar :=
  h.snapshotFrom_eq hs hh (Nat.lt_succ_of_le ((s.rank_le_size t).trans hh.size_le))

/-- All variables of a copied term are renamed. -/
theorem Copied.covered (h : Copied s s' fresh t u) (hs : s.Acyclic) :
    ∀ v ∈ (s.snapshot t).vars, ∃ x, fresh.lookup ⟨v.id⟩ = some x := by
  induction h with
  | literal cell =>
    rw [← hs.snapshot_deref, snapshot_of_literal cell, Term.vars_literal]
    exact nofun
  | @var t x free entry =>
    obtain ⟨name, hc⟩ := free
    rw [← hs.snapshot_deref, snapshot_of_free hc, Term.vars_var, List.forall_mem_singleton]
    exact ⟨x, entry⟩
  | shared cell _ ih =>
    rw [← hs.snapshot_deref, hs.snapshot_of_compound cell, Term.vars_compound]
    simp only [List.mem_flatMap, List.mem_map]
    rintro v ⟨_, ⟨a, ha, rfl⟩, hv⟩
    exact ih a ha v hv
  | compound cell copy _ length_eq _ ih =>
    rw [← hs.snapshot_deref, hs.snapshot_of_compound cell, Term.vars_compound]
    simp only [List.mem_flatMap, List.mem_map]
    rintro v ⟨_, ⟨a, ha, rfl⟩, hv⟩
    rw [← List.map_fst_zip length_eq.le] at ha
    obtain ⟨p, hp, rfl⟩ := List.mem_map.mp ha
    exact ih p hp v hv

/-- No binding is in force in a copy. -/
theorem Copied.not_bound (h : Copied s s' fresh t u) (hh : Holds s s' fresh) {y : Ref}
    (hr : s'.Reaches u y) : ¬ s'.Bound y := by
  induction h with
  | literal cell =>
    rw [eq_of_reaches (fun _ => not_points_of_literal (hh.literal cell)) hr]
    exact not_bound_of_literal (hh.literal cell)
  | var free entry =>
    have hfree : s'.Free _ := ⟨none, hh.unnamed entry⟩
    rw [eq_of_reaches (fun _ => not_points_of_free hfree) hr]
    exact hfree.not_bound
  | shared cell _ ih =>
    have hc := hh.compound cell
    rcases ReflTransGen.cases_head hr with rfl | ⟨a, ha, hr⟩
    · exact not_bound_of_compound hc
    · exact ih a ((points_of_compound hc).mp ha) hr
  | @compound t u name args copies cell copy _ length_eq _ ih =>
    rcases ReflTransGen.cases_head hr with rfl | ⟨a, ha, hr⟩
    · exact not_bound_of_compound copy
    · have hmem := (points_of_compound copy).mp ha
      rw [← List.map_snd_zip length_eq.ge] at hmem
      obtain ⟨p, hp, rfl⟩ := List.mem_map.mp hmem
      exact ih p hp hr

/-! ## Terms without variables -/

/-- There is no variable cell at the place, and none is reached from it. -/
def VarFree (s : Store) (t : Ref) : Prop := ∀ u, s.Reaches t u → ¬ s.Free u ∧ ¬ s.Bound u

theorem varFree_of_literal {l : Literal} (h : s.cell? t = some (.literal l)) : s.VarFree t := by
  intro u hr
  rw [eq_of_reaches (fun _ => not_points_of_literal h) hr]
  refine ⟨fun ⟨name, hf⟩ => ?_, not_bound_of_literal h⟩
  rw [h] at hf
  cases hf

theorem varFree_of_compound {name : String} {args : List Ref}
    (h : s.cell? t = some (.compound name args)) (hargs : ∀ a ∈ args, s.VarFree a) : s.VarFree t := by
  intro u hr
  rcases ReflTransGen.cases_head hr with rfl | ⟨a, ha, hr⟩
  · refine ⟨fun ⟨_, hf⟩ => ?_, not_bound_of_compound h⟩
    rw [h] at hf
    cases hf
  · exact hargs a ((points_of_compound h).mp ha) u hr

/-- A term without variable cells is its own copy. -/
theorem Copied.eq_of_varFree (h : Copied s s' fresh t u) (hg : s.VarFree t) : u = t := by
  induction h with
  | literal cell => exact deref_of_not_bound (hg _ .refl).2
  | var free entry =>
    rw [deref_of_not_bound (hg _ .refl).2] at free
    exact absurd free (hg _ .refl).1
  | shared cell _ _ => exact deref_of_not_bound (hg _ .refl).2
  | @compound t u name args copies cell copy differs length_eq _ ih =>
    rw [deref_of_not_bound (hg _ .refl).2] at cell
    refine absurd ?_ differs
    have hmap : args.map id = copies.map id := map_eq_map_of_zip length_eq fun p hp =>
      (ih p hp fun y hy => hg y (.head (.arg cell (List.of_mem_zip hp).1) hy)).symm
    simpa using hmap.symm

/-- The place of a subterm. -/
def at? (s : Store) (t : Ref) : List Nat → Option Ref
  | [] => some (s.deref t)
  | i :: path => (s.args t)[i]?.bind fun a => s.at? a path

theorem Copied.at? (h : Copied s s' fresh t u) (hs : s.Acyclic) (hh : Holds s s' fresh)
    {path : List Nat} (hx : s.at? t path = some x) :
    ∃ y, s'.at? u path = some y ∧ Copied s s' fresh x y := by
  induction path generalizing t u with
  | nil =>
    cases hx
    exact ⟨u, congrArg some (deref_of_not_bound (h.not_bound hh .refl)), h.of_deref hs⟩
  | cons i path ih =>
    rw [Store.at?] at hx
    obtain ⟨a, ha, hx⟩ := Option.bind_eq_some_iff.mp hx
    cases h with
    | literal cell =>
      rw [← hs.args_deref, args_of_literal cell] at ha
      cases ha
    | var free entry =>
      rw [← hs.args_deref, args_of_free free] at ha
      cases ha
    | shared cell parts =>
      rw [← hs.args_deref, args_of_compound cell] at ha
      obtain ⟨y, hy, hcopied⟩ := ih (parts a (List.mem_of_getElem? ha)) hx
      refine ⟨y, ?_, hcopied⟩
      rw [Store.at?, args_of_compound (hh.compound cell), ha]
      exact hy
    | @compound _ _ name args copies cell copy _ length_eq parts =>
      rw [← hs.args_deref, args_of_compound cell] at ha
      obtain ⟨b, hb⟩ : ∃ b, copies[i]? = some b := by
        have hlt : i < args.length := (List.getElem?_eq_some_iff.mp ha).1
        exact ⟨_, List.getElem?_eq_getElem (length_eq ▸ hlt)⟩
      have hmem : (a, b) ∈ args.zip copies := by
        refine List.mem_of_getElem? (i := i) ?_
        simp [List.getElem?_zip_eq_some, ha, hb]
      obtain ⟨y, hy, hcopied⟩ := ih (parts (a, b) hmem) hx
      refine ⟨y, ?_, hcopied⟩
      rw [Store.at?, args_of_compound copy, hb]
      exact hy

/-! ## The copying algorithm -/

/-- What copying does to the store and the renaming, where `base` is the store that was there before. -/
structure Renames (base : Store) (st st' : Store × Renaming) : Prop where
  /-- There are only new cells. -/
  grows : Grows st.1 st'.1 []
  /-- Entries of the renaming stay. -/
  kept : ∀ v x, st.2.lookup v = some x → st'.2.lookup v = some x
  /-- What stands for variables is new. -/
  fresh : st.2.Fresh base st.1 → st'.2.Fresh base st'.1

variable {st st' st'' : Store × Renaming}

theorem Renames.refl (s : Store) (st : Store × Renaming) : Renames s st st where
  grows := Grows.refl st.1
  kept _ _ := id
  fresh := id

theorem Renames.trans (h : Renames s st st') (h' : Renames s st' st'') : Renames s st st'' where
  grows := h.grows.trans h'.grows
  kept v x hx := h'.kept v x (h.kept v x hx)
  fresh hf := h'.fresh (h.fresh hf)

theorem Renames.copied (h : Renames s st st') (hc : Copied s st.1 st.2 t u) :
    Copied s st'.1 st'.2 t u :=
  hc.mono (fun _ _ _ => h.grows.cell?_of_nil) h.kept

theorem renames_push (s : Store) (st : Store × Renaming) (c : Cell) :
    Renames s st ((st.1.push c).2, st.2) where
  grows := grows_push st.1 c
  kept _ _ := id
  fresh hf := ⟨hf.new, fun hx => (grows_push st.1 c).cell?_of_nil (hf.unnamed hx), hf.injective⟩

/-- A variable that has no entry gets a new one. -/
theorem renames_var (hgrows : Grows s st.1 []) (hnone : st.2.lookup t = none) :
    Renames s st ((st.1.var none).2, (t, ⟨st.1.size⟩) :: st.2) := by
  have hlookup : ∀ v x, ((t, (⟨st.1.size⟩ : Ref)) :: st.2).lookup v = some x ↔
      v = t ∧ x = ⟨st.1.size⟩ ∨ st.2.lookup v = some x := by
    intro v x
    rw [List.lookup_cons]
    by_cases hv : v = t
    · subst hv
      simp [hnone, eq_comm]
    · rw [beq_eq_false_iff_ne.mpr hv]
      simp [hv]
  have hpush := grows_push st.1 (.var none none)
  refine ⟨hpush, fun v x hx => (hlookup v x).mpr (.inr hx), fun hf => ⟨?_, ?_, ?_⟩⟩
  · intro v x hx
    rcases (hlookup v x).mp hx with ⟨-, rfl⟩ | hx
    · exact hgrows.size_le
    · exact hf.new hx
  · intro v x hx
    rcases (hlookup v x).mp hx with ⟨-, rfl⟩ | hx
    · exact cell?_push_self st.1 _
    · exact hpush.cell?_of_nil (hf.unnamed hx)
  · -- What stood for a variable so far has a cell, and the new variable had none.
    have hold : ∀ {v}, st.2.lookup v ≠ some ⟨st.1.size⟩ := fun hx =>
      absurd (index_lt_of_cell? (hf.unnamed hx)) (Nat.lt_irrefl _)
    intro v w x hv hw
    rcases (hlookup v x).mp hv with ⟨rfl, hx⟩ | hold_v <;>
      rcases (hlookup w x).mp hw with ⟨rfl, hx'⟩ | hold_w
    · rfl
    · exact absurd (hx ▸ hold_w) hold
    · exact absurd (hx' ▸ hold_v) hold
    · exact hf.injective hold_v hold_w

theorem copied_copyAll {one : Store × Renaming → Ref → Ref × Store × Renaming} {ts : List Ref}
    (hone : ∀ t ∈ ts, ∀ st : Store × Renaming, Grows s st.1 [] →
      Renames s st (one st t).2 ∧ Copied s (one st t).2.1 (one st t).2.2 t (one st t).1)
    (hgrows : Grows s st.1 []) :
    Renames s st (copyAll one st ts).2 ∧
      List.Forall₂ (Copied s (copyAll one st ts).2.1 (copyAll one st ts).2.2) ts
        (copyAll one st ts).1 := by
  induction ts generalizing st with
  | nil => exact ⟨.refl s st, .nil⟩
  | cons t ts ih =>
    rw [List.forall_mem_cons] at hone
    obtain ⟨hrenames, hcopied⟩ := hone.1 st hgrows
    obtain ⟨hrest, hall⟩ := ih hone.2 (hgrows.trans hrenames.grows)
    exact ⟨hrenames.trans hrest, .cons (hrest.copied hcopied) hall⟩

/-- Copying makes a copy. -/
theorem copied_copyFrom (hs : s.Acyclic) (hcl : s.Closed) {n : Nat} (ht : t.index < s.size)
    (hn : s.rank t < n) (hgrows : Grows s st.1 []) :
    Renames s st (copyFrom n st t).2 ∧
      Copied s (copyFrom n st t).2.1 (copyFrom n st t).2.2 t (copyFrom n st t).1 := by
  induction n generalizing t st with
  | zero => omega
  | succ n ih =>
    obtain ⟨s', fresh⟩ := st
    have hd : (s.deref t).index < s.size := hcl.lt_of_reaches ht (hs.reaches_deref t)
    obtain ⟨c, hc⟩ := exists_cell? hd
    have hc' : s'.cell? (s'.deref t) = some c := by
      rw [hgrows.deref_of_nil hs hcl ht]
      exact hgrows.cell?_of_nil hc
    rw [copyFrom]
    dsimp only
    rcases c with l | ⟨name, args⟩ | ⟨name, _ | u⟩ <;> simp only [hc'] <;>
      rw [hgrows.deref_of_nil hs hcl ht]
    · exact ⟨.refl s _, .literal hc⟩
    · have hone : ∀ a ∈ args, ∀ st : Store × Renaming, Grows s st.1 [] →
          Renames s st (copyFrom n st a).2 ∧
            Copied s (copyFrom n st a).2.1 (copyFrom n st a).2.2 a (copyFrom n st a).1 := by
        intro a ha st hst
        have hlt := hs.rank_lt_of_compound hc ha
        exact ih (hcl _ _ (.arg hc ha)) (by omega) hst
      have hall := copied_copyAll hone hgrows
      rcases heq : copyAll (copyFrom n) (s', fresh) args with ⟨copies, s'', fresh''⟩
      rw [heq] at hall
      obtain ⟨hrenames, hcopies⟩ := hall
      by_cases hshare : copies = args
      · subst hshare
        simp only [ite_true]
        exact ⟨hrenames, .shared hc (List.forall₂_same.mp hcopies)⟩
      · simp only [hshare, ite_false]
        have hpush := renames_push s (s'', fresh'') (.compound name copies)
        refine ⟨hrenames.trans hpush, ?_⟩
        exact .compound hc (cell?_push_self s'' _) hshare hcopies.length_eq fun p hp =>
          hpush.copied (List.forall₂_iff_zip.mp hcopies |>.2 hp)
    · rcases hlookup : fresh.lookup (s.deref t) with _ | x
      · refine ⟨renames_var hgrows hlookup, .var ⟨name, hc⟩ ?_⟩
        simp [var, push_fst]
      · exact ⟨.refl s _, .var ⟨name, hc⟩ hlookup⟩
    · exact absurd ⟨name, u, hc⟩ (hs.not_bound_deref t)

/-! ## Undoing -/

/-- What a store can become while nothing is undone below the mark `k`. -/
inductive Above (k : Nat) (s : Store) : Store → Prop
  /-- Nothing has happened. -/
  | refl : Above k s s
  /-- Cells were added and variables bound. -/
  | grow {s' s'' : Store} {vs : List Ref} (h : Above k s s') (grows : Grows s' s'' vs) : Above k s s''
  /-- Bindings were undone. -/
  | undo {s' : Store} {m : Nat} (h : Above k s s') (le : k ≤ m) : Above k s (s'.undoTo m)

/-- The store `s'` has all that `s` has, and the trail beyond `k` lists the variables bound since. -/
structure Recalls (k : Nat) (s s' : Store) : Prop where
  /-- The mark is one of the trail. -/
  le_mark : k ≤ s'.mark
  /-- Cells are never given back. -/
  size_le : s.size ≤ s'.size
  /-- Constants stay. -/
  literal : ∀ {t l}, s.cell? t = some (.literal l) → s'.cell? t = some (.literal l)
  /-- Compounds stay. -/
  compound : ∀ {t name args}, s.cell? t = some (.compound name args) →
    s'.cell? t = some (.compound name args)
  /-- Variables that were free are free, or the trail says that they are bound. -/
  free : ∀ {t name}, s.cell? t = some (.var name none) → ∃ binding,
    s'.cell? t = some (.var name binding) ∧ (binding = none ∨ t ∈ s'.trail.toList.drop k)

variable {k : Nat}

theorem Recalls.refl (hk : k ≤ s.mark) : Recalls k s s where
  le_mark := hk
  size_le := Nat.le_refl _
  literal := id
  compound := id
  free hc := ⟨none, hc, .inl rfl⟩

theorem Recalls.grow {vs : List Ref} (h : Recalls k s s') (hgrows : Grows s' s'' vs) :
    Recalls k s s'' where
  le_mark := h.le_mark.trans hgrows.mark_le
  size_le := h.size_le.trans hgrows.size_le
  literal hc := hgrows.cell?_of_not_free (h.literal hc) fun ⟨_, hf⟩ => by
    rw [h.literal hc] at hf
    cases hf
  compound hc := hgrows.cell?_of_not_free (h.compound hc) fun ⟨_, hf⟩ => by
    rw [h.compound hc] at hf
    cases hf
  free {t name} hc := by
    obtain ⟨binding, hc', hbinding⟩ := h.free hc
    have hdrop : s''.trail.toList.drop k = s'.trail.toList.drop k ++ vs := by
      rw [hgrows.trail, List.drop_append_of_le_length]
      simpa [mark] using h.le_mark
    rw [hdrop, List.mem_append]
    by_cases hv : t ∈ vs
    · obtain ⟨name', u, hfree, hbound⟩ := hgrows.bound (index_lt_of_cell? hc') hv
      rw [hc'] at hfree
      cases hfree
      exact ⟨some u, hbound, .inr (.inr hv)⟩
    · exact ⟨binding, (hgrows.kept (index_lt_of_cell? hc') hv).trans hc', hbinding.imp_right .inl⟩

theorem Recalls.undo {m : Nat} (h : Recalls k s s') (hm : k ≤ m) : Recalls k s (s'.undoTo m) where
  le_mark := by
    rw [mark_undoTo]
    exact Nat.le_min.mpr ⟨hm, h.le_mark⟩
  size_le := by rw [size_undoTo]; exact h.size_le
  literal hc := by
    rw [cell?_undoTo, h.literal hc]
    split <;> rfl
  compound hc := by
    rw [cell?_undoTo, h.compound hc]
    split <;> rfl
  free {t name} hc := by
    obtain ⟨binding, hc', hbinding⟩ := h.free hc
    rw [cell?_undoTo, hc']
    by_cases hmem : t ∈ s'.trail.toList.drop m
    · exact ⟨none, if_pos hmem, .inl rfl⟩
    · refine ⟨binding, if_neg hmem, hbinding.imp_right fun hk => ?_⟩
      -- What the trail lists beyond `k` but not beyond `m` is listed between the two.
      rw [← List.take_append_drop (m - k) (s'.trail.toList.drop k), List.mem_append, List.drop_drop,
        Nat.add_sub_cancel' hm] at hk
      rw [trail_undoTo, List.drop_take]
      exact hk.resolve_right hmem

theorem Above.recalls (h : Above k s s') (hk : k ≤ s.mark) : Recalls k s s' := by
  induction h with
  | refl => exact .refl hk
  | grow _ hgrows ih => exact ih.grow hgrows
  | undo _ hm ih => exact ih.undo hm

/-- Undoing to the mark frees all variables that were free. -/
theorem Recalls.cell?_of_free (h : Recalls k s s') {name : Option String}
    (hc : s.cell? t = some (.var name none)) : (s'.undoTo k).cell? t = some (.var name none) := by
  obtain ⟨binding, hc', hbinding⟩ := (h.undo (Nat.le_refl k)).free hc
  rcases hbinding with rfl | hmem
  · exact hc'
  · rw [trail_undoTo, List.drop_take, Nat.sub_self, List.take_zero] at hmem
    cases hmem

/-- What copies need is there again once the bindings made since are undone. -/
theorem Recalls.holds {base : Store} (h : Recalls k s s') (hh : Holds base s fresh) :
    Holds base (s'.undoTo k) fresh where
  size_le := by rw [size_undoTo]; exact hh.size_le.trans h.size_le
  literal hc := (h.undo (Nat.le_refl k)).literal (hh.literal hc)
  compound hc := (h.undo (Nat.le_refl k)).compound (hh.compound hc)
  unnamed hx := h.cell?_of_free (hh.unnamed hx)

/-! ## The copy of a term -/

/-- What it means that `r` holds a copy of the term at `t` with variables of its own. -/
structure Duplicates (s : Store) (t : Ref) (r : Ref × Store) : Prop where
  /-- No cell has changed. -/
  kept : ∀ u, u.index < s.size → r.2.cell? u = s.cell? u
  /-- No variable was bound. -/
  trail : r.2.trail = s.trail
  /-- The copy is a variant of the term. -/
  variant : (r.2.snapshot r.1).isVariant (s.snapshot t) = true
  /-- It is the term with its variables renamed to new ones without a name, different variables to
  different ones. -/
  renamed : ∃ f : TermVar → TermVar, r.2.snapshot r.1 = (s.snapshot t).rename f ∧
    Term.KeepsApart f (s.snapshot t).vars ∧
    ∀ v ∈ (s.snapshot t).vars, (f v).name = none ∧ s.size ≤ (f v).id ∧
      r.2.cell? ⟨(f v).id⟩ = some (.var none none)
  /-- The copy does not lead to a bound variable. -/
  unbound : ∀ u, r.2.Reaches r.1 u → ¬ r.2.Bound u
  /-- Undoing to a mark that was there before leaves the copy as it is. -/
  undone : ∀ k ≤ s.mark, ∀ s', Above k r.2 s' → (s'.undoTo k).snapshot r.1 = r.2.snapshot r.1
  /-- A subterm in which there is no variable cell is shared. -/
  shared : ∀ path x, s.at? t path = some x → s.VarFree x → r.2.at? r.1 path = some x

/-- **A copy is a variant of the term that no undoing can reach.**  In a store without cycles, whose
cells mention no place that has no cell, copying a term adds cells and does nothing else.  The copy is
the term with new variables, no binding is in force in it, it shares what holds no variable cell, and
it is the same term again whenever the store is undone to a mark that was there before. -/
theorem Acyclic.duplicates_copy (hs : s.Acyclic) (hcl : s.Closed) (ht : t.index < s.size) :
    Duplicates s t (s.copy t) := by
  have hstart : Grows s (s, ([] : Renaming)).1 [] := Grows.refl s
  obtain ⟨hrenames, hcopied⟩ :=
    copied_copyFrom hs hcl ht (Nat.lt_succ_of_le (s.rank_le_size t)) hstart
  have hnone : Renaming.Fresh [] s s := ⟨nofun, nofun, nofun⟩
  have hcopy : s.copy t = ((copyFrom (s.size + 1) (s, []) t).1, (copyFrom (s.size + 1) (s, []) t).2.1) :=
    rfl
  rw [hcopy]
  generalize copyFrom (s.size + 1) (s, []) t = r at hrenames hcopied
  obtain ⟨u, s', fresh⟩ := r
  have hgrows : Grows s s' [] := hrenames.grows
  have hfresh : fresh.Fresh s s' := hrenames.fresh hnone
  have hh : Holds s s' fresh :=
    ⟨hgrows.size_le, hgrows.cell?_of_nil, hgrows.cell?_of_nil, hfresh.unnamed⟩
  have hcovered := hcopied.covered hs
  have hsnapshot := hcopied.snapshot_eq hs hh
  have hapart := hfresh.keepsApart hcovered
  refine ⟨fun u hu => hgrows.kept hu List.not_mem_nil, ?_, ?_, ⟨fresh.termVar, hsnapshot, hapart, ?_⟩,
    fun y hy => hcopied.not_bound hh hy, fun k hk s'' habove => ?_, fun path x hx hvarFree => ?_⟩
  · exact Array.toList_inj.mp (hgrows.trail.trans (List.append_nil _))
  · rw [hsnapshot]
    exact Term.isVariant_rename hapart
  · intro v hv
    obtain ⟨x, hx⟩ := hcovered v hv
    simp only [Renaming.termVar, hx, Option.getD_some]
    exact ⟨trivial, hfresh.new hx, hfresh.unnamed hx⟩
  · have hrecalls := habove.recalls (hk.trans hgrows.mark_le)
    have hundone : Copied s (s''.undoTo k) fresh t u :=
      hcopied.mono (fun _ _ _ => (hrecalls.undo (Nat.le_refl k)).compound) fun _ _ => id
    rw [hsnapshot]
    exact hundone.snapshot_eq hs (hrecalls.holds hh)
  · obtain ⟨y, hy, hplace⟩ := hcopied.at? hs hh hx
    rwa [hplace.eq_of_varFree hvarFree] at hy

/-- The copy of `f(Y, Z, g(a))`, where `Y` is bound to `b`, while the binding is undone. -/
theorem duplicates_copy_bound :
    let y : Term := .var ⟨0, none⟩
    let z : Term := .var ⟨1, none⟩
    let built := ({} : Store).build
      (.compound "p" [.compound "f" [y, z, .compound "g" [.atom "a"]], .atom "b"])
    let s := built.2.bind ⟨0⟩ ⟨5⟩
    let r := s.copy ⟨4⟩
    s.Acyclic ∧ s.Closed ∧ (⟨4⟩ : Ref).index < s.size ∧ s.Bound ⟨0⟩ ∧
      (r.2.snapshot r.1).isVariant (s.snapshot ⟨4⟩) = true ∧
      (r.2.undoTo 0).snapshot r.1 = r.2.snapshot r.1 ∧
      ((r.2.undoTo 0).snapshot ⟨4⟩).isVariant (s.snapshot ⟨4⟩) = false ∧
      s.at? ⟨4⟩ [2] = some ⟨3⟩ ∧ r.2.at? r.1 [2] = some ⟨3⟩ := by
  intro y z built s r
  have hatom : ∀ name, (Term.atom name).WellMade := fun name => .literal (l := .atom name) trivial
  have hf : (Term.compound "f" [y, z, .compound "g" [.atom "a"]]).WellMade := by
    refine .compound (List.cons_ne_nil _ _) ?_
    simp only [List.forall_mem_cons]
    refine ⟨.var _, .var _, .compound (List.cons_ne_nil _ _) ?_, nofun⟩
    exact List.forall_mem_singleton.mpr (hatom "a")
  have hbuilt : built.2.WellFormed := ((Adds.refl wellFormed_empty).build
    (.compound (List.cons_ne_nil _ _)
      (List.forall_mem_cons.mpr ⟨hf, List.forall_mem_singleton.mpr (hatom "b")⟩))).adds.wellFormed
  have hcell : built.2.cell? ⟨5⟩ = some (.literal (.atom "b")) := by decide +kernel
  have hnot : ¬ built.2.Reaches ⟨5⟩ ⟨0⟩ := fun hr =>
    absurd (eq_of_reaches (fun _ => not_points_of_literal hcell) hr) (by decide)
  have hs : s.WellFormed := hbuilt.bind ⟨none, by decide +kernel⟩ (by decide +kernel) hnot
  have hbound : s.cell? ⟨0⟩ = some (.var none (some ⟨5⟩)) := by decide +kernel
  have ht : (⟨4⟩ : Ref).index < s.size := by decide +kernel
  have hcopy : Duplicates s ⟨4⟩ r := hs.acyclic.duplicates_copy hs.isClosed ht
  have hcell₂ : s.cell? ⟨2⟩ = some (.literal (.atom "a")) := by decide +kernel
  have hcell₃ : s.cell? ⟨3⟩ = some (.compound "g" [⟨2⟩]) := by decide +kernel
  have hvarFree : s.VarFree ⟨3⟩ :=
    varFree_of_compound hcell₃ (List.forall_mem_singleton.mpr (varFree_of_literal hcell₂))
  exact ⟨hs.acyclic, hs.isClosed, ht, ⟨none, ⟨5⟩, hbound⟩, hcopy.variant,
    hcopy.undone 0 (Nat.zero_le _) r.2 .refl, by decide +kernel, by decide +kernel,
    hcopy.shared [2] ⟨3⟩ (by decide +kernel) hvarFree⟩

end Store

end Clausal
