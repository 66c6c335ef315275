import Clausal.Store.Snapshot
import Clausal.Proofs.Store.Growth

/-! # Terms made of new cells

A term that is read from text or put into a store by `build` is made of new cells throughout.  `Adds
base s` is the invariant while it is made: the cells that `s` has beyond those of `base` mention only
each other, and none of them is bound.  Every operation that adds a cell keeps it, as long as what the
cell mentions is new (`Adds.push`).

What this gives for a finished term is that it is `Detached`: nothing that is reached from it is older
than a given place, and no binding is in force in it.  This stays true while the store gets further
cells (`Detached.grow`), and it is what makes a clause that is compiled from the term independent of
whatever was bound at the time.
-/

namespace Clausal

/-- What holds of every term that a machine is given: integers are in the representation of their
size, and compounds have arguments. -/
inductive Term.WellMade : Term → Prop
  /-- A constant. -/
  | literal {l : Literal} (canonical : l.Canonical) : WellMade (.literal l)
  /-- A variable. -/
  | var (v : TermVar) : WellMade (.var v)
  /-- A compound. -/
  | compound {name : String} {args : List Term} (nonempty : args ≠ [])
    (parts : ∀ a ∈ args, WellMade a) : WellMade (.compound name args)

namespace Store

open Relation

variable {base s s' : Store} {t u v : Ref} {n : Nat}

/-! ## New cells -/

/-- The store `s` has all that `base` has, and further cells, which are not bound and mention only
one another. -/
structure Adds (base s : Store) : Prop where
  /-- There are only new cells. -/
  grows : Grows base s []
  /-- The store is well formed. -/
  wellFormed : s.WellFormed
  /-- The trail lists the bound variables. -/
  trailed : base.Trailed → s.Trailed
  /-- New cells mention new cells. -/
  apart : ∀ {t u}, base.size ≤ t.index → s.Points t u → base.size ≤ u.index
  /-- New cells are not bound. -/
  unbound : ∀ {t}, base.size ≤ t.index → ¬ s.Bound t

/-- The place is that of a cell which `s` has beyond those of `base`. -/
structure New (base s : Store) (t : Ref) : Prop where
  /-- It is not the place of an old cell. -/
  le : base.size ≤ t.index
  /-- It is the place of a cell. -/
  lt : t.index < s.size

theorem New.mono (h : New base s t) (hle : s.size ≤ s'.size) : New base s' t where
  le := h.le
  lt := Nat.lt_of_lt_of_le h.lt hle

theorem Adds.refl (hs : s.WellFormed) : Adds s s where
  grows := Grows.refl s
  wellFormed := hs
  trailed := id
  apart ht hp := absurd hp.index_lt (Nat.not_lt.mpr ht)
  unbound ht hb := absurd hb.index_lt (Nat.not_lt.mpr ht)

theorem Adds.trans (h : Adds base s) (h' : Adds s s') : Adds base s' := by
  -- A cell of the last store is one of the second, unchanged, or comes after them.
  have hold : ∀ {t}, t.index < s.size → s'.cell? t = s.cell? t := by
    intro t ht
    exact h'.grows.kept ht List.not_mem_nil
  refine ⟨h.grows.trans h'.grows, h'.wellFormed, fun hb => h'.trailed (h.trailed hb), ?_, ?_⟩
  · intro t u ht hp
    rcases Nat.lt_or_ge t.index s.size with hlt | hge
    · refine h.apart ht (u := u) ?_
      cases hp with
      | arg hc hmem => exact .arg (hold hlt ▸ hc) hmem
      | binding hc => exact .binding (hold hlt ▸ hc)
    · exact h.grows.size_le.trans (h'.apart hge hp)
  · intro t ht hb
    rcases Nat.lt_or_ge t.index s.size with hlt | hge
    · obtain ⟨name, u, hc⟩ := hb
      exact h.unbound ht ⟨name, u, hold hlt ▸ hc⟩
    · exact h'.unbound hge hb

theorem Adds.push (h : Adds base s) {c : Cell} (hmade : c.WellMade)
    (hnew : ∀ u ∈ c.mentions, New base s u) (hc : ∀ name u, c ≠ .var name (some u)) :
    Adds base (s.push c).2 where
  grows := h.grows.trans (grows_push s c)
  wellFormed := h.wellFormed.push hmade fun u hu => (hnew u hu).lt
  trailed hb := (h.trailed hb).push hc
  apart ht hp := by
    rcases points_push_cases hp with hp | ⟨-, hu⟩
    · exact h.apart ht hp
    · exact (hnew _ hu).le
  unbound ht hb := h.unbound ht ((bound_push_iff hc).mp hb)

/-- What it means that `r` is a term that was made of new cells, starting from the store `s`. -/
structure Allocates (base s : Store) (r : Ref × Store) : Prop where
  /-- There are only new cells. -/
  adds : Adds base r.2
  /-- The term is new. -/
  new : New base r.2 r.1
  /-- No cell was given back. -/
  size_le : s.size ≤ r.2.size

theorem Adds.allocates_push (h : Adds base s) {c : Cell} (hmade : c.WellMade)
    (hnew : ∀ u ∈ c.mentions, New base s u) (hc : ∀ name u, c ≠ .var name (some u)) :
    Allocates base s (s.push c) where
  adds := h.push hmade hnew hc
  new := ⟨h.grows.size_le, by rw [push_fst, size_push]; exact Nat.lt_succ_self _⟩
  size_le := (grows_push s c).size_le

theorem Allocates.mono (h : Allocates base s r) (hle : s'.size ≤ s.size) : Allocates base s' r where
  adds := h.adds
  new := h.new
  size_le := Nat.le_trans hle h.size_le

theorem Adds.literal (h : Adds base s) {l : Literal} (hl : l.Canonical) :
    Allocates base s (s.literal l) :=
  h.allocates_push (c := .literal l) hl nofun nofun

theorem Adds.atom (h : Adds base s) (name : String) : Allocates base s (s.atom name) :=
  h.literal (l := .atom name) trivial

theorem Adds.var (h : Adds base s) (name : Option String) : Allocates base s (s.var name) :=
  h.allocates_push (c := .var name none) trivial nofun nofun

theorem Adds.apply (h : Adds base s) (name : String) {args : List Ref}
    (hargs : ∀ u ∈ args, New base s u) : Allocates base s (s.apply name args) := by
  rw [apply_eq]
  exact h.allocates_push (applyCell_wellMade name args)
    (fun u hu => hargs u (mem_mentions_applyCell hu)) (applyCell_ne_bound name args)

theorem Adds.partialList (h : Adds base s) {items : List Ref} (hitems : ∀ u ∈ items, New base s u)
    (ht : New base s t) : Allocates base s (s.partialList items t) := by
  induction items with
  | nil => exact ⟨h, ht, Nat.le_refl _⟩
  | cons u items ih =>
    rw [List.forall_mem_cons] at hitems
    have htail := ih hitems.2
    have hcell : Allocates base (s.partialList items t).2
        ((s.partialList items t).2.apply "." [u, (s.partialList items t).1]) := by
      refine htail.adds.apply "." fun w hw => ?_
      rcases List.mem_cons.mp hw with rfl | hw
      · exact hitems.1.mono htail.size_le
      · exact List.mem_singleton.mp hw ▸ htail.new
    exact hcell.mono htail.size_le

theorem Adds.list (h : Adds base s) {items : List Ref} (hitems : ∀ u ∈ items, New base s u) :
    Allocates base s (s.list items) := by
  have hnil := h.atom "[]"
  exact (hnil.adds.partialList (fun u hu => (hitems u hu).mono hnil.size_le) hnil.new).mono
    hnil.size_le

theorem Adds.literals (h : Adds base s) {ls : List Literal} (hls : ∀ l ∈ ls, l.Canonical) :
    Adds base (s.literals ls).2 ∧ s.size ≤ (s.literals ls).2.size ∧
      ∀ u ∈ (s.literals ls).1, New base (s.literals ls).2 u := by
  induction ls using List.reverseRecOn with
  | nil => exact ⟨h, Nat.le_refl _, fun u hu => absurd hu List.not_mem_nil⟩
  | append_singleton ls l ih =>
    rw [List.forall_mem_append, List.forall_mem_singleton] at hls
    obtain ⟨hadds, hle, hnew⟩ := ih hls.1
    have hlit := hadds.literal hls.2
    rw [literals_concat]
    refine ⟨hlit.adds, hle.trans hlit.size_le, ?_⟩
    rw [List.forall_mem_append, List.forall_mem_singleton]
    exact ⟨fun u hu => (hnew u hu).mono hlit.size_le, hlit.new⟩

/-! ## Building a term -/

/-- The cells that stand for variables met before are new. -/
def Placed.AllNew (placed : Placed) (base s : Store) : Prop :=
  ∀ v t, placed.lookup v = some t → New base s t

theorem Placed.AllNew.mono {placed : Placed} (h : placed.AllNew base s) (hle : s.size ≤ s'.size) :
    placed.AllNew base s' :=
  fun v t hv => (h v t hv).mono hle

theorem Placed.AllNew.cons {placed : Placed} (h : placed.AllNew base s) (v : TermVar)
    (ht : New base s t) : Placed.AllNew ((v, t) :: placed) base s := by
  intro w u hw
  rw [List.lookup_cons] at hw
  split at hw
  · exact Option.some.inj hw ▸ ht
  · exact h w u hw

/-- What it means that terms were built, and which cells stand for their variables. -/
structure Built (base s : Store) (r : List Ref × Store × Placed) : Prop where
  /-- There are only new cells. -/
  adds : Adds base r.2.1
  /-- The terms are new. -/
  new : ∀ t ∈ r.1, New base r.2.1 t
  /-- No cell was given back. -/
  size_le : s.size ≤ r.2.1.size
  /-- The variables are new. -/
  placed : r.2.2.AllNew base r.2.1

theorem built_buildArgs {args : List Term}
    (hone : ∀ a ∈ args, ∀ {s placed}, Adds base s → Placed.AllNew placed base s →
      Built base s ([(buildWith s placed a).1], (buildWith s placed a).2))
    {placed : Placed} (h : Adds base s) (hp : placed.AllNew base s) :
    Built base s (buildArgs s placed args) ∧ (buildArgs s placed args).1.length = args.length := by
  induction args generalizing s placed with
  | nil => exact ⟨⟨h, nofun, Nat.le_refl _, hp⟩, rfl⟩
  | cons a args ih =>
    rw [List.forall_mem_cons] at hone
    have hfirst := hone.1 h hp
    obtain ⟨hrest, hlen⟩ := ih hone.2 hfirst.adds hfirst.placed
    refine ⟨⟨hrest.adds, ?_, hfirst.size_le.trans hrest.size_le, hrest.placed⟩,
      congrArg Nat.succ hlen⟩
    intro t ht
    rcases List.mem_cons.mp ht with rfl | ht
    · exact (hfirst.new _ (List.mem_singleton_self _)).mono hrest.size_le
    · exact hrest.new t ht

theorem built_buildWith {x : Term} (hx : x.WellMade) {placed : Placed} (h : Adds base s)
    (hp : placed.AllNew base s) :
    Built base s ([(buildWith s placed x).1], (buildWith s placed x).2) := by
  induction hx generalizing s placed with
  | @literal l hl =>
    have hlit := h.literal hl
    rw [buildWith]
    exact ⟨hlit.adds, List.forall_mem_singleton.mpr hlit.new, hlit.size_le, hp.mono hlit.size_le⟩
  | var v =>
    rw [buildWith]
    split
    · exact ⟨h, List.forall_mem_singleton.mpr (hp v _ ‹_›), Nat.le_refl _, hp⟩
    · have hvar := h.var v.name
      exact ⟨hvar.adds, List.forall_mem_singleton.mpr hvar.new, hvar.size_le,
        (hp.mono hvar.size_le).cons v hvar.new⟩
  | @compound name args hne _ ih =>
    obtain ⟨hargs, hlen⟩ := built_buildArgs ih h hp
    have hnonempty : (buildArgs s placed args).1 ≠ [] := by
      intro hnil
      rw [hnil] at hlen
      exact hne (List.eq_nil_of_length_eq_zero hlen.symm)
    have hpush := hargs.adds.allocates_push (c := .compound name (buildArgs s placed args).1)
      hnonempty hargs.new nofun
    rw [buildWith]
    exact ⟨hpush.adds, List.forall_mem_singleton.mpr hpush.new,
      hargs.size_le.trans hpush.size_le, hargs.placed.mono hpush.size_le⟩

/-- **A term that is built is made of new cells.** -/
theorem Adds.build (h : Adds base s) {x : Term} (hx : x.WellMade) :
    Allocates base s (s.build x) := by
  have hnone : Placed.AllNew [] base s := nofun
  have hbuilt := built_buildWith hx h hnone
  exact ⟨hbuilt.adds, hbuilt.new _ (List.mem_singleton_self _), hbuilt.size_le⟩

/-- What is taken out of a store can be built again. -/
theorem WellFormed.wellMade_snapshot (hs : s.WellFormed) (t : Ref) : (s.snapshot t).WellMade := by
  have hfrom : ∀ n t, (s.snapshotFrom n t).WellMade := by
    intro n
    induction n with
    | zero => exact fun t => .literal (l := .atom "[]") trivial
    | succ n ih =>
      intro t
      rw [snapshotFrom]
      rcases hview : s.view t with v | l | ⟨name, args⟩
      · exact .var _
      · exact .literal (hs.made (cell?_deref_of_view_literal hview))
      · have hne : args ≠ [] := hs.made (cell?_deref_of_view_compound hview)
        refine .compound (fun hnil => hne (List.map_eq_nil_iff.mp hnil)) fun a ha => ?_
        obtain ⟨u, -, rfl⟩ := List.mem_map.mp ha
        exact ih u
  exact hfrom _ t

/-! ## Detached terms -/

/-- Nothing that is reached from the term is older than the place `n`, and none of it is bound. -/
structure Detached (s : Store) (n : Nat) (t : Ref) : Prop where
  /-- The term has a cell. -/
  lt : t.index < s.size
  /-- Its cells are not older than the place. -/
  le : ∀ u, s.Reaches t u → n ≤ u.index
  /-- None of its variables is bound. -/
  unbound : ∀ u, s.Reaches t u → ¬ s.Bound u

theorem Adds.detached (h : Adds base s) (ht : New base s t) : s.Detached base.size t := by
  have hle : ∀ u, s.Reaches t u → base.size ≤ u.index := by
    intro u hr
    induction hr with
    | refl => exact ht.le
    | tail _ hp ih => exact h.apart ih hp
  exact ⟨ht.lt, hle, fun u hr => h.unbound (hle u hr)⟩

theorem Allocates.detached {r : Ref × Store} (h : Allocates base s r) :
    r.2.Detached base.size r.1 :=
  h.adds.detached h.new

theorem Detached.mono (h : s.Detached n t) {m : Nat} (hle : m ≤ n) : s.Detached m t where
  lt := h.lt
  le u hr := Nat.le_trans hle (h.le u hr)
  unbound := h.unbound

/-- The parts of a detached term are detached. -/
theorem Detached.of_reaches (h : s.Detached n t) (hs : s.WellFormed) (hr : s.Reaches t u) :
    s.Detached n u where
  lt := hs.lt_of_reaches h.lt hr
  le w hw := h.le w (hr.trans hw)
  unbound w hw := h.unbound w (hr.trans hw)

theorem Detached.grow (h : s.Detached n t) (hs : s.WellFormed) (hgrows : Grows s s' []) :
    s'.Detached n t where
  lt := Nat.lt_of_lt_of_le h.lt hgrows.size_le
  le u hr := h.le u (hgrows.reaches_of_reaches hs h.lt hr)
  unbound u hr := by
    have hold := hgrows.reaches_of_reaches hs h.lt hr
    rintro ⟨name, w, hc⟩
    rw [hgrows.kept (hs.lt_of_reaches h.lt hold) List.not_mem_nil] at hc
    exact h.unbound u hold ⟨name, w, hc⟩

/-- A name applied to detached terms is detached. -/
theorem WellFormed.detached_apply (hs : s.WellFormed) (name : String) {args : List Ref}
    (hargs : ∀ u ∈ args, s.Detached n u) (hn : n ≤ s.size) :
    (s.apply name args).2.Detached n (s.apply name args).1 := by
  have hgrows := grows_apply s name args
  have hstep : ∀ u, (s.apply name args).2.Reaches (s.apply name args).1 u →
      u = (s.apply name args).1 ∨ ∃ a ∈ args, (s.apply name args).2.Reaches a u := by
    intro u hr
    rcases ReflTransGen.cases_head hr with heq | ⟨w, hp, hr⟩
    · exact .inl heq.symm
    · rw [apply_eq] at hp
      rcases points_push_cases hp with hp | ⟨-, hw⟩
      · exact absurd hp.index_lt (Nat.lt_irrefl _)
      · exact .inr ⟨w, mem_mentions_applyCell hw, hr⟩
  have hnew : ¬ (s.apply name args).2.Bound (s.apply name args).1 := by
    rw [apply_eq, bound_push_iff (applyCell_ne_bound name args)]
    exact fun hb => absurd hb.index_lt (Nat.lt_irrefl _)
  refine ⟨apply_lt s name args, fun u hr => ?_, fun u hr => ?_⟩
  · rcases hstep u hr with rfl | ⟨a, ha, hr⟩
    · rw [apply_eq]
      exact hn
    · exact ((hargs a ha).grow hs hgrows).le u hr
  · rcases hstep u hr with rfl | ⟨a, ha, hr⟩
    · exact hnew
    · exact ((hargs a ha).grow hs hgrows).unbound u hr

end Store

end Clausal
