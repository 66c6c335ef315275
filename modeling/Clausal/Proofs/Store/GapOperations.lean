import Clausal.Proofs.Store.Gap

/-! # Copying, unifying and building in a wider store

The operations that go through terms and change the store while they do.  The bounds that they go
down to are those of their correctness proofs: the rank of the term for copying, and the number of
cells above it for unification.
-/

namespace Clausal

namespace Store

open Wider

variable {gap : Gap} {s s' : Store} {a b t u v : Ref} {ts : List Ref} {n n' : Nat}
  {fresh : Renaming}

/-! ## Copies -/

/-- The copies, the store and the renaming are those of the wider store. -/
structure CopiesWide {α : Type} (gap : Gap) (φ : α → α) (r r' : α × Store × Renaming) : Prop where
  /-- The copies. -/
  value : r'.1 = φ r.1
  /-- The store after it. -/
  store : Wider gap r.2.1 r'.2.1
  /-- The renaming after it. -/
  fresh : r'.2.2 = gap.entries r.2.2

theorem copiesWide_copyAll {one one' : Store × Renaming → Ref → Ref × Store × Renaming}
    (bound : Store → Ref → Prop)
    (hcopies : ∀ {s fresh t}, s.WellFormed → fresh.InRange s → t.index < s.size → bound s t →
      Copies (s, fresh) [t] ([(one (s, fresh) t).1], (one (s, fresh) t).2))
    (hone : ∀ {s s' fresh t}, Wider gap s s' → s.WellFormed → fresh.InRange s → t.index < s.size →
      bound s t →
      CopiesWide gap gap.ref (one (s, fresh) t) (one' (s', gap.entries fresh) (gap.ref t)))
    (hbound : ∀ {s s' t}, Grows s s' [] → s.WellFormed → t.index < s.size → bound s t → bound s' t)
    (h : Wider gap s s') (hs : s.WellFormed) (hr : fresh.InRange s)
    (hts : ∀ t ∈ ts, t.index < s.size ∧ bound s t) :
    CopiesWide gap (List.map gap.ref) (copyAll one (s, fresh) ts)
      (copyAll one' (s', gap.entries fresh) (ts.map gap.ref)) := by
  induction ts generalizing s s' fresh with
  | nil => exact ⟨rfl, h, rfl⟩
  | cons t ts ih =>
    rw [List.forall_mem_cons] at hts
    have hcopy := hcopies hs hr hts.1.1 hts.1.2
    have hfirst := hone h hs hr hts.1.1 hts.1.2
    rw [List.map_cons, copyAll, copyAll]
    generalize one (s, fresh) t = r at hcopy hfirst ⊢
    generalize one' (s', gap.entries fresh) (gap.ref t) = r' at hfirst ⊢
    obtain ⟨u, s₁, fresh₁⟩ := r
    obtain ⟨u', s₁', fresh₁'⟩ := r'
    obtain ⟨rfl, hstore, rfl⟩ := hfirst
    have hrest := ih hstore hcopy.wellFormed (hcopy.inRange hr) fun t ht =>
      ⟨Nat.lt_of_lt_of_le (hts.2 t ht).1 hcopy.grows.size_le,
        hbound hcopy.grows hs (hts.2 t ht).1 (hts.2 t ht).2⟩
    exact ⟨congrArg (gap.ref u :: ·) hrest.value, hrest.store, hrest.fresh⟩

theorem copiesWide_copyFrom (h : Wider gap s s') (hs : s.WellFormed) (hr : fresh.InRange s)
    (ht : t.index < s.size) (hn : s.rank t < n) (hn' : s.rank t < n') :
    CopiesWide gap gap.ref (copyFrom n (s, fresh) t)
      (copyFrom n' (s', gap.entries fresh) (gap.ref t)) := by
  induction n generalizing n' s s' fresh t with
  | zero => omega
  | succ n ih =>
    obtain ⟨n', rfl⟩ := Nat.exists_eq_add_of_lt (Nat.zero_lt_of_lt hn')
    have hrank := hs.acyclic.rank_deref_le t
    rw [Nat.zero_add, copyFrom, copyFrom]
    simp only [h.deref hs.acyclic, h.cell]
    generalize s.deref t = t at *
    rcases hc : s.cell? t with _ | ⟨l | ⟨name, args⟩ | ⟨name, binding⟩⟩
    · exact ⟨rfl, h, rfl⟩
    · exact ⟨rfl, h, rfl⟩
    · have hargs : ∀ u ∈ args, u.index < s.size ∧ (s.rank u < n ∧ s.rank u < n') := by
        intro u hu
        have hlt := hs.acyclic.rank_lt (.arg hc hu)
        exact ⟨hs.closed (.arg hc hu), by omega, by omega⟩
      have hall := copiesWide_copyAll (fun s t => s.rank t < n ∧ s.rank t < n')
        (fun hs hr ht hb => copies_copyFrom hs hr ht hb.1)
        (fun h hs hr ht hb => ih h hs hr ht hb.1 hb.2)
        (fun hgrows hs ht hb => ⟨Nat.lt_of_le_of_lt (hgrows.rank_le hs ht) hb.1,
          Nat.lt_of_le_of_lt (hgrows.rank_le hs ht) hb.2⟩) h hs hr hargs
      simp only [Option.map_some, Gap.cell]
      generalize copyAll (copyFrom n) (s, fresh) args = r at hall
      generalize copyAll (copyFrom n') (s', gap.entries fresh) (args.map gap.ref) = r' at hall
      obtain ⟨us, s₁, fresh₁⟩ := r
      obtain ⟨us', s₁', fresh₁'⟩ := r'
      obtain ⟨rfl, hstore, rfl⟩ := hall
      simp only [(List.map_injective_iff.mpr gap.ref_injective).eq_iff]
      split
      · exact ⟨rfl, hstore, rfl⟩
      · have hpush := Shifting.push hstore (.compound name us)
        exact ⟨hpush.value, hpush.store, rfl⟩
    · simp only [Option.map_some, Gap.cell, gap.lookup_entries]
      rcases fresh.lookup t with _ | u
      · have hvar := Shifting.var h none
        refine ⟨hvar.value, hvar.store, ?_⟩
        simp only [Option.map_none, Gap.entries, List.map_cons, hvar.value]
      · exact ⟨rfl, h, rfl⟩

/-- **Copying does the same in a wider store.** -/
theorem Wider.copyWith (h : Wider gap s s') (hs : s.WellFormed) (hr : fresh.InRange s)
    (ht : t.index < s.size) :
    CopiesWide gap gap.ref (s.copyWith fresh t) (s'.copyWith (gap.entries fresh) (gap.ref t)) := by
  have hle := s.rank_le_size t
  have hsize := h.size_le
  exact copiesWide_copyFrom h hs hr ht (by omega) (by omega)

theorem Wider.copy (h : Wider gap s s') (hs : s.WellFormed) (ht : t.index < s.size) :
    Widens (Wider gap) gap.ref (s.copy t) (s'.copy (gap.ref t)) := by
  have hnil : Renaming.InRange [] s := nofun
  have hcopy := h.copyWith hs hnil ht
  exact ⟨hcopy.value, hcopy.store⟩

/-! ## Unification -/

theorem Wider.occursFrom (h : Wider gap s s') (hs : s.Acyclic) (v : Ref) (hn : s.rank t < n)
    (hn' : s.rank t < n') :
    s'.occursFrom (gap.ref v) n' (gap.ref t) = s.occursFrom v n t := by
  induction n generalizing n' t with
  | zero => omega
  | succ n ih =>
    obtain ⟨n', rfl⟩ := Nat.exists_eq_add_of_lt (Nat.zero_lt_of_lt hn')
    rw [Nat.zero_add, Store.occursFrom, Store.occursFrom, h.view hs]
    rcases hview : s.view t with w | l | ⟨name, args⟩
    · simp [Gap.view]
    · rfl
    · simp only [Gap.view, List.any_map]
      rw [Bool.eq_iff_iff, List.any_eq_true, List.any_eq_true]
      refine exists_congr fun u => and_congr_right fun hu => ?_
      have hlt := hs.rank_lt_of_view hview hu
      rw [Function.comp_apply, ih (by omega) (by omega)]

theorem Wider.occurs (h : Wider gap s s') (hs : s.Acyclic) (v t : Ref) :
    s'.occurs (gap.ref v) (gap.ref t) = s.occurs v t := by
  have hle := s.rank_le_size t
  have hsize := h.size_le
  exact h.occursFrom hs v (by omega) (by omega)

theorem Wider.bindChecked (h : Wider gap s s') (hs : s.Acyclic) (v t : Ref) :
    Widens (Wider gap) id (s.bindChecked v t) (s'.bindChecked (gap.ref v) (gap.ref t)) := by
  rw [Store.bindChecked, Store.bindChecked, h.occurs hs]
  split
  · exact ⟨rfl, h⟩
  · exact ⟨rfl, h.bind v t⟩

theorem widens_unifyPairs {one one' : Store → Ref → Ref → Bool × Store} (bound : Store → Ref → Prop)
    (hunifies : ∀ {s x y}, s.WellFormed → x.index < s.size → y.index < s.size → bound s x →
      Unifies s [(x, y)] (one s x y))
    (hone : ∀ {s s' x y}, Wider gap s s' → s.WellFormed → x.index < s.size → y.index < s.size →
      bound s x → Widens (Wider gap) id (one s x y) (one' s' (gap.ref x) (gap.ref y)))
    (hbound : ∀ {s s' vs x}, Grows s s' vs → s'.size = s.size → bound s x → bound s' x)
    {xs ys : List Ref} (h : Wider gap s s') (hs : s.WellFormed)
    (hx : ∀ x ∈ xs, x.index < s.size ∧ bound s x) (hy : ∀ y ∈ ys, y.index < s.size) :
    Widens (Wider gap) id (unifyPairs one s xs ys)
      (unifyPairs one' s' (xs.map gap.ref) (ys.map gap.ref)) := by
  induction xs generalizing s s' ys with
  | nil => exact ⟨rfl, h⟩
  | cons x xs ih =>
    cases ys with
    | nil => exact ⟨rfl, h⟩
    | cons y ys =>
      rw [List.forall_mem_cons] at hx hy
      have hunify := hunifies hs hx.1.1 hy.1 hx.1.2
      have hfirst := hone h hs hx.1.1 hy.1 hx.1.2
      rw [List.map_cons, List.map_cons, unifyPairs, unifyPairs]
      generalize one s x y = r at hunify hfirst ⊢
      generalize one' s' (gap.ref x) (gap.ref y) = r' at hfirst ⊢
      obtain ⟨ok, s₁⟩ := r
      obtain ⟨ok', s₁'⟩ := r'
      obtain ⟨hok, hstore⟩ := hfirst
      obtain rfl : ok' = ok := hok
      cases ok' with
      | false => exact ⟨rfl, hstore⟩
      | true =>
        obtain ⟨vs, hgrows, -⟩ := hunify.grows
        have hsize : s₁.size = s.size := hunify.size
        refine ih hstore hunify.wellFormed (fun x hmem => ?_) fun y hmem => ?_
        · exact ⟨hsize ▸ (hx.2 x hmem).1, hbound hgrows hsize (hx.2 x hmem).2⟩
        · exact hsize ▸ hy.2 y hmem

theorem widens_unifyFrom (h : Wider gap s s') (hs : s.WellFormed) (ha : a.index < s.size)
    (hb : b.index < s.size) (hn : s.size < n + s.above a) (hn' : s.size < n' + s.above a) :
    Widens (Wider gap) id (unifyFrom n s a b) (unifyFrom n' s' (gap.ref a) (gap.ref b)) := by
  induction n generalizing n' s s' a b with
  | zero =>
    have := s.above_le_size a
    omega
  | succ n ih =>
    have habove' := s.above_le_size a
    obtain ⟨n', rfl⟩ := Nat.exists_eq_add_of_lt (show 0 < n' by omega)
    have habove := above_le_of_reaches (hs.acyclic.reaches_deref a)
    rw [Nat.zero_add, unifyFrom, unifyFrom, h.deref hs.acyclic, h.deref hs.acyclic,
      h.view hs.acyclic, h.view hs.acyclic]
    simp only [Gap.ref_inj]
    have hda := hs.deref_lt ha
    have hdb := hs.deref_lt hb
    have hidem := hs.acyclic.deref_deref
    have hcella : ∀ {name us}, s.view (s.deref a) = .compound name us →
        s.cell? (s.deref a) = some (.compound name us) := fun hview => by
      simpa [hidem] using cell?_deref_of_view_compound hview
    have hcellb : ∀ {name us}, s.view (s.deref b) = .compound name us →
        s.cell? (s.deref b) = some (.compound name us) := fun hview => by
      simpa [hidem] using cell?_deref_of_view_compound hview
    generalize s.deref a = a at *
    generalize s.deref b = b at *
    split
    · exact ⟨rfl, h⟩
    · rcases hview : s.view a with v | l | ⟨f, xs⟩ <;> rcases hview' : s.view b with w | m | ⟨g, ys⟩
      case var.var =>
        simp only [Gap.view, Gap.ref, gap.place_lt_iff]
        split
        · exact ⟨rfl, h.bind a b⟩
        · exact ⟨rfl, h.bind b a⟩
      case compound.compound =>
        simp only [Gap.view, List.length_map]
        split
        · have hlt : ∀ x ∈ xs, x.index < s.size ∧
              (s.size < n + s.above x ∧ s.size < n' + s.above x) := by
            intro x hx
            have := hs.acyclic.above_lt (.arg (hcella hview) hx)
            exact ⟨hs.closed (.arg (hcella hview) hx), by omega, by omega⟩
          refine widens_unifyPairs
            (fun s x => s.size < n + s.above x ∧ s.size < n' + s.above x)
            (fun hs hx hy hb => unifies_unifyFrom hs hx hy hb.1)
            (fun h hs hx hy hb => ih h hs hx hy hb.1 hb.2) ?_ h hs hlt
            fun y hy => hs.closed (.arg (hcellb hview') hy)
          intro s s' vs x hgrows hsize hx
          have := hgrows.above_le hsize x
          omega
        · exact ⟨rfl, h⟩
      case var.literal | var.compound => exact h.bindChecked hs.acyclic a b
      case literal.var | compound.var => exact h.bindChecked hs.acyclic b a
      all_goals exact ⟨rfl, h⟩

/-- **Unification does the same in a wider store.** -/
theorem Wider.unify (h : Wider gap s s') (hs : s.WellFormed) (ha : a.index < s.size)
    (hb : b.index < s.size) :
    Widens (Wider gap) id (s.unify a b) (s'.unify (gap.ref a) (gap.ref b)) := by
  have hsize := h.size_le
  exact widens_unifyFrom h hs ha hb (by omega) (by omega)

/-! ## Building -/

/-- The variables met before, in the wider store and numbered anew. -/
def Placed.widen (gap : Gap) (f : Nat → Nat) (placed : Placed) : Placed :=
  placed.map fun e => (⟨f e.1.id, e.1.name⟩, gap.ref e.2)

theorem Placed.lookup_widen {f : Nat → Nat} (hf : Function.Injective f) (placed : Placed)
    (v : TermVar) :
    (placed.widen gap f).lookup ⟨f v.id, v.name⟩ = (placed.lookup v).map gap.ref := by
  refine lookup_map_injective (f := fun v : TermVar => (⟨f v.id, v.name⟩ : TermVar))
    (fun v w h => ?_) gap.ref
    placed v
  obtain ⟨i, name⟩ := v
  obtain ⟨j, name'⟩ := w
  rw [TermVar.mk.injEq] at h ⊢
  exact ⟨hf h.1, h.2⟩

/-- What was built, the store and the variables are those of the wider store. -/
structure BuildsWide {α : Type} (gap : Gap) (f : Nat → Nat) (φ : α → α)
    (r r' : α × Store × Placed) : Prop where
  /-- What was built. -/
  value : r'.1 = φ r.1
  /-- The store after it. -/
  store : Wider gap r.2.1 r'.2.1
  /-- The variables met. -/
  placed : r'.2.2 = Placed.widen gap f r.2.2

mutual

theorem widens_buildWith {f : Nat → Nat} (hf : Function.Injective f) (x : Term) {s s' : Store}
    (h : Wider gap s s') (placed : Placed) : BuildsWide gap f gap.ref (s.buildWith placed x)
      (s'.buildWith (placed.widen gap f) (x.renumber f)) := by
  match x with
  | .literal l =>
    have hpush := Shifting.literal h l
    rw [Term.renumber, Store.buildWith, Store.buildWith]
    exact ⟨hpush.value, hpush.store, rfl⟩
  | .var v =>
    have hpush := Shifting.var h v.name
    rw [Term.renumber, Store.buildWith, Store.buildWith]
    have hlookup : (placed.widen gap f).lookup ⟨f v.id, v.name⟩ = (placed.lookup v).map gap.ref :=
      Placed.lookup_widen hf placed v
    rw [hlookup]
    rcases placed.lookup v with _ | t
    · refine ⟨hpush.value, hpush.store, ?_⟩
      simp only [Option.map_none, Placed.widen, List.map_cons, hpush.value]
    · exact ⟨rfl, h, rfl⟩
  | .compound name args =>
    have hargs := widens_buildArgs hf args h placed
    rw [Term.renumber, Store.buildWith, Store.buildWith]
    generalize s.buildArgs placed args = r at hargs ⊢
    generalize s'.buildArgs (placed.widen gap f) (Term.renumberAll f args) = r' at hargs ⊢
    obtain ⟨us, s₁, placed₁⟩ := r
    obtain ⟨us', s₁', placed₁'⟩ := r'
    obtain ⟨rfl, hstore, rfl⟩ := hargs
    have hpush := Shifting.push hstore (.compound name us)
    exact ⟨hpush.value, hpush.store, rfl⟩

theorem widens_buildArgs {f : Nat → Nat} (hf : Function.Injective f) (xs : List Term)
    {s s' : Store} (h : Wider gap s s') (placed : Placed) : BuildsWide gap f (List.map gap.ref)
      (s.buildArgs placed xs) (s'.buildArgs (placed.widen gap f) (Term.renumberAll f xs)) := by
  match xs with
  | [] =>
    rw [Term.renumberAll, Store.buildArgs, Store.buildArgs]
    exact ⟨rfl, h, rfl⟩
  | x :: xs =>
    have hfirst := widens_buildWith hf x h placed
    rw [Term.renumberAll, Store.buildArgs, Store.buildArgs]
    generalize s.buildWith placed x = r at hfirst ⊢
    generalize s'.buildWith (placed.widen gap f) (x.renumber f) = r' at hfirst ⊢
    obtain ⟨u, s₁, placed₁⟩ := r
    obtain ⟨u', s₁', placed₁'⟩ := r'
    obtain ⟨rfl, hstore, rfl⟩ := hfirst
    have hrest := widens_buildArgs hf xs hstore placed₁
    exact ⟨congrArg (gap.ref u :: ·) hrest.value, hrest.store, hrest.placed⟩

end

/-- **Building a term does the same in a wider store**, also if its variables are numbered anew. -/
theorem Wider.build {f : Nat → Nat} (hf : Function.Injective f) (h : Wider gap s s') (x : Term) :
    Widens (Wider gap) gap.ref (s.build x) (s'.build (x.renumber f)) := by
  have hbuild := widens_buildWith hf x h []
  exact ⟨hbuild.value, hbuild.store⟩

end Store

end Clausal
