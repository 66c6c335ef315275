import Clausal.Machine
import Clausal.Proofs.Actions
import Clausal.Proofs.Clause.Storing

/-! # How a machine changes

A machine is `Sound` if its store is well formed and each of its clauses is faithful, whatever
bindings are in force.  Whatever a machine does keeps it sound; two relations say what else it does.

* `Settles n m m'`: no binding was made that is still in force, and the variables of new clauses
  belong to terms not older than the place `n`.  This is what loading does.
* `Evolves m m' R R'`: bindings were made, but only of what is reached from the terms `R`.  A variable
  that is free and out of their reach stays free and out of reach, of the old cells and of the terms
  `R'` that the action gives; and the variables of new clauses are free and out of reach of both.
  This is what proving does.

Both compose.  The one step back, undoing to a mark, turns an evolution into a settlement
(`Evolves.undo`), or into the evolution up to an earlier point (`Evolves.undoTo`).
-/

namespace Clausal

open Store Relation

/-! ## The clauses of a database -/

/-- The predicate of the machine. -/
def Procedure.builtin? : Procedure → Option Builtin
  | .builtin b => some b
  | .defined _ => none

/-- The predicate of the program. -/
def Procedure.predicate? : Procedure → Option Predicate
  | .builtin _ => none
  | .defined p => some p

namespace Database

variable {db db' : Database} {pi q : Indicator} {c : Clause} {p : Predicate} {load : Nat}

/-- The clause is stored for the indicator. -/
def Holds (db : Database) (pi : Indicator) (c : Clause) : Prop :=
  ∃ p, (pi, .defined p) ∈ db.entries ∧ c ∈ p.clauses

theorem mem_set {entry : Indicator × Procedure} {proc : Procedure}
    {entries : List (Indicator × Procedure)} (h : entry ∈ set pi proc entries) :
    entry = (pi, proc) ∨ entry ∈ entries := by
  induction entries with
  | nil => exact .inl (List.mem_singleton.mp h)
  | cons e entries ih =>
    rw [set] at h
    split at h
    · rcases List.mem_cons.mp h with rfl | h
      · exact .inl rfl
      · exact .inr (List.mem_cons_of_mem _ h)
    · rcases List.mem_cons.mp h with rfl | h
      · exact .inr List.mem_cons_self
      · exact (ih h).imp id (List.mem_cons_of_mem _)

theorem mem_of_find? {proc : Procedure} (h : db.find? pi = some proc) :
    (pi, proc) ∈ db.entries := by
  obtain ⟨l, l', heq, -⟩ := List.lookup_eq_some_iff.mp h
  exact heq ▸ List.mem_append_right _ List.mem_cons_self

/-- The predicate for an indicator, if it is defined by clauses. -/
def predicate? (db : Database) (pi : Indicator) : Option Predicate :=
  (db.find? pi).bind Procedure.predicate?

theorem predicate?_eq_some : db.predicate? pi = some p ↔ db.find? pi = some (.defined p) := by
  rcases h : db.find? pi with _ | _ | q <;> simp [predicate?, Procedure.predicate?, h]

theorem holds_of_find? (h : db.find? pi = some (.defined p)) (hc : c ∈ p.clauses) :
    db.Holds pi c :=
  ⟨p, mem_of_find? h, hc⟩

/-- Defining a predicate anew. -/
theorem holds_insert (h : (db.insert pi (.defined p)).Holds q c) :
    db.Holds q c ∨ (q = pi ∧ c ∈ p.clauses) := by
  obtain ⟨p', hmem, hc⟩ := h
  rcases mem_set hmem with heq | hmem
  · cases heq
    exact .inr ⟨rfl, hc⟩
  · exact .inl ⟨p', hmem, hc⟩

theorem mem_of_mem_touchedBy (h : c ∈ (p.touchedBy load).clauses) : c ∈ p.clauses := by
  unfold Predicate.touchedBy at h
  split at h
  · exact h
  · split at h
    · exact h
    · cases h

/-- Touching a predicate adds no clauses. -/
theorem holds_of_touch (h : db.touch load pi = .ok (p, db')) :
    (∀ c ∈ p.clauses, db.Holds pi c) ∧ ∀ q c, db'.Holds q c → db.Holds q c := by
  have hfound : ∀ proc, db.find? pi = some (.defined proc) → p = proc.touchedBy load →
      ∀ c ∈ p.clauses, db.Holds pi c :=
    fun proc hproc heq c hc => holds_of_find? hproc (mem_of_mem_touchedBy (heq ▸ hc))
  have hinsert : (∀ c ∈ p.clauses, db.Holds pi c) → ∀ q c,
      (db.insert pi (.defined p)).Holds q c → db.Holds q c := by
    intro hp q c hc
    rcases holds_insert hc with hold | ⟨rfl, hnew⟩
    · exact hold
    · exact hp c hnew
  unfold touch at h
  rcases hproc : db.find? pi with _ | ⟨b | proc⟩
  · rw [hproc] at h
    cases h
    exact ⟨nofun, hinsert nofun⟩
  · rw [hproc] at h
    cases h
  · rw [hproc] at h
    cases h
    exact ⟨hfound proc hproc rfl, hinsert (hfound proc hproc rfl)⟩

/-- Changing a predicate by adding clauses at its end. -/
theorem holds_of_update {f : Predicate → Predicate} {new : List Clause}
    (hf : ∀ p, (f p).clauses = p.clauses ++ new) (h : db.update load pi f = .ok db')
    (hc : db'.Holds q c) : db.Holds q c ∨ (q = pi ∧ c ∈ new) := by
  unfold update at h
  rcases htouch : db.touch load pi with e | ⟨p, db₁⟩
  · rw [htouch] at h
    cases h
  · rw [htouch] at h
    cases h
    obtain ⟨hp, hdb⟩ := holds_of_touch htouch
    rcases holds_insert hc with hold | ⟨rfl, hnew⟩
    · exact .inl (hdb q c hold)
    · rw [hf, List.mem_append] at hnew
      exact hnew.imp (hp c) fun hnew => ⟨rfl, hnew⟩

theorem holds_of_declare {property : Property} (h : db.declare load property pi = .ok db')
    (hc : db'.Holds q c) : db.Holds q c := by
  have hsame : ∀ p : Predicate,
      ({ p with flags := p.flags.set property } : Predicate).clauses = p.clauses ++ [] :=
    fun p => (List.append_nil p.clauses).symm
  rcases holds_of_update hsame h hc with hc | ⟨-, hc⟩
  · exact hc
  · cases hc

theorem holds_of_append {c' : Clause} (h : db.append load c' = .ok db') (hc : db'.Holds q c) :
    db.Holds q c ∨ (q = c'.pi ∧ c = c') :=
  (holds_of_update (fun _ => rfl) h hc).imp id fun ⟨hq, hc⟩ => ⟨hq, List.mem_singleton.mp hc⟩

end Database

namespace Machine

variable {m m' m'' : Machine} {s : Store} {R R' R'' L : List Ref} {c : Clause} {t u v : Ref}
  {n : Nat} {pi : Indicator}

/-! ## Sound machines -/

/-- The store is well formed, and every clause is faithful and stored where it belongs. -/
structure Sound (m : Machine) : Prop where
  /-- The store is well formed. -/
  wellFormed : m.store.WellFormed
  /-- The trail lists the bound variables. -/
  trailed : m.store.Trailed
  /-- Clauses are faithful. -/
  faithful : ∀ pi c, m.database.Holds pi c → c.Faithful m.store
  /-- Clauses belong to the predicate that they are stored for. -/
  filed : ∀ pi c, m.database.Holds pi c → c.pi = pi

/-- A change of the store that leaves the clauses as they are. -/
theorem Sound.of_persists (h : m.Sound) (hs : s.WellFormed) (ht : s.Trailed)
    (hp : Persists m.store s) : { m with store := s }.Sound where
  wellFormed := hs
  trailed := ht
  faithful pi c hc := (h.faithful pi c hc).persist h.wellFormed hs hp
  filed := h.filed

/-! ## Loading -/

/-- Bindings in force are those that were; new clauses have free variables from the place `n` on. -/
structure Settles (n : Nat) (m m' : Machine) : Prop where
  /-- The machine is sound. -/
  sound : m'.Sound
  /-- There are only new cells. -/
  grows : Grows m.store m'.store []
  /-- The variables of new clauses are not older than the place, and free. -/
  clauses : ∀ pi c, m'.database.Holds pi c →
    m.database.Holds pi c ∨ ∀ v ∈ c.vars, n ≤ v.index ∧ m'.store.Free v

theorem Settles.refl (h : m.Sound) (n : Nat) : Settles n m m where
  sound := h
  grows := Grows.refl _
  clauses _ _ := .inl

theorem Settles.trans (h : Settles n m m') (h' : Settles n m' m'') : Settles n m m'' where
  sound := h'.sound
  grows := h.grows.trans h'.grows
  clauses pi c hc := by
    rcases h'.clauses pi c hc with hc | hc
    · refine (h.clauses pi c hc).imp id fun hvars v hv => ?_
      exact ⟨(hvars v hv).1, h'.grows.free_of_nil (hvars v hv).2⟩
    · exact .inr hc

theorem Settles.mono (h : Settles n m m') {k : Nat} (hle : k ≤ n) : Settles k m m' where
  sound := h.sound
  grows := h.grows
  clauses pi c hc := (h.clauses pi c hc).imp id fun hvars v hv =>
    ⟨Nat.le_trans hle (hvars v hv).1, (hvars v hv).2⟩

/-- A machine with the same store and the same clauses. -/
theorem Settles.congr (h : Settles n m m') (hs : m''.store = m'.store)
    (hdb : m''.database = m'.database) : Settles n m m'' where
  sound := ⟨hs ▸ h.sound.wellFormed, hs ▸ h.sound.trailed, hs ▸ hdb ▸ h.sound.faithful,
    hdb ▸ h.sound.filed⟩
  grows := hs ▸ h.grows
  clauses := hs ▸ hdb ▸ h.clauses

/-- Adding cells to the store. -/
theorem Sound.settles_adds (h : m.Sound) (hs : Adds m.store s) (n : Nat) :
    Settles n m { m with store := s } where
  sound := h.of_persists hs.wellFormed (hs.trailed h.trailed) (hs.grows.persists h.trailed)
  grows := hs.grows
  clauses _ _ := .inl

theorem Settles.detached (h : Settles n m m') (hm : m.Sound) {k : Nat}
    (ht : m.store.Detached k t) : m'.store.Detached k t :=
  ht.grow hm.wellFormed h.grows

/-! ## Proving -/

/-- Only what is reached from the terms `R` was bound, and the terms `R'` are what came of it. -/
structure Evolves (m m' : Machine) (R R' : List Ref) : Prop where
  /-- The machine is sound. -/
  sound : m'.Sound
  /-- The store has grown. -/
  grows : ∃ vs, Grows m.store m'.store vs
  /-- The terms have cells. -/
  lt : ∀ r ∈ R', r.index < m'.store.size
  /-- A free variable out of reach stays free and out of reach. -/
  spares : ∀ v, m.store.Free v → (∀ r ∈ R, ¬ m.store.Reaches r v) →
    m'.store.Free v ∧ Spares m.store m'.store v ∧ ∀ r ∈ R', ¬ m'.store.Reaches r v
  /-- The variables of new clauses are new, free and out of reach. -/
  clauses : ∀ pi c, m'.database.Holds pi c → m.database.Holds pi c ∨
    ∀ v ∈ c.vars, m.store.size ≤ v.index ∧ m'.store.Free v ∧
      (∀ t, t.index < m.store.size → ¬ m'.store.Reaches t v) ∧
      ∀ r ∈ R', ¬ m'.store.Reaches r v

/-- Parts of the terms, in the same machine. -/
theorem Sound.evolves_parts (h : m.Sound) (hR : ∀ r ∈ R, r.index < m.store.size)
    (hR' : ∀ r' ∈ R', ∃ r ∈ R, m.store.Reaches r r') : Evolves m m R R' where
  sound := h
  grows := ⟨[], Grows.refl _⟩
  lt r' hr' := by
    obtain ⟨r, hr, hreach⟩ := hR' r' hr'
    exact h.wellFormed.lt_of_reaches (hR r hr) hreach
  spares v hf hout := ⟨hf, Spares.refl _ v, fun r' hr' hr => by
    obtain ⟨r, hmem, hreach⟩ := hR' r' hr'
    exact hout r hmem (hreach.trans hr)⟩
  clauses _ _ := .inl

theorem Sound.evolves_refl (h : m.Sound) (hR : ∀ r ∈ R, r.index < m.store.size) :
    Evolves m m R R :=
  h.evolves_parts hR fun r hr => ⟨r, hr, .refl⟩

theorem Sound.evolves_nil (h : m.Sound) (R : List Ref) : Evolves m m R [] where
  sound := h
  grows := ⟨[], Grows.refl _⟩
  lt := nofun
  spares v hf _ := ⟨hf, Spares.refl _ v, nofun⟩
  clauses _ _ := .inl

theorem Evolves.size_le (h : Evolves m m' R R') : m.store.size ≤ m'.store.size := by
  obtain ⟨vs, hgrows⟩ := h.grows
  exact hgrows.size_le

theorem Evolves.mark_le (h : Evolves m m' R R') : m.store.mark ≤ m'.store.mark := by
  obtain ⟨vs, hgrows⟩ := h.grows
  exact hgrows.mark_le

theorem Evolves.trans (h : Evolves m m' R R') (h' : Evolves m' m'' R' R'') :
    Evolves m m'' R R'' where
  sound := h'.sound
  grows := by
    obtain ⟨vs, hgrows⟩ := h.grows
    obtain ⟨ws, hgrows'⟩ := h'.grows
    exact ⟨_, hgrows.trans hgrows'⟩
  lt := h'.lt
  spares v hf hout := by
    obtain ⟨hf', hspares, hout'⟩ := h.spares v hf hout
    obtain ⟨hf'', hspares', hout''⟩ := h'.spares v hf' hout'
    exact ⟨hf'', hspares.trans hspares' h.size_le, hout''⟩
  clauses pi c hc := by
    rcases h'.clauses pi c hc with hc | hc
    · refine (h.clauses pi c hc).imp id fun hvars v hv => ?_
      obtain ⟨hle, hf, hold, hout⟩ := hvars v hv
      obtain ⟨hf', hspares, hout'⟩ := h'.spares v hf hout
      refine ⟨hle, hf', fun t ht hr => hold t ht (hspares t ?_ hr), hout'⟩
      exact Nat.lt_of_lt_of_le ht h.size_le
    · refine .inr fun v hv => ?_
      obtain ⟨hle, hf, hold, hout⟩ := hc v hv
      exact ⟨Nat.le_trans h.size_le hle, hf,
        fun t ht => hold t (Nat.lt_of_lt_of_le ht h.size_le), hout⟩

/-- More terms, from which more may be reached, and further old terms among them that are kept. -/
theorem Evolves.within (h : Evolves m m' R R') {R₁ : List Ref} (hR : ∀ r ∈ R, r ∈ R₁)
    (hL : ∀ r ∈ L, r ∈ R₁ ∧ r.index < m.store.size) : Evolves m m' R₁ (R' ++ L) where
  sound := h.sound
  grows := h.grows
  lt r hr := by
    rcases List.mem_append.mp hr with hr | hr
    · exact h.lt r hr
    · exact Nat.lt_of_lt_of_le (hL r hr).2 h.size_le
  spares v hf hout := by
    obtain ⟨hf', hspares, hout'⟩ := h.spares v hf fun r hr => hout r (hR r hr)
    refine ⟨hf', hspares, fun r hr => ?_⟩
    rcases List.mem_append.mp hr with hr | hr
    · exact hout' r hr
    · exact fun hreach => hout r (hL r hr).1 (hspares r (hL r hr).2 hreach)
  clauses pi c hc := (h.clauses pi c hc).imp id fun hvars v hv => by
    obtain ⟨hle, hf, hold, hout⟩ := hvars v hv
    refine ⟨hle, hf, hold, fun r hr => ?_⟩
    rcases List.mem_append.mp hr with hr | hr
    · exact hout r hr
    · exact hold r (hL r hr).2

/-- Fewer terms, or parts of them. -/
theorem Evolves.parts (h : Evolves m m' R R') (hR : ∀ r'' ∈ R'', ∃ r ∈ R', m'.store.Reaches r r'') :
    Evolves m m' R R'' :=
  h.trans (h.sound.evolves_parts h.lt hR)

theorem Evolves.subset (h : Evolves m m' R R') (hR : ∀ r ∈ R'', r ∈ R') : Evolves m m' R R'' :=
  h.parts fun r hr => ⟨r, hR r hr, .refl⟩

/-- A machine with the same store and the same clauses. -/
theorem Evolves.congr (h : Evolves m m' R R') (hs : m''.store = m'.store)
    (hdb : m''.database = m'.database) : Evolves m m'' R R' where
  sound := ⟨hs ▸ h.sound.wellFormed, hs ▸ h.sound.trailed, hs ▸ hdb ▸ h.sound.faithful,
    hdb ▸ h.sound.filed⟩
  grows := hs ▸ h.grows
  lt := hs ▸ h.lt
  spares := hs ▸ h.spares
  clauses := hs ▸ hdb ▸ h.clauses

/-- **Loading binds nothing**: it spares whatever was there. -/
theorem Settles.evolves (h : Settles m.store.size m m') (hm : m.Sound)
    (hR : ∀ r ∈ R, r.index < m.store.size) : Evolves m m' R R where
  sound := h.sound
  grows := ⟨[], h.grows⟩
  lt r hr := Nat.lt_of_lt_of_le (hR r hr) h.grows.size_le
  spares v hf hout := ⟨h.grows.free_of_nil hf, h.grows.spares hm.wellFormed v,
    fun r hr hreach => hout r hr (h.grows.reaches_of_reaches hm.wellFormed (hR r hr) hreach)⟩
  clauses pi c hc := (h.clauses pi c hc).imp id fun hvars v hv => by
    obtain ⟨hle, hf⟩ := hvars v hv
    have hold : ∀ t, t.index < m.store.size → ¬ m'.store.Reaches t v := fun t ht hr =>
      absurd (hm.wellFormed.lt_of_reaches ht (h.grows.reaches_of_reaches hm.wellFormed ht hr))
        (Nat.not_lt.mpr hle)
    exact ⟨hle, hf, hold, fun r hr => hold r (hR r hr)⟩

theorem free_undoTo {k : Nat} (h : s.Free v) : (s.undoTo k).Free v := by
  obtain ⟨name, hc⟩ := h
  refine ⟨name, ?_⟩
  rw [cell?_undoTo, hc]
  split <;> rfl

/-- **Undoing to an earlier mark** keeps what was achieved up to it. -/
theorem Evolves.undoTo (h : Evolves m m' R R') {k : Nat} (hk : m.store.mark ≤ k) :
    Evolves m { m' with store := m'.store.undoTo k } R R' where
  sound := h.sound.of_persists (h.sound.wellFormed.undoTo k) (h.sound.trailed.undoTo k)
    (persists_undoTo _ k)
  grows := by
    obtain ⟨vs, hgrows⟩ := h.grows
    exact ⟨_, hgrows.undoTo h.sound.trailed hk⟩
  lt r hr := by
    rw [size_undoTo]
    exact h.lt r hr
  spares v hf hout := by
    obtain ⟨hf', hspares, hout'⟩ := h.spares v hf hout
    refine ⟨free_undoTo hf', ?_, fun r hr hreach => ?_⟩
    · exact hspares.trans (spares_undoTo _ k v) h.size_le
    · exact hout' r hr (spares_undoTo _ k v r (h.lt r hr) hreach)
  clauses pi c hc := (h.clauses pi c hc).imp id fun hvars v hv => by
    obtain ⟨hle, hf, hold, hout⟩ := hvars v hv
    refine ⟨hle, free_undoTo hf, fun t ht hr => hold t ht ?_, fun r hr hreach => hout r hr ?_⟩
    · exact spares_undoTo _ k v t (Nat.lt_of_lt_of_le ht h.size_le) hr
    · exact spares_undoTo _ k v r (h.lt r hr) hreach

/-- **Undoing all that was bound** leaves new cells and new clauses. -/
theorem Evolves.undo (h : Evolves m m' R R') :
    Settles m.store.size m { m' with store := m'.store.undoTo m.store.mark } where
  sound := (h.undoTo (Nat.le_refl _)).sound
  grows := by
    obtain ⟨vs, hgrows⟩ := h.grows
    exact hgrows.undoTo_mark h.sound.trailed
  clauses pi c hc := (h.clauses pi c hc).imp id fun hvars v hv =>
    ⟨(hvars v hv).1, free_undoTo (hvars v hv).2.1⟩

end Machine

end Clausal
