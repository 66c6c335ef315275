import Clausal.Proofs.Machine.Ledger

/-! # What a load does to the database

A load does two things to a database: it adds clauses, and it declares properties of predicates.  Each
of these deeds touches one predicate and then changes it.  After any number of deeds of one load, a
predicate is what the load found when it touched it first, changed by the deeds about it in their
order (`Database.find?_of_deeds`): to what was kept of it, clauses were added in their order, and flags
as they were declared (`Database.Loaded`).
-/

namespace Clausal

/-! ## Predicates -/

namespace Predicate

variable {p : Predicate} {load : Nat}

/-- Touching a predicate twice is touching it once. -/
theorem touchedBy_of_load (h : p.load = some load) : p.touchedBy load = p := by
  rw [touchedBy, if_pos h]

/-- What a load finds that has not touched the predicate yet: what accumulates, or nothing. -/
theorem touchedBy_of_ne (h : p.load ≠ some load) :
    p.touchedBy load = if p.flags.accumulates then { p with load := some load }
      else { load := some load } := by
  rw [touchedBy, if_neg h]

end Predicate

/-- Something that a load does to a predicate. -/
inductive Deed where
  /-- It adds a clause. -/
  | clause (c : Clause)
  /-- It declares a property. -/
  | declare (property : Property) (pi : Indicator)
  deriving DecidableEq

namespace Deed

/-- The predicate. -/
def pi : Deed → Indicator
  | clause c => c.pi
  | declare _ pi => pi

/-- What becomes of the predicate. -/
def apply : Deed → Predicate → Predicate
  | clause c, p => { p with clauses := p.clauses ++ [c] }
  | declare property _, p => { p with flags := p.flags.set property }

/-- The clause that is added. -/
def clause? : Deed → Option Clause
  | clause c => some c
  | declare _ _ => none

/-- The property that is declared. -/
def property? : Deed → Option Property
  | clause _ => none
  | declare property _ => some property

/-- The deed, done by a load. -/
def carryOut (load : Nat) (db : Database) (d : Deed) : Except Error Database :=
  db.update load d.pi d.apply

variable {d : Deed} {ds : List Deed} {p : Predicate}

@[simp] theorem load_apply (d : Deed) (p : Predicate) : (d.apply p).load = p.load := by
  cases d <;> rfl

theorem load_foldl (ds : List Deed) (p : Predicate) :
    (ds.foldl (fun p d => d.apply p) p).load = p.load := by
  induction ds generalizing p with
  | nil => rfl
  | cons d ds ih => rw [List.foldl_cons, ih, load_apply]

/-- **Clauses are added in their order.** -/
theorem clauses_foldl (ds : List Deed) (p : Predicate) :
    (ds.foldl (fun p d => d.apply p) p).clauses = p.clauses ++ ds.filterMap clause? := by
  induction ds generalizing p with
  | nil => exact (List.append_nil _).symm
  | cons d ds ih =>
    rw [List.foldl_cons, ih]
    cases d with
    | clause c => exact List.append_assoc _ _ _
    | declare property pi => rfl

theorem flags_foldl (ds : List Deed) (p : Predicate) :
    (ds.foldl (fun p d => d.apply p) p).flags = (ds.filterMap property?).foldl Flags.set p.flags := by
  induction ds generalizing p with
  | nil => rfl
  | cons d ds ih =>
    rw [List.foldl_cons, ih]
    cases d <;> rfl

end Deed

/-- A predicate allows gaps after declarations if it did before, or one of them says so. -/
theorem Flags.allowsGaps_foldl (properties : List Property) (flags : Flags) :
    (properties.foldl Flags.set flags).allowsGaps = true ↔
      flags.allowsGaps = true ∨ ∃ property ∈ properties, property ≠ .inspectable := by
  induction properties generalizing flags with
  | nil => simp
  | cons property properties ih =>
    rw [List.foldl_cons, ih, List.exists_mem_cons_iff, ← or_assoc]
    refine or_congr_left ?_
    cases property <;> simp [Flags.set, Flags.allowsGaps]

namespace Database

variable {db db' : Database} {pi q : Indicator} {load : Nat} {p : Predicate} {ds : List Deed}

/-! ## Touching -/

theorem touch_of_builtin {b : Builtin} (h : db.find? pi = some (.builtin b)) (load : Nat) :
    db.touch load pi = .error (.protectedProcedure pi) := by
  rw [touch, h]
  rfl

theorem touch_of_not_builtin (h : ∀ b, db.find? pi ≠ some (.builtin b)) (load : Nat) :
    db.touch load pi = .ok (db.found load pi, db.insert pi (.defined (db.found load pi))) := by
  rw [touch, found]
  rcases hfind : db.find? pi with _ | ⟨b | p⟩
  · rfl
  · exact absurd hfind (h b)
  · rfl

theorem set_set (pi : Indicator) (proc proc' : Procedure) (entries : List (Indicator × Procedure)) :
    set pi proc' (set pi proc entries) = set pi proc' entries := by
  induction entries with
  | nil => simp [set]
  | cons e entries ih =>
    by_cases h : e.1 = pi
    · simp [set, h]
    · simp [set, h, ih]

theorem set_of_lookup {proc : Procedure} {entries : List (Indicator × Procedure)}
    (h : entries.lookup pi = some proc) : set pi proc entries = entries := by
  induction entries with
  | nil => cases h
  | cons e entries ih =>
    obtain ⟨q, proc'⟩ := e
    rw [List.lookup_cons] at h
    by_cases hq : q = pi
    · subst hq
      simp only [beq_self_eq_true, Option.some.injEq] at h
      simp [set, h]
    · rw [beq_false_of_ne (Ne.symm hq)] at h
      rw [set, if_neg hq, ih h]

/-- Setting a definition to what it is. -/
theorem insert_of_find? {proc : Procedure} (h : db.find? pi = some proc) : db.insert pi proc = db :=
  congrArg mk (set_of_lookup h)

theorem insert_insert (db : Database) (pi : Indicator) (proc proc' : Procedure) :
    (db.insert pi proc).insert pi proc' = db.insert pi proc' :=
  congrArg mk (set_set pi proc proc' db.entries)

theorem update_of_not_builtin (h : ∀ b, db.find? pi ≠ some (.builtin b)) (load : Nat)
    (f : Predicate → Predicate) :
    db.update load pi f = .ok (db.insert pi (.defined (f (db.found load pi)))) := by
  rw [update, touch_of_not_builtin h]
  exact congrArg Except.ok (db.insert_insert pi _ _)

/-- What a load finds depends on the definition only. -/
theorem found_congr (h : db'.find? pi = db.find? pi) (load : Nat) :
    db'.found load pi = db.found load pi := by
  rw [found, found, h]

theorem found_of_load (h : db.find? pi = some (.defined p)) (hload : p.load = some load) :
    db.found load pi = p := by
  rw [found, h]
  exact Predicate.touchedBy_of_load hload

/-- Changing a predicate that the load has touched. -/
theorem update_insert (h : p.load = some load) (f : Predicate → Predicate) :
    (db.insert pi (.defined p)).update load pi f = .ok (db.insert pi (.defined (f p))) := by
  have hfind : (db.insert pi (.defined p)).find? pi = some (.defined p) := by
    rw [find?_insert, if_pos rfl]
  rw [update_of_not_builtin (by rw [hfind]; nofun), found_of_load hfind h, insert_insert]

/-! ## Deeds -/

/-- What a predicate is after deeds of a load: as it was, or, if some of the deeds are about it, what
the load found, changed by these in their order. -/
def changed (db : Database) (load : Nat) (ds : List Deed) (pi : Indicator) : Option Procedure :=
  if pi ∈ ds.map Deed.pi then
    some (.defined ((ds.filter (·.pi = pi)).foldl (fun p d => d.apply p) (db.found load pi)))
  else db.find? pi

theorem filter_pi_of_not_mem (h : pi ∉ ds.map Deed.pi) : ds.filter (·.pi = pi) = [] := by
  refine List.filter_eq_nil_iff.mpr fun d hd heq => h ?_
  rw [← of_decide_eq_true heq]
  exact List.mem_map_of_mem hd

/-- Deeds that come after others. -/
theorem changed_append (h : db'.find? pi = db.changed load ds pi) (ds' : List Deed) :
    db'.changed load ds' pi = db.changed load (ds ++ ds') pi := by
  rw [changed] at h
  have hmem : pi ∈ (ds ++ ds').map Deed.pi ↔ pi ∈ ds.map Deed.pi ∨ pi ∈ ds'.map Deed.pi := by
    rw [List.map_append, List.mem_append]
  simp only [changed, hmem, List.filter_append, List.foldl_append]
  -- Once the predicate is touched, what the load finds is what it has left.
  by_cases hpi : pi ∈ ds.map Deed.pi
  · rw [if_pos hpi] at h
    rw [h, found_of_load h (by rw [Deed.load_foldl, load_found]), if_pos (Or.inl hpi)]
    split
    · rfl
    · rename_i hnone
      rw [filter_pi_of_not_mem hnone]
      rfl
  · rw [if_neg hpi] at h
    rw [h, found_congr h, filter_pi_of_not_mem hpi]
    simp only [hpi, false_or, List.foldl_nil]

/-- **What predicates are after the deeds of a load.** -/
theorem find?_of_deeds (h : ds.foldlM (Deed.carryOut load) db = .ok db') (pi : Indicator) :
    db'.find? pi = db.changed load ds pi := by
  induction ds generalizing db with
  | nil =>
    cases h
    rfl
  | cons d ds ih =>
    rw [List.foldlM_cons] at h
    rcases hd : Deed.carryOut load db d with e | db₁
    · rw [hd] at h
      cases h
    · rw [hd] at h
      have hchanges := changes_update hd
      -- One deed first: it changes its own predicate and no other.
      have hone : db₁.find? pi = db.changed load [d] pi := by
        by_cases hpi : d.pi = pi
        · subst hpi
          have hmem : d.pi ∈ [d].map Deed.pi := List.mem_cons_self
          rw [changed, if_pos hmem, List.filter_cons_of_pos (by simp)]
          exact hchanges.self
        · have hmem : pi ∉ [d].map Deed.pi := by simpa using Ne.symm hpi
          rw [changed, if_neg hmem]
          exact hchanges.other pi (Ne.symm hpi)
      rw [ih h, changed_append hone]
      rfl

/-- Deeds fail only for built-in predicates. -/
theorem protected_of_deeds {e : Error} (h : ds.foldlM (Deed.carryOut load) db = .error e) :
    ∃ pi, e = .protectedProcedure pi := by
  induction ds generalizing db with
  | nil => cases h
  | cons d ds ih =>
    rw [List.foldlM_cons] at h
    by_cases hb : ∃ b, db.find? d.pi = some (.builtin b)
    · obtain ⟨b, hb⟩ := hb
      have hd : Deed.carryOut load db d = .error (.protectedProcedure d.pi) := by
        rw [Deed.carryOut, update, touch_of_builtin hb]
        rfl
      rw [hd] at h
      cases h
      exact ⟨d.pi, rfl⟩
    · rw [not_exists] at hb
      rw [Deed.carryOut, update_of_not_builtin hb] at h
      exact ih h

/-- A load changes no built-in predicate. -/
theorem not_builtin_of_deeds (h : ds.foldlM (Deed.carryOut load) db = .ok db')
    (hmem : pi ∈ ds.map Deed.pi) (b : Builtin) : db.find? pi ≠ some (.builtin b) := by
  induction ds generalizing db with
  | nil => cases hmem
  | cons d ds ih =>
    rw [List.foldlM_cons] at h
    rcases hd : Deed.carryOut load db d with e | db₁
    · rw [hd] at h
      cases h
    · rw [hd] at h
      have hchanges := changes_update hd
      -- A deed to a built-in predicate fails, and the others leave the predicate as it is.
      by_cases hpi : pi = d.pi
      · subst hpi
        exact hchanges.not_builtin b
      · rw [List.map_cons, List.mem_cons, or_iff_right hpi] at hmem
        rw [← hchanges.other pi hpi]
        exact ih h hmem

/-! ## What loads make of databases -/

/-- What loads keep of a predicate: its flags and its clauses if they accumulate, and else nothing. -/
def kept (db : Database) (pi : Indicator) : Predicate :=
  match db.find? pi with
  | some (.defined p) => if p.flags.accumulates then p else {}
  | _ => {}

/-- A load finds what is kept, if it has not touched the predicate. -/
theorem found_of_fresh (h : ∀ p, db.find? pi = some (.defined p) → p.load ≠ some load) :
    db.found load pi = { db.kept pi with load := some load } := by
  rw [found, kept]
  rcases hfind : db.find? pi with _ | ⟨b | p⟩
  · rfl
  · rfl
  · dsimp only
    rw [Predicate.touchedBy_of_ne (h p hfind)]
    split <;> rfl

/-- The second database is what a load makes of the first one with its deeds. -/
structure Loaded (db : Database) (ds : List Deed) (db' : Database) : Prop where
  /-- Predicates that no deed is about are as they were. -/
  other : ∀ pi, pi ∉ ds.map Deed.pi → db'.find? pi = db.find? pi
  /-- To what is kept of the others, clauses are added in their order, and flags as declared. -/
  touched : ∀ pi ∈ ds.map Deed.pi, ∃ p, db'.find? pi = some (.defined p) ∧
    p.clauses = (db.kept pi).clauses ++ (ds.filter (·.pi = pi)).filterMap Deed.clause? ∧
    p.flags = ((ds.filter (·.pi = pi)).filterMap Deed.property?).foldl Flags.set (db.kept pi).flags

/-- **What a load makes of a database** that it has not touched before. -/
theorem loaded_of_deeds (h : ds.foldlM (Deed.carryOut load) db = .ok db')
    (hfresh : ∀ pi p, db.find? pi = some (.defined p) → p.load ≠ some load) : db.Loaded ds db' where
  other pi hpi := (find?_of_deeds h pi).trans (if_neg hpi)
  touched pi hpi := by
    refine ⟨_, (find?_of_deeds h pi).trans (if_pos hpi), ?_, ?_⟩
    · rw [Deed.clauses_foldl, found_of_fresh (hfresh pi)]
    · rw [Deed.flags_foldl, found_of_fresh (hfresh pi)]

end Database

end Clausal
