import Clausal.Database
import Mathlib.Data.List.Nodup

/-! # What happens to a database

A database changes only on behalf of loads: a load touches a predicate, declares a property of one, or
adds a clause.  Loads are numbered as they begin, and one may begin while another is in progress; it is
always the innermost one that changes the database.  A `Ledger` is a database together with the loads
so far, and `Ledger.Run` tells what happened from one ledger to another, event by event.

From what a single event can do (`Ledger.Step`) follows what whole runs do: built-in predicates are
never replaced, a predicate whose clauses accumulate keeps its flags and its clauses
(`Ledger.Run.keeps`), and the clauses of any other predicate are the latest ones that were added to it,
all by one load (`Ledger.Run.singleLoads`).
-/

namespace Clausal

/-- What happens to a database, and the load on whose behalf. -/
inductive Event where
  /-- A load begins. -/
  | begin (load : Nat)
  /-- A load ends, whatever it came to. -/
  | finish (load : Nat)
  /-- A predicate is touched. -/
  | touch (load : Nat) (pi : Indicator)
  /-- A property of a predicate is declared. -/
  | declare (load : Nat) (property : Property) (pi : Indicator)
  /-- A clause is added to its predicate. -/
  | append (load : Nat) (c : Clause)

namespace Event

/-- The load that begins. -/
def begun? : Event → Option Nat
  | begin load => some load
  | _ => none

/-- The clause that is added to the predicate, and the load that adds it. -/
def added? (pi : Indicator) : Event → Option (Nat × Clause)
  | append load c => if c.pi = pi then some (load, c) else none
  | _ => none

end Event

/-- A database and the loads so far. -/
structure Ledger where
  /-- The database. -/
  database : Database
  /-- How many loads were begun. -/
  begun : Nat
  /-- The loads in progress, the innermost first. -/
  running : List Nat

/-! ## Databases -/

/-- The first flags are among the second. -/
structure Flags.Within (f g : Flags) : Prop where
  /-- Dynamic predicates stay so. -/
  dynamic : f.dynamic = true → g.dynamic = true
  /-- Predicates with clauses from several loads stay so. -/
  multifile : f.multifile = true → g.multifile = true
  /-- Predicates with gaps stay so. -/
  discontiguous : f.discontiguous = true → g.discontiguous = true
  /-- Predicates that can be inspected stay so. -/
  inspectable : f.inspectable = true → g.inspectable = true

namespace Flags

theorem Within.refl (f : Flags) : f.Within f := ⟨id, id, id, id⟩

theorem Within.trans {f g h : Flags} (hfg : f.Within g) (hgh : g.Within h) : f.Within h :=
  ⟨hgh.dynamic ∘ hfg.dynamic, hgh.multifile ∘ hfg.multifile, hgh.discontiguous ∘ hfg.discontiguous,
    hgh.inspectable ∘ hfg.inspectable⟩

theorem within_set (f : Flags) (property : Property) : f.Within (f.set property) := by
  cases property <;> exact ⟨by simp [set], by simp [set], by simp [set], by simp [set]⟩

theorem Within.accumulates {f g : Flags} (h : f.Within g) (hf : f.accumulates = true) :
    g.accumulates = true := by
  simp only [Flags.accumulates, Bool.or_eq_true] at hf ⊢
  exact hf.imp (Or.imp h.multifile h.dynamic) h.inspectable

end Flags

/-- What was said and stored of a predicate stays: flags are kept, and clauses are added at the end. -/
structure Predicate.Extends (p q : Predicate) : Prop where
  /-- Flags are kept. -/
  flags : p.flags.Within q.flags
  /-- Clauses are kept, in their order and before all others. -/
  clauses : p.clauses <+: q.clauses

theorem Predicate.Extends.refl (p : Predicate) : p.Extends p := ⟨.refl _, List.prefix_rfl⟩

theorem Predicate.Extends.trans {p q r : Predicate} (h : p.Extends q) (h' : q.Extends r) :
    p.Extends r :=
  ⟨h.flags.trans h'.flags, h.clauses.trans h'.clauses⟩

/-- A predicate whose clauses accumulate keeps them when it is touched. -/
theorem Predicate.extends_touchedBy {p : Predicate} (h : p.flags.accumulates = true) (load : Nat) :
    p.Extends (p.touchedBy load) := by
  unfold touchedBy
  split_ifs
  · exact .refl p
  · exact ⟨.refl _, List.prefix_rfl⟩

theorem Predicate.load_touchedBy (p : Predicate) (load : Nat) :
    (p.touchedBy load).load = some load := by
  unfold touchedBy
  split
  · assumption
  · split <;> rfl

/-- Unless clauses accumulate, a predicate that is touched by another load has none. -/
theorem Predicate.touchedBy_of_not_accumulates {p : Predicate} {load : Nat}
    (h : (p.touchedBy load).flags.accumulates = false) :
    p.touchedBy load = p ∧ p.load = some load ∨ (p.touchedBy load).clauses = [] := by
  unfold touchedBy at h ⊢
  split
  · exact .inl ⟨rfl, by assumption⟩
  · rename_i hload
    rw [if_neg hload] at h
    split
    · rename_i hp
      rw [if_pos hp, hp] at h
      cases h
    · exact .inr rfl

namespace Database

variable {db db' : Database} {pi q : Indicator} {load : Nat} {p : Predicate}

theorem lookup_set (entries : List (Indicator × Procedure)) (pi q : Indicator) (proc : Procedure) :
    (set pi proc entries).lookup q = if q = pi then some proc else entries.lookup q := by
  induction entries with
  | nil =>
    rw [set, List.lookup_cons]
    by_cases h : q = pi <;> simp [h, beq_eq_false_iff_ne.mpr]
  | cons e entries ih =>
    rw [set, List.lookup_cons]
    by_cases hpi : e.1 = pi
    · rw [if_pos hpi, List.lookup_cons, hpi]
      by_cases h : q = pi <;> simp [h, beq_eq_false_iff_ne.mpr]
    · rw [if_neg hpi, List.lookup_cons, ih]
      by_cases h : q = pi
      · simp [h, beq_eq_false_iff_ne.mpr (Ne.symm hpi)]
      · simp [h]

theorem find?_insert (db : Database) (pi q : Indicator) (proc : Procedure) :
    (db.insert pi proc).find? q = if q = pi then some proc else db.find? q :=
  lookup_set db.entries pi q proc

/-- The predicate as a load finds it that touches it. -/
def found (db : Database) (load : Nat) (pi : Indicator) : Predicate :=
  match db.find? pi with
  | some (.defined p) => p.touchedBy load
  | _ => { load := some load }

theorem load_found (db : Database) (load : Nat) (pi : Indicator) :
    (db.found load pi).load = some load := by
  unfold found
  split
  · exact Predicate.load_touchedBy _ _
  · rfl

/-- What touching a predicate does: it is none that is built in, and it is there as it was found. -/
theorem touch_eq_ok (h : db.touch load pi = .ok (p, db')) :
    (∀ b, db.find? pi ≠ some (.builtin b)) ∧ p = db.found load pi ∧
      db' = db.insert pi (.defined p) := by
  unfold touch at h
  rw [found]
  rcases hfind : db.find? pi with _ | ⟨b | p'⟩
  · rw [hfind] at h
    cases h
    exact ⟨nofun, rfl, rfl⟩
  · rw [hfind] at h
    cases h
  · rw [hfind] at h
    cases h
    exact ⟨nofun, rfl, rfl⟩

/-- What changing a predicate does. -/
theorem update_eq_ok {f : Predicate → Predicate} (h : db.update load pi f = .ok db') :
    (∀ b, db.find? pi ≠ some (.builtin b)) ∧
      db' = (db.insert pi (.defined (db.found load pi))).insert pi
        (.defined (f (db.found load pi))) := by
  unfold update at h
  rcases htouch : db.touch load pi with e | ⟨p, db₁⟩
  · rw [htouch] at h
    cases h
  · rw [htouch] at h
    cases h
    obtain ⟨hfind, rfl, rfl⟩ := touch_eq_ok htouch
    exact ⟨hfind, rfl⟩

/-- The database becomes another one in which only the predicate is changed, from what it is when the
load has touched it to what `f` makes of that. -/
structure Changes (load : Nat) (pi : Indicator) (f : Predicate → Predicate) (db db' : Database) :
    Prop where
  /-- Built-in predicates are not changed. -/
  not_builtin : ∀ b, db.find? pi ≠ some (.builtin b)
  /-- The predicate is there. -/
  self : db'.find? pi = some (.defined (f (db.found load pi)))
  /-- The others are as they were. -/
  other : ∀ q, q ≠ pi → db'.find? q = db.find? q

theorem changes_touch (h : db.touch load pi = .ok (p, db')) : Changes load pi id db db' := by
  obtain ⟨hfind, rfl, rfl⟩ := touch_eq_ok h
  refine ⟨hfind, ?_, fun q hq => ?_⟩
  · rw [find?_insert, if_pos rfl]
    rfl
  · rw [find?_insert, if_neg hq]

theorem changes_update {f : Predicate → Predicate} (h : db.update load pi f = .ok db') :
    Changes load pi f db db' := by
  obtain ⟨hfind, rfl⟩ := update_eq_ok h
  refine ⟨hfind, ?_, fun q hq => ?_⟩
  · rw [find?_insert, if_pos rfl]
  · rw [find?_insert, if_neg hq, find?_insert, if_neg hq]

/-- What was in the earlier database and stays in the later one. -/
structure Keeps (db db' : Database) : Prop where
  /-- Built-in predicates are the same. -/
  builtin : ∀ pi b, db.find? pi = some (.builtin b) → db'.find? pi = some (.builtin b)
  /-- Predicates whose clauses accumulate keep their flags and their clauses. -/
  accumulating : ∀ pi p, db.find? pi = some (.defined p) → p.flags.accumulates = true →
    ∃ p', db'.find? pi = some (.defined p') ∧ p.Extends p'

theorem Keeps.refl (db : Database) : db.Keeps db :=
  ⟨fun _ _ => id, fun _ p hp _ => ⟨p, hp, .refl p⟩⟩

theorem Keeps.trans {db'' : Database} (h : db.Keeps db') (h' : db'.Keeps db'') : db.Keeps db'' where
  builtin pi b hb := h'.builtin pi b (h.builtin pi b hb)
  accumulating pi p hp hflags := by
    obtain ⟨p', hp', hext⟩ := h.accumulating pi p hp hflags
    obtain ⟨p'', hp'', hext'⟩ := h'.accumulating pi p' hp' (hext.flags.accumulates hflags)
    exact ⟨p'', hp'', hext.trans hext'⟩

/-- A change keeps what is to be kept if it adds to the predicate. -/
theorem Changes.keeps {f : Predicate → Predicate} (h : Changes load pi f db db')
    (hf : ∀ p : Predicate, p.Extends (f p)) : db.Keeps db' where
  builtin q b hb := by
    by_cases hq : q = pi
    · subst hq
      exact absurd hb (h.not_builtin b)
    · rw [h.other q hq, hb]
  accumulating q p hp hflags := by
    by_cases hq : q = pi
    · subst hq
      have hfound : db.found load q = p.touchedBy load := by rw [found, hp]
      refine ⟨_, h.self, ?_⟩
      rw [hfound]
      exact (Predicate.extends_touchedBy hflags load).trans (hf _)
    · exact ⟨p, by rw [h.other q hq, hp], .refl p⟩

end Database

/-! ## Ledgers -/

namespace Ledger

open Database

variable {led led' led'' : Ledger} {e : Event} {es es' : List Event}

/-- What a single event does. -/
inductive Step : Ledger → Event → Ledger → Prop
  /-- A load begins within those in progress, with the next number. -/
  | begin (db : Database) (n : Nat) (loads : List Nat) :
    Step ⟨db, n, loads⟩ (.begin (n + 1)) ⟨db, n + 1, (n + 1) :: loads⟩
  /-- The innermost load ends. -/
  | finish (db : Database) (n load : Nat) (loads : List Nat) :
    Step ⟨db, n, load :: loads⟩ (.finish load) ⟨db, n, loads⟩
  /-- The innermost load touches a predicate. -/
  | touch {db db' : Database} {load : Nat} {pi : Indicator} {p : Predicate} (n : Nat) (loads : List Nat)
    (touch : db.touch load pi = .ok (p, db')) :
    Step ⟨db, n, load :: loads⟩ (.touch load pi) ⟨db', n, load :: loads⟩
  /-- The innermost load declares a property. -/
  | declare {db db' : Database} {load : Nat} {property : Property} {pi : Indicator} (n : Nat)
    (loads : List Nat) (declare : db.declare load property pi = .ok db') :
    Step ⟨db, n, load :: loads⟩ (.declare load property pi) ⟨db', n, load :: loads⟩
  /-- The innermost load adds a clause. -/
  | append {db db' : Database} {load : Nat} {c : Clause} (n : Nat) (loads : List Nat)
    (append : db.append load c = .ok db') :
    Step ⟨db, n, load :: loads⟩ (.append load c) ⟨db', n, load :: loads⟩

/-- What happens from one ledger to another. -/
inductive Run : Ledger → List Event → Ledger → Prop
  /-- Nothing. -/
  | nil (led : Ledger) : Run led [] led
  /-- An event, and then others. -/
  | cons {led led' led'' : Ledger} {e : Event} {es : List Event} (step : Step led e led')
    (run : Run led' es led'') : Run led (e :: es) led''

theorem Run.append (h : Run led es led') (h' : Run led' es' led'') : Run led (es ++ es') led'' := by
  induction h with
  | nil led => exact h'
  | cons step _ ih => exact .cons step (ih h')

/-- An event changes at most one predicate: it touches it, and may add to it. -/
theorem Step.changes (h : Step led e led') :
    led'.database = led.database ∧ (∀ pi, e.added? pi = none) ∨
    ∃ load pi f, Changes load pi f led.database led'.database ∧
      (∀ p : Predicate, p.Extends (f p)) ∧
      (∀ p : Predicate, (f p).load = p.load) ∧
      (∀ p, (f p).clauses = p.clauses ++ ((e.added? pi).map Prod.snd).toList) ∧
      (∀ a ∈ e.added? pi, a.1 = load) ∧ ∀ q, q ≠ pi → e.added? q = none := by
  cases h with
  | begin | finish => exact .inl ⟨rfl, fun _ => rfl⟩
  | @touch db db' load pi p n loads htouch =>
    refine .inr ⟨load, pi, id, changes_touch htouch, .refl, fun _ => rfl, fun p => ?_, nofun,
      fun _ _ => rfl⟩
    exact (List.append_nil _).symm
  | @declare db db' load property pi n loads hdeclare =>
    refine .inr ⟨load, pi, _, changes_update hdeclare, fun p => ?_, fun _ => rfl, fun p => ?_, nofun,
      fun _ _ => rfl⟩
    · exact ⟨Flags.within_set _ _, List.prefix_rfl⟩
    · exact (List.append_nil _).symm
  | @append db db' load c n loads happend =>
    refine .inr ⟨load, c.pi, _, changes_update happend, fun p => ?_, fun _ => rfl, fun p => ?_, ?_,
      fun q hq => ?_⟩
    · exact ⟨.refl _, List.prefix_append _ _⟩
    · simp [Event.added?]
    · simp [Event.added?]
    · simp [Event.added?, Ne.symm hq]

theorem Step.keeps (h : Step led e led') : led.database.Keeps led'.database := by
  rcases h.changes with ⟨hdb, -⟩ | ⟨load, pi, f, hchanges, hf, -⟩
  · rw [hdb]
    exact .refl _
  · exact hchanges.keeps hf

/-- **What is to be kept is kept**, whatever happens. -/
theorem Run.keeps (h : Run led es led') : led.database.Keeps led'.database := by
  induction h with
  | nil led => exact .refl _
  | cons step _ ih => exact step.keeps.trans ih

/-! ## Which load a clause comes from -/

/-- Unless they accumulate, the clauses of a predicate are the latest ones that were added to it, and
they were added by one load. -/
def SingleLoads (es : List Event) (db : Database) : Prop :=
  ∀ pi p, db.find? pi = some (.defined p) → p.flags.accumulates = false →
    ∃ load added, added <:+ es.filterMap (Event.added? pi) ∧ p.clauses = added.map Prod.snd ∧
      ∀ a ∈ added, a.1 = load

/-- The same, and the load is the one that touched the predicate last. -/
private def LastLoads (es : List Event) (db : Database) : Prop :=
  ∀ pi p, db.find? pi = some (.defined p) → p.flags.accumulates = false →
    ∃ load added, p.load = some load ∧ added <:+ es.filterMap (Event.added? pi) ∧
      p.clauses = added.map Prod.snd ∧ ∀ a ∈ added, a.1 = load

private theorem LastLoads.step (h : LastLoads es led.database) (hstep : Step led e led') :
    LastLoads (es ++ [e]) led'.database := by
  have hadded : ∀ q, (es ++ [e]).filterMap (Event.added? q) =
      es.filterMap (Event.added? q) ++ (e.added? q).toList := by
    intro q
    rw [List.filterMap_append]
    rcases he : e.added? q with _ | a <;> simp [he]
  intro q p hp hflags
  rw [hadded]
  rcases hstep.changes with ⟨hdb, hnone⟩ | ⟨load, pi, f, hchanges, hext, hload, hclauses, hby, hother⟩
  · rw [hnone q, Option.toList_none, List.append_nil]
    exact h q p (hdb ▸ hp) hflags
  · by_cases hq : q = pi
    · subst hq
      rw [hchanges.self] at hp
      cases hp
      -- What is added comes after what the load has found.
      have hnew : ∀ a ∈ (e.added? q).toList, a.1 = load := by simpa using hby
      have hflags' : (led.database.found load q).flags.accumulates = false := by
        by_contra htrue
        rw [Bool.not_eq_false] at htrue
        rw [(hext _).flags.accumulates htrue] at hflags
        cases hflags
      have hfound : ∃ added, added <:+ es.filterMap (Event.added? q) ∧
          (led.database.found load q).clauses = added.map Prod.snd ∧ ∀ a ∈ added, a.1 = load := by
        unfold found at hflags' ⊢
        split
        · rename_i p' hp'
          rw [hp'] at hflags'
          rcases Predicate.touchedBy_of_not_accumulates hflags' with ⟨hsame, hlast⟩ | hempty
          · dsimp only at hflags'
            rw [hsame] at hflags'
            obtain ⟨load', added, hload', hsuffix, hcl, hall⟩ := h q p' hp' hflags'
            obtain rfl : load = load' := Option.some.inj (hlast.symm.trans hload')
            exact ⟨added, hsuffix, by rw [hsame, hcl], hall⟩
          · exact ⟨[], List.nil_suffix, hempty, nofun⟩
        · exact ⟨[], List.nil_suffix, rfl, nofun⟩
      obtain ⟨added, ⟨before, hbefore⟩, hcl, hall⟩ := hfound
      refine ⟨load, added ++ (e.added? q).toList, ?_, ⟨before, ?_⟩, ?_, fun a ha => ?_⟩
      · rw [hload, load_found]
      · rw [← List.append_assoc, hbefore]
      · rw [hclauses, hcl, List.map_append]
        rcases e.added? q with _ | a <;> rfl
      · exact (List.mem_append.mp ha).elim (hall a) (hnew a)
    · rw [hother q hq, Option.toList_none, List.append_nil]
      exact h q p (hchanges.other q hq ▸ hp) hflags

private theorem LastLoads.run (h : LastLoads es led.database) (hrun : Run led es' led') :
    LastLoads (es ++ es') led'.database := by
  induction hrun generalizing es with
  | nil led => rwa [List.append_nil]
  | @cons led led' led'' e es' step run ih =>
    rw [List.append_cons]
    exact ih (h.step step)

/-- **Clauses that do not accumulate come from one load.** -/
theorem Run.singleLoads (h : Run led es led')
    (hnone : ∀ pi p, led.database.find? pi ≠ some (.defined p)) : SingleLoads es led'.database := by
  have hlast : LastLoads [] led.database := fun pi p hp => absurd hp (hnone pi p)
  intro pi p hp hflags
  obtain ⟨load, added, -, hadded⟩ := hlast.run h pi p hp hflags
  exact ⟨load, added, hadded⟩

/-! ## Numbers -/

theorem Step.begun (h : Step led e led') : led.begun ≤ led'.begun ∧
    ∀ n ∈ e.begun?, led.begun < n ∧ n ≤ led'.begun := by
  cases h with
  | begin | finish | touch | declare | append => simp [Event.begun?]

/-- **No two loads have the same number.** -/
theorem Run.begun (h : Run led es led') : (es.filterMap Event.begun?).Nodup ∧
    led.begun ≤ led'.begun ∧ ∀ n ∈ es.filterMap Event.begun?, led.begun < n := by
  induction h with
  | nil led => exact ⟨List.nodup_nil, Nat.le_refl _, nofun⟩
  | @cons led led' led'' e es step run ih =>
    obtain ⟨hnodup, hle, hlt⟩ := ih
    obtain ⟨hle', hn⟩ := step.begun
    have hlater : ∀ n ∈ es.filterMap Event.begun?, led.begun < n := fun n h =>
      Nat.lt_of_le_of_lt hle' (hlt n h)
    rcases he : e.begun? with _ | k
    · rw [List.filterMap_cons_none he]
      exact ⟨hnodup, Nat.le_trans hle' hle, hlater⟩
    · rw [List.filterMap_cons_some he]
      obtain ⟨hk, hk'⟩ := hn k (he ▸ rfl)
      refine ⟨List.nodup_cons.mpr ⟨fun hmem => ?_, hnodup⟩, Nat.le_trans hle' hle,
        List.forall_mem_cons.mpr ⟨hk, hlater⟩⟩
      exact absurd (hlt k hmem) (Nat.not_lt.mpr hk')

end Ledger

end Clausal
