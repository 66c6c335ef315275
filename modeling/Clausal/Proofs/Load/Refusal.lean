import Clausal.Proofs.Load.Trace

/-! # Clauses that are refused

A clause that is refused leaves what is defined as it was, but for one case
(`Machine.Reached.refusal_keeps`): it is refused because it does not stand together with other clauses
of its predicate, and since the load has touched the predicate, a load that has begun within it has
touched the predicate too.  The predicate starts over then before the clause is refused, so that the
clauses that the other load has left are lost.
-/

namespace Clausal

/-- What is defined, whatever load touched it last. -/
def Procedure.unstamped : Procedure → Procedure
  | builtin b => builtin b
  | defined p => defined { p with load := none }

/-- The flags and the clauses of every predicate are the same. -/
def Database.SameDefinitions (db db' : Database) : Prop :=
  ∀ pi, (db'.find? pi).map Procedure.unstamped = (db.find? pi).map Procedure.unstamped

namespace Loading

open Machine

variable {l l' l₀ : Loading} {t : Ref} {turns : List Turn} {solve : Ref → MachineM Bool} {e : Stop}

/-! ## Refusals -/

/-- **Why a clause is refused**: it is malformed, or its predicate is built in, and then nothing has
happened; or it does not stand together with other clauses, and then its predicate was touched. -/
theorem addClause_error (h : addClause t l = .error e l') :
    (l' = l ∧ ∀ pi, e ≠ .error (.discontiguous pi)) ∨
    ∃ c, Clause.compile l.machine.store t = .ok c ∧ e = .error (.discontiguous c.pi) ∧
      (∀ b, l.machine.database.find? c.pi ≠ some (.builtin b)) ∧ l.load.last ≠ some c.pi ∧
      c.pi ∈ l.load.seen ∧ (l.machine.database.found l.load.id c.pi).flags.allowsGaps = false ∧
      l' = l.withDatabase (l.machine.database.insert c.pi
        (.defined (l.machine.database.found l.load.id c.pi))) := by
  rcases hc : Clause.compile l.machine.store t with e' | c
  · rw [addClause_of_malformed hc] at h
    cases h
    refine .inl ⟨rfl, fun pi heq => tidy_compile l.machine.store t pi ?_⟩
    cases heq
    exact hc
  by_cases hb : ∃ b, l.machine.database.find? c.pi = some (.builtin b)
  · obtain ⟨b, hb⟩ := hb
    rw [addClause_of_builtin hc hb] at h
    cases h
    exact .inl ⟨rfl, nofun⟩
  rw [not_exists] at hb
  -- What is noted is added, so that a refusal is that of a gap.
  by_cases hgap : l.load.last ≠ some c.pi ∧ c.pi ∈ l.load.seen ∧
      (l.machine.database.found l.load.id c.pi).flags.allowsGaps = false
  · obtain ⟨hlast, hseen, hflags⟩ := hgap
    rw [addClause_of_refused hc hb (Load.noteClause_of_gap hlast hseen hflags)] at h
    cases h
    exact .inr ⟨c, rfl, rfl, hb, hlast, hseen, hflags, rfl⟩
  · have hno : l.load.last = some c.pi ∨ c.pi ∉ l.load.seen ∨
        (l.machine.database.found l.load.id c.pi).flags.allowsGaps = true := by
      by_contra hnot
      simp only [not_or, not_not, Bool.not_eq_true] at hnot
      exact hgap hnot
    rw [addClause_of_noted hc hb (Load.noteClause_of_no_gap hno)] at h
    cases h

/-! ## What loads have touched -/

/-- Loads are numbered in order, and every predicate with a clause in this load was touched by it or by
a later one. -/
structure Marked (l : Loading) : Prop where
  /-- The load has begun. -/
  begun : l.load.id ≤ l.machine.loads
  /-- Predicates were touched by loads that have begun. -/
  stamped : l.machine.Stamped
  /-- Those with a clause in this load were touched by it or by a later one. -/
  seen : ∀ pi ∈ l.load.seen, ∃ p n, l.machine.database.find? pi = some (.defined p) ∧
    p.load = some n ∧ l.load.id ≤ n

theorem Marked.quiet (h : l.Marked) (hquiet : l.Quiet l') : l'.Marked where
  begun := hquiet.id ▸ h.begun.trans hquiet.follows.loads_le
  stamped := h.stamped.follow_nil hquiet.follows
  seen pi hpi := by
    rw [hquiet.seen] at hpi
    rw [hquiet.id]
    -- Whoever touches a predicate between turns is a load that began later.
    rcases hquiet.follows.later pi with hsame | ⟨p, n, hp, hn, hlater⟩
    · rw [hsame]
      exact h.seen pi hpi
    · have hlt := (hlater.resolve_left List.not_mem_nil).1
      exact ⟨p, n, hp, hn, h.begun.trans (Nat.le_of_lt hlt)⟩

/-- A predicate that the load has changed. -/
theorem find?_of_touched {db db' : Database} {id : Nat} {ds : List Deed} {pi : Indicator}
    (h : ds.foldlM (Deed.carryOut id) db = .ok db') (hmem : pi ∈ ds.map Deed.pi) :
    ∃ p, db'.find? pi = some (.defined p) ∧ p.load = some id := by
  refine ⟨_, (Database.find?_of_deeds h pi).trans (if_pos hmem), ?_⟩
  rw [Deed.load_foldl, Database.load_found]

/-- The predicates with a clause in the load after a statement. -/
theorem mem_seen_note {i : Statement} {s : Store} {ds : List Deed} {load : Load} {pi : Indicator}
    (h : i.deeds s = .ok ds) (hpi : pi ∈ (i.note s load).seen) :
    pi ∈ load.seen ∨ pi ∈ ds.map Deed.pi := by
  cases i with
  | clause t =>
    rw [Statement.note] at hpi
    rw [Statement.deeds] at h
    rcases hc : Clause.compile s t with e | c
    · rw [hc] at hpi
      exact .inl hpi
    · rw [hc] at hpi h
      cases h
      rcases Load.mem_seen_noting.mp hpi with rfl | hpi
      · exact .inr List.mem_cons_self
      · exact .inl hpi
  | declare | initialization | goal => exact .inl hpi

theorem Marked.deeds (h : l.Marked) {i : Statement} {ds : List Deed} {db : Database}
    (hds : i.deeds l.machine.store = .ok ds)
    (hdb : ds.foldlM (Deed.carryOut l.load.id) l.machine.database = .ok db) :
    Marked ⟨(l.withDatabase db).machine, i.note l.machine.store l.load⟩ := by
  have hid : (i.note l.machine.store l.load).id = l.load.id := i.id_note l.machine.store l.load
  have htouched : ∀ {pi}, pi ∈ ds.map Deed.pi →
      ∃ p, db.find? pi = some (.defined p) ∧ p.load = some l.load.id := find?_of_touched hdb
  have hother : ∀ {pi}, pi ∉ ds.map Deed.pi → db.find? pi = l.machine.database.find? pi :=
    fun {pi} hpi => (Database.find?_of_deeds hdb pi).trans (if_neg hpi)
  -- What the deeds touch has the number of the load, and the rest is as it was.
  refine ⟨hid ▸ h.begun, fun pi p hp => ?_, fun pi hpi => ?_⟩
  · by_cases hmem : pi ∈ ds.map Deed.pi
    · obtain ⟨p', hp', hload⟩ := htouched hmem
      cases hp.symm.trans hp'
      exact ⟨l.load.id, hload, h.begun⟩
    · exact h.stamped pi p ((hother hmem).symm.trans hp)
  · rw [hid]
    by_cases hmem : pi ∈ ds.map Deed.pi
    · obtain ⟨p, hp, hload⟩ := htouched hmem
      exact ⟨p, l.load.id, hp, hload, Nat.le_refl _⟩
    · obtain ⟨p, n, hp, hn⟩ := h.seen pi ((mem_seen_note hds hpi).resolve_right hmem)
      exact ⟨p, n, (hother hmem).trans hp, hn⟩

theorem Leads.marked (hsolve : ∀ goal, Orderly (solve goal)) (h : Leads solve l₀ turns l)
    (h₀ : l₀.Marked) : l.Marked := by
  induction h with
  | start => exact h₀
  | between h hquiet ih => exact ih.quiet hquiet
  | turn h hperform ih =>
    obtain ⟨ds, db, hds, hdb, hquiet⟩ := Statement.perform_ok hsolve hperform
    exact (ih.deeds hds hdb).quiet hquiet

/-- **A refused clause leaves what is defined as it was**, unless its predicate was touched by a load
that has begun within this one. -/
theorem Marked.refusal (h : l.Marked) (hrefused : addClause t l = .error e l') :
    l.machine.database.SameDefinitions l'.machine.database ∨
    ∃ pi p n, e = .error (.discontiguous pi) ∧
      l.machine.database.find? pi = some (.defined p) ∧ p.flags.accumulates = false ∧
      p.load = some n ∧ l.load.id < n ∧ n ≤ l.machine.loads ∧
      l'.machine.database.find? pi = some (.defined { load := some l.load.id }) ∧
      ∀ q, q ≠ pi → l'.machine.database.find? q = l.machine.database.find? q := by
  rcases addClause_error hrefused with ⟨rfl, -⟩ | ⟨c, -, rfl, -, -, hseen, -, rfl⟩
  · exact .inl fun _ => rfl
  generalize c.pi = pi at hseen ⊢
  -- Its predicate was touched by this load, or by a later one.
  obtain ⟨p, n, hp, hn, hle⟩ := h.seen pi hseen
  obtain ⟨n', hn', hle'⟩ := h.stamped pi p hp
  obtain rfl : n = n' := Option.some.inj (hn.symm.trans hn')
  have hfound : l.machine.database.found l.load.id pi = p.touchedBy l.load.id := by
    rw [Database.found, hp]
  have hfind : ∀ q, (l.withDatabase (l.machine.database.insert pi
      (.defined (l.machine.database.found l.load.id pi)))).machine.database.find? q =
      if q = pi then some (.defined (p.touchedBy l.load.id)) else l.machine.database.find? q := by
    intro q
    rw [← hfound]
    exact Database.find?_insert _ _ _ _
  have hsame : (Procedure.defined (p.touchedBy l.load.id)).unstamped = (Procedure.defined p).unstamped →
      l.machine.database.SameDefinitions (l.withDatabase (l.machine.database.insert pi
        (.defined (l.machine.database.found l.load.id pi)))).machine.database := by
    intro hsame q
    rw [hfind]
    split
    · rename_i hq
      rw [hq, hp]
      exact congrArg some hsame
    · rfl
  -- Touching the predicate changes it only if another load has touched it, and if it starts over.
  by_cases hlast : n = l.load.id
  · subst hlast
    exact .inl (hsame (by rw [Predicate.touchedBy_of_load hn]))
  have hne : p.load ≠ some l.load.id := by simpa [hn] using hlast
  rcases hflags : p.flags.accumulates with _ | _
  · refine .inr ⟨pi, p, n, rfl, hp, hflags, hn, by omega, hle', ?_, fun q hq => ?_⟩
    · rw [hfind, if_pos rfl, Predicate.touchedBy_of_ne hne, hflags]
      rfl
    · rw [hfind, if_neg hq]
  · refine .inl (hsame ?_)
    rw [Predicate.touchedBy_of_ne hne, hflags]
    rfl

end Loading

namespace Machine

open Loading

variable {m : Machine}

theorem Stamped.marked (h : m.Stamped) (source : TermSource) : (m.beginLoad source).Marked where
  begun := Nat.le_refl _
  stamped := h.congr rfl (Nat.le_succ _)
  seen := nofun

/-- **What clauses leave that are refused.**  Take any load, on any machine that is reached, and any
moment of it at which a statement has its turn; directives of the load may have run other loads by
then.  If a clause were to be added at this moment and is refused, then every predicate has the flags
and the clauses that it had; unless the clause is refused because it does not stand together with the
others of its predicate, and a load that has begun within this one has touched the predicate since, and
its clauses do not accumulate.  Then this predicate has lost what that load has left, and the others
are as they were. -/
theorem Reached.refusal_keeps (h : m.Reached) (fuel : Nat) (source : TermSource) {turn : Turn}
    (hturn : turn ∈ m.turns (solve fuel) source) {t : Ref} {e : Stop} {l' : Loading}
    (hrefused : addClause t turn.state = .error e l') :
    turn.state.machine.database.SameDefinitions l'.machine.database ∨
    ∃ pi p n, e = .error (.discontiguous pi) ∧
      turn.state.machine.database.find? pi = some (.defined p) ∧ p.flags.accumulates = false ∧
      p.load = some n ∧ turn.state.load.id < n ∧ n ≤ turn.state.machine.loads ∧
      l'.machine.database.find? pi = some (.defined { load := some turn.state.load.id }) ∧
      ∀ q, q ≠ pi → l'.machine.database.find? q = turn.state.machine.database.find? q := by
  obtain ⟨earlier, later, hturns⟩ := List.append_of_mem hturn
  have hsolve := closed_orderly.solve fuel
  exact ((turn_cases hsolve hturns).1.marked hsolve (h.stamped.marked source)).refusal hrefused

/-- The third term of a text is refused, after the second one has consulted a file that defines the
same predicate: what the file has left is lost. -/
theorem refusal_keeps_consulted :
    let m := { build [] [] true with sources := [("x", .readable (.ofText "foo(b)."))] }
    let source := m.source "user" (.ofText "foo(a). :- consult(x). foo(c).") none
    m.Reached ∧ ∃ turn ∈ m.turns (solve 8) source, ∃ t e l', turn.statement = .clause t ∧
      addClause t turn.state = .error e l' ∧ ∃ pi p n, e = .error (.discontiguous pi) ∧
        turn.state.machine.database.find? pi = some (.defined p) ∧ p.clauses.length = 1 ∧
        p.load = some n ∧ turn.state.load.id < n ∧
        l'.machine.database.find? pi = some (.defined { load := some turn.state.load.id }) := by
  intro m source
  have hm : m.Reached := .adjust (.build [] [] true) rfl rfl rfl
  have hthird : ∃ turn ∈ m.turns (solve 8) source, ∃ t ∈ turn.statement.clause?,
      ∃ p ∈ turn.state.machine.database.predicate? ⟨"foo", 1⟩, p.clauses.length = 1 ∧
        ∃ x ∈ failure? (addClause t turn.state), x.1.discontiguous? = some ⟨"foo", 1⟩ ∧
          ∃ p' ∈ x.2.machine.database.predicate? ⟨"foo", 1⟩, p'.clauses.length = 0 := by
    decide +kernel
  refine ⟨hm, ?_⟩
  clear_value source m
  obtain ⟨turn, hmem, t, hstatement, p, hp, hone, ⟨e, l'⟩, hrefused, heq, p', hp', hempty⟩ := hthird
  have hrefused := failure?_eq_some.mp hrefused
  have heq := Stop.discontiguous?_eq_some.mp heq
  have hp := Database.predicate?_eq_some.mp hp
  have hp' := Database.predicate?_eq_some.mp hp'
  refine ⟨turn, hmem, t, e, l', Statement.clause?_eq_some.mp hstatement, hrefused, ⟨"foo", 1⟩, p, ?_⟩
  rcases hm.refusal_keeps 8 source hmem hrefused with hsame | ⟨pi, q, n, heq', hq, -, hn, hlt, -, hlost, -⟩
  · have hfoo := hsame ⟨"foo", 1⟩
    rw [hp, hp'] at hfoo
    injection hfoo with hfoo
    injection hfoo with hfoo
    have hclauses := congrArg (fun q : Predicate => q.clauses.length) hfoo
    dsimp only at hclauses
    omega
  · cases heq.symm.trans heq'
    cases hp.symm.trans hq
    exact ⟨n, heq, hp, hone, hn, hlt, hlost⟩

end Machine

end Clausal
