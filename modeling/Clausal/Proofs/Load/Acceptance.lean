import Clausal.Proofs.Load.Splice

/-! # Loads that succeed

A load of clauses and declarations succeeds if the source can be read to its end, every statement makes
sense and is about predicates of the program, and no clause stands apart from the others of its
predicate; and only then (`Machine.Stamped.load_ok_iff`).  All this can be told from what is read and
from what the load finds in the database, without loading anything.
-/

namespace Clausal

open Loading Machine

namespace Database

variable {db db' : Database} {load : Nat} {ds : List Deed} {pi : Indicator}

/-- Deeds make no built-in predicates. -/
theorem find?_builtin_of_deeds (h : ds.foldlM (Deed.carryOut load) db = .ok db') {b : Builtin}
    (hb : db'.find? pi = some (.builtin b)) : db.find? pi = some (.builtin b) := by
  have hfind := find?_of_deeds h pi
  rw [hb, changed] at hfind
  split at hfind
  · cases hfind
  · exact hfind.symm

/-- Deeds are carried out if none is about a built-in predicate. -/
theorem exists_deeds (h : ∀ d ∈ ds, ∀ b, db.find? d.pi ≠ some (.builtin b)) :
    ∃ db', ds.foldlM (Deed.carryOut load) db = .ok db' := by
  induction ds generalizing db with
  | nil => exact ⟨db, rfl⟩
  | cons d ds ih =>
    rw [List.forall_mem_cons] at h
    obtain ⟨hd, hds⟩ := h
    obtain ⟨db₁, hone⟩ : ∃ db₁, Deed.carryOut load db d = .ok db₁ :=
      ⟨_, update_of_not_builtin hd load d.apply⟩
    rw [List.foldlM_cons, hone]
    refine ih ?_
    intro d' hd' b hb
    have hdeed : [d].foldlM (Deed.carryOut load) db = .ok db₁ := by
      rw [List.foldlM_cons, hone]
      rfl
    exact hds d' hd' b (find?_builtin_of_deeds hdeed hb)

end Database

/-- A load of the database is refused none of the statements. -/
structure Accepts (db : Database) (ps : List Passage) : Prop where
  /-- They make sense. -/
  sense : ∀ p ∈ ps, p.statement.deeds p.store = .ok p.deeds
  /-- They are about predicates of the program. -/
  program : ∀ p ∈ ps, ∀ d ∈ p.deeds, ∀ b, db.find? d.pi ≠ some (.builtin b)
  /-- No clause stands apart. -/
  together : ∀ earlier p later pi, ps = earlier ++ p :: later → ¬ StandsApart db earlier p pi

namespace Loading

variable {solve : Ref → MachineM Bool} {m : Machine} {l : Loading} {including : List String}
  {st : Traced} {sp : Spliced} {ps : List Passage} {source : TermSource} {e : Stop}

/-- A statement about predicates of the program that makes sense is dealt with, or complained of. -/
theorem perform_cases (solve : Ref → MachineM Bool) {i : Statement} (hgoal : ¬ i.IsGoal) {ds : List Deed}
    (hds : i.deeds l.machine.store = .ok ds)
    (hprogram : ∀ d ∈ ds, ∀ b, l.machine.database.find? d.pi ≠ some (.builtin b)) :
    (∃ l', i.perform solve l = .ok () l') ∨
      ∃ pi l', i.perform solve l = .error (.error (.discontiguous pi)) l' ∧
        l'.machine.loads = l.machine.loads := by
  cases i with
  | clause t =>
    rw [Statement.deeds] at hds
    rcases hc : Clause.compile l.machine.store t with e | c
    · rw [hc] at hds
      cases hds
    rw [hc] at hds
    obtain rfl : [Deed.clause c] = ds := Except.ok.inj hds
    have hb : ∀ b, l.machine.database.find? c.pi ≠ some (.builtin b) :=
      hprogram (.clause c) List.mem_cons_self
    rcases hnote : l.load.noteClause c.pi (l.machine.database.found l.load.id c.pi).flags with e | noted
    · have hrefused := addClause_of_refused hc hb hnote
      rcases addClause_error hrefused with ⟨-, hne⟩ | ⟨c', -, heq, -⟩
      · -- what is noted can only be a gap
        rw [Load.noteClause] at hnote
        split at hnote
        · cases hnote
          exact absurd rfl (hne c.pi)
        · cases hnote
      · cases heq
        exact .inr ⟨_, _, hrefused, rfl⟩
    · exact .inl ⟨_, addClause_of_noted hc hb hnote⟩
  | declare property predicates =>
    rw [Statement.deeds] at hds
    rcases hpis : Indicator.declared l.machine.store predicates with e | pis
    · rw [hpis] at hds
      cases hds
    rw [hpis] at hds
    obtain rfl : pis.map (Deed.declare property) = ds := Except.ok.inj hds
    obtain ⟨db, hdb⟩ : ∃ db, (pis.map (Deed.declare property)).foldlM (Deed.carryOut l.load.id)
      l.machine.database = .ok db := Database.exists_deeds hprogram
    have hdeeds := declareEach_eq l.load.id property pis ⟨l.machine, l.load.noteDirective⟩
    dsimp only at hdeeds
    rw [hdb] at hdeeds
    refine .inl ⟨(⟨l.machine, l.load.noteDirective⟩ : Loading).withDatabase db, ?_⟩
    exact (declare_of_declared (l := ⟨l.machine, l.load.noteDirective⟩) hpis).trans hdeeds
  | initialization | goal => exact absurd trivial hgoal

/-- What the turns of a load have made of a predicate, when it has gone along with reading. -/
theorem Along.made (h : Along solve m including st sp) (source : TermSource) (pi : Indicator) :
    Made (m.beginLoad source) st.turns st.loading pi := by
  have hdeeds := h.deeds
  rw [← h.turns, List.flatMap_map] at hdeeds
  exact ⟨Database.find?_of_deeds hdeeds pi, Database.not_builtin_of_deeds hdeeds⟩

/-- **A load that stops at a statement** is refused it. -/
theorem Halts.not_accepts (hhalts : Halts solve m e st ps) (hsolve : ∀ goal, Orderly (solve goal))
    (h : m.Stamped) (hturns : m.turns solve source = st.turns) (hplain : ∀ p ∈ ps, p.Plain) :
    ¬ Accepts m.database ps := by
  obtain @⟨st, sp, including, i, l, l', halong, hperform, hmachine, rest⟩ := hhalts
  intro haccepts
  have hmem : (⟨i, sp.store⟩ : Passage) ∈ sp.passages ++ ⟨i, sp.store⟩ :: rest :=
    List.mem_append_right _ List.mem_cons_self
  have hstore : st.loading.machine.store = sp.store := by rw [halong.machine]
  have hsense : i.deeds st.loading.machine.store = .ok (Passage.deeds ⟨i, sp.store⟩) := by
    rw [hstore]
    exact haccepts.sense _ hmem
  -- No statement before it has made its predicates built-in ones.
  have hprogram : ∀ d ∈ Passage.deeds ⟨i, sp.store⟩, ∀ b,
      st.loading.machine.database.find? d.pi ≠ some (.builtin b) := by
    intro d hd b hb
    exact haccepts.program _ hmem d hd b (Database.find?_builtin_of_deeds halong.deeds hb)
  rcases perform_cases solve (hplain _ hmem).1 hsense hprogram with
    ⟨l'', hok⟩ | ⟨pi, l'', herror, hloads⟩
  · cases hperform.symm.trans hok
  · have htallied := (turn_cases hsolve hturns).1.tallied hsolve (tallied_beginLoad m source)
    have hapart := ((halong.made source pi).complains_iff hsolve htallied (h.fresh pi) i).mp
      ⟨l'', herror, hloads⟩
    rw [halong.turns, hstore] at hapart
    exact haccepts.together _ _ _ pi rfl hapart

end Loading

namespace Machine

variable {m m' : Machine}

section

variable (h : m.Stamped) (hexpansion : m.expansion = .byRules) (hrules : m.RuleFree)
  (hcontext : m.context ∉ m.cancelled) (fuel : Nat) {source : TermSource}
  (hplain : ∀ p ∈ passagesOf (m.splice source), p.Plain)
include h hexpansion hrules hcontext hplain

/-- What a load that succeeds leaves. -/
theorem Stamped.load_ok (hload : load (solve fuel) source m = .ok () m') :
    ∃ sp, m.splice source = .ok () sp ∧ Accepts m.database sp.passages ∧
      m' = { m with store := sp.store, database := m'.database, loads := m.loads + 1 } ∧
      (sp.passages.flatMap Passage.deeds).foldlM (Deed.carryOut (m.loads + 1)) m.database =
        .ok m'.database := by
  have hsolve := closed_orderly.solve fuel
  have haccord := h.accord hexpansion hrules hcontext fuel source hplain
  have hload' := hload
  rw [load_eq_trace] at hload'
  rcases htrace : m.trace (solve fuel) source with ⟨_, st⟩ | ⟨e, st⟩
  · rw [htrace] at haccord hload'
    cases hload'
    have hturns : m.turns (solve fuel) source = st.turns := by rw [turns, htrace]
    generalize hsplice : m.splice source = r at haccord
    cases haccord with
    | @value _ _ sp halong =>
      have hmachine := halong.machine
      refine ⟨sp, rfl, ⟨halong.sense, ?_, ?_⟩, hmachine, halong.deeds⟩
      · intro p hp d hd
        have hmem : d.pi ∈ (sp.passages.flatMap Passage.deeds).map Deed.pi :=
          List.mem_map_of_mem (List.mem_flatMap.mpr ⟨p, hp, hd⟩)
        exact Database.not_builtin_of_deeds halong.deeds hmem
      · intro earlier p later pi hsplit hapart
        rw [← halong.turns] at hsplit
        obtain ⟨turns, rest, hst, rfl, hrest⟩ := List.map_eq_append_iff.mp hsplit
        obtain ⟨turn, laterTurns, rfl, rfl, rfl⟩ := List.map_eq_cons_iff.mp hrest
        -- no other load has begun, as this would show in the number of loads
        have hloads : (after (load (solve fuel) source) m).loads = m.loads + 1 := by
          rw [after, hload, hmachine]
        obtain ⟨-, m'', herror⟩ := h.stops_at fuel (h.alone hsolve hloads pi) (hturns.trans hst) hapart
        cases hload.symm.trans herror
  · rw [htrace] at hload'
    cases hload'

/-- **A load of clauses and declarations succeeds** if and only if its source is read to its end, and it
is refused none of the statements. -/
theorem Stamped.load_ok_iff :
    (∃ m', load (solve fuel) source m = .ok () m') ↔
      ∃ sp, m.splice source = .ok () sp ∧ Accepts m.database sp.passages := by
  constructor
  · rintro ⟨m', hload⟩
    obtain ⟨sp, hsplice, haccepts, -⟩ := h.load_ok hexpansion hrules hcontext fuel hplain hload
    exact ⟨sp, hsplice, haccepts⟩
  · rintro ⟨sp, hsplice, haccepts⟩
    have haccord := h.accord hexpansion hrules hcontext fuel source hplain
    rw [load_eq_trace]
    rcases htrace : m.trace (solve fuel) source with ⟨_, st⟩ | ⟨e, st⟩
    · exact ⟨_, rfl⟩
    · have hturns : m.turns (solve fuel) source = st.turns := by rw [turns, htrace]
      rw [hsplice] at hplain haccord
      rw [htrace] at haccord
      cases haccord with
      | halt hhalts =>
        exact absurd haccepts (hhalts.not_accepts (closed_orderly.solve fuel) h hturns hplain)

end

end Machine

end Clausal
