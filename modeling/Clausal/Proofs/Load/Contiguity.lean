import Clausal.Proofs.Load.Refusal

/-! # Clauses that stand together

The clauses of a predicate have to stand together in a load.  Whether a clause does not is a property
of what has come before it in the load, and of what the load keeps of the predicate
(`StandsApart`).  As long as no other load touches the predicate, this is all that the load complains
of (`Machine.Stamped.contiguity`): it stops at the first clause that stands apart, and if it does not
stop, the clauses of the predicate are one block.
-/

namespace Clausal

/-! ## Blocks -/

/-- If whatever comes after others of its kind comes right after one of them, those of the kind are one
block. -/
theorem exists_block {α : Type} {p : α → Prop} {as : List α}
    (h : ∀ earlier a later, as = earlier ++ a :: later → p a → (∃ b ∈ earlier, p b) →
      ∃ b, earlier.getLast? = some b ∧ p b) :
    ∃ before block after, as = before ++ block ++ after ∧ (∀ a ∈ before ++ after, ¬ p a) ∧
      ∀ a ∈ block, p a := by
  -- From the end: the next one is in the block only if the last one before it is.
  induction as using List.reverseRecOn with
  | nil => exact ⟨[], [], [], rfl, nofun, nofun⟩
  | append_singleton as a ih =>
    obtain ⟨before, block, after, rfl, hout, hin⟩ := ih fun earlier a' later has =>
      h earlier a' (later ++ [a]) (by rw [has, List.append_assoc]; rfl)
    by_cases ha : p a
    · by_cases hseen : ∃ b ∈ before ++ block ++ after, p b
      · -- the last one is of the kind, so that nothing has come after the block
        obtain ⟨b, hb, hpb⟩ := h _ a [] rfl ha hseen
        have hafter : after = [] := by
          by_contra hne
          rw [List.getLast?_append_of_ne_nil _ hne] at hb
          exact hout b (List.mem_append_right _ (List.mem_of_getLast? hb)) hpb
        subst hafter
        refine ⟨before, block ++ [a], [], by simp, hout, fun a' ha' => ?_⟩
        rcases List.mem_append.mp ha' with ha' | ha'
        · exact hin a' ha'
        · exact List.mem_singleton.mp ha' ▸ ha
      · refine ⟨before ++ block ++ after, [a], [], by simp, fun b hb hpb => hseen ⟨b, ?_, hpb⟩, ?_⟩
        · simpa using hb
        · simpa using ha
    · refine ⟨before, block, after ++ [a], by simp, fun a' ha' => ?_, hin⟩
      rw [← List.append_assoc] at ha'
      rcases List.mem_append.mp ha' with ha' | ha'
      · exact hout a' ha'
      · exact List.mem_singleton.mp ha' ▸ ha

/-! ## What a load has come to -/

/-- After what has come before it in a load of the database, the next statement is a clause of the
predicate that does not stand together with the others, and is not allowed to. -/
structure StandsApart (db : Database) (earlier : List Passage) (next : Passage) (pi : Indicator) :
    Prop where
  /-- It is a clause of the predicate. -/
  clause : next.pi? = some pi
  /-- The predicate is not built in. -/
  program : ∀ b, db.find? pi ≠ some (.builtin b)
  /-- There is a clause of the predicate before it. -/
  seen : ∃ p ∈ earlier, p.pi? = some pi
  /-- What comes right before it is none. -/
  interrupted : earlier.getLast?.bind Passage.pi? ≠ some pi
  /-- What the load keeps of the predicate does not allow it. -/
  kept : (db.kept pi).flags.allowsGaps = false
  /-- Nothing has been declared that allows it. -/
  declared : ∀ p ∈ earlier, ¬ p.Allows pi

namespace Loading

open Machine

variable {solve : Ref → MachineM Bool} {l₀ l l' : Loading} {turns : List Turn} {turn : Turn}
  {pi : Indicator}

/-- A load that has begun within this one has touched the predicate last. -/
def Overtaken (l : Loading) (pi : Indicator) : Prop :=
  ∃ p n, l.machine.database.find? pi = some (.defined p) ∧ p.load = some n ∧ l.load.id < n

/-- The load has taken note of its turns. -/
structure Tallied (id : Nat) (turns : List Turn) (l : Loading) : Prop where
  /-- The number of the load. -/
  id : l.load.id = id
  /-- The predicate of the last turn. -/
  last : l.load.last = (turns.map Turn.passage).getLast?.bind Passage.pi?
  /-- The predicates with a clause. -/
  seen : ∀ pi, pi ∈ l.load.seen ↔ ∃ p ∈ turns.map Turn.passage, p.pi? = some pi

theorem Tallied.quiet {id : Nat} (h : Tallied id turns l) (hquiet : l.Quiet l') :
    Tallied id turns l' where
  id := hquiet.id.trans h.id
  last := hquiet.last.trans h.last
  seen pi := by
    rw [hquiet.seen]
    exact h.seen pi

/-- What a load notes of a statement of which the deeds are known. -/
theorem note_eq {i : Statement} {ds : List Deed} {s : Store} (h : i.deeds s = .ok ds) (load : Load) :
    (i.note s load).last = Passage.pi? ⟨i, s⟩ ∧
      ∀ pi, pi ∈ (i.note s load).seen ↔ pi ∈ load.seen ∨ Passage.pi? ⟨i, s⟩ = some pi := by
  cases i with
  | clause t =>
    rw [Statement.deeds] at h
    rcases hc : Clause.compile s t with e | c
    · rw [hc] at h
      cases h
    · simp only [Statement.note, Passage.pi?, hc]
      refine ⟨rfl, fun pi => ?_⟩
      rw [Load.mem_seen_noting, or_comm, Option.some.injEq, eq_comm]
  | declare | initialization | goal =>
    exact ⟨rfl, fun pi => ⟨.inl, fun h => h.resolve_right (Option.some_ne_none pi).symm⟩⟩

variable (hsolve : ∀ goal, Orderly (solve goal))
include hsolve

theorem Leads.tallied (h : Leads solve l₀ turns l) {id : Nat} (h₀ : Tallied id [] l₀) :
    Tallied id turns l := by
  induction h with
  | start => exact h₀
  | between h hquiet ih => exact ih.quiet hquiet
  | @turn turns l l' i h hperform ih =>
    -- What the load notes of the statement is what the turn adds to the tally.
    obtain ⟨ds, db, hds, -, hquiet⟩ := Statement.perform_ok hsolve hperform
    obtain ⟨hlast, hseen⟩ := note_eq hds l.load
    have hid := i.id_note l.machine.store l.load
    refine Tallied.quiet ⟨hid.trans ih.id, hlast.trans ?_, fun pi => (hseen pi).trans ?_⟩ hquiet
    · simp [Turn.passage]
    · rw [ih.seen]
      simp [Turn.passage, or_and_right, exists_or]

/-- The turns have made of the predicate what it is, and it is not built in if they have made anything of
it. -/
structure Made (l₀ : Loading) (turns : List Turn) (l : Loading) (pi : Indicator) : Prop where
  /-- What the predicate is. -/
  find? : l.machine.database.find? pi =
    l₀.machine.database.changed l₀.load.id (turns.flatMap (·.passage.deeds)) pi
  /-- It is not built in. -/
  program : pi ∈ (turns.flatMap (·.passage.deeds)).map Deed.pi →
    ∀ b, l₀.machine.database.find? pi ≠ some (.builtin b)

omit hsolve in
theorem Overtaken.quiet (h : l.Overtaken pi) (hquiet : l.Quiet l') (hid : l.load.id ≤ l.machine.loads) :
    l'.Overtaken pi := by
  -- What touches the predicate in the meantime is a load that began later than this one.
  rcases hquiet.follows.later pi with hsame | ⟨p, n, hp, hn, hlater⟩
  · rw [Overtaken, hsame, hquiet.id]
    exact h
  · rw [Overtaken, hquiet.id]
    exact ⟨p, n, hp, hn, Nat.lt_of_le_of_lt hid (hlater.resolve_left List.not_mem_nil).1⟩

omit hsolve in
theorem Made.quiet (h : Made l₀ turns l pi) (hquiet : l.Quiet l') (hid : l.load.id ≤ l.machine.loads) :
    Made l₀ turns l' pi ∨ l'.Overtaken pi := by
  rcases hquiet.follows.later pi with hsame | ⟨p, n, hp, hn, hlater⟩
  · exact .inl ⟨hsame.trans h.find?, h.program⟩
  · rw [Overtaken, hquiet.id]
    exact .inr ⟨p, n, hp, hn, Nat.lt_of_le_of_lt hid (hlater.resolve_left List.not_mem_nil).1⟩

omit hsolve in
theorem Made.deeds (h : Made l₀ turns l pi) (hid : l.load.id = l₀.load.id) {i : Statement}
    {ds : List Deed} {db : Database} (hds : i.deeds l.machine.store = .ok ds)
    (hdb : ds.foldlM (Deed.carryOut l.load.id) l.machine.database = .ok db) {load : Load} :
    Made l₀ (turns ++ [⟨i, l⟩]) ⟨(l.withDatabase db).machine, load⟩ pi := by
  have hpassage : Turn.passage ⟨i, l⟩ = ⟨i, l.machine.store⟩ := rfl
  have hdeeds : (turns ++ [(⟨i, l⟩ : Turn)]).flatMap (·.passage.deeds) =
      turns.flatMap (·.passage.deeds) ++ ds := by
    rw [List.flatMap_append, List.flatMap_singleton, hpassage, Passage.deeds_eq hds]
  refine ⟨?_, fun hmem b => ?_⟩
  · rw [hdeeds, ← Database.changed_append h.find?, ← hid]
    exact Database.find?_of_deeds hdb pi
  · rw [hdeeds, List.map_append, List.mem_append] at hmem
    -- Only the first deed to the predicate tells that it is not built in.
    by_cases hearlier : pi ∈ (turns.flatMap (·.passage.deeds)).map Deed.pi
    · exact h.program hearlier b
    · have hnow := Database.not_builtin_of_deeds hdb (hmem.resolve_left hearlier) b
      rwa [h.find?, Database.changed, if_neg hearlier] at hnow

/-- **The turns make of the predicate what it is**, until another load overtakes this one. -/
theorem Leads.made (h : Leads solve l₀ turns l) (h₀ : l₀.Marked) (h₀' : Tallied l₀.load.id [] l₀)
    (halone : ∀ t ∈ turns, ¬ t.state.Overtaken pi) : Made l₀ turns l pi ∨ l.Overtaken pi := by
  induction h with
  | start => exact .inl ⟨rfl, nofun⟩
  | between h hquiet ih =>
    have hid := (h.marked hsolve h₀).begun
    exact (ih halone).elim (·.quiet hquiet hid) fun h => .inr (h.quiet hquiet hid)
  | @turn turns l l' i h hperform ih =>
    -- Nothing has overtaken the load when the statement has its turn; something may before the next.
    have hmade := (ih fun t ht => halone t (List.mem_append_left _ ht)).resolve_right
      (halone ⟨i, l⟩ (List.mem_append_right _ (List.mem_singleton_self _)))
    obtain ⟨ds, db, hds, hdb, hquiet⟩ := Statement.perform_ok hsolve hperform
    have hmarked := (h.marked hsolve h₀).deeds hds hdb
    exact (hmade.deeds (h.tallied hsolve h₀').id hds hdb).quiet hquiet hmarked.begun

/-! ## Complaints -/

omit hsolve in
theorem mem_deeds_of_seen (h : ∃ p ∈ turns.map Turn.passage, p.pi? = some pi) :
    pi ∈ (turns.flatMap (·.passage.deeds)).map Deed.pi := by
  obtain ⟨p, hp, hpi⟩ := h
  obtain ⟨t, ht, rfl⟩ := List.mem_map.mp hp
  rw [List.map_flatMap]
  exact List.mem_flatMap.mpr ⟨t, ht, Passage.mem_deeds_of_pi? hpi⟩

omit hsolve in
/-- The predicate allows gaps if what was kept of it does, or something was declared that does. -/
theorem Made.allowsGaps_iff (h : Made l₀ turns l pi) (hid : l.load.id = l₀.load.id)
    (hfresh : ∀ p, l₀.machine.database.find? pi = some (.defined p) → p.load ≠ some l₀.load.id)
    (hseen : ∃ p ∈ turns.map Turn.passage, p.pi? = some pi) :
    (l.machine.database.found l.load.id pi).flags.allowsGaps = true ↔
      (l₀.machine.database.kept pi).flags.allowsGaps = true ∨
        ∃ p ∈ turns.map Turn.passage, p.Allows pi := by
  have hfind := h.find?
  rw [Database.changed, if_pos (mem_deeds_of_seen hseen)] at hfind
  -- The flags are those that were kept, and those that the deeds declare.
  rw [hid, Database.found_of_load hfind (by rw [Deed.load_foldl, Database.load_found]),
    Deed.flags_foldl, Flags.allowsGaps_foldl, Database.found_of_fresh hfresh]
  refine or_congr_right ⟨?_, ?_⟩
  · rintro ⟨property, hproperty, hne⟩
    obtain ⟨d, hd, hprop⟩ := List.mem_filterMap.mp hproperty
    rw [List.mem_filter, List.mem_flatMap, decide_eq_true_eq] at hd
    obtain ⟨⟨t, ht, hd⟩, hdpi⟩ := hd
    cases d with
    | clause c => cases hprop
    | declare property' pi' =>
      cases hprop
      cases hdpi
      exact ⟨_, List.mem_map_of_mem ht, property, hne, hd⟩
  · rintro ⟨p, hp, property, hne, hd⟩
    obtain ⟨t, ht, rfl⟩ := List.mem_map.mp hp
    refine ⟨property, List.mem_filterMap.mpr ⟨_, List.mem_filter.mpr
      ⟨List.mem_flatMap.mpr ⟨t, ht, hd⟩, decide_eq_true rfl⟩, rfl⟩, hne⟩

/-- Only clauses are complained of, but for the complaints of other loads. -/
theorem perform_discontiguous {i : Statement}
    (h : i.perform solve l = .error (.error (.discontiguous pi)) l')
    (hloads : l'.machine.loads = l.machine.loads) :
    ∃ t, i = .clause t := by
  -- A goal ends with such a complaint only if it has begun a load.
  by_cases hi : i.IsGoal
  · obtain ⟨action, hquiet, hperform⟩ := Statement.perform_goal hsolve hi
    rw [hperform] at h
    exact absurd hloads (Nat.ne_of_gt (hquiet.tidy ⟨l.machine, l.load.noteDirective⟩ pi l' h))
  cases i with
  | clause t => exact ⟨t, rfl⟩
  | declare property predicates =>
    have h : Loading.declare property predicates ⟨l.machine, l.load.noteDirective⟩ =
      .error (.error (.discontiguous pi)) l' := h
    rcases hpis : Indicator.declared l.machine.store predicates with e | pis
    · rw [declare_of_malformed (l := ⟨l.machine, l.load.noteDirective⟩) hpis] at h
      cases h
      exact absurd hpis (tidy_declared l.machine.store predicates pi)
    · rw [declare_of_declared (l := ⟨l.machine, l.load.noteDirective⟩) hpis] at h
      have hdeeds := declareEach_eq l.load.id property pis ⟨l.machine, l.load.noteDirective⟩
      dsimp only at hdeeds
      rcases hdb : (pis.map (Deed.declare property)).foldlM (Deed.carryOut l.load.id)
          l.machine.database with e | db
      · rw [hdb] at hdeeds
        obtain ⟨db, herror⟩ := hdeeds
        obtain ⟨q, rfl⟩ := Database.protected_of_deeds hdb
        cases h.symm.trans herror
      · rw [hdb] at hdeeds
        cases h.symm.trans hdeeds
  | initialization | goal => exact absurd trivial hi

/-- **The load complains of a statement if it stands apart**, and of no other. -/
theorem Made.complains_iff (h : Made l₀ turns l pi) (htallied : Tallied l₀.load.id turns l)
    (hfresh : ∀ p, l₀.machine.database.find? pi = some (.defined p) → p.load ≠ some l₀.load.id)
    (i : Statement) :
    (∃ l', i.perform solve l = .error (.error (.discontiguous pi)) l' ∧
      l'.machine.loads = l.machine.loads) ↔
    StandsApart l₀.machine.database (turns.map Turn.passage) ⟨i, l.machine.store⟩ pi := by
  constructor
  · rintro ⟨l', hperform, hloads⟩
    obtain ⟨t, rfl⟩ := perform_discontiguous hsolve hperform hloads
    rcases addClause_error hperform with ⟨-, hne⟩ | ⟨c, hc, heq, -, hlast, hseen, hflags, -⟩
    · exact absurd rfl (hne pi)
    cases heq
    have hseen' := (htallied.seen c.pi).mp hseen
    -- Neither what was kept nor what was declared allows gaps, as both would show in the flags.
    have hno := mt (h.allowsGaps_iff htallied.id hfresh hseen').mpr (Bool.eq_false_iff.mp hflags)
    rw [not_or] at hno
    exact {
      clause := Passage.pi?_eq_some.mpr ⟨t, c, rfl, hc, rfl⟩
      program := h.program (mem_deeds_of_seen hseen')
      seen := hseen'
      interrupted := htallied.last ▸ hlast
      kept := Bool.eq_false_iff.mpr hno.1
      declared := fun p hp hallows => hno.2 ⟨p, hp, hallows⟩ }
  · intro hapart
    obtain ⟨t, c, rfl, hc, rfl⟩ := Passage.pi?_eq_some.mp hapart.clause
    have hfind := h.find?
    rw [Database.changed, if_pos (mem_deeds_of_seen hapart.seen)] at hfind
    have hflags : (l.machine.database.found l.load.id c.pi).flags.allowsGaps = false := by
      rw [Bool.eq_false_iff]
      intro hallows
      rcases (h.allowsGaps_iff htallied.id hfresh hapart.seen).mp hallows with hkept | ⟨p, hp, hp'⟩
      · rw [hapart.kept] at hkept
        cases hkept
      · exact hapart.declared p hp hp'
    have hgap := Load.noteClause_of_gap (htallied.last ▸ hapart.interrupted)
      ((htallied.seen c.pi).mpr hapart.seen) hflags
    have hprogram : ∀ b, l.machine.database.find? c.pi ≠ some (.builtin b) := by
      intro b hb
      cases hfind.symm.trans hb
    exact ⟨_, addClause_of_refused hc hprogram hgap, rfl⟩

end Loading

namespace Machine

open Loading

variable {m : Machine}

/-- The statements that have their turn in the load of a source, in their order.  Those of included
sources are among them, and the inclusions are not. -/
def passages (solve : Ref → MachineM Bool) (source : TermSource) (m : Machine) : List Passage :=
  (m.turns solve source).map Turn.passage

/-- No other load touches the predicate while the load of a source goes on: whenever a statement has its
turn, none has touched it last. -/
def Alone (solve : Ref → MachineM Bool) (source : TermSource) (m : Machine) (pi : Indicator) : Prop :=
  ∀ turn ∈ m.turns solve source, ¬ turn.state.Overtaken pi

theorem tallied_beginLoad (m : Machine) (source : TermSource) :
    Tallied (m.beginLoad source).load.id [] (m.beginLoad source) where
  id := rfl
  last := rfl
  seen _ := by simp [beginLoad]

/-- The number of a load that begins is new to all predicates. -/
theorem Stamped.fresh (h : m.Stamped) (pi : Indicator) (p : Predicate)
    (hp : m.database.find? pi = some (.defined p)) : p.load ≠ some (m.loads + 1) := by
  obtain ⟨n, hn, hle⟩ := h pi p hp
  rw [hn]
  exact fun heq => absurd (Option.some.inj heq) (Nat.ne_of_lt (Nat.lt_succ_of_le hle))

/-- If no other load begins, none touches anything. -/
theorem Stamped.alone (h : m.Stamped) {solve : Ref → MachineM Bool}
    (hsolve : ∀ goal, Orderly (solve goal)) {source : TermSource}
    (hloads : (after (load solve source) m).loads = m.loads + 1) (pi : Indicator) :
    m.Alone solve source pi := by
  rintro turn hturn ⟨p, n, hp, hn, hlt⟩
  -- A load that has overtaken this one has a later number, and no later number was given.
  have hle := loads_le_of_mem_turns hsolve hturn
  obtain ⟨earlier, later, hturns⟩ := List.append_of_mem hturn
  have hleads := (turn_cases hsolve hturns).1
  obtain ⟨n', hn', hle'⟩ := (hleads.marked hsolve (h.marked source)).stamped pi p hp
  obtain rfl : n = n' := Option.some.inj (hn.symm.trans hn')
  have hid : turn.state.load.id = m.loads + 1 := (hleads.tallied hsolve (tallied_beginLoad m source)).id
  omega

section

variable (h : m.Stamped) (fuel : Nat) {source : TermSource} {pi : Indicator}
  (halone : m.Alone (solve fuel) source pi) {earlier later : List Turn} {turn : Turn}
  (hturns : m.turns (solve fuel) source = earlier ++ turn :: later)
include h halone hturns

/-- At every turn, the predicate is what the turns before it have made of it. -/
theorem Stamped.made : Made (m.beginLoad source) earlier turn.state pi := by
  have hsolve := closed_orderly.solve fuel
  have halone' : ∀ t ∈ earlier ++ turn :: later, ¬ t.state.Overtaken pi := hturns ▸ halone
  exact ((turn_cases hsolve hturns).1.made hsolve (h.marked source) (tallied_beginLoad m source)
    fun t ht => halone' t (List.mem_append_left _ ht)).resolve_right
      (halone' turn (List.mem_append_right _ List.mem_cons_self))

/-- At every turn, the load complains if the statement stands apart, and only then. -/
theorem Stamped.complains_iff :
    (∃ l', turn.statement.perform (solve fuel) turn.state = .error (.error (.discontiguous pi)) l' ∧
      l'.machine.loads = turn.state.machine.loads) ↔
    StandsApart m.database (earlier.map Turn.passage) turn.passage pi := by
  have hsolve := closed_orderly.solve fuel
  have htallied := (turn_cases hsolve hturns).1.tallied hsolve (tallied_beginLoad m source)
  exact (h.made fuel halone hturns).complains_iff hsolve htallied (h.fresh pi) turn.statement

/-- The load stops at a statement that stands apart. -/
theorem Stamped.stops_at (hapart : StandsApart m.database (earlier.map Turn.passage) turn.passage pi) :
    later = [] ∧ ∃ m', load (solve fuel) source m = .error (.error (.discontiguous pi)) m' := by
  obtain ⟨l', hperform, -⟩ := (h.complains_iff fuel halone hturns).mpr hapart
  rcases (turn_cases (closed_orderly.solve fuel) hturns).2 with
    ⟨l'', hok⟩ | ⟨rfl, e, l'', m', herror, hload⟩
  · cases hperform.symm.trans hok
  · cases hperform.symm.trans herror
    exact ⟨rfl, m', hload⟩

end

/-- **When clauses do not stand together.**  Take any load, and a predicate that no other load touches
while this one goes on; this is so for every predicate if no other load begins (`Stamped.alone`).

The statements of the load have their turns, one after the other.  Of one of them the load complains
that the predicate is discontiguous, and not another load that has begun at this turn, if and only if
the statement stands apart; and then this is the last turn, and the load stops with the complaint.  If
the load stops with the complaint and no other load has begun, it does so at a turn, of a statement
that stands apart.  If the load ends, and neither what it has kept of the predicate nor what it has
declared allows gaps, then the clauses of the predicate are one block of statements. -/
theorem Stamped.contiguity (h : m.Stamped) (fuel : Nat) (source : TermSource) {pi : Indicator}
    (halone : m.Alone (solve fuel) source pi) :
    (∀ earlier turn later, m.turns (solve fuel) source = earlier ++ turn :: later →
      ((∃ l', turn.statement.perform (solve fuel) turn.state =
            .error (.error (.discontiguous pi)) l' ∧
          l'.machine.loads = turn.state.machine.loads) ↔
        StandsApart m.database (earlier.map Turn.passage) turn.passage pi) ∧
      (StandsApart m.database (earlier.map Turn.passage) turn.passage pi →
        later = [] ∧ ∃ m', load (solve fuel) source m = .error (.error (.discontiguous pi)) m')) ∧
    (∀ m', load (solve fuel) source m = .error (.error (.discontiguous pi)) m' →
      m'.loads = m.loads + 1 →
      ∃ earlier turn, m.turns (solve fuel) source = earlier ++ [turn] ∧
        StandsApart m.database (earlier.map Turn.passage) turn.passage pi) ∧
    ∀ m', load (solve fuel) source m = .ok () m' → (m.database.kept pi).flags.allowsGaps = false →
      (∀ p ∈ m.passages (solve fuel) source, ¬ p.Allows pi) →
      ∃ before block after, m.passages (solve fuel) source = before ++ block ++ after ∧
        (∀ p ∈ before ++ after, p.pi? ≠ some pi) ∧ ∀ p ∈ block, p.pi? = some pi := by
  have hsolve := closed_orderly.solve fuel
  refine ⟨fun earlier turn later hturns => ?_, fun m' hload hloads => ?_, fun m' hload hkept hdeclared => ?_⟩
  · exact ⟨h.complains_iff fuel halone hturns, h.stops_at fuel halone hturns⟩
  · obtain ⟨l, rfl, hstops⟩ := stops_of_load_error hsolve hload
    have hmarked : (m.beginLoad source).Marked := h.marked source
    generalize hturns : m.turns (solve fuel) source = turns at hstops
    cases hstops with
    | @between _ l' _ _ hleads hquiet htidy =>
      -- A complaint between two turns is that of a load begun there, and no other has begun.
      have hbegun := (hleads.marked hsolve hmarked).begun
      rw [(hleads.tallied hsolve (tallied_beginLoad m source)).id] at hbegun
      have hlt := htidy pi rfl
      exact absurd hloads (Nat.ne_of_gt (Nat.lt_of_le_of_lt hbegun hlt))
    | @turn earlier l₁ l₂ _ i _ hleads hperform hquiet =>
      refine ⟨earlier, ⟨i, l₁⟩, rfl, (h.complains_iff fuel halone hturns).mp ⟨l₂, hperform, ?_⟩⟩
      -- the load has begun when the statement has its turn, and no other one has begun when it ends
      have hbegun := (hleads.marked hsolve hmarked).begun
      rw [(hleads.tallied hsolve (tallied_beginLoad m source)).id] at hbegun
      have hle := Statement.loads_le_perform hsolve i l₁
      rw [hperform] at hle
      have hle : l₁.machine.loads ≤ l₂.machine.loads := hle
      have hle' := hquiet.follows.loads_le
      have hbegun : m.loads + 1 ≤ l₁.machine.loads := hbegun
      show l₂.machine.loads = l₁.machine.loads
      omega
  · refine exists_block fun earlier p later hsplit hp hseen => ?_
    obtain ⟨earlierTurns, rest, hturns, rfl, hrest⟩ := List.map_eq_append_iff.mp hsplit
    obtain ⟨turn, laterTurns, rfl, rfl, rfl⟩ := List.map_eq_cons_iff.mp hrest
    -- A clause that comes after one of its predicate, but not right after one, would stop the load.
    by_contra hnot
    have hapart : StandsApart m.database (earlierTurns.map Turn.passage) turn.passage pi := {
      clause := hp
      program := (h.made fuel halone hturns).program (mem_deeds_of_seen hseen)
      seen := hseen
      interrupted := fun hlast => hnot (Option.bind_eq_some_iff.mp hlast)
      kept := hkept
      declared := fun p hmem => hdeclared p (hsplit ▸ List.mem_append_left _ hmem) }
    obtain ⟨-, m'', herror⟩ := h.stops_at fuel halone hturns hapart
    cases hload.symm.trans herror

/-- A load may begin another one to expand a term, though no directive of it runs a goal.  When the other
load has touched a predicate, a clause is complained of that does not stand apart. -/
theorem complains_expansion :
    let m := { build [] [] true with
      sources := [("n", .readable (.ofText ":- discontiguous(foo/1). foo(z)."))] }
    let source := m.source "user" (.ofText
      "term_expansion(x, []) :- consult(n). :- discontiguous(foo/1). foo(a). x. bar. foo(b).") none
    ∃ earlier turn l', m.turns (solve 12) source = earlier ++ [turn] ∧
      (∀ t ∈ earlier ++ [turn], ¬ t.statement.IsGoal) ∧
      turn.statement.perform (solve 12) turn.state = .error (.error (.discontiguous ⟨"foo", 1⟩)) l' ∧
      l'.machine.loads = turn.state.machine.loads ∧
      (∃ p ∈ earlier.map Turn.passage, p.Allows ⟨"foo", 1⟩) ∧
      ¬ StandsApart m.database (earlier.map Turn.passage) turn.passage ⟨"foo", 1⟩ := by
  intro m source
  have hgoals : ∀ turn ∈ m.turns (solve 12) source, ¬ turn.statement.IsGoal := by decide +kernel
  have hdeclared : ∃ p ∈ (m.turns (solve 12) source).dropLast.map Turn.passage,
      Deed.declare .discontiguous ⟨"foo", 1⟩ ∈ p.deeds := by decide +kernel
  have hlast : ∃ turn ∈ (m.turns (solve 12) source).getLast?,
      ∃ x ∈ failure? (turn.statement.perform (solve 12) turn.state),
        x.1.discontiguous? = some ⟨"foo", 1⟩ ∧ x.2.machine.loads = turn.state.machine.loads := by
    decide +kernel
  clear_value source m
  obtain ⟨p, hp, hdeed⟩ := hdeclared
  have hallows : p.Allows ⟨"foo", 1⟩ := ⟨.discontiguous, by decide, hdeed⟩
  obtain ⟨turn, hturn, ⟨e, l'⟩, hperform, he, hloads⟩ := hlast
  obtain rfl := Stop.discontiguous?_eq_some.mp he
  have hperform := failure?_eq_some.mp hperform
  have hsplit := (List.dropLast_append_getLast? turn hturn).symm
  refine ⟨_, turn, l', hsplit, ?_, hperform, hloads, ⟨p, hp, hallows⟩,
    fun hapart => hapart.declared p hp hallows⟩
  rwa [← hsplit]

/-- The third statement of a text stands apart, and no other load begins. -/
theorem contiguity_gap :
    let m := build [] [] true
    let source := m.source "user" (.ofText "foo(a). bar. foo(b).") none
    m.Stamped ∧ m.Alone (solve 8) source ⟨"foo", 1⟩ ∧ ∃ earlier turn,
      m.turns (solve 8) source = earlier ++ [turn] ∧
      StandsApart m.database (earlier.map Turn.passage) turn.passage ⟨"foo", 1⟩ := by
  intro m source
  have hm : m.Stamped := stamped_build [] [] true
  obtain ⟨⟨e, m'⟩, herror, he, hcount⟩ : ∃ x ∈ failure? (load (solve 8) source m),
      x.1.discontiguous? = some ⟨"foo", 1⟩ ∧ x.2.loads = m.loads + 1 := by decide +kernel
  have hloads : (after (load (solve 8) source) m).loads = m.loads + 1 := by decide +kernel
  have halone := hm.alone (closed_orderly.solve 8) hloads ⟨"foo", 1⟩
  refine ⟨hm, halone, ?_⟩
  clear_value source m
  obtain rfl := Stop.discontiguous?_eq_some.mp he
  exact (hm.contiguity 8 source halone).2.1 m' (failure?_eq_some.mp herror) hcount

end Machine

end Clausal
