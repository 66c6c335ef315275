import Clausal.Proofs.Load.Contiguity

/-! # Loads of clauses and declarations

A source says what statements there are to be loaded: those of its terms, in their order, with those of
an included source in the place of the directive.  `Machine.splice` reads them off the sources, without
loading anything.

If all of them are clauses and declarations, and no rule expands terms, then a load deals with these
statements in this order, and stops at the first one that is refused.  What it makes of the database is
what they say (`Machine.Stamped.compile_spliced`).
-/

namespace Clausal

open Loading Machine

/-- What was read of sources. -/
structure Spliced where
  /-- The store with the terms. -/
  store : Store
  /-- The statements, in their order. -/
  passages : List Passage := []

/-- Reading of sources. -/
abbrev SpliceM := EStateM Stop Spliced

namespace Machine

section

variable (m : Machine)

/-- Reads the next term of a source, or finds that there is none. -/
def spliceNext (source : TermSource) : SpliceM (Option (Ref × TermSource)) := fun sp =>
  match source.next? m.operators sp.store with
  | (.ok t, source, s) => .ok (t.map (·, source)) { sp with store := s }
  | (.error e, _, s) => .error (.error (.ofRead e)) { sp with store := s }

/-- Takes down what there is in an included source. -/
def spliceIncluded (spliceTerms : List String → TermSource → SpliceM Unit) (including : List String)
    (file : Ref) : SpliceM Unit := fun sp =>
  match sp.store.expectAtom file with
  | .error e => .error (.error e) sp
  | .ok name =>
    match m.sources.lookup name with
    | some (.readable input) =>
      if including.contains name then .error (.error (.cyclicSource name)) sp
      else spliceTerms (name :: including) (m.source name input none) sp
    | some (.unopenable message) => .error (.error (.input message)) sp
    | none => .error (.error (.noSource name)) sp

/-- Takes down a statement, or what there is in the source that a term includes. -/
def spliceTerm (spliceTerms : List String → TermSource → SpliceM Unit) (including : List String)
    (t : Ref) : SpliceM Unit := fun sp =>
  match Part.of sp.store t with
  | .statement i => .ok () { sp with passages := sp.passages ++ [⟨i, sp.store⟩] }
  | .inclusion file => m.spliceIncluded spliceTerms including file sp

/-- Takes down what remains of a source. -/
def spliceEach (one : Ref → SpliceM Unit) : Nat → TermSource → SpliceM Unit
  | 0, _ => throw .outOfFuel
  | n + 1, source => do
    match ← m.spliceNext source with
    | none => pure ()
    | some (t, source) =>
      one t
      spliceEach one n source

/-- Takes down a source, where sources are included at most the given number of levels deep. -/
def spliceSource : Nat → List String → TermSource → SpliceM Unit
  | 0, _, _ => throw .outOfFuel
  | depth + 1, including, source =>
    m.spliceEach (m.spliceTerm (spliceSource depth) including) (source.reader.lexer.input.length + 2)
      source

/-- The statements of a source, with those of included sources in their places. -/
def splice (source : TermSource) : EStateM.Result Stop Spliced Unit :=
  m.spliceSource (m.sources.length + 2) [source.name] source { store := m.store }

end

end Machine

/-- The statements that were taken down. -/
def passagesOf {α : Type} : EStateM.Result Stop Spliced α → List Passage
  | .ok _ sp | .error _ sp => sp.passages

/-- The statement is a declaration, or a clause that does not say how to expand terms. -/
def Passage.Plain (p : Passage) : Prop :=
  ¬ p.statement.IsGoal ∧ p.pi? ≠ some ⟨"term_expansion", 2⟩

instance (p : Passage) : Decidable p.Plain := inferInstanceAs (Decidable (_ ∧ _))

namespace Machine

variable {α β : Type} {m : Machine} {sp : Spliced}

/-! ## Reading goes on -/

/-- What was taken down stays. -/
def Extends (action : SpliceM α) : Prop := ∀ sp, sp.passages <+: passagesOf (action sp)

theorem Extends.bind {action : SpliceM α} {f : α → SpliceM β} (h : Extends action)
    (hf : ∀ a, Extends (f a)) : Extends (action >>= f) := by
  intro sp
  have hsp := h sp
  rcases hresult : action sp with ⟨a, sp'⟩ | ⟨e, sp'⟩
  · rw [bind_eq_of_ok hresult]
    rw [hresult] at hsp
    exact hsp.trans (hf a sp')
  · rw [bind_eq_of_error hresult]
    rw [hresult] at hsp
    exact hsp

theorem extends_spliceNext (m : Machine) (source : TermSource) : Extends (m.spliceNext source) := by
  intro sp
  rw [spliceNext]
  rcases source.next? m.operators sp.store with ⟨e | t, source', s⟩ <;> exact List.prefix_refl _

theorem extends_spliceTerm {spliceTerms : List String → TermSource → SpliceM Unit}
    (h : ∀ including source, Extends (spliceTerms including source)) (including : List String) (t : Ref) :
    Extends (m.spliceTerm spliceTerms including t) := by
  intro sp
  rw [spliceTerm]
  split
  · exact List.prefix_append _ _
  · rw [spliceIncluded]
    split
    · exact List.prefix_refl _
    · split
      · split
        · exact List.prefix_refl _
        · exact h _ _ sp
      · exact List.prefix_refl _
      · exact List.prefix_refl _

theorem extends_spliceEach {one : Ref → SpliceM Unit} (h : ∀ t, Extends (one t)) (n : Nat)
    (source : TermSource) : Extends (m.spliceEach one n source) := by
  induction n generalizing source with
  | zero => exact fun sp => List.prefix_refl _
  | succ n ih =>
    refine (extends_spliceNext m source).bind fun next => ?_
    split
    · exact fun sp => List.prefix_refl _
    · exact (h _).bind fun _ => ih _

theorem extends_spliceSource (depth : Nat) (including : List String) (source : TermSource) :
    Extends (m.spliceSource depth including source) := by
  induction depth generalizing including source with
  | zero => exact fun sp => List.prefix_refl _
  | succ depth ih => exact extends_spliceEach (extends_spliceTerm ih including) _ _

end Machine

/-! ## No rule expands terms -/

namespace Passage

variable {p : Passage} {c : Clause}

theorem pi?_of_clause_mem (h : Deed.clause c ∈ p.deeds) : p.pi? = some c.pi := by
  obtain ⟨i, s⟩ := p
  cases i with
  | clause t =>
    rcases hc : Clause.compile s t with e | c'
    · simp [deeds, Statement.deeds, hc, Except.map] at h
    · simp only [deeds, Statement.deeds, hc, Except.map, List.mem_singleton] at h
      cases h
      exact pi?_eq_some.mpr ⟨t, c, rfl, hc, rfl⟩
  | declare property predicates =>
    rcases hpis : Indicator.declared s predicates with e | pis <;>
      simp [deeds, Statement.deeds, hpis, Except.map] at h
  | initialization | goal => simp [deeds, Statement.deeds] at h

end Passage

/-- Plain statements give no rule for expanding terms. -/
theorem Machine.RuleFree.of_plain {m m' : Machine} (h : m.RuleFree) {ps : List Passage}
    (hplain : ∀ p ∈ ps, p.Plain)
    (hdb : m.database.Loaded (ps.flatMap Passage.deeds) m'.database) : m'.RuleFree := by
  intro p hp
  -- What was kept of the rules is nothing, and no statement is one.
  by_cases hmem : ⟨"term_expansion", 2⟩ ∈ (ps.flatMap Passage.deeds).map Deed.pi
  · obtain ⟨p', hp', hclauses, -⟩ := hdb.touched _ hmem
    cases hp.symm.trans hp'
    rw [hclauses, List.append_eq_nil_iff]
    constructor
    · rw [Database.kept]
      split
      · rename_i q hq
        split
        · exact h q hq
        · rfl
      · rfl
    · rw [List.filterMap_eq_nil_iff]
      intro d hd
      rw [List.mem_filter, List.mem_flatMap, decide_eq_true_eq] at hd
      obtain ⟨⟨p'', hp'', hd⟩, hpi⟩ := hd
      cases d with
      | declare => rfl
      | clause c => exact absurd (hpi ▸ Passage.pi?_of_clause_mem hd) (hplain p'' hp'').2
  · exact h p ((hdb.other _ hmem).symm.trans hp)

namespace Loading

variable {α β : Type} {m : Machine} {solve : Ref → MachineM Bool} {including : List String}
  {st : Traced} {sp : Spliced} {source : TermSource}

/-! ## Loading goes along with reading -/

/-- The load has dealt with what was taken down, and with nothing else. -/
structure Along (solve : Ref → MachineM Bool) (m : Machine) (including : List String) (st : Traced)
    (sp : Spliced) : Prop where
  /-- The machine is the same but for the store, the database and the number of loads. -/
  machine : st.loading.machine =
    { m with store := sp.store, database := st.loading.machine.database, loads := m.loads + 1 }
  /-- The number of the load. -/
  id : st.loading.load.id = m.loads + 1
  /-- The sources that are being loaded. -/
  including : st.loading.load.including = including
  /-- The statements that had their turns. -/
  turns : st.turns.map Turn.passage = sp.passages
  /-- They were dealt with. -/
  dealt : ∀ turn ∈ st.turns, ∃ l, turn.statement.perform solve turn.state = .ok () l
  /-- They make sense. -/
  sense : ∀ p ∈ sp.passages, p.statement.deeds p.store = .ok p.deeds
  /-- What they have done. -/
  deeds : (sp.passages.flatMap Passage.deeds).foldlM (Deed.carryOut (m.loads + 1)) m.database =
    .ok st.loading.machine.database

/-- The load has stopped at a statement. -/
inductive Halts (solve : Ref → MachineM Bool) (m : Machine) (e : Stop) : Traced → List Passage → Prop
  | intro {st : Traced} {sp : Spliced} {including : List String} {i : Statement} {l l' : Loading}
    (h : Along solve m including st sp) (hperform : i.perform solve st.loading = .error e l)
    (hmachine : l'.machine = l.machine) (rest : List Passage) :
    Halts solve m e ⟨l', st.turns ++ [⟨i, st.loading⟩]⟩ (sp.passages ++ ⟨i, sp.store⟩ :: rest)

/-- Loading has come to the same as reading, or it has stopped at a statement. -/
inductive Accord (solve : Ref → MachineM Bool) (m : Machine) (including : List String) :
    EStateM.Result Stop Traced α → EStateM.Result Stop Spliced α → Prop
  /-- Both have come to a value. -/
  | value (a : α) {st : Traced} {sp : Spliced} (h : Along solve m including st sp) :
    Accord solve m including (.ok a st) (.ok a sp)
  /-- Both have met the same error. -/
  | error (e : Stop) {including' : List String} {st : Traced} {sp : Spliced}
    (h : Along solve m including' st sp) : Accord solve m including (.error e st) (.error e sp)
  /-- The load has stopped at a statement. -/
  | halt {e : Stop} {st : Traced} {r : EStateM.Result Stop Spliced α}
    (h : Halts solve m e st (passagesOf r)) : Accord solve m including (.error e st) r

/-- Loading goes along with reading, as long as the statements are plain. -/
def Accords (solve : Ref → MachineM Bool) (m : Machine) (including : List String) (traced : TraceM α)
    (action : SpliceM α) : Prop :=
  ∀ st sp, Along solve m including st sp → (∀ p ∈ passagesOf (action sp), p.Plain) →
    Accord solve m including (traced st) (action sp)

theorem Halts.extend {e : Stop} {ps ps' : List Passage} (h : Halts solve m e st ps) (hps : ps <+: ps') :
    Halts solve m e st ps' := by
  obtain ⟨rest', rfl⟩ := hps
  cases h with
  | intro h hperform hmachine rest =>
    -- What is read after the statement is never loaded.
    rw [List.append_assoc, List.cons_append]
    exact .intro h hperform hmachine _

theorem accords_pure (a : α) : Accords solve m including (pure a) (pure a) := fun _ _ h _ => .value a h

theorem accords_throw (e : Stop) :
    Accords solve m including (throw e : TraceM α) (throw e : SpliceM α) := fun _ _ h _ => .error e h

theorem Accords.bind {traced : TraceM α} {action : SpliceM α} {f : α → TraceM β} {g : α → SpliceM β}
    (h : Accords solve m including traced action) (hf : ∀ a, Accords solve m including (f a) (g a))
    (hg : ∀ a, Extends (g a)) : Accords solve m including (traced >>= f) (action >>= g) := by
  intro st sp halong hplain
  rcases hresult : action sp with ⟨a, sp'⟩ | ⟨e, sp'⟩
  · rw [bind_eq_of_ok hresult] at hplain ⊢
    -- The statements of the first part are among those of both, so that they are plain.
    have haccord := h st sp halong (by
      rw [hresult]
      exact fun p hp => hplain p ((hg a sp').subset hp))
    rw [hresult] at haccord
    generalize htraced : traced st = r at haccord
    cases haccord with
    | value _ h =>
      rw [bind_eq_of_ok htraced]
      exact hf a _ sp' h hplain
    | halt h =>
      rw [bind_eq_of_error htraced]
      exact .halt (h.extend (hg a sp'))
  · rw [bind_eq_of_error hresult] at hplain ⊢
    have haccord := h st sp halong (by rwa [hresult])
    rw [hresult] at haccord
    generalize htraced : traced st = r at haccord
    cases haccord with
    | error _ h =>
      rw [bind_eq_of_error htraced]
      exact .error e h
    | halt h =>
      rw [bind_eq_of_error htraced]
      exact .halt h

theorem silently_of_ok {action : LoadM α} {a : α} {l : Loading} (h : action st.loading = .ok a l) :
    silently action st = .ok a { st with loading := l } := by
  rw [silently, h]

theorem silently_of_error {action : LoadM α} {e : Stop} {l : Loading}
    (h : action st.loading = .error e l) : silently action st = .error e { st with loading := l } := by
  rw [silently, h]

/-! ## Statements and inclusions -/

/-- A statement that is dealt with. -/
theorem Along.perform (h : Along solve m including st sp) {i : Statement} (hi : ¬ i.IsGoal)
    {l : Loading} (hperform : i.perform solve st.loading = .ok () l) :
    Along solve m including ⟨l, st.turns ++ [⟨i, st.loading⟩]⟩
      { sp with passages := sp.passages ++ [⟨i, sp.store⟩] } := by
  have hstore : st.loading.machine.store = sp.store := by rw [h.machine]
  obtain ⟨ds, db, hds, hdb, rfl⟩ := Statement.perform_ok_of_not_goal hi hperform
  rw [hstore] at hds
  have hpassage : Passage.deeds ⟨i, sp.store⟩ = ds := Passage.deeds_eq hds
  exact {
    machine := by
      show { st.loading.machine with database := db } = _
      rw [h.machine]
      rfl
    id := (Statement.id_note _ i st.loading.load).trans h.id
    including := (Statement.including_note _ i st.loading.load).trans h.including
    turns := by
      rw [List.map_append, h.turns]
      show sp.passages ++ [⟨i, st.loading.machine.store⟩] = _
      rw [hstore]
    dealt := fun turn hturn => by
      rcases List.mem_append.mp hturn with hturn | hturn
      · exact h.dealt turn hturn
      · obtain rfl := List.mem_singleton.mp hturn
        exact ⟨_, hperform⟩
    sense := fun p hp => by
      rcases List.mem_append.mp hp with hp | hp
      · exact h.sense p hp
      · obtain rfl := List.mem_singleton.mp hp
        exact hds.trans (congrArg Except.ok hpassage.symm)
    deeds := by
      rw [List.flatMap_append, List.flatMap_singleton, List.foldlM_append, h.deeds, hpassage, ← h.id]
      exact hdb }

/-- A plain statement that has its turn. -/
theorem accord_traceTurn (h : Along solve m including st sp) {i : Statement}
    (hplain : Passage.Plain ⟨i, sp.store⟩) :
    Accord solve m including (traceTurn solve i st)
      (.ok () { sp with passages := sp.passages ++ [⟨i, sp.store⟩] }) := by
  rcases hperform : i.perform solve st.loading with ⟨_, l⟩ | ⟨e, l⟩
  · have hturn : traceTurn solve i st = .ok () ⟨l, st.turns ++ [⟨i, st.loading⟩]⟩ :=
      silently_of_ok hperform
    rw [hturn]
    exact .value () (h.perform hplain.1 hperform)
  · have hturn : traceTurn solve i st = .error e ⟨l, st.turns ++ [⟨i, st.loading⟩]⟩ :=
      silently_of_error hperform
    rw [hturn]
    exact .halt (.intro h hperform rfl [])

/-- Another source is being loaded. -/
theorem Along.change (h : Along solve m including st sp) (f : Load → Load)
    (hid : (f st.loading.load).id = st.loading.load.id) {including' : List String}
    (hincluding : (f st.loading.load).including = including') :
    Along solve m including' { st with loading := { st.loading with load := f st.loading.load } } sp :=
  ⟨h.machine, hid.trans h.id, hincluding, h.turns, h.dealt, h.sense, h.deeds⟩

theorem Halts.change {e : Stop} {ps : List Passage} (h : Halts solve m e st ps) (f : Load → Load) :
    Halts solve m e { st with loading := { st.loading with load := f st.loading.load } } ps := by
  cases h with
  | intro h hperform hmachine rest =>
    refine .intro h hperform ?_ rest
    exact hmachine

section

variable {traceTerms : TermSource → TraceM Unit} {spliceTerms : List String → TermSource → SpliceM Unit}
  (hterms : ∀ including source, Accords solve m including (traceTerms source) (spliceTerms including source))
include hterms

theorem accords_traceNamed (including : List String) (name : String) (source : TermSource) :
    Accords solve m including (traceNamed traceTerms name source) (spliceTerms (name :: including) source) := by
  intro st sp h hplain
  have henter := h.change (fun load => { load with including := name :: load.including }) rfl
    (congrArg (name :: ·) h.including)
  have haccord := hterms (name :: including) source _ sp henter hplain
  rw [traceNamed_eq]
  generalize traceTerms source _ = r at haccord
  generalize spliceTerms (name :: including) source sp = r' at haccord
  let leave : Load → Load := fun load => { load with including := load.including.tail }
  cases haccord with
  | value _ h' => exact .value () (h'.change leave rfl (congrArg List.tail h'.including))
  | error e h' => exact .error e (h'.change leave rfl rfl)
  | halt h' => exact .halt (h'.change leave)

theorem accords_traceIncluded (including : List String) (file : Ref) :
    Accords solve m including (traceIncluded traceTerms file) (m.spliceIncluded spliceTerms including file) := by
  intro st sp h hplain
  have hstore : st.loading.machine.store = sp.store := by rw [h.machine]
  have hsources : st.loading.machine.sources = m.sources := by rw [h.machine]
  have hquotes : st.loading.machine.doubleQuotes = m.doubleQuotes := by rw [h.machine]
  rw [traceIncluded]
  rw [spliceIncluded] at hplain ⊢
  rcases hname : sp.store.expectAtom file with e | name
  · rw [bind_eq_of_error (silently_of_error (lift_examine_of_error (hstore ▸ hname)))]
    exact .error _ h
  have hexamine : silently (lift (examine (·.expectAtom file))) st = .ok name st :=
    silently_of_ok (lift_examine_of_ok (hstore ▸ hname))
  rw [bind_eq_of_ok hexamine]
  rw [hname] at hplain
  dsimp only at hplain ⊢
  -- A load does not change what the sources are.
  have hopen := openSource_eq name st.loading.machine
  rw [hsources] at hopen
  rcases hlookup : m.sources.lookup name with _ | ⟨input | message⟩
  · rw [hlookup] at hopen
    rw [bind_eq_of_error (silently_of_error (lift_of_error hopen))]
    exact .error _ h
  · rw [hlookup] at hopen hplain
    have hsource : st.loading.machine.source name input none = m.source name input none := by
      rw [Machine.source, Machine.source, hquotes]
    dsimp only at hopen
    rw [hsource] at hopen
    have hopened : silently (lift (openSource name)) st = .ok (m.source name input none) st :=
      silently_of_ok (lift_of_ok hopen)
    have hcurrent : silently current st = .ok st.loading.load st := rfl
    rw [bind_eq_of_ok hopened, bind_eq_of_ok hcurrent, h.including]
    dsimp only at hplain ⊢
    split
    · exact .error _ h
    · rename_i hcontains
      rw [if_neg hcontains] at hplain
      exact accords_traceNamed hterms including name _ st sp h hplain
  · rw [hlookup] at hopen
    rw [bind_eq_of_error (silently_of_error (lift_of_error hopen))]
    exact .error _ h

theorem accords_traceTerm (including : List String) (t : Ref) :
    Accords solve m including (traceTerm solve traceTerms t) (m.spliceTerm spliceTerms including t) := by
  intro st sp h hplain
  have hstore : st.loading.machine.store = sp.store := by rw [h.machine]
  have hpart : traceTerm solve traceTerms t st = (match Part.of sp.store t with
      | .statement i => traceTurn solve i
      | .inclusion file => traceIncluded traceTerms file : TraceM Unit) st := by
    rw [← hstore]
    rfl
  rw [hpart]
  rw [spliceTerm] at hplain ⊢
  generalize Part.of sp.store t = part at hplain ⊢
  rcases part with i | file
  · have hmem : ⟨i, sp.store⟩ ∈ sp.passages ++ [⟨i, sp.store⟩] :=
      List.mem_append_right _ (List.mem_singleton_self _)
    exact accord_traceTurn h (hplain _ hmem)
  · exact accords_traceIncluded hterms including file st sp h hplain

end

/-! ## Sources -/

theorem accords_nextTerm (source : TermSource) :
    Accords solve m including (silently (lift (nextTerm source))) (m.spliceNext source) := by
  intro st sp h _
  have hread : ∀ s, Along solve m including
      { st with loading := { st.loading with machine := { st.loading.machine with store := s } } }
      { sp with store := s } := fun s =>
    ⟨by rw [h.machine], h.id, h.including, h.turns, h.dealt, h.sense, h.deeds⟩
  have hnext : source.next? st.loading.machine.operators st.loading.machine.store =
      source.next? m.operators sp.store := by rw [h.machine]
  have hterm := nextTerm_eq source st.loading.machine
  rw [hnext] at hterm
  rw [silently, lift_apply, hterm, spliceNext]
  rcases source.next? m.operators sp.store with ⟨e | t, source', s⟩
  · exact .error _ (hread s)
  · exact .value _ (hread s)

theorem accords_poll (hcontext : m.context ∉ m.cancelled) :
    Accords solve m including (silently (lift poll)) (pure ()) := by
  intro st sp h _
  have hmachine : st.loading.machine.context ∉ st.loading.machine.cancelled := by
    rw [h.machine]
    exact hcontext
  have hpoll : silently (lift poll) st = .ok () st :=
    silently_of_ok (lift_of_ok (poll_eq_ok hmachine))
  rw [hpoll]
  exact .value () h

section

variable (hm : m.Stamped) (hexpansion : m.expansion = .byRules) (hrules : m.RuleFree)
include hm hexpansion hrules

/-- As long as the statements are plain, a term stands for itself. -/
theorem accords_expand {one : Ref → TraceM Unit} {one' : Ref → SpliceM Unit}
    (hone : ∀ t, Accords solve m including (one t) (one' t)) (hextends : ∀ t, Extends (one' t)) (t : Ref) :
    Accords solve m including (do
      let terms ← silently (lift (expand solve t))
      terms.forM one) (one' t) := by
  intro st sp h hplain
  -- What the load has done so far has added no rule.
  have hloaded := Database.loaded_of_deeds h.deeds hm.fresh
  have hrules' : st.loading.machine.RuleFree :=
    hrules.of_plain (fun p hp => hplain p ((hextends t sp).subset hp)) hloaded
  have hexpansion' : st.loading.machine.expansion = .byRules := by
    rw [h.machine]
    exact hexpansion
  have hexpand : silently (lift (expand solve t)) st = .ok [t] st :=
    silently_of_ok (lift_of_ok (expand_of_ruleFree hexpansion' hrules' t))
  rw [bind_eq_of_ok hexpand, forM_singleton]
  exact hone t st sp h hplain

theorem accords_traceEach (hcontext : m.context ∉ m.cancelled) {one : Ref → TraceM Unit}
    {one' : Ref → SpliceM Unit} (hone : ∀ t, Accords solve m including (one t) (one' t))
    (hextends : ∀ t, Extends (one' t)) (n : Nat) (source : TermSource) :
    Accords solve m including (traceEach solve one n source) (m.spliceEach one' n source) := by
  induction n generalizing source with
  | zero => exact accords_throw _
  | succ n ih =>
    have hrest : ∀ source, Extends (m.spliceEach one' n source) := extends_spliceEach hextends n
    have hterms : Accords solve m including
        (do match ← silently (lift (nextTerm source)) with
          | none => pure ()
          | some (t, source) =>
            let terms ← silently (lift (expand solve t))
            terms.forM one
            traceEach solve one n source)
        (m.spliceEach one' (n + 1) source) := by
      refine (accords_nextTerm source).bind (fun next => ?_) fun next => ?_
      · rcases next with _ | ⟨t, source⟩
        · exact accords_pure ()
        · have hread := (accords_expand hm hexpansion hrules hone hextends t).bind
            (fun _ => ih source) fun _ => hrest source
          rwa [bind_assoc] at hread
      · rcases next with _ | ⟨t, source⟩
        · exact fun sp => List.prefix_refl _
        · exact (hextends t).bind fun _ => hrest source
    exact (accords_poll hcontext).bind (fun _ => hterms) fun _ => extends_spliceEach hextends (n + 1) source

/-- **Loading goes along with reading**, however deep sources are included. -/
theorem accords_traceSource (hcontext : m.context ∉ m.cancelled) (depth : Nat)
    (including : List String) (source : TermSource) :
    Accords solve m including (traceSource solve depth source)
      (m.spliceSource depth including source) := by
  induction depth generalizing including source with
  | zero => exact accords_throw _
  | succ depth ih =>
    exact accords_traceEach hm hexpansion hrules hcontext (accords_traceTerm ih including)
      (extends_spliceTerm (extends_spliceSource depth) including) _ source

end

end Loading

namespace Loading

variable {solve : Ref → MachineM Bool} {m : Machine} {l l' : Loading} {earlier : List Turn} {t : Ref}
  {e : Stop}

/-- A clause that is refused changes nothing, if what has been done to the database was done by the
load. -/
theorem addClause_error_of_deeds (htallied : Tallied l.load.id earlier l) {db : Database}
    (hdeeds : (earlier.flatMap (·.passage.deeds)).foldlM (Deed.carryOut l.load.id) db =
      .ok l.machine.database)
    (hrefused : addClause t l = .error e l') : l'.machine = l.machine := by
  rcases addClause_error hrefused with ⟨rfl, -⟩ | ⟨c, -, -, -, -, hseen, -, rfl⟩
  · rfl
  -- The predicate is one that the deeds have touched, so that touching it again changes nothing.
  have hmem := mem_deeds_of_seen ((htallied.seen c.pi).mp hseen)
  have hfind := Database.find?_of_deeds hdeeds c.pi
  rw [Database.changed, if_pos hmem] at hfind
  have hload := Deed.load_foldl ((earlier.flatMap (·.passage.deeds)).filter (·.pi = c.pi))
    (db.found l.load.id c.pi)
  rw [Database.load_found] at hload
  rw [Database.found_of_load hfind hload, Database.insert_of_find? hfind]
  rfl

/-- A statement that stops a load has the last turn.  If it is a clause, the database is what the
statements before it make of it. -/
theorem Halts.refusal {st : Traced} {ps : List Passage} {source : TermSource}
    (hhalts : Halts solve m e st ps) (hsolve : ∀ goal, Orderly (solve goal)) (h : m.Stamped)
    (hturns : m.turns solve source = st.turns) :
    ∃ earlier turn rest, st.turns = earlier ++ [turn] ∧
      ps = earlier.map Turn.passage ++ turn.passage :: rest ∧
      (∃ l', turn.statement.perform solve turn.state = .error e l') ∧
      ∀ t, turn.statement = .clause t → st.loading.machine.store = turn.state.machine.store ∧
        st.loading.machine.database = turn.state.machine.database ∧
        m.database.Loaded ((earlier.map Turn.passage).flatMap Passage.deeds)
          st.loading.machine.database := by
  obtain @⟨st, sp, including, i, l, l', halong, hperform, hmachine, rest⟩ := hhalts
  have hpassage : Turn.passage ⟨i, st.loading⟩ = ⟨i, sp.store⟩ := by
    rw [Turn.passage, halong.machine]
  refine ⟨st.turns, ⟨i, st.loading⟩, rest, rfl, ?_, ⟨l, hperform⟩, fun t ht => ?_⟩
  · rw [halong.turns, hpassage]
  · obtain rfl : i = .clause t := ht
    have hdeeds := halong.deeds
    rw [← halong.turns, List.flatMap_map, ← halong.id] at hdeeds
    -- A clause that is refused leaves the machine alone, if no other load has begun.
    have htallied := (turn_cases hsolve hturns).1.tallied hsolve
      (tallied_beginLoad m source)
    have hsame : l.machine = st.loading.machine :=
      addClause_error_of_deeds (halong.id ▸ htallied) hdeeds hperform
    have hdatabase : l'.machine.database = st.loading.machine.database := by
      rw [hmachine, hsame]
    have hloaded := Database.loaded_of_deeds halong.deeds h.fresh
    rw [← halong.turns, ← hdatabase] at hloaded
    exact ⟨by rw [hmachine, hsame], hdatabase, hloaded⟩

end Loading

namespace Machine

variable {m : Machine}

/-- A load goes along with reading, from beginning to end. -/
theorem Stamped.accord (h : m.Stamped) (hexpansion : m.expansion = .byRules) (hrules : m.RuleFree)
    (hcontext : m.context ∉ m.cancelled) (fuel : Nat) (source : TermSource)
    (hplain : ∀ p ∈ passagesOf (m.splice source), p.Plain) :
    Accord (solve fuel) m [source.name] (m.trace (solve fuel) source) (m.splice source) := by
  have hbegin : Along (solve fuel) m [source.name] { loading := m.beginLoad source } { store := m.store } :=
    ⟨rfl, rfl, rfl, rfl, nofun, nofun, rfl⟩
  exact accords_traceSource h hexpansion hrules hcontext _ _ source _ _ hbegin hplain

/-- What the database is made of in a load: either it has gone through all statements, or it has met an
error in reading, or it was refused one of them. -/
theorem Stamped.load_spliced (h : m.Stamped) (hexpansion : m.expansion = .byRules) (hrules : m.RuleFree)
    (hcontext : m.context ∉ m.cancelled) (fuel : Nat) (source : TermSource)
    (hplain : ∀ p ∈ passagesOf (m.splice source), p.Plain) :
    (∀ m', load (solve fuel) source m = .ok () m' → ∃ sp, m.splice source = .ok () sp ∧
      m.passages (solve fuel) source = sp.passages ∧
      (∀ p ∈ sp.passages, p.statement.deeds p.store = .ok p.deeds) ∧
      m.database.Loaded (sp.passages.flatMap Passage.deeds) m'.database) ∧
    ∀ e m', load (solve fuel) source m = .error e m' →
      ((∀ turn ∈ m.turns (solve fuel) source,
          ∃ l', turn.statement.perform (solve fuel) turn.state = .ok () l') ∧
        ∃ sp, m.splice source = .error e sp ∧ m.passages (solve fuel) source = sp.passages ∧
          m.database.Loaded (sp.passages.flatMap Passage.deeds) m'.database) ∨
      ∃ earlier turn rest, m.turns (solve fuel) source = earlier ++ [turn] ∧
        passagesOf (m.splice source) = earlier.map Turn.passage ++ turn.passage :: rest ∧
        (∃ l', turn.statement.perform (solve fuel) turn.state = .error e l') ∧
        ∀ t, turn.statement = .clause t → m'.store = turn.state.machine.store ∧
          m'.database = turn.state.machine.database ∧
          m.database.Loaded ((earlier.map Turn.passage).flatMap Passage.deeds) m'.database := by
  have haccord := h.accord hexpansion hrules hcontext fuel source hplain
  have hturns : ∀ st e, m.trace (solve fuel) source = .error e st →
      m.turns (solve fuel) source = st.turns := fun st e htrace => by rw [turns, htrace]
  rw [load_eq_trace, passages, turns]
  generalize m.trace (solve fuel) source = r at haccord hturns ⊢
  generalize m.splice source = r' at haccord
  cases haccord with
  | @value _ st sp halong =>
    refine ⟨fun m' hm' => ?_, fun e m' hm' => ?_⟩
    · cases hm'
      exact ⟨sp, rfl, halong.turns, halong.sense, Database.loaded_of_deeds halong.deeds h.fresh⟩
    · cases hm'
  | @error e including' st sp halong =>
    refine ⟨fun m' hm' => ?_, fun e m' hm' => ?_⟩
    · cases hm'
    · cases hm'
      exact .inl ⟨halong.dealt, sp, rfl, halong.turns, Database.loaded_of_deeds halong.deeds h.fresh⟩
  | @halt e st r hhalts =>
    refine ⟨fun m' hm' => ?_, fun e m' hm' => ?_⟩
    · cases hm'
    · cases hm'
      exact .inr (hhalts.refusal (closed_orderly.solve fuel) h (hturns st e rfl))

/-- **What compiling a text makes of the database.**  Take any machine that expands terms by the
program's rules and has none, and a text to be compiled under a context that is not cancelled, of which
the statements, with those of included sources in their places, are declarations and clauses, and none
is a rule for expanding terms.

If the text is compiled, then it was read to its end, its statements make sense, and the database is
what a load with them makes of it, in the order in which they were read (`Database.Loaded`).

If there is an error, then either the error is met in reading, and all statements before it were dealt
with; or one of the statements is refused.  Then no statement after it had its turn, in whatever source
it is.  If it is a clause, nothing was read after it, and the database is what a load with the statements
before it makes of it. -/
theorem Stamped.compile_spliced (h : m.Stamped) (hexpansion : m.expansion = .byRules)
    (hrules : m.RuleFree) {c : Context} (hc : c ∉ m.cancelled) (fuel : Nat) (text : String)
    (args : List Term) :
    let begun : Machine := { m with context := c }
    let source := begun.source "user" (.ofText text) (if args.isEmpty then none else some args)
    (∀ p ∈ passagesOf (begun.splice source), p.Plain) →
    (∀ m', compileText fuel c text args m = .ok () m' → ∃ sp, begun.splice source = .ok () sp ∧
      begun.passages (solve fuel) source = sp.passages ∧
      (∀ p ∈ sp.passages, p.statement.deeds p.store = .ok p.deeds) ∧
      m.database.Loaded (sp.passages.flatMap Passage.deeds) m'.database) ∧
    ∀ e m', compileText fuel c text args m = .error e m' →
      ((∀ turn ∈ begun.turns (solve fuel) source,
          ∃ l', turn.statement.perform (solve fuel) turn.state = .ok () l') ∧
        ∃ sp, begun.splice source = .error e sp ∧ begun.passages (solve fuel) source = sp.passages ∧
          m.database.Loaded (sp.passages.flatMap Passage.deeds) m'.database) ∨
      ∃ earlier turn rest, begun.turns (solve fuel) source = earlier ++ [turn] ∧
        passagesOf (begun.splice source) = earlier.map Turn.passage ++ turn.passage :: rest ∧
        (∃ l', turn.statement.perform (solve fuel) turn.state = .error e l') ∧
        ∀ t, turn.statement = .clause t → m'.store = turn.state.machine.store ∧
          m'.database = turn.state.machine.database ∧
          m.database.Loaded ((earlier.map Turn.passage).flatMap Passage.deeds) m'.database := by
  intro begun source hplain
  have hbegun : begun.Stamped := h.congr rfl (Nat.le_refl _)
  obtain ⟨hok, herror⟩ := hbegun.load_spliced hexpansion hrules hc fuel source hplain
  rw [compileText, compile_eq]
  have hsource : m.source "user" (.ofText text) (if args.isEmpty then none else some args) = source :=
    rfl
  rw [hsource]
  rcases hresult : load (solve fuel) source begun with ⟨_, m₁⟩ | ⟨e, m₁⟩
  · refine ⟨fun m' hm' => ?_, fun e m' hm' => ?_⟩ <;> cases hm'
    exact hok m₁ hresult
  · refine ⟨fun m' hm' => ?_, fun e m' hm' => ?_⟩ <;> cases hm'
    exact herror e m₁ hresult

/-- A clause of an included source is refused, after clauses of a predicate that is dynamic and of one
that starts over. -/
theorem compile_spliced_included :
    let new := { build [] [] true with sources := [("f", .readable (.ofText "1. e."))] }
    let m := after (compileText 8 ⟨0⟩ ":- dynamic(d/0). d. e. e." []) new
    let begun := { m with context := ⟨0⟩ }
    let source := begun.source "user" (.ofText "d. e. :- include(f). e.") none
    m.Stamped ∧ m.expansion = .byRules ∧ m.RuleFree ∧ ⟨0⟩ ∉ m.cancelled ∧
      (∀ p ∈ passagesOf (begun.splice source), p.Plain) ∧
      ∃ e m' earlier turn, compileText 8 ⟨0⟩ "d. e. :- include(f). e." [] m = .error e m' ∧
        begun.turns (solve 8) source = earlier ++ [turn] ∧ earlier.length = 2 ∧
        (passagesOf (begun.splice source)).length = 5 ∧
        m'.database = turn.state.machine.database ∧
        m.database.Loaded ((earlier.map Turn.passage).flatMap Passage.deeds) m'.database := by
  intro new m begun source
  have hnew : new.Stamped := (stamped_build [] [] true).congr rfl (Nat.le_refl _)
  have hm : m.Stamped := (closed_recorded.compile (closed_recorded.solve 8) ⟨0⟩ _ _ []).after_stamped hnew
  have hexpansion : m.expansion = .byRules := by decide +kernel
  have hc : (⟨0⟩ : Context) ∉ m.cancelled := by decide +kernel
  have hrules : (m.database.find? ⟨"term_expansion", 2⟩).isNone = true := by decide +kernel
  have hplain : ∀ p ∈ passagesOf (begun.splice source), p.Plain := by decide +kernel
  have hlength : (passagesOf (begun.splice source)).length = 5 := by decide +kernel
  have hsplice : failure? (begun.splice source) = none := by decide +kernel
  have hthree : (begun.turns (solve 8) source).length = 3 := by decide +kernel
  have hlast : ∃ turn ∈ (begun.turns (solve 8) source).getLast?, turn.statement.clause?.isSome := by
    decide +kernel
  obtain ⟨⟨e, m'⟩, hcompile⟩ := Option.isSome_iff_exists.mp (show
    (failure? (compileText 8 ⟨0⟩ "d. e. :- include(f). e." [] m)).isSome = true by decide +kernel)
  have hcompile := failure?_eq_some.mp hcompile
  have hrules : m.RuleFree := by
    intro p hp
    rw [hp] at hrules
    cases hrules
  refine ⟨hm, hexpansion, hrules, hc, hplain, e, m', ?_⟩
  rcases (hm.compile_spliced hexpansion hrules hc 8 "d. e. :- include(f). e." [] hplain).2 e m'
      hcompile with ⟨-, sp, hend, -⟩ | ⟨earlier, turn, rest, hsplit, -, -, hclause⟩
  · have hend : begun.splice source = .error e sp := hend
    rw [hend] at hsplice
    cases hsplice
  · have hsplit : begun.turns (solve 8) source = earlier ++ [turn] := hsplit
    rw [hsplit, List.length_append] at hthree
    rw [hsplit, List.getLast?_concat] at hlast
    obtain ⟨_, hturn, hstatement⟩ := hlast
    cases Option.some.inj hturn
    obtain ⟨t, ht⟩ := Option.isSome_iff_exists.mp hstatement
    obtain ⟨-, hdatabase, hloaded⟩ := hclause t (Statement.clause?_eq_some.mp ht)
    exact ⟨earlier, turn, hcompile, hsplit, Nat.succ.inj hthree, hlength, hdatabase, hloaded⟩

end Machine

end Clausal
