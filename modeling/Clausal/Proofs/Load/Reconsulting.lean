import Clausal.Proofs.Inclusion.Programs
import Clausal.Proofs.Load.Acceptance
import Clausal.Proofs.Load.Resplicing
import Clausal.Proofs.Machine.Distinct

/-! # Consulting a file again

A file of clauses that is consulted again leaves the program that it left the first time
(`Machine.Reached.reconsult`): a load keeps nothing of the predicates that it touches, unless their
clauses accumulate, so what the first load has left of them is of no account to the second one.  The
second load reads the same statements, in terms of other cells; it accepts them because the first load
did, and what it makes of the database is the same.

The file must not say how terms are to be expanded.  If it does, it is read the second time as its own
rules have it (`Machine.consult_expanding_file`).
-/

namespace Clausal

/-! ## Definitions that are the same -/

/-- Definitions of two machines are the same up to the numbers of variables, whatever loads touched
them last. -/
inductive Procedure.Alike (f : Nat → Nat) (s s' : Store) : Procedure → Procedure → Prop
  /-- What is built in. -/
  | builtin (b : Builtin) : Alike f s s' (.builtin b) (.builtin b)
  /-- What is defined by clauses. -/
  | defined {p p' : Predicate} (flags : p'.flags = p.flags)
    (clauses : List.Forall₂ (Clause.Same f s s') p.clauses p'.clauses) :
    Alike f s s' (.defined p) (.defined p')

/-- The machines have the same predicates in the same order, with the same flags, and with the same
clauses up to the numbers of variables. -/
def Machine.DefinesAlike (f : Nat → Nat) (m m' : Machine) : Prop :=
  List.Forall₂ (fun e e' => e'.1 = e.1 ∧ Procedure.Alike f m.store m'.store e.2 e'.2)
    m.database.entries m'.database.entries

theorem Procedure.Alike.of_unstamped {f : Nat → Nat} {s s' : Store} {proc proc₁ proc' : Procedure}
    (h : Procedure.Same f s s' proc proc₁) (hunstamped : proc'.unstamped = proc₁.unstamped) :
    Procedure.Alike f s s' proc proc' := by
  cases h with
  | builtin b =>
    cases proc' with
    | builtin b' =>
      cases hunstamped
      exact .builtin b
    | defined p' => cases hunstamped
  | @defined p p₁ flags load clauses =>
    cases proc' with
    | builtin b' => cases hunstamped
    | defined p' =>
      obtain ⟨hflags, hclauses, -⟩ := Predicate.mk.inj (Procedure.defined.inj hunstamped)
      exact .defined (hflags.trans flags) (hclauses ▸ clauses)

theorem Term.WellMade.renumber_id {x : Term} (h : x.WellMade) : x.renumber id = x := by
  induction h with
  | literal | var => rfl
  | compound _ _ ih =>
    rw [Term.renumber, Term.renumberAll_eq, List.map_congr_left ih, List.map_id']

/-! ## Statements that can be repeated -/

/-- A statement of which nothing stays when the file is loaded again: it is a clause that does not say
how to expand terms, or declares that clauses need not stand together. -/
def Passage.Renewable (p : Passage) : Prop :=
  match p.statement with
  | .clause _ => p.pi? ≠ some ⟨"term_expansion", 2⟩
  | .declare property _ => property = .discontiguous
  | .initialization _ | .goal _ => False

instance : (p : Passage) → Decidable p.Renewable
  | ⟨.clause _, _⟩ => inferInstanceAs (Decidable (_ ≠ _))
  | ⟨.declare _ _, _⟩ => inferInstanceAs (Decidable (_ = _))
  | ⟨.initialization _, _⟩ | ⟨.goal _, _⟩ => inferInstanceAs (Decidable False)

namespace Passage

variable {p p' : Passage} {gap : Gap}

theorem Renewable.plain (h : p.Renewable) : p.Plain := by
  obtain ⟨i, s⟩ := p
  cases i with
  | clause t => exact ⟨id, h⟩
  | declare property predicates =>
    refine ⟨id, ?_⟩
    intro hpi
    cases hpi
  | initialization | goal => exact h.elim

/-- No property is declared but the one. -/
theorem Renewable.discontiguous (h : p.Renewable) {d : Deed} (hd : d ∈ p.deeds) {property : Property}
    (hproperty : d.property? = some property) : property = .discontiguous := by
  obtain ⟨i, s⟩ := p
  cases d with
  | clause c => cases hproperty
  | declare property' pi =>
    cases hproperty
    cases i with
    | clause t =>
      rcases hc : Clause.compile s t with e | c <;>
        simp [deeds, Statement.deeds, hc, Except.map] at hd
    | declare property' predicates =>
      rcases hpis : Indicator.declared s predicates with e | pis
      · simp [deeds, Statement.deeds, hpis, Except.map] at hd
      · simp only [deeds, Statement.deeds, hpis, Except.map, List.mem_map] at hd
        obtain ⟨q, -, heq⟩ := hd
        cases heq
        exact h
    | initialization | goal => exact h.elim

theorem Renewable.shift (h : p.Renewable) (hshifts : p.Shifts gap p') : p'.Renewable := by
  have hpi := hshifts.pi?
  rw [Renewable, hshifts.statement, hpi]
  rw [Renewable] at h
  cases hp : p.statement with
  | clause t => rwa [hp] at h
  | declare property predicates => rwa [hp] at h
  | initialization | goal =>
    rw [hp] at h
    exact h.elim

theorem plain_of_shifts {ps ps' : List Passage} (h : List.Forall₂ (Shifts gap) ps ps')
    (hps : ∀ p ∈ ps, p.Renewable) : ∀ p' ∈ ps', p'.Plain := by
  induction h with
  | nil => exact fun p' hp' => absurd hp' List.not_mem_nil
  | cons hp _ ih =>
    rw [List.forall_mem_cons] at hps ⊢
    exact ⟨(hps.1.shift hp).plain, ih hps.2⟩

end Passage

/-- Only properties that do not make clauses accumulate are declared. -/
theorem Flags.accumulates_foldl {properties : List Property}
    (h : ∀ property ∈ properties, property = .discontiguous) (flags : Flags) :
    (properties.foldl Flags.set flags).accumulates = flags.accumulates := by
  induction properties generalizing flags with
  | nil => rfl
  | cons property properties ih =>
    rw [List.forall_mem_cons] at h
    obtain ⟨rfl, hrest⟩ := h
    exact ih hrest (flags.set .discontiguous)

namespace Database

variable {db db' db₁ db₁' : Database} {ds : List Deed} {pi : Indicator} {load : Nat}

/-! ## What is kept -/

/-- Nothing is kept of a predicate whose clauses do not accumulate. -/
theorem kept_of_not_accumulates
    (h : ∀ p, db.find? pi = some (.defined p) → p.flags.accumulates = false) : db.kept pi = {} := by
  rw [kept]
  rcases hfind : db.find? pi with _ | ⟨b | p⟩
  · rfl
  · rfl
  · dsimp only
    rw [h p hfind]
    rfl

theorem not_accumulates_of_kept (h : (db.kept pi).flags.accumulates = false) :
    ∀ p, db.find? pi = some (.defined p) → p.flags.accumulates = false := by
  intro p hp
  rw [kept, hp] at h
  dsimp only at h
  split at h
  · exact h
  · rename_i hne
    exact eq_false_of_ne_true hne

/-- Two loads with the same deeds that keep the same of a predicate make the same of it. -/
theorem Loaded.unstamped_eq (h : db.Loaded ds db₁) (h' : db'.Loaded ds db₁')
    (hpi : pi ∈ ds.map Deed.pi) (hkept : db'.kept pi = db.kept pi) :
    (db₁'.find? pi).map Procedure.unstamped = (db₁.find? pi).map Procedure.unstamped := by
  obtain ⟨p, hp, hclauses, hflags⟩ := h.touched pi hpi
  obtain ⟨p', hp', hclauses', hflags'⟩ := h'.touched pi hpi
  rw [hkept, ← hclauses] at hclauses'
  rw [hkept, ← hflags] at hflags'
  rw [hp, hp', Option.map_some, Option.map_some, Procedure.unstamped, Procedure.unstamped, hclauses',
    hflags']

/-- A load that keeps nothing of a predicate, and declares nothing else, leaves nothing to be kept. -/
theorem Loaded.kept_eq (h : db.Loaded ds db₁) (hpi : pi ∈ ds.map Deed.pi) (hkept : db.kept pi = {})
    (hds : ∀ d ∈ ds, ∀ property, d.property? = some property → property = .discontiguous) :
    db₁.kept pi = {} := by
  obtain ⟨p, hp, -, hflags⟩ := h.touched pi hpi
  refine kept_of_not_accumulates ?_
  intro p' hp'
  obtain rfl : p = p' := Procedure.defined.inj (Option.some.inj (hp.symm.trans hp'))
  rw [hflags, hkept, Flags.accumulates_foldl]
  · rfl
  · intro property hproperty
    obtain ⟨d, hd, hprop⟩ := List.mem_filterMap.mp hproperty
    exact hds d (List.mem_filter.mp hd).1 property hprop

/-- **The same deeds again**, done to what they have made of a database, make the same, if nothing is
kept in between. -/
theorem Loaded.again {gap : Gap} {db₂ : Database} (h : db.Loaded ds db₁)
    (h' : db.Loaded (ds.map gap.deed) (gap.database db₁)) (h₂ : db₁.Loaded (ds.map gap.deed) db₂)
    (hkept : ∀ pi ∈ ds.map Deed.pi, db₁.kept pi = db.kept pi) (pi : Indicator) :
    (db₂.find? pi).map Procedure.unstamped =
      ((gap.database db₁).find? pi).map Procedure.unstamped := by
  have hmap := gap.map_pi_deed ds
  by_cases hpi : pi ∈ ds.map Deed.pi
  · exact h'.unstamped_eq h₂ (hmap ▸ hpi) (hkept pi hpi)
  · rw [h₂.other pi (hmap ▸ hpi), h.other pi hpi, h'.other pi (hmap ▸ hpi)]

/-- Deeds to predicates that are there leave the indicators in their order. -/
theorem indicators_of_deeds (h : ds.foldlM (Deed.carryOut load) db = .ok db')
    (hds : ∀ d ∈ ds, d.pi ∈ db.indicators) : db'.indicators = db.indicators := by
  induction ds generalizing db with
  | nil =>
    cases h
    rfl
  | cons d ds ih =>
    rw [List.forall_mem_cons] at hds
    rw [List.foldlM_cons] at h
    rcases hd : Deed.carryOut load db d with e | db₁
    · rw [hd] at h
      cases h
    · rw [hd] at h
      obtain ⟨-, rfl⟩ := update_eq_ok hd
      have hone : ((db.insert d.pi (.defined (db.found load d.pi))).insert d.pi
          (.defined (d.apply (db.found load d.pi)))).indicators = db.indicators := by
        rw [insert_insert, indicators_insert_of_mem hds.1]
      rw [ih h (fun d' hd' => hone ▸ hds.2 d' hd'), hone]

end Database

/-- Statements that are accepted once are accepted again, if as much is kept of their predicates. -/
theorem Accepts.congr {db db' : Database} {ps : List Passage} (h : Accepts db ps)
    (hdb : ∀ p ∈ ps, ∀ d ∈ p.deeds, (∀ b, db'.find? d.pi ≠ some (.builtin b)) ∧
      db'.kept d.pi = db.kept d.pi) : Accepts db' ps where
  sense := h.sense
  program p hp d hd := (hdb p hp d hd).1
  together earlier p later pi hsplit hapart := by
    have hp : p ∈ ps := by
      rw [hsplit]
      exact List.mem_append_right _ List.mem_cons_self
    obtain ⟨d, hd, rfl⟩ := List.mem_map.mp (Passage.mem_deeds_of_pi? hapart.clause)
    refine h.together earlier p later d.pi hsplit { hapart with program := h.program p hp d hd, kept := ?_ }
    rw [← (hdb p hp d hd).2]
    exact hapart.kept

section

variable {gap : Gap} {db db₁ : Database} {ps ps' : List Passage}

/-- A load of statements that can be repeated keeps nothing of their predicates, and leaves nothing to
be kept. -/
theorem Database.Loaded.kept_renewable (h : db.Loaded (ps.flatMap Passage.deeds) db₁)
    (hps : ∀ p ∈ ps, p.Renewable)
    (hflags : ∀ p ∈ ps, ∀ d ∈ p.deeds, ∀ q, db.find? d.pi = some (.defined q) →
      q.flags.accumulates = false) :
    ∀ pi ∈ (ps.flatMap Passage.deeds).map Deed.pi, db₁.kept pi = db.kept pi := by
  intro pi hpi
  have hfirst : db.kept pi = {} := by
    obtain ⟨d, hd, rfl⟩ := List.mem_map.mp hpi
    obtain ⟨p, hp, hd⟩ := List.mem_flatMap.mp hd
    exact kept_of_not_accumulates (hflags p hp d hd)
  rw [hfirst]
  refine h.kept_eq hpi hfirst ?_
  intro d hd property
  obtain ⟨p, hp, hd⟩ := List.mem_flatMap.mp hd
  exact (hps p hp).discontiguous hd

theorem Passage.pi_mem_of_shifts (h : List.Forall₂ (Shifts gap) ps ps') {p : Passage} (hp : p ∈ ps')
    {d : Deed} (hd : d ∈ p.deeds) : d.pi ∈ (ps.flatMap Passage.deeds).map Deed.pi := by
  rw [← gap.map_pi_deed, ← deeds_of_shifts h]
  exact List.mem_map_of_mem (List.mem_flatMap.mpr ⟨p, hp, hd⟩)

/-- Statements that a load accepts are accepted again, by what a load of them has left. -/
theorem Accepts.again (haccepts : Accepts db ps') (hshifts : List.Forall₂ (Passage.Shifts gap) ps ps')
    (h : db.Loaded (ps.flatMap Passage.deeds) db₁)
    (hkept : ∀ pi ∈ (ps.flatMap Passage.deeds).map Deed.pi, db₁.kept pi = db.kept pi) :
    Accepts db₁ ps' := by
  refine haccepts.congr ?_
  intro p hp d hd
  have hmem := Passage.pi_mem_of_shifts hshifts hp hd
  constructor
  · intro b hb
    obtain ⟨q, hq, -⟩ := h.touched _ hmem
    cases hq.symm.trans hb
  · exact hkept _ hmem

/-- The deeds of the second load leave the indicators in their order. -/
theorem Database.Loaded.indicators_again {db₂ : Database} {load : Nat}
    (h : db.Loaded (ps.flatMap Passage.deeds) db₁) (hshifts : List.Forall₂ (Passage.Shifts gap) ps ps')
    (hdeeds : (ps'.flatMap Passage.deeds).foldlM (Deed.carryOut load) db₁ = .ok db₂) :
    db₂.indicators = db₁.indicators := by
  refine indicators_of_deeds hdeeds ?_
  intro d hd
  obtain ⟨p, hp, hd⟩ := List.mem_flatMap.mp hd
  obtain ⟨q, hq, -⟩ := h.touched _ (Passage.pi_mem_of_shifts hshifts hp hd)
  exact find?_isSome_iff.mp (Option.isSome_iff_exists.mpr ⟨_, hq⟩)

end

/-! ## Loading again -/

namespace Machine

open Loading

variable {m m₁ : Machine} {gap : Gap} {base : Machine}

/-- Machines with the same indicators in the same order that define them alike. -/
theorem DefinesAlike.of_find? {f : Nat → Nat} {m' : Machine} (hdistinct : m.database.Distinct)
    (hindicators : m'.database.indicators = m.database.indicators)
    (halike : ∀ pi proc proc', m.database.find? pi = some proc → m'.database.find? pi = some proc' →
      Procedure.Alike f m.store m'.store proc proc') : m.DefinesAlike f m' :=
  hdistinct.forall₂ hindicators halike

section

variable (hm : m.Sound) (hstamped : m.Stamped) (hexpansion : m.expansion = .byRules)
  (hrules : m.RuleFree) (hcontext : m.context ∉ m.cancelled) (fuel : Nat) {source : TermSource}
  (hsource : source.Begins [] m.doubleQuotes source)
  (hrenewable : ∀ p ∈ passagesOf (m.splice source), p.Renewable)
  (hload : load (solve fuel) source m = .ok () m₁)
include hm hstamped hexpansion hrules hcontext hsource hrenewable hload

/-- A load of statements that can be repeated adds cells to the store, and binds none. -/
theorem Sound.adds_load : m.store.Adds m₁.store := by
  have hplain : ∀ p ∈ passagesOf (m.splice source), p.Plain := fun p hp => (hrenewable p hp).plain
  obtain ⟨sp, hsplice, -, hm₁, -⟩ := hstamped.load_ok hexpansion hrules hcontext fuel hplain hload
  have hagain := matches_splice hm.wellFormed ⟨rfl, rfl, rfl, rfl⟩ (Store.Wider.refl m.store) hsource
  obtain ⟨-, sp', -, -, hsp⟩ := hagain.of_ok hsplice
  rw [hm₁]
  exact hsp.adds

/-- **Loading a source again** leaves what loading it once leaves. -/
theorem Sound.reload (hdistinct : m.database.Distinct)
    (hflags : ∀ p ∈ passagesOf (m.splice source), ∀ d ∈ p.deeds, ∀ q,
      m.database.find? d.pi = some (.defined q) → q.flags.accumulates = false)
    {s : Store} (hs : m₁.store.Adds s) :
    ∃ m₂ f, load (solve fuel) source { m₁ with store := s } = .ok () m₂ ∧ Function.Injective f ∧
      m₁.DefinesAlike f m₂ := by
  have hadds := hm.adds_load hstamped hexpansion hrules hcontext fuel hsource hrenewable hload
  have hplain : ∀ p ∈ passagesOf (m.splice source), p.Plain := fun p hp => (hrenewable p hp).plain
  obtain ⟨sp, hsplice, haccepts, hm₁, hdeeds⟩ :=
    hstamped.load_ok hexpansion hrules hcontext fuel hplain hload
  rw [hsplice] at hrenewable hflags hplain
  have hloaded := Database.loaded_of_deeds hdeeds hstamped.fresh
  -- The first load, done from the store that the second one begins with, comes to the same.
  have hwider := hm.wider (hadds.trans hs)
  have hresults := results_load (proper_solve fuel) (Machine.solvesWide_solve fuel) hwider hm rfl hsource
  obtain ⟨_, m₁', hload', -, hwider₁⟩ := hresults.of_ok hload
  have hsettings : m.SameSettings { m with store := s } := ⟨rfl, rfl, rfl, rfl⟩
  have hagain := matches_splice hm.wellFormed hsettings hwider.store hsource
  obtain ⟨_, sp', hsplice', -, hsp⟩ := hagain.of_ok hsplice
  have hplain' : ∀ p ∈ passagesOf (({ m with store := s } : Machine).splice source), p.Plain := by
    rw [hsplice']
    exact Passage.plain_of_shifts hsp.passages hrenewable
  have hstamped' : ({ m with store := s } : Machine).Stamped := hstamped
  obtain ⟨sp'', hsplice'', haccepts', hm₁', hdeeds'⟩ :=
    hstamped'.load_ok hexpansion hrules hcontext fuel hplain' hload'
  obtain rfl : sp' = sp'' := by
    cases hsplice'.symm.trans hsplice''
    rfl
  have hloaded' := Database.loaded_of_deeds hdeeds' hstamped.fresh
  rw [Passage.deeds_of_shifts hsp.passages, hwider₁.database] at hloaded'
  -- The second load finds nothing kept of the predicates that the first one has touched.
  have hkept := hloaded.kept_renewable hrenewable hflags
  have haccepts₁ := haccepts'.again hsp.passages hloaded hkept
  have hsettings : ({ m with store := s } : Machine).SameSettings { m₁ with store := s } := by
    rw [hm₁]
    exact ⟨rfl, rfl, rfl, rfl⟩
  have hsplice₁ := (splice_congr hsettings rfl source).trans hsplice'
  have hfollows : Follows [] m m₁ := (recorded_load (recorded_solve fuel) source m).of_ok hload
  have hstamped₁ : ({ m₁ with store := s } : Machine).Stamped := hstamped.follow_nil hfollows
  have hrules₁ : ({ m₁ with store := s } : Machine).RuleFree := hrules.of_plain hplain hloaded
  have hplain₁ : ∀ p ∈ passagesOf (({ m₁ with store := s } : Machine).splice source), p.Plain := by
    rw [hsplice₁, ← hsplice']
    exact hplain'
  have hcontext₁ : ({ m₁ with store := s } : Machine).context ∉
      ({ m₁ with store := s } : Machine).cancelled := by
    rw [hm₁]
    exact hcontext
  have hexpansion₁ := hsettings.expansion.trans hexpansion
  obtain ⟨m₂, hload₂⟩ := (hstamped₁.load_ok_iff hexpansion₁ hrules₁ hcontext₁ fuel hplain₁).mpr
    ⟨sp', hsplice₁, haccepts₁⟩
  obtain ⟨sp₂, hsplice₂, -, hm₂, hdeeds₂⟩ :=
    hstamped₁.load_ok hexpansion₁ hrules₁ hcontext₁ fuel hplain₁ hload₂
  obtain rfl : sp' = sp₂ := by
    cases hsplice₁.symm.trans hsplice₂
    rfl
  have hloaded₂ := Database.loaded_of_deeds hdeeds₂ hstamped₁.fresh
  rw [Passage.deeds_of_shifts hsp.passages] at hloaded₂
  refine ⟨m₂, (m.store.gapOf s).place, hload₂, Gap.place_injective _, ?_⟩
  refine .of_find? (hfollows.distinct hdistinct) (hloaded.indicators_again hsp.passages hdeeds₂) ?_
  intro pi proc proc₂ hproc hproc₂
  have hstore : m₂.store = m₁'.store := by rw [hm₂, hm₁']
  have hunstamped := hloaded.again hloaded' hloaded₂ hkept pi
  rw [hproc₂, Database.find?_wide, hproc] at hunstamped
  rw [hstore]
  exact .of_unstamped (hwider₁.sameProcedure hadds.wellFormed.acyclic proc)
    (Option.some.inj hunstamped)

end

/-! ## Consulting again -/

/-- The machine that is about to load the files that a term names. -/
def consulting (m : Machine) (c : Context) (files : Term) : Machine :=
  { m with store := (m.store.build files).2, context := c }

/-- Consulting a file is loading it, under the context. -/
theorem consultFiles_eq_ok {fuel : Nat} {c : Context} {files : Term} {file : String}
    (hnames : fileNames (m.store.build files).2 (m.store.build files).1 = .ok [file]) :
    consultFiles fuel c files m = .ok () m₁ ↔
      ∃ m', loadFile (solve fuel) file (m.consulting c files) = .ok () m' ∧
        m₁ = { m' with context := m.context } := by
  have hexamine : examine (fileNames · (m.store.build files).1)
      { m with store := (m.store.build files).2 } =
        .ok [file] { m with store := (m.store.build files).2 } := by
    have hvalue : examine (fileNames · (m.store.build files).1)
        { m with store := (m.store.build files).2 } =
          ofExcept (fileNames (m.store.build files).2 (m.store.build files).1)
            { m with store := (m.store.build files).2 } := rfl
    rw [hvalue, hnames]
    rfl
  have hconsult : consultFiles fuel c files m = (examine (fileNames · (m.store.build files).1) >>=
      fun names => under c (names.forM (loadFile (solve fuel))))
        { m with store := (m.store.build files).2 } := rfl
  rw [hconsult, bind_eq_of_ok hexamine, forM_singleton, under_eq, consulting]
  rcases loadFile (solve fuel) file { m with store := (m.store.build files).2, context := c } with
    ⟨_, m'⟩ | ⟨e, m'⟩
  · constructor
    · intro h
      exact ⟨m', rfl, (EStateM.Result.ok.inj h).2.symm⟩
    · rintro ⟨m'', h, rfl⟩
      cases h
      rfl
  · constructor
    · intro h
      cases h
    · rintro ⟨m'', h, -⟩
      cases h

theorem loadFile_eq_ok {fuel : Nat} {file : String} {input : Input}
    (hinput : m.sources.lookup file = some (.readable input)) :
    loadFile (solve fuel) file m = .ok () m₁ ↔
      m.context ∉ m.cancelled ∧ load (solve fuel) (m.source file input none) m = .ok () m₁ := by
  by_cases hcontext : m.context ∈ m.cancelled
  · have hpoll : poll m = .error (.error .cancelled) m := by
      show (if m.cancelled.contains m.context then fail .cancelled else pure () : MachineM Unit) m = _
      rw [if_pos (by simpa using hcontext)]
      rfl
    rw [loadFile, bind_eq_of_error hpoll]
    constructor
    · intro h
      cases h
    · intro h
      exact absurd hcontext h.1
  · have hopen : openSource file m = .ok (m.source file input none) m := by
      rw [openSource_eq, hinput]
    rw [loadFile, bind_eq_of_ok (poll_eq_ok hcontext), bind_eq_of_ok hopen]
    exact ⟨fun h => ⟨hcontext, h⟩, fun h => h.2⟩

theorem Reached.withSources (h : m.Reached) (sources : List (String × SourceText)) :
    ({ m with sources } : Machine).Reached := h.adjust rfl rfl rfl

/-- The term names the same files wherever it is built. -/
theorem Sound.fileNames_build {files : Term} (hm : m.Sound) (hfiles : files.WellMade)
    {s : Store} (hs : m.store.Adds s) {names : List String}
    (hnames : fileNames (m.store.build files).2 (m.store.build files).1 = .ok names) :
    fileNames (s.build files).2 (s.build files).1 = .ok names := by
  have hwider := (hm.wider hs).store.build Function.injective_id files
  have hacyclic := ((Store.Adds.refl hm.wellFormed).build hfiles).adds.wellFormed.acyclic
  rw [hfiles.renumber_id] at hwider
  rw [hwider.value, fileNames_wide hwider.store hacyclic, hnames]
  rfl

/-- **Consulting a file again** leaves what consulting it once leaves.  Take any machine that is
reached, of which the program does not say how to expand terms, and a file of clauses and declarations
that clauses need not stand together, with what it includes, that does not say so either; none of its
predicates is one of which clauses accumulate.  If the file can be consulted once, it can be consulted
again, and there are the same predicates in the same order, with the same flags, and with the same
clauses up to the numbers of variables. -/
theorem Reached.reconsult (h : m.Reached) (hexpansion : m.expansion = .byRules) (hrules : m.RuleFree)
    (fuel : Nat) (c : Context) {files : Term} (hfiles : files.WellMade) {file : String} {input : Input}
    (hnames : fileNames (m.store.build files).2 (m.store.build files).1 = .ok [file])
    (hinput : m.sources.lookup file = some (.readable input))
    (hrenewable : ∀ p ∈ passagesOf ((m.consulting c files).splice (m.source file input none)),
      p.Renewable)
    (hflags : ∀ p ∈ passagesOf ((m.consulting c files).splice (m.source file input none)),
      ∀ d ∈ p.deeds, ∀ q, m.database.find? d.pi = some (.defined q) → q.flags.accumulates = false)
    (hconsult : consultFiles fuel c files m = .ok () m₁) :
    ∃ m₂ f, consultFiles fuel c files m₁ = .ok () m₂ ∧ Function.Injective f ∧
      m₁.DefinesAlike f m₂ := by
  have hbuild := (Store.Adds.refl h.sound.wellFormed).build hfiles
  have hbegun : (m.consulting c files).Reached := (h.allocate hbuild.adds).adjust rfl rfl rfl
  obtain ⟨m', hload, rfl⟩ := (consultFiles_eq_ok hnames).mp hconsult
  obtain ⟨hcontext, hload⟩ := (loadFile_eq_ok (m := m.consulting c files) hinput).mp hload
  have hsource := begins_source (m.consulting c files) file input
  have hadds := hbegun.sound.adds_load hbegun.stamped hexpansion hrules hcontext fuel hsource hrenewable
    hload
  obtain ⟨sp, -, -, hm', -⟩ := hbegun.stamped.load_ok hexpansion hrules hcontext fuel
    (fun p hp => (hrenewable p hp).plain) hload
  -- The second time the name of the file is built in a store with more cells.
  have hnames' := h.sound.fileNames_build hfiles (hbuild.adds.trans hadds) hnames
  have hbuild' := (Store.Adds.refl hadds.wellFormed).build hfiles
  obtain ⟨m₂, f, hload₂, hf, halike⟩ := hbegun.sound.reload hbegun.stamped hexpansion hrules hcontext fuel
    hsource hrenewable hload hbegun.distinct hflags hbuild'.adds
  have hbegun' : ({ m' with context := m.context } : Machine).consulting c files =
      { m' with store := (m'.store.build files).2 } := by
    rw [hm']
    rfl
  have hloadFile : loadFile (solve fuel) file
      (({ m' with context := m.context } : Machine).consulting c files) = .ok () m₂ := by
    rw [hbegun']
    rw [hm'] at hload₂ ⊢
    refine (loadFile_eq_ok ?_).mpr ⟨hcontext, hload₂⟩
    exact hinput
  have hconsult' : consultFiles fuel c files { m' with context := m.context } =
      .ok () { m₂ with context := m.context } := by
    refine (consultFiles_eq_ok ?_).mpr ⟨m₂, hloadFile, rfl⟩
    exact hnames'
  exact ⟨_, f, hconsult', hf, halike⟩

/-- A file with an inclusion, in which the clauses of a predicate do not stand together, takes the
place of the program that was there, twice. -/
theorem reconsult_including_file :
    let m : Machine := { after (compileText 8 ⟨0⟩ "a(0). c. b. b." []) (build [] [] true) with
      sources := [("f", .readable (.ofText ":- discontiguous(a/1). a(X). :- include(g). a(2).")),
        ("g", .readable (.ofText "b. a(Y)."))] }
    m.Reached ∧ m.expansion = .byRules ∧ m.RuleFree ∧
      (passagesOf ((m.consulting ⟨0⟩ (.atom "f")).splice (m.source "f"
        (.ofText ":- discontiguous(a/1). a(X). :- include(g). a(2).") none))).length = 5 ∧
      ∃ m₁ m₂ f, consultFiles 8 ⟨0⟩ (.atom "f") m = .ok () m₁ ∧
        consultFiles 8 ⟨0⟩ (.atom "f") m₁ = .ok () m₂ ∧ Function.Injective f ∧ m₁.DefinesAlike f m₂ := by
  intro m
  have hnil : ∀ x ∈ ([] : List Term), x.WellMade := fun x hx => absurd hx List.not_mem_nil
  have hm : m.Reached :=
    ((Reached.build [] [] true).compile 8 ⟨0⟩ "a(0). c. b. b." hnil).withSources _
  have hexpansion : m.expansion = .byRules := by decide +kernel
  have hrules : m.RuleFree := by
    have hnone : (m.database.find? ⟨"term_expansion", 2⟩).isNone = true := by decide +kernel
    intro p hp
    rw [hp] at hnone
    cases hnone
  have hfiles : (Term.atom "f").WellMade := .literal trivial
  obtain ⟨names, hnames, rfl⟩ : ∃ names, fileNames (m.store.build (.atom "f")).2
      (m.store.build (.atom "f")).1 = .ok names ∧ names = ["f"] :=
    exists_ok_of_any (by decide +kernel)
  have hinput : m.sources.lookup "f" = some (.readable
      (.ofText ":- discontiguous(a/1). a(X). :- include(g). a(2).")) := rfl
  have hlength : (passagesOf ((m.consulting ⟨0⟩ (.atom "f")).splice (m.source "f"
      (.ofText ":- discontiguous(a/1). a(X). :- include(g). a(2).") none))).length = 5 := by
    decide +kernel
  have hrenewable : ∀ p ∈ passagesOf ((m.consulting ⟨0⟩ (.atom "f")).splice (m.source "f"
      (.ofText ":- discontiguous(a/1). a(X). :- include(g). a(2).") none)), p.Renewable := by
    decide +kernel
  have hkept : ∀ p ∈ passagesOf ((m.consulting ⟨0⟩ (.atom "f")).splice (m.source "f"
      (.ofText ":- discontiguous(a/1). a(X). :- include(g). a(2).") none)),
      ∀ d ∈ p.deeds, (m.database.kept d.pi).flags.accumulates = false := by
    decide +kernel
  have hconsult : consultFiles 8 ⟨0⟩ (.atom "f") m = .ok () _ := ok_after (by decide +kernel)
  obtain ⟨m₂, f, hconsult₂, hf, halike⟩ := hm.reconsult hexpansion hrules 8 ⟨0⟩ hfiles hnames
    hinput hrenewable (fun p hp d hd => Database.not_accumulates_of_kept (hkept p hp d hd)) hconsult
  exact ⟨hm, hexpansion, hrules, hlength, _, m₂, f, hconsult, hconsult₂, hf, halike⟩

/-- A file that says how terms are to be expanded is read the second time as it says. -/
theorem consult_expanding_file :
    let m : Machine := { build [] [] true with
      sources := [("f", .readable (.ofText "a. term_expansion(a, b)."))] }
    m.Reached ∧ m.expansion = .byRules ∧ m.RuleFree ∧
      ∃ m₁ m₂, consultFiles 8 ⟨0⟩ (.atom "f") m = .ok () m₁ ∧
        consultFiles 8 ⟨0⟩ (.atom "f") m₁ = .ok () m₂ ∧ ∀ f, ¬ m₁.DefinesAlike f m₂ := by
  intro m
  have hm : m.Reached := (Reached.build [] [] true).adjust rfl rfl rfl
  have hrules : m.RuleFree := fun p hp => absurd hp (find?_build_ne [] [] true _ p)
  have hconsult : consultFiles 8 ⟨0⟩ (.atom "f") m = .ok () _ := ok_after (by decide +kernel)
  have hconsult₂ : consultFiles 8 ⟨0⟩ (.atom "f") (after (consultFiles 8 ⟨0⟩ (.atom "f")) m) =
    .ok () _ := ok_after (by decide +kernel)
  refine ⟨hm, rfl, hrules, _, _, hconsult, hconsult₂, ?_⟩
  -- The second time there is one more predicate.
  intro f halike
  have hlength : (after (consultFiles 8 ⟨0⟩ (.atom "f")) m).database.entries.length ≠
      (after (consultFiles 8 ⟨0⟩ (.atom "f"))
        (after (consultFiles 8 ⟨0⟩ (.atom "f")) m)).database.entries.length := by decide +kernel
  exact hlength halike.length_eq

end Machine

end Clausal
