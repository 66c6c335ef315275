import Clausal.Proofs.Load.Splice
import Clausal.Proofs.Inclusion.Joining
import Clausal.Proofs.Machine.WiderLoads

/-! # Reading sources again

A source that is read again, into a store that has more cells, gives the same statements in terms of
other cells (`Machine.matches_spliceSource`).  They say the same: what is to be done to the database is
the same, but for the places of terms (`Passage.Shifts.deeds`).
-/

namespace Clausal

open Loading Machine Store

namespace Gap

variable (gap : Gap)

/-- The statement with the place in it shifted. -/
def statement : Statement → Statement
  | .clause t => .clause (gap.ref t)
  | .declare property predicates => .declare property (gap.ref predicates)
  | .initialization goal => .initialization (gap.ref goal)
  | .goal goal => .goal (gap.ref goal)

/-- The term of a source with the place in it shifted. -/
def part : Part → Part
  | .statement i => .statement (gap.statement i)
  | .inclusion file => .inclusion (gap.ref file)

/-- The deed with the places in its clause shifted. -/
def deed : Deed → Deed
  | .clause c => .clause (gap.clause c)
  | .declare property pi => .declare property pi

@[simp] theorem pi_deed (d : Deed) : (gap.deed d).pi = d.pi := by
  cases d <;> rfl

theorem map_pi_deed (ds : List Deed) : (ds.map gap.deed).map Deed.pi = ds.map Deed.pi := by
  rw [List.map_map]
  exact List.map_congr_left fun d _ => gap.pi_deed d

end Gap

variable {gap : Gap} {s s' base : Store} {m m' : Machine}

/-- A term of a source is the same in a wider store. -/
theorem Store.Wider.part (h : Wider gap s s') (hs : s.Acyclic) (t : Ref) :
    Part.of s' (gap.ref t) = gap.part (Part.of s t) := by
  rw [Part.of, Part.of, h.topLevel hs]
  rcases TopLevel.of s t with goal | u
  · simp only [Gap.topLevel, h.directive hs]
    cases Directive.of s goal <;> rfl
  · rfl

/-! ## Statements -/

namespace Passage

/-- The second passage is the first one, read into a store with more cells. -/
structure Shifts (gap : Gap) (p p' : Passage) : Prop where
  /-- The statement. -/
  statement : p'.statement = gap.statement p.statement
  /-- The store. -/
  store : Wider gap p.store p'.store
  /-- There are no cycles. -/
  acyclic : p.store.Acyclic

variable {p p' : Passage}

/-- **What a statement says is to be done is the same in a wider store**, or it does not make sense in
either. -/
theorem Shifts.statement_deeds (h : p.Shifts gap p') :
    p'.statement.deeds p'.store = gap.except (List.map gap.deed) (p.statement.deeds p.store) := by
  rw [h.statement]
  cases p.statement with
  | clause t =>
    have hcompile := h.store.compile h.acyclic t
    rw [Gap.statement, Statement.deeds, Statement.deeds, hcompile]
    cases Clause.compile p.store t <;> rfl
  | declare property predicates =>
    have hdeclared := h.store.declared h.acyclic predicates
    rw [Gap.statement, Statement.deeds, Statement.deeds, hdeclared]
    rcases Indicator.declared p.store predicates with e | pis
    · rfl
    · refine congrArg Except.ok ?_
      rw [List.map_map]
      rfl
  | initialization goal | goal goal => rfl

theorem Shifts.deeds (h : p.Shifts gap p') : p'.deeds = p.deeds.map gap.deed := by
  rw [Passage.deeds, Passage.deeds, h.statement_deeds]
  cases p.statement.deeds p.store <;> rfl

theorem Shifts.pi? (h : p.Shifts gap p') : p'.pi? = p.pi? := by
  rw [Passage.pi?, Passage.pi?, h.statement]
  cases p.statement with
  | clause t =>
    have hcompile := h.store.compile h.acyclic t
    simp only [Gap.statement, hcompile]
    cases Clause.compile p.store t <;> rfl
  | declare | initialization | goal => rfl

/-- Statements that are read again say the same, one after the other. -/
theorem deeds_of_shifts {ps ps' : List Passage} (h : List.Forall₂ (Shifts gap) ps ps') :
    ps'.flatMap Passage.deeds = (ps.flatMap Passage.deeds).map gap.deed := by
  induction h with
  | nil => rfl
  | cons hp _ ih => rw [List.flatMap_cons, List.flatMap_cons, List.map_append, hp.deeds, ih]

end Passage

/-! ## Sources -/

/-- What was read the second time corresponds to what was read the first time, when only cells were
added to the given store. -/
structure Spliced.Again (gap : Gap) (base : Store) (sp sp' : Spliced) : Prop where
  /-- There are only new cells. -/
  adds : Adds base sp.store
  /-- The stores. -/
  store : Wider gap sp.store sp'.store
  /-- The statements. -/
  passages : List.Forall₂ (Passage.Shifts gap) sp.passages sp'.passages

namespace Machine

/-- How reading a source corresponds to reading it again. -/
def again (gap : Gap) (base : Store) : Correspondence Stop Spliced where
  errors _ _ := True
  states := Spliced.Again gap base

variable {sp sp' : Spliced} {source source' : TermSource} {including : List String}

/-! ### The same store -/

section

variable (hsettings : m.SameSettings m')
include hsettings

theorem spliceEach_congr (one : Ref → SpliceM Unit) (n : Nat) :
    m'.spliceEach one n = m.spliceEach one n := by
  have hnext : ∀ source, m'.spliceNext source = m.spliceNext source := by
    intro source
    funext sp
    rw [spliceNext, spliceNext, hsettings.operators]
  induction n with
  | zero => rfl
  | succ n ih =>
    funext source
    rw [spliceEach, spliceEach, hnext, ih]

theorem spliceTerm_congr (spliceTerms : List String → TermSource → SpliceM Unit)
    (including : List String) (t : Ref) :
    m'.spliceTerm spliceTerms including t = m.spliceTerm spliceTerms including t := by
  have hsource : ∀ name input, m'.source name input none = m.source name input none := by
    intro name input
    rw [Machine.source, Machine.source, hsettings.doubleQuotes]
  funext sp
  rw [spliceTerm, spliceTerm]
  rcases Part.of sp.store t with i | file
  · rfl
  · dsimp only
    rw [spliceIncluded, spliceIncluded, hsettings.sources]
    simp only [hsource]

theorem spliceSource_congr (depth : Nat) : m'.spliceSource depth = m.spliceSource depth := by
  induction depth with
  | zero => rfl
  | succ depth ih =>
    funext including source
    have hterm : m'.spliceTerm (m'.spliceSource depth) including =
        m.spliceTerm (m.spliceSource depth) including := by
      funext t
      rw [ih, spliceTerm_congr hsettings]
    rw [spliceSource, spliceSource, hterm, spliceEach_congr hsettings]

/-- What is read of a source depends on the store and on the settings only. -/
theorem splice_congr (hstore : m'.store = m.store) (source : TermSource) :
    m'.splice source = m.splice source := by
  rw [splice, splice, spliceSource_congr hsettings, hsettings.sources, hstore]

end

/-! ### A store with more cells -/

theorem matches_spliceNext (hsettings : m.SameSettings m') (h : sp.Again gap base sp')
    (hsource : source.Begins [] m.doubleQuotes source') :
    (again gap base).Matches (SameRead gap m.doubleQuotes) (m.spliceNext source sp)
      (m'.spliceNext source' sp') := by
  have hnext := TermSource.sameNext_next? m.operators Input.nextLine_nil hsource h.store
  have hadds : Adds sp.store (source.next? m.operators sp.store).2.2 :=
    (TermSource.next?_reads hsource.reader.sound h.adds.wellFormed m.operators rfl).1
  rw [spliceNext, spliceNext, hsettings.operators]
  generalize source.next? m.operators sp.store = x at hnext hadds
  generalize source'.next? m.operators sp'.store = x' at hnext
  have hagain : ∀ {s s' : Store}, Adds sp.store s → Store.Wider gap s s' →
      Spliced.Again gap base { sp with store := s } { sp' with store := s' } := by
    intro s s' hadds hwider
    exact ⟨h.adds.trans hadds, hwider, h.passages⟩
  cases hnext with
  | term hbegins hs => exact ⟨.some _ hbegins, hagain hadds hs⟩
  | ends hnil hs => exact ⟨.none, hagain hadds hs⟩
  | goesOn hne => exact absurd rfl hne
  | fails he hs => exact Correspondence.matches_error trivial (hagain hadds hs)
  | cut hne he => exact absurd rfl hne

/-- Reading a source corresponds to reading it again, whatever was read before. -/
def SplicesAgain (gap : Gap) (base : Store) (m : Machine)
    (spliceTerms spliceTerms' : List String → TermSource → SpliceM Unit) : Prop :=
  ∀ including source source' sp sp', source.Begins [] m.doubleQuotes source' → sp.Again gap base sp' →
    (again gap base).Matches (fun _ _ => True) (spliceTerms including source sp)
      (spliceTerms' including source' sp')

section

variable {spliceTerms spliceTerms' : List String → TermSource → SpliceM Unit}
  (hsettings : m.SameSettings m') (hterms : SplicesAgain gap base m spliceTerms spliceTerms')
include hsettings hterms

theorem matches_spliceIncluded (h : sp.Again gap base sp') (file : Ref) :
    (again gap base).Matches (fun _ _ => True) (m.spliceIncluded spliceTerms including file sp)
      (m'.spliceIncluded spliceTerms' including (gap.ref file) sp') := by
  have hatom := h.store.expectAtom h.adds.wellFormed.acyclic file
  rw [spliceIncluded, spliceIncluded, hatom, hsettings.sources]
  have herror : ∀ e e' : Stop, (again gap base).Matches (fun _ _ : Unit => True) (.error e sp)
      (.error e' sp') := by
    intro e e'
    exact Correspondence.matches_error trivial h
  rcases sp.store.expectAtom file with e | name
  · exact herror _ _
  dsimp only [Gap.except, id]
  rcases m.sources.lookup name with _ | ⟨input | message⟩
  · exact herror _ _
  · by_cases hcyclic : including.contains name = true
    · dsimp only
      rw [if_pos hcyclic, if_pos hcyclic]
      exact herror _ _
    · dsimp only
      rw [if_neg hcyclic, if_neg hcyclic]
      have hsource : m'.source name input none = m.source name input none := by
        rw [Machine.source, Machine.source, hsettings.doubleQuotes]
      rw [hsource]
      exact hterms _ _ _ _ _ (begins_source m name input) h
  · exact herror _ _

theorem matches_spliceTerm (h : sp.Again gap base sp') (t : Ref) :
    (again gap base).Matches (fun _ _ => True) (m.spliceTerm spliceTerms including t sp)
      (m'.spliceTerm spliceTerms' including (gap.ref t) sp') := by
  have hpart := h.store.part h.adds.wellFormed.acyclic t
  rw [spliceTerm, spliceTerm, hpart]
  rcases Part.of sp.store t with i | file
  · have hlast : Passage.Shifts gap ⟨i, sp.store⟩ ⟨gap.statement i, sp'.store⟩ :=
      ⟨rfl, h.store, h.adds.wellFormed.acyclic⟩
    exact ⟨trivial, h.adds, h.store, List.rel_append h.passages (.cons hlast .nil)⟩
  · exact matches_spliceIncluded hsettings hterms h file

theorem matches_spliceEach (n : Nat) (hsource : source.Begins [] m.doubleQuotes source')
    (h : sp.Again gap base sp') :
    (again gap base).Matches (fun _ _ => True)
      (m.spliceEach (m.spliceTerm spliceTerms including) n source sp)
      (m'.spliceEach (m'.spliceTerm spliceTerms' including) n source' sp') := by
  induction n generalizing source source' sp sp' with
  | zero => exact Correspondence.matches_error trivial h
  | succ n ih =>
    refine (matches_spliceNext hsettings h hsource).bind ?_
    intro next next' sp₁ sp₁' _ _ hnext h₁
    cases hnext with
    | none => exact ⟨trivial, h₁⟩
    | some t hbegins =>
      refine (matches_spliceTerm hsettings hterms h₁ t).bind ?_
      intro _ _ sp₂ sp₂' _ _ _ h₂
      exact ih hbegins h₂

end

/-- **A source that is read again gives the same statements**, however deep sources are included. -/
theorem matches_spliceSource (hsettings : m.SameSettings m') (depth : Nat) :
    SplicesAgain gap base m (m.spliceSource depth) (m'.spliceSource depth) := by
  induction depth with
  | zero =>
    intro including source source' sp sp' _ h
    exact Correspondence.matches_error trivial h
  | succ depth ih =>
    intro including source source' sp sp' hsource h
    have hlength : source'.reader.lexer.input.length = source.reader.lexer.input.length := by
      rw [hsource.reader.input, List.append_nil]
    rw [spliceSource, spliceSource, hlength]
    exact matches_spliceEach hsettings ih _ hsource h

/-- **Reading a source again**, when there are more cells in the store. -/
theorem matches_splice (hs : m.store.WellFormed) (hsettings : m.SameSettings m')
    (hwider : Store.Wider gap m.store m'.store) (hsource : source.Begins [] m.doubleQuotes source) :
    (again gap m.store).Matches (fun _ _ => True) (m.splice source) (m'.splice source) := by
  have hbegin : Spliced.Again gap m.store { store := m.store } { store := m'.store } :=
    ⟨.refl hs, hwider, .nil⟩
  rw [splice, splice, hsettings.sources]
  exact matches_spliceSource hsettings _ _ _ _ _ _ hsource hbegin

end Machine

end Clausal
