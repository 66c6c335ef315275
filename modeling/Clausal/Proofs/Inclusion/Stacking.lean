import Clausal.Proofs.Load.Statements
import Clausal.Proofs.Machine.WiderSearches

/-! # Loading from within a source

A source that is loaded from within another one is loaded as it would be from outside, unless that
other source would be included again (`Loading.loadsInside_loadSource`).  What differs is the stack
of the sources being loaded and how much deeper they may be nested; and the depth is never what stops
a load, since no source is included within itself.

The settings of a machine are those with which it began (`Loading.steady_loadTerm`).  This is the case
of a wider store that is no wider.
-/

namespace Clausal

namespace Gap

theorem clause_empty (c : Clause) : empty.clause c = c := by
  have hentry : empty.entry = id := funext fun e => by cases e <;> rfl
  rw [clause, ref_empty_eq, hentry, List.map_id, List.map_id]
  rfl

theorem database_empty (db : Database) : empty.database db = db :=
  database_of_clauses fun _ c _ => clause_empty c

end Gap

namespace Machine

theorem Wider.refl (m : Machine) : Wider .empty m m m where
  store := .refl m.store
  database := (Gap.database_empty m.database).symm
  operators := ⟨rfl, rfl⟩
  doubleQuotes := ⟨rfl, rfl⟩
  sources := ⟨rfl, rfl⟩
  expansion := ⟨rfl, rfl⟩
  context := rfl
  request := rfl
  cancelled := rfl
  contexts := rfl
  loads := rfl

theorem Wider.sameSettings {gap : Gap} {base m m' : Machine} (h : Wider gap base m m') :
    base.SameSettings m :=
  ⟨h.operators.1, h.doubleQuotes.1, h.sources.1, h.expansion.1⟩

end Machine

namespace Loading

open Machine

variable {α β : Type} {solve : Ref → MachineM Bool} {one one' : Ref → LoadM Unit} {l l' : Loading}
  {t : Ref} {name : String} {inner outer : List String}

/-! ## Settings -/

theorem settings_of_results {action : LoadM α} {φ : α → α}
    (h : Results .empty l.machine φ (action l) (action l)) :
    Ends (action l) (fun _ l' => l.machine.SameSettings l'.machine) fun _ => True := by
  generalize action l = r at h ⊢
  rcases r with ⟨a, l'⟩ | ⟨e, l'⟩
  · exact h.2.machine.sameSettings
  · trivial

/-- **Loading a term leaves the settings as they are.** -/
theorem settings_loadTerm (hproper : Proper solve) (hsolve : SolvesWide .empty solve) (depth : Nat)
    (hl : l.machine.Sound) (ht : t.index < l.machine.store.size) :
    Ends (loadTerm solve (loadSource solve depth) t l)
      (fun _ l' => l.machine.SameSettings l'.machine) fun _ => True :=
  settings_of_results (results_loadTerm hproper hsolve (loadsWide_loadSource hproper hsolve depth)
    ⟨.refl l.machine, rfl⟩ hl ht)

theorem steady_loadTerm (hproper : Proper solve) (hsolve : SolvesWide .empty solve) (depth : Nat) :
    Steady solve (loadTerm solve (loadSource solve depth)) := by
  intro l t u l' hl ht hok
  have hone : LoadsOne .empty l.machine (loadTerm solve (loadSource solve depth)) :=
    loadsOne_loadTerm hproper hsolve (loadsWide_loadSource hproper hsolve depth)
  have hresults := results_loadRead hproper hsolve hone ⟨.refl l.machine, rfl⟩ hl ht
  rw [Gap.ref_empty] at hresults
  exact ⟨((loadSettling_loadRead hproper hone hl ht).of_ok hok).1.sound,
    (settings_of_results hresults).of_ok hok⟩

/-! ## Inside and outside of a source -/

/-- The load with another stack of sources being loaded. -/
def withStack (load : Load) (stack : List String) : Load := { load with including := stack }

/-- The first load is inside a source of the given name, and the second is not.  Both are inside the
sources `inner` besides, which are in it, and `outer`, which it is in. -/
structure Inside (name : String) (inner outer : List String) (l l' : Loading) : Prop where
  /-- The machine is the same. -/
  machine : l'.machine = l.machine
  /-- The first load is inside the source. -/
  including : l.load.including = inner ++ name :: outer
  /-- The second load differs from it in this only. -/
  load : l'.load = withStack l.load (inner ++ outer)

/-- A load inside a source corresponds to one outside of it, unless the source is included again. -/
def inside (name : String) (inner outer : List String) : Correspondence Stop Loading where
  excused e := e = .error (.cyclicSource name)
  errors e e' := e' = e
  states := Inside name inner outer
  failed l l' := l'.machine = l.machine

theorem inside_lift (h : Inside name inner outer l l') (action : MachineM α) :
    (inside name inner outer).Matches Eq (lift action l) (lift action l') := by
  obtain ⟨m, load⟩ := l
  obtain ⟨m', load'⟩ := l'
  obtain rfl : m' = m := h.machine
  rw [lift, lift]
  generalize action m' = r
  rcases r with ⟨a, m₁⟩ | ⟨e, m₁⟩
  · exact ⟨rfl, rfl, h.including, h.load⟩
  · exact .inr ⟨rfl, rfl⟩

/-- An action of the machine and what comes after it. -/
theorem inside_bind (h : Inside name inner outer l l') {action : MachineM α} {f f' : α → LoadM Unit}
    (hf : ∀ a l₁ l₁', lift action l = .ok a l₁ → Inside name inner outer l₁ l₁' →
      (inside name inner outer).Matches Eq (f a l₁) (f' a l₁')) :
    (inside name inner outer).Matches Eq ((lift action >>= f) l) ((lift action >>= f') l') :=
  (inside_lift h action).bind fun a _ l₁ l₁' ha _ heq h₁ => heq ▸ hf a l₁ l₁' ha h₁

theorem lift_eq_ok {action : MachineM α} {a : α} (h : lift action l = .ok a l') :
    action l.machine = .ok a l'.machine ∧ l'.load = l.load := by
  obtain ⟨m, load⟩ := l
  rw [lift] at h
  rcases haction : action m with ⟨a', m'⟩ | ⟨e, m'⟩ <;> rw [haction] at h <;> cases h
  exact ⟨rfl, rfl⟩

theorem lift_look_eq_ok {f : Store → α} {a : α} (h : lift (look f) l = .ok a l') :
    l' = l ∧ a = f l.machine.store := by
  cases h
  exact ⟨rfl, rfl⟩

theorem lift_examine_eq_ok {f : Store → Except Error α} {a : α} (h : lift (examine f) l = .ok a l') :
    l' = l ∧ f l.machine.store = .ok a := by
  obtain ⟨hexamine, hload⟩ := lift_eq_ok h
  have hvalue : ofExcept (f l.machine.store) l.machine = .ok a l'.machine := hexamine
  rcases hf : f l.machine.store with e | b <;> rw [hf] at hvalue
  · cases hvalue
  · obtain ⟨m, load⟩ := l
    obtain ⟨m', load'⟩ := l'
    cases hvalue
    cases hload
    exact ⟨rfl, rfl⟩

theorem lift_openSource_eq_ok {source : TermSource} (h : lift (openSource name) l = .ok source l') :
    l' = l ∧ ∃ input, l.machine.sources.lookup name = some (.readable input) ∧
      source = l.machine.source name input none := by
  obtain ⟨hopen, hload⟩ := lift_eq_ok h
  obtain ⟨hmachine, hinput⟩ := (ends_openSource l.machine name).of_ok hopen
  obtain ⟨m, load⟩ := l
  obtain ⟨m', load'⟩ := l'
  cases hmachine
  cases hload
  exact ⟨rfl, hinput⟩

theorem noteClause_withStack (load : Load) (stack : List String) (pi : Indicator) (flags : Flags) :
    (withStack load stack).noteClause pi flags =
      (load.noteClause pi flags).map (withStack · stack) := by
  unfold Load.noteClause
  by_cases h : (load.last ≠ some pi && load.seen.contains pi && !flags.allowsGaps) = true
  · rw [if_pos h]
    exact if_pos h
  · rw [if_neg h]
    exact if_neg h

/-- What depends on the load's own state. -/
theorem inside_current (h : Inside name inner outer l l') {f f' : Load → LoadM α}
    (hf : (inside name inner outer).Matches Eq (f l.load l)
      (f' (withStack l.load (inner ++ outer)) l')) :
    (inside name inner outer).Matches Eq ((current >>= f) l) ((current >>= f') l') := by
  show (inside name inner outer).Matches Eq (f l.load l) (f' l'.load l')
  rw [h.load]
  exact hf

theorem inside_addClause (h : Inside name inner outer l l') (t : Ref) :
    (inside name inner outer).Matches Eq (addClause t l) (addClause t l') := by
  refine inside_bind h fun c l₁ l₁' _ h₁ => inside_current h₁ ?_
  refine inside_bind h₁ fun p l₂ l₂' _ h₂ => ?_
  rw [noteClause_withStack]
  rcases hnote : l₁.load.noteClause c.pi p.flags with e | noted
  · exact Or.inr ⟨rfl, h₂.machine⟩
  · obtain rfl := Load.noteClause_eq_ok hnote
    have hnoted : Inside name inner outer ⟨l₂.machine, l₁.load.noting c.pi⟩
        ⟨l₂'.machine, withStack (l₁.load.noting c.pi) (inner ++ outer)⟩ :=
      ⟨h₂.machine, h₁.including, rfl⟩
    exact inside_lift hnoted _

theorem inside_declare (h : Inside name inner outer l l') (property : Property) (predicates : Ref) :
    (inside name inner outer).Matches Eq (declare property predicates l)
      (declare property predicates l') := by
  refine inside_current h (inside_bind h fun pis l₁ l₁' _ h₁ => ?_)
  exact Correspondence.Matches.forM_self (I := fun _ => True) rfl
    (fun pi _ s s' _ hs => inside_lift hs _) (fun _ _ _ _ _ _ _ => trivial) trivial h₁

theorem inside_require (h : Inside name inner outer l l') (goal : Ref) (failure : Term → Error) :
    (inside name inner outer).Matches Eq (require solve goal failure l)
      (require solve goal failure l') := by
  refine inside_bind h fun found l₁ l₁' _ h₁ => ?_
  cases found with
  | true => exact ⟨rfl, h₁⟩
  | false =>
    simp only [Bool.false_eq_true, if_false]
    exact inside_lift h₁ _

/-! ## The depth of inclusion -/

/-- There is room for the stack of sources being loaded: those but for the outermost are different
sources of the machine, and so many levels are allowed that all of them fit. -/
structure Room (m : Machine) (depth : Nat) (stack : List String) : Prop where
  /-- No source is there twice. -/
  nodup : stack.Nodup
  /-- All but the outermost were opened. -/
  opened : ∀ name ∈ stack.dropLast, name ∈ m.sources.map Prod.fst
  /-- All sources fit. -/
  fits : m.sources.length + 3 ≤ depth + stack.length

theorem Room.congr {m m' : Machine} {stack : List String} {depth : Nat} (h : Room m depth stack)
    (hsources : m'.sources = m.sources) : Room m' depth stack :=
  ⟨h.nodup, hsources ▸ h.opened, hsources ▸ h.fits⟩

theorem mem_sources_of_lookup {sources : List (String × SourceText)} {text : SourceText}
    (h : sources.lookup name = some text) : name ∈ sources.map Prod.fst := by
  obtain ⟨before, after, rfl, -⟩ := List.lookup_eq_some_iff.mp h
  simp

theorem Room.pos {m : Machine} {depth : Nat} {stack : List String} (h : Room m depth stack) :
    0 < depth := by
  -- A stack of different sources is no longer than their list.
  have hsubset := (List.dropLast_sublist stack).nodup h.nodup |>.subperm h.opened
  have hle := hsubset.length_le
  rw [List.length_dropLast, List.length_map] at hle
  have hfits := h.fits
  omega

theorem Room.push {m : Machine} {depth : Nat} {stack : List String} (h : Room m (depth + 1) stack)
    (hne : stack ≠ []) (hopened : name ∈ m.sources.map Prod.fst) (hnew : name ∉ stack) :
    Room m depth (name :: stack) where
  nodup := List.nodup_cons.mpr ⟨hnew, h.nodup⟩
  opened other hother := by
    rw [List.dropLast_cons_of_ne_nil hne] at hother
    rcases List.mem_cons.mp hother with rfl | hother
    · exact hopened
    · exact h.opened other hother
  fits := by
    have hfits := h.fits
    rw [List.length_cons]
    omega

/-! ## Loads -/

/-- Sources are loaded alike inside and outside of the named one, if there is room for them. -/
def LoadsInside (name : String) (outer : List String) (depth : Nat)
    (loadTerms loadTerms' : TermSource → LoadM Unit) : Prop :=
  ∀ {inner : List String} {l l' : Loading} {source : TermSource}, Inside name inner outer l l' →
    l.machine.Sound → Room l.machine depth (inner ++ name :: outer) → source.reader.Sound →
    (inside name inner outer).Matches Eq (loadTerms source l) (loadTerms' source l')

variable {loadTerms loadTerms' : TermSource → LoadM Unit} {depth : Nat} {source : TermSource}

theorem inside_loadNamed (hload : LoadsInside name outer depth loadTerms loadTerms')
    (h : Inside name inner outer l l') (hl : l.machine.Sound) {new : String}
    (hroom : Room l.machine depth (new :: inner ++ name :: outer)) (hsource : source.reader.Sound) :
    (inside name inner outer).Matches Eq (loadNamed loadTerms new source l)
      (loadNamed loadTerms' new source l') := by
  have hnamed : Inside name (new :: inner) outer ⟨l.machine, withStack l.load (new :: l.load.including)⟩
      ⟨l'.machine, withStack l'.load (new :: l'.load.including)⟩ := by
    refine ⟨h.machine, congrArg (new :: ·) h.including, ?_⟩
    rw [h.load]
    rfl
  have hterms := hload hnamed hl hroom hsource
  rw [loadNamed_eq, loadNamed_eq]
  generalize hr : loadTerms source _ = r
  generalize hr' : loadTerms' source _ = r'
  rw [withStack, hr, withStack, hr'] at hterms
  rcases r with ⟨_, l₁⟩ | ⟨e, l₁⟩ <;> rcases r' with ⟨_, l₁'⟩ | ⟨e', l₁'⟩
  · refine ⟨rfl, hterms.2.machine, ?_, ?_⟩
    · exact congrArg List.tail hterms.2.including
    · show withStack l₁'.load l₁'.load.including.tail = _
      rw [hterms.2.load]
      rfl
  · exact hterms.elim
  · exact hterms
  · exact hterms

theorem inside_loadIncluded (hload : LoadsInside name outer depth loadTerms loadTerms')
    (h : Inside name inner outer l l') (hl : l.machine.Sound)
    (hroom : Room l.machine (depth + 1) (inner ++ name :: outer)) (file : Ref) :
    (inside name inner outer).Matches Eq (loadIncluded loadTerms file l)
      (loadIncluded loadTerms' file l') := by
  rw [loadIncluded_eq, loadIncluded_eq]
  refine inside_bind h fun new l₁ l₁' hl₁ h₁ => ?_
  obtain ⟨rfl, -⟩ := lift_examine_eq_ok hl₁
  refine inside_bind h₁ fun source l₂ l₂' hl₂ h₂ => ?_
  obtain ⟨rfl, input, hinput, rfl⟩ := lift_openSource_eq_ok hl₂
  have hsource := (begins_source l₂.machine new input).reader.sound
  have hopened : new ∈ l₂.machine.sources.map Prod.fst := mem_sources_of_lookup hinput
  refine inside_current h₂ ?_
  rw [h₂.including]
  show (inside name inner outer).Matches Eq _
    ((if (inner ++ outer).contains new then lift (fail (.cyclicSource new))
      else loadNamed loadTerms' new (l₂.machine.source new input none)) l₂')
  -- The stacks differ in the one name, which is excused if it is the one to be included.
  by_cases hnew : new ∈ inner ++ name :: outer
  · rw [if_pos (List.contains_iff_mem.mpr hnew)]
    by_cases hname : new = name
    · subst hname
      exact Correspondence.matches_excused rfl _
    · have hother : new ∈ inner ++ outer := by
        simp only [List.mem_append, List.mem_cons] at hnew ⊢
        tauto
      rw [if_pos (List.contains_iff_mem.mpr hother)]
      exact inside_lift h₂ _
  · have hother : new ∉ inner ++ outer := fun h => hnew (by
      simp only [List.mem_append, List.mem_cons] at h ⊢
      tauto)
    rw [if_neg (mt List.contains_iff_mem.mp hnew), if_neg (mt List.contains_iff_mem.mp hother)]
    exact inside_loadNamed hload h₂ hl (hroom.push (by simp) hopened hnew) hsource

theorem inside_carryOut (solve : Ref → MachineM Bool)
    (hload : LoadsInside name outer depth loadTerms loadTerms')
    (h : Inside name inner outer l l') (hl : l.machine.Sound)
    (hroom : Room l.machine (depth + 1) (inner ++ name :: outer)) (d : Directive) :
    (inside name inner outer).Matches Eq (carryOut solve loadTerms d l)
      (carryOut solve loadTerms' d l') := by
  cases d with
  | declare property predicates => exact inside_declare h property predicates
  | inclusion file => exact inside_loadIncluded hload h hl hroom file
  | ensureLoaded file => exact inside_loadIncluded hload h hl hroom file
  | initialization goal => exact inside_require h goal _
  | goal goal => exact inside_require h goal _

theorem inside_loadTerm (hload : LoadsInside name outer depth loadTerms loadTerms')
    (h : Inside name inner outer l l') (hl : l.machine.Sound)
    (hroom : Room l.machine (depth + 1) (inner ++ name :: outer)) (t : Ref) :
    (inside name inner outer).Matches Eq (loadTerm solve loadTerms t l)
      (loadTerm solve loadTerms' t l') := by
  refine inside_bind h fun d l₁ l₁' hd h₁ => ?_
  obtain ⟨rfl, -⟩ := lift_look_eq_ok hd
  cases d with
  | clause t => exact inside_addClause h₁ t
  | directive goal =>
    show (inside name inner outer).Matches Eq (directive solve loadTerms goal l₁)
      (directive solve loadTerms' goal l₁')
    rw [directive_eq, directive_eq]
    refine inside_bind h₁ fun d l₂ l₂' hd h₂ => ?_
    obtain ⟨rfl, -⟩ := lift_look_eq_ok hd
    -- Directives interrupt clauses in both, except for inclusions.
    have hnoted : Inside name inner outer ⟨l₂.machine, l₂.load.noteDirective⟩
        ⟨l₂'.machine, l₂'.load.noteDirective⟩ := by
      refine ⟨h₂.machine, h₂.including, ?_⟩
      rw [h₂.load]
      rfl
    cases d with
    | inclusion file => exact inside_carryOut solve hload h₂ hl hroom (.inclusion file)
    | ensureLoaded file => exact inside_carryOut solve hload h₂ hl hroom (.ensureLoaded file)
    | declare property predicates =>
      exact inside_carryOut solve hload hnoted hl hroom (.declare property predicates)
    | initialization goal => exact inside_carryOut solve hload hnoted hl hroom (.initialization goal)
    | goal goal => exact inside_carryOut solve hload hnoted hl hroom (.goal goal)

theorem inside_loadRead (hproper : Proper solve) (hsolve : SolvesWide .empty solve)
    (hload : LoadsInside name outer depth (loadSource solve depth) loadTerms')
    (h : Inside name inner outer l l') (hl : l.machine.Sound)
    (hroom : Room l.machine (depth + 1) (inner ++ name :: outer))
    (ht : l.machine.store.Detached 0 t) :
    (inside name inner outer).Matches Eq (loadRead solve (loadTerm solve (loadSource solve depth)) t l)
      (loadRead solve (loadTerm solve loadTerms') t l') := by
  refine inside_bind h fun terms l₁ l₁' hexpand h₁ => ?_
  obtain ⟨hsettles, hterms⟩ :=
    (loadSettling_lift (settling_expand hproper hl (Nat.zero_le _) ht)).of_ok hexpand
  have hresults := results_lift (l := l) ⟨.refl l.machine, rfl⟩
    (results_expand hproper hsolve (.refl l.machine) hl ht.lt)
  rw [Gap.ref_empty] at hresults
  have hsettings := (settings_of_results hresults).of_ok hexpand
  -- What is left to be loaded waits, and there is room as before.
  refine Correspondence.Matches.forM_self
    (I := fun l => l.machine.Sound ∧ Waiting 0 terms l.machine ∧
      Room l.machine (depth + 1) (inner ++ name :: outer)) rfl
    (fun t _ s s' hs hss => inside_loadTerm hload hss hs.1 hs.2.2 t) (fun t ht s u s' hs hok => ?_)
    ⟨hsettles.sound, hterms, hroom.congr hsettings.sources⟩ h₁
  have hsettled := ((loadSettling_loadTerm hproper (loadsTerms_loadSource hproper 0 depth) hs.1
    (Nat.zero_le _) (hs.2.1 t ht)).of_ok hok).1
  have hsame := (settings_loadTerm hproper hsolve depth hs.1 (hs.2.1 t ht).lt).of_ok hok
  exact ⟨hsettled.sound, hs.2.1.settle hs.1 hsettled, hs.2.2.congr hsame.sources⟩

theorem inside_loadEach (hproper : Proper solve) (hsolve : SolvesWide .empty solve)
    (hload : LoadsInside name outer depth (loadSource solve depth) loadTerms') (n : Nat)
    (h : Inside name inner outer l l') (hl : l.machine.Sound)
    (hroom : Room l.machine (depth + 1) (inner ++ name :: outer)) (hsource : source.reader.Sound) :
    (inside name inner outer).Matches Eq
      (loadEach solve (loadTerm solve (loadSource solve depth)) n source l)
      (loadEach solve (loadTerm solve loadTerms') n source l') := by
  induction n generalizing l l' source with
  | zero => exact Or.inr ⟨rfl, h.machine⟩
  | succ n ih =>
    rw [loadEach_succ, loadEach_succ]
    refine inside_bind h fun u l₁ l₁' hl₁ h₁ => ?_
    obtain rfl := lift_poll_eq_ok hl₁
    refine inside_bind h₁ fun next l₂ l₂' hl₂ h₂ => ?_
    obtain ⟨hsettles, hnext⟩ :=
      (loadSettling_lift (settling_nextTerm hl (Nat.zero_le _) hsource)).of_ok hl₂
    have hsources : l₂.machine.sources = l₁.machine.sources := by
      rw [lift_nextTerm] at hl₂
      generalize source.next? l₁.machine.operators l₁.machine.store = x at hl₂
      rcases x with ⟨e | t, r, s⟩ <;> cases hl₂
      rfl
    rcases next with _ | ⟨t, source'⟩
    · exact ⟨rfl, h₂⟩
    · obtain ⟨ht, hsource'⟩ := hnext t source' rfl
      have hroom₂ := hroom.congr hsources
      refine (inside_loadRead hproper hsolve hload h₂ hsettles.sound hroom₂ ht).bind
        fun u u' l₃ l₃' hl₃ _ _ h₃ => ?_
      obtain ⟨hsound, hsettings⟩ := steady_loadTerm hproper hsolve depth hsettles.sound ht hl₃
      exact ih h₃ hsound (hroom₂.congr hsettings.sources) hsource'

/-- **A source is loaded alike inside and outside of another one.** -/
theorem loadsInside_loadSource (hproper : Proper solve) (hsolve : SolvesWide .empty solve)
    (name : String) (outer : List String) (depth : Nat) :
    LoadsInside name outer depth (loadSource solve depth) (loadSource solve (depth + 1)) := by
  induction depth with
  | zero =>
    intro inner l l' source h hl hroom hsource
    exact absurd hroom.pos (Nat.lt_irrefl 0)
  | succ depth ih =>
    intro inner l l' source h hl hroom hsource
    exact inside_loadEach hproper hsolve ih _ h hl hroom hsource

end Loading

end Clausal
