import Clausal.Proofs.Inclusion.Stacking

/-! # Including a source

A directive to include a source has the effect of loading the source where the directive stands
(`Loading.loadTerm_inclusion`).  What it leaves differs in the cells of the store that the directive
itself takes up, and in nothing else (`Loading.results_splice`).
-/

namespace Clausal

open Store

namespace Gap

variable {gap : Gap} {t : Ref}

theorem ref_of_lt (h : t.index < gap.start) : gap.ref t = t := by
  rw [ref, place, if_pos h]

end Gap

namespace Store

variable {s s' : Store} {gap : Gap} {t : Ref}

/-- The gap that new cells make at the end of a store. -/
def gapOf (s s' : Store) : Gap := ⟨s.size, s'.size - s.size⟩

theorem ref_gapOf (ht : t.index < s.size) : (gapOf s s').ref t = t := Gap.ref_of_lt ht

theorem map_ref_gapOf {ts : List Ref} (h : ∀ t ∈ ts, t.index < s.size) :
    ts.map (gapOf s s').ref = ts :=
  (List.map_congr_left fun t ht => ref_gapOf (h t ht)).trans (List.map_id _)

/-- Cells that are added make the store wider. -/
theorem Adds.wider (hs : s.WellFormed) (htrailed : s.Trailed) (h : Adds s s') :
    Wider (gapOf s s') s s' where
  le := Nat.le_refl _
  size := (Nat.add_sub_cancel' h.grows.size_le).symm
  cell t := by
    -- The old cells point to old cells, which stay in their places; behind them there is nothing.
    rcases Nat.lt_or_ge t.index s.size with ht | ht
    · rw [ref_gapOf ht, h.grows.kept ht List.not_mem_nil]
      rcases hc : s.cell? t with _ | ⟨l | ⟨name, args⟩ | ⟨name, _ | u⟩⟩
      · rfl
      · rfl
      · have hargs : args.map (gapOf s s').ref = args :=
          map_ref_gapOf fun u hu => hs.closed (.arg hc hu)
        exact congrArg (fun args => some (Cell.compound name args)) hargs.symm
      · rfl
      · have hu : (gapOf s s').ref u = u := ref_gapOf (hs.closed (.binding hc))
        exact congrArg (fun u => some (Cell.var name (some u))) hu.symm
    · have hplace : s'.size ≤ ((gapOf s s').ref t).index := by
        show s'.size ≤ (gapOf s s').place t.index
        have hle := h.grows.size_le
        rw [Gap.place_of_le _ ht]
        simp only [gapOf]
        omega
      rw [cell?_eq_none ht, cell?_eq_none hplace]
      rfl
  trail := by
    have hlt : ∀ t ∈ s.trail.toList, t.index < s.size := fun t ht =>
      ((htrailed.bound_iff t).mpr ht).index_lt
    have htrail : s.trail.toList.map (gapOf s s').ref = s.trail.toList := map_ref_gapOf hlt
    rw [h.grows.trail, List.append_nil]
    exact htrail.symm

theorem map_snapshotFrom_eq (hs : s.Acyclic) {name : String} {args : List Ref}
    (hview : s.view t = .compound name args) :
    s.snapshot t = .compound name (args.map s.snapshot) := by
  have hlt : ∀ u ∈ args, s.rank u < s.rank t := fun u hu => hs.rank_lt_of_view hview hu
  have hle := s.rank_le_size t
  rw [snapshot, snapshotFrom, hview]
  refine congrArg (Term.compound name) (List.map_congr_left fun u hu => ?_)
  have := hlt u hu
  exact hs.snapshotFrom_eq (by omega) (by omega)

/-- A term that is taken out as a compound is seen as one. -/
theorem view_of_snapshot_compound (hs : s.Acyclic) {name : String} {xs : List Term}
    (h : s.snapshot t = .compound name xs) :
    ∃ args, s.view t = .compound name args ∧ args.map s.snapshot = xs := by
  rcases hview : s.view t with v | l | ⟨name', args⟩
  · rw [snapshot, snapshotFrom, hview] at h
    cases h
  · rw [snapshot, snapshotFrom, hview] at h
    cases h
  · rw [map_snapshotFrom_eq hs hview] at h
    cases h
    exact ⟨args, rfl, rfl⟩

theorem view_of_snapshot_literal {l : Literal} (h : s.snapshot t = .literal l) :
    s.view t = .literal l := by
  rcases hview : s.view t with v | l' | ⟨name', args⟩ <;> rw [snapshot, snapshotFrom, hview] at h <;>
    cases h
  rfl

end Store

namespace Machine

variable {m : Machine} {s : Store} {gap : Gap}

theorem Sound.wider (hm : m.Sound) (h : Adds m.store s) :
    Wider (gapOf m.store s) m m { m with store := s } where
  store := h.wider hm.wellFormed hm.trailed
  -- Clauses are stored in terms of cells that were there before.
  database := (Gap.database_of_clauses fun pi c hc => by
    have hfaithful := hm.faithful pi c hc
    have htable : c.table.map (gapOf m.store s).entry = c.table :=
      (List.map_congr_left fun e he => by
        cases e with
        | term t => exact congrArg Entry.term (ref_gapOf (hfaithful.inRange t he))
        | procedure pi => rfl).trans (List.map_id _)
    rw [Gap.clause, ref_gapOf hfaithful.raw_lt, htable, map_ref_gapOf fun v hv => hfaithful.lt hv]).symm
  operators := ⟨rfl, rfl⟩
  doubleQuotes := ⟨rfl, rfl⟩
  sources := ⟨rfl, rfl⟩
  expansion := ⟨rfl, rfl⟩
  context := rfl
  request := rfl
  cancelled := rfl
  contexts := rfl
  loads := rfl

/-- A text in the middle of a source. -/
def within (m : Machine) (text : String) : TermSource :=
  { m.source "user" (.ofText text) none with atStart := false }

theorem begins_within (m : Machine) (text : String) :
    (m.within text).Begins [] m.doubleQuotes (m.within text) :=
  ⟨(Loading.begins_source m "user" (.ofText text)).reader, rfl⟩

/-- The text, in the middle of a source, reads as the term, and as nothing else. -/
def Reads (m : Machine) (text : String) (x : Term) : Prop :=
  ∃ t rest s, (m.within text).next? m.operators {} = (.ok (some t), rest, s) ∧ s.snapshot t = x ∧
    (rest.next? m.operators {}).1 = .ok none

variable {text : String} {x : Term}

/-- The name of the source that the text says to include, if this is all that it says. -/
def includes? (m : Machine) (text : String) : Option String :=
  match (m.within text).next? m.operators {} with
  | (.ok (some t), rest, s) =>
    match s.snapshot t, (rest.next? m.operators {}).1 with
    | .compound ":-" [.compound "include" [.literal (.atom name)]], .ok none => some name
    | _, _ => none
  | _ => none

theorem reads_of_includes? {name : String} (h : m.includes? text = some name) :
    m.Reads text (.compound ":-" [.compound "include" [.atom name]]) := by
  rw [includes?] at h
  split at h
  case h_2 => cases h
  rename_i t rest s hnext
  split at h
  case h_2 => cases h
  rename_i name' hterm hend
  cases h
  exact ⟨t, rest, s, hnext, hterm, hend⟩

theorem Reads.complete (h : m.Reads text x) : (m.within text).Complete m.operators := by
  obtain ⟨t, rest, s, hnext, -, hend⟩ := h
  refine ⟨fun e r s' h => ?_, fun t' r s' h => ?_⟩
  · rw [hnext] at h
    cases h
  · rw [hnext] at h
    cases h
    refine ⟨fun e r s' h => ?_, fun t' r s' h => ?_⟩
    · rw [h] at hend
      cases hend
    · rw [h] at hend
      cases hend

/-- The text reads so into any store. -/
theorem Reads.next? (h : m.Reads text x) (s : Store) :
    ∃ t rest s' f, (m.within text).next? m.operators s = (.ok (some t), rest, s') ∧
      s'.snapshot t = x.renumber f ∧ ∀ s, (rest.next? m.operators s).1 = .ok none := by
  obtain ⟨t, rest, s₁, hnext, hsnapshot, hend⟩ := h
  have hbegins := begins_within m text
  -- The cells of the store come before those of the term.
  have hsame := TermSource.sameNext_empty m.operators hbegins s
  rw [hnext] at hsame
  generalize hx : (m.within text).next? m.operators s = x' at hsame
  cases hsame with
  | term hrest hs =>
    have hadds := (TermSource.next?_reads hbegins.reader.sound wellFormed_empty _ hnext).1
    refine ⟨_, _, _, Gap.place ⟨0, s.size⟩, rfl, ?_, TermSource.next?_eq_none hrest hend⟩
    rw [hs.snapshot hadds.wellFormed.acyclic, hsnapshot, Gap.term]

end Machine

namespace Loading

open Machine

variable {solve : Ref → MachineM Bool} {one : Ref → LoadM Unit} {l l' : Loading} {t : Ref}
  {q rest : TermSource} {s : Store} {name : String} {depth : Nat}

/-- Loads the terms of a source, in which others may be included to the depth. -/
abbrev loadThrough (solve : Ref → MachineM Bool) (depth : Nat) : Nat → TermSource → LoadM Unit :=
  loadEach solve (loadTerm solve (loadSource solve depth))

/-! ## The directive -/

/-- What a directive to include a source does. -/
theorem loadTerm_inclusion (solve : Ref → MachineM Bool) (loadTerms : TermSource → LoadM Unit)
    (hs : l.machine.store.Acyclic) {functor : String} {input : Input}
    (hfunctor : functor = "include" ∨ functor = "ensure_loaded")
    (ht : l.machine.store.snapshot t = .compound ":-" [.compound functor [.atom name]])
    (hname : l.machine.sources.lookup name = some (.readable input)) :
    loadTerm solve loadTerms t l =
      if l.load.including.contains name then .error (.error (.cyclicSource name)) l
      else loadNamed loadTerms name (l.machine.source name input none) l := by
  obtain ⟨args, hview, hargs⟩ := view_of_snapshot_compound hs ht
  obtain ⟨goal, rfl, hgoal⟩ := List.map_eq_singleton_iff.mp hargs
  obtain ⟨args, hview', hargs⟩ := view_of_snapshot_compound hs hgoal
  obtain ⟨file, rfl, hfile⟩ := List.map_eq_singleton_iff.mp hargs
  have hfile := view_of_snapshot_literal hfile
  have htop : TopLevel.of l.machine.store t = .directive goal := by
    rw [TopLevel.of, hview]
    rfl
  have hatom : l.machine.store.expectAtom file = .ok name := by
    rw [expectAtom, hfile]
  have hincluded : loadIncluded loadTerms file l =
      if l.load.including.contains name then .error (.error (.cyclicSource name)) l
      else loadNamed loadTerms name (l.machine.source name input none) l := by
    have hexamine : lift (examine (·.expectAtom file)) l = .ok name l := lift_examine_of_ok hatom
    have hopen : lift (openSource name) l = .ok (l.machine.source name input none) l :=
      lift_of_ok (by rw [openSource_eq, hname])
    rw [loadIncluded_eq, bind_eq_of_ok hexamine, bind_eq_of_ok hopen]
    show (if l.load.including.contains name then lift (fail (.cyclicSource name))
      else loadNamed loadTerms name (l.machine.source name input none) : LoadM Unit) l = _
    split <;> rfl
  rw [loadTerm_apply, htop, ← hincluded]
  show directive solve loadTerms goal l = _
  rw [directive_eq]
  show ((if !(Directive.of l.machine.store goal).isInclusion then change Load.noteDirective
    else pure () : LoadM Unit) >>= fun _ => carryOut solve loadTerms
      (Directive.of l.machine.store goal)) l = _
  have hdirective : Directive.of l.machine.store goal = .inclusion file ∨
      Directive.of l.machine.store goal = .ensureLoaded file := by
    rw [Directive.of, hview']
    rcases hfunctor with rfl | rfl
    · exact .inl rfl
    · exact .inr rfl
  rcases hdirective with hd | hd <;> rw [hd] <;> rfl

theorem loadRead_of_ruleFree (hexpansion : l.machine.expansion = .byRules)
    (hrules : l.machine.RuleFree) (t : Ref) : loadRead solve one t l = one t l := by
  have hexpand : lift (expand solve t) l = .ok [t] l :=
    lift_of_ok (expand_of_ruleFree hexpansion hrules t)
  rw [loadRead, bind_eq_of_ok hexpand, forM_singleton]

/-- A source of which nothing is left. -/
theorem loadEach_of_end {n : Nat} (hend : ∀ s, (q.next? l.machine.operators s).1 = .ok none) :
    loadEach solve one (n + 1) q l = lift poll l := by
  rw [loadEach_succ]
  rcases hpoll : lift poll l with ⟨u, l'⟩ | ⟨e, l'⟩
  · obtain rfl := lift_poll_eq_ok hpoll
    have hstore := TermSource.store_of_next?_none _ (hend l'.machine.store)
    have hnone := hend l'.machine.store
    have hnext : lift (nextTerm q) l' = .ok none l' := by
      rw [lift_nextTerm]
      generalize q.next? l'.machine.operators l'.machine.store = x at hnone hstore
      obtain ⟨e | t, r, s⟩ := x <;> cases hnone
      obtain rfl : s = l'.machine.store := hstore
      rfl
    rw [bind_eq_of_ok hpoll, bind_eq_of_ok hnext]
    rfl
  · rw [bind_eq_of_error hpoll]

/-- A source with one term. -/
theorem loadEach_of_single (solve : Ref → MachineM Bool) (n : Nat)
    (hnext : q.next? l.machine.operators l.machine.store = (.ok (some t), rest, s))
    (hend : ∀ s, (rest.next? l.machine.operators s).1 = .ok none)
    (hexpansion : l.machine.expansion = .byRules) (hrules : l.machine.RuleFree)
    (hsettings : ∀ u l', one t (l.withStore s) = .ok u l' → l.machine.SameSettings l'.machine)
    (hpoll : lift poll l = .ok () l) :
    loadEach solve one (n + 2) q l = (do one t; lift poll) (l.withStore s) := by
  have hread : lift (nextTerm q) l = .ok (some (t, rest)) (l.withStore s) := by
    rw [lift_nextTerm, hnext]
    rfl
  have hone : loadRead solve one t (l.withStore s) = one t (l.withStore s) :=
    loadRead_of_ruleFree (l := l.withStore s) hexpansion hrules t
  rw [loadEach_succ, bind_eq_of_ok hpoll, bind_eq_of_ok hread]
  show (loadRead solve one t >>= fun _ => loadEach solve one (n + 1) rest) (l.withStore s) = _
  rcases hok : one t (l.withStore s) with ⟨u, l'⟩ | ⟨e, l'⟩
  · rw [bind_eq_of_ok (hone.trans hok), bind_eq_of_ok hok]
    refine loadEach_of_end fun s => ?_
    rw [(hsettings u l' hok).operators]
    exact hend s
  · rw [bind_eq_of_error (hone.trans hok), bind_eq_of_error hok]

/-- Looking at the context twice is looking once. -/
theorem poll_loadEach (n : Nat) (q : TermSource) :
    (do lift poll; loadEach solve one (n + 1) q) = loadEach solve one (n + 1) q := by
  funext l
  rcases hpoll : lift poll l with ⟨u, l'⟩ | ⟨e, l'⟩
  · obtain rfl := lift_poll_eq_ok hpoll
    exact bind_eq_of_ok hpoll
  · rw [bind_eq_of_error hpoll, loadEach_succ, bind_eq_of_error hpoll]

/-! ## The source in the place of the directive -/

/-- A source that does not begin with a line for the shell is loaded as if something was read of it. -/
theorem loadEach_started (hstart : q.atStart = true)
    (hshebang : q.reader.lexer.input.dropShebang = .ok q.reader.lexer.input) (n : Nat) :
    loadEach solve one n q = loadEach solve one n { q with atStart := false } := by
  cases n with
  | zero => rfl
  | succ n =>
    have hnext : nextTerm q = nextTerm { q with atStart := false } := by
      funext m
      have hsame := TermSource.next?_of_dropShebang m.operators hstart hshebang m.store
      rw [nextTerm_eq, nextTerm_eq, hsame]
    rw [loadEach_succ, loadEach_succ, hnext]

theorem Results.congr_unplaced {gap : Gap} {base : Machine}
    {r r₁ r' r₁' : EStateM.Result Stop Loading Unit} (h : Results gap base id r r')
    (hr : unplaced r₁ = unplaced r) (hr' : unplaced r₁' = unplaced r') :
    Results gap base id r₁ r₁' := by
  -- Numbering variables anew does not change where an error was met.
  have hstop : ∀ e : Stop, (gap.stop e).unplaced = gap.stop e.unplaced := fun e => by
    rcases e with e | _
    · cases e <;> rfl
    · rfl
  rcases r with ⟨_, l⟩ | ⟨e, l⟩ <;> rcases r' with ⟨_, l'⟩ | ⟨e', l'⟩
  · rw [eq_ok_of_unplaced hr, eq_ok_of_unplaced hr']
    exact h
  · exact h.elim
  · exact h.elim
  · obtain ⟨e₁, rfl, he₁⟩ := eq_error_of_unplaced hr
    obtain ⟨e₁', rfl, he₁'⟩ := eq_error_of_unplaced hr'
    obtain ⟨he, hst⟩ := h.resolve_left id
    have he : e'.unplaced = (gap.stop e).unplaced := he
    refine .inr ⟨?_, hst⟩
    show e₁'.unplaced = (gap.stop e₁).unplaced
    rw [he₁', he, hstop, hstop, he₁]

/-- The name is on no other stack when its source is loaded: what the source does is what it does
in the place of the directive, in a store that has the cells of the directive besides. -/
theorem results_included {gap : Gap} {base : Machine} (hproper : Proper solve)
    (hsolve : ∀ gap, SolvesWide gap solve) {l₀ : Loading} (hwide : Wider gap base l₀ l)
    (hl₀ : l₀.machine.Sound) (hl : l.machine.Sound)
    (hroom : Room l.machine depth (name :: l.load.including))
    (hsource : q.Begins [] base.doubleQuotes q)
    (hcyclic : ∀ l', loadNamed (loadSource solve depth) name q l ≠
      .error (.error (.cyclicSource name)) l') :
    Results gap base id (loadSource solve (depth + 1) q l₀)
      (loadNamed (loadSource solve depth) name q l) := by
  -- The source is loaded twice: where the directive stands, in a store without its cells, and there
  -- in a store with them; and then from within the directive.
  have hgap := loadsWide_loadSource hproper (hsolve gap) (depth + 1) hwide hl₀ hsource
  have hinside : Inside name [] l.load.including
      ⟨l.machine, withStack l.load (name :: l.load.including)⟩ l := ⟨rfl, rfl, rfl⟩
  have hmatches := loadsInside_loadSource hproper (hsolve .empty) name l.load.including depth hinside
    hl hroom hsource.reader.sound
  -- Leaving the source takes its name off the stack.
  rw [loadNamed_eq] at hcyclic ⊢
  generalize hr : loadSource solve depth q _ = r at hcyclic ⊢
  rw [withStack, hr] at hmatches
  generalize loadSource solve (depth + 1) q l = r₁ at hmatches hgap
  generalize loadSource solve (depth + 1) q l₀ = r₀ at hgap ⊢
  rcases r with ⟨_, l₂⟩ | ⟨e, l₂⟩ <;> rcases r₁ with ⟨_, l₁⟩ | ⟨e₁, l₁⟩
  · have hsame : ({ l₂ with load := withStack l₂.load l₂.load.including.tail } : Loading) = l₁ := by
      obtain ⟨m₁, load₁⟩ := l₁
      obtain ⟨-, hmachine, hincluding, hload⟩ := hmatches
      cases hmachine
      cases hload
      rw [hincluding]
      rfl
    rcases r₀ with ⟨_, l₃⟩ | ⟨e₃, l₃⟩
    · exact ⟨rfl, hsame ▸ hgap.2⟩
    · exact hgap.elim
  · exact hmatches.elim
  · obtain rfl : e = .error (.cyclicSource name) := hmatches
    exact absurd rfl (hcyclic _)
  · rcases hmatches with rfl | ⟨rfl, hmachine⟩
    · exact absurd rfl (hcyclic _)
    · rcases r₀ with ⟨_, l₃⟩ | ⟨e₃, l₃⟩
      · exact hgap.elim
      · obtain ⟨he, hst⟩ := hgap.resolve_left id
        refine .inr ⟨he, ?_⟩
        have hst : Machine.Wider gap base l₃.machine l₁.machine := hst
        rw [hmachine] at hst
        exact hst

/-- An included source does what its text does in the place of the directive. -/
theorem results_inclusion {gap : Gap} (hproper : Proper solve) (hsolve : ∀ gap, SolvesWide gap solve)
    {text : String} {k : Nat} (hwide : Wider gap l.machine l l') (hl : l.machine.Sound)
    (hl' : l'.machine.Sound) (hroom : Room l'.machine depth (name :: l'.load.including))
    (hshebang : (Input.ofText text).dropShebang = .ok (.ofText text))
    (hk : (Input.ofText text).length < k)
    (hcyclic : ∀ l'', loadNamed (loadSource solve depth) name
      (l.machine.source name (.ofText text) none) l' ≠ .error (.error (.cyclicSource name)) l'') :
    Results gap l.machine id
      (loadThrough solve depth k (l.machine.within text) l)
      (loadNamed (loadSource solve depth) name (l.machine.source name (.ofText text) none) l') := by
  have hsource := begins_source l.machine name (.ofText text)
  have hstarted : loadSource solve (depth + 1) (l.machine.source name (.ofText text) none) =
      loadThrough solve depth ((Input.ofText text).length + 2)
        { l.machine.source name (.ofText text) none with atStart := false } :=
    loadEach_started rfl hshebang _
  refine (results_included hproper hsolve hwide hl hl' hroom hsource hcyclic).congr_unplaced ?_ rfl
  have hbegins : (l.machine.within text).Begins [] l.machine.doubleQuotes
      { l.machine.source name (.ofText text) none with atStart := false } :=
    ⟨(begins_within l.machine text).reader, rfl⟩
  rw [hstarted]
  exact unplaced_loadEach (steady_loadTerm hproper (hsolve .empty) depth) hl hbegins hk
    (Nat.lt_add_of_pos_right (Nat.zero_lt_two))

/-- The text of the directive: what is read of it is added to the store, and then the source is
included. -/
theorem loadThrough_directive (hproper : Proper solve) (hsolve : SolvesWide .empty solve)
    {functor directive : String} {input : Input} (n : Nat) (hl : l.machine.Sound)
    (hexpansion : l.machine.expansion = .byRules) (hrules : l.machine.RuleFree)
    (hfunctor : functor = "include" ∨ functor = "ensure_loaded")
    (hdirective : l.machine.Reads directive (.compound ":-" [.compound functor [.atom name]]))
    (hname : l.machine.sources.lookup name = some (.readable input))
    (hpoll : lift poll l = .ok () l) :
    ∃ gap s, Wider gap l.machine l (l.withStore s) ∧ (l.withStore s).machine.Sound ∧
      loadThrough solve depth (n + 2) (l.machine.within directive) l =
        (if l.load.including.contains name then throw (Stop.error (.cyclicSource name)) else do
          loadNamed (loadSource solve depth) name (l.machine.source name input none)
          lift poll : LoadM Unit) (l.withStore s) := by
  obtain ⟨t, rest, s, f, hnext, hsnapshot, hend⟩ := hdirective.next? l.machine.store
  have hbegins := begins_within l.machine directive
  have hadds := (TermSource.next?_reads hbegins.reader.sound hl.wellFormed _ hnext).1
  obtain ⟨hsound, ht⟩ := sound_of_next? hl hbegins.reader.sound hnext
  refine ⟨gapOf l.machine.store s, s, ⟨hl.wider hadds, rfl⟩, hsound, ?_⟩
  have hsettings : ∀ u l', loadTerm solve (loadSource solve depth) t (l.withStore s) = .ok u l' →
      l.machine.SameSettings l'.machine := fun u l' hok =>
    have h := (settings_loadTerm hproper hsolve depth hsound ht.lt).of_ok hok
    ⟨h.operators, h.doubleQuotes, h.sources, h.expansion⟩
  have hone := loadTerm_inclusion solve (loadSource solve depth) (l := l.withStore s)
    hsound.wellFormed.acyclic hfunctor hsnapshot hname
  -- The directive is the only term, and it is loaded as it was read.
  refine (loadEach_of_single solve n hnext hend hexpansion hrules hsettings hpoll).trans ?_
  have hload : (l.withStore s).load = l.load := rfl
  rw [hload] at hone
  split
  · rename_i hcontains
    rw [if_pos hcontains] at hone
    exact bind_eq_of_error hone
  · rename_i hcontains
    rw [if_neg hcontains] at hone
    exact bind_congr_result hone _

/-- **The directive and what comes after it** do what the text of the source and what comes after it
do. -/
theorem results_splice (hproper : Proper solve) (hsolve : ∀ gap, SolvesWide gap solve)
    {functor directive text : String} {k n j : Nat} (hl : l.machine.Sound)
    (hexpansion : l.machine.expansion = .byRules) (hrules : l.machine.RuleFree)
    (hroom : Room l.machine (depth + 1) l.load.including) (hne : l.load.including ≠ [])
    (hfunctor : functor = "include" ∨ functor = "ensure_loaded")
    (hdirective : l.machine.Reads directive (.compound ":-" [.compound functor [.atom name]]))
    (hname : l.machine.sources.lookup name = some (.readable (.ofText text)))
    (hshebang : (Input.ofText text).dropShebang = .ok (.ofText text))
    (hq : q.Begins [] l.machine.doubleQuotes q) (hk : (Input.ofText text).length < k)
    (hcyclic : ∀ l', (do
        loadThrough solve depth (n + 2) (l.machine.within directive)
        loadThrough solve depth (j + 1) q) l ≠ .error (.error (.cyclicSource name)) l') :
    ∃ gap, Results gap l.machine id
      ((do
        loadThrough solve depth k (l.machine.within text)
        loadThrough solve depth (j + 1) q) l)
      ((do
        loadThrough solve depth (n + 2) (l.machine.within directive)
        loadThrough solve depth (j + 1) q) l) := by
  obtain ⟨k, rfl⟩ := Nat.exists_eq_add_of_lt (Nat.zero_lt_of_lt hk)
  rw [Nat.zero_add] at hk ⊢
  rcases hpoll : lift poll l with ⟨u, l₁⟩ | ⟨e, l₁⟩
  · obtain rfl := lift_poll_eq_ok hpoll
    obtain ⟨gap, s, hwide, hsound, hthrough⟩ := loadThrough_directive hproper (hsolve .empty) n hl
      hexpansion hrules hfunctor hdirective hname hpoll
    rw [bind_congr_result hthrough] at hcyclic ⊢
    by_cases hincluding : l₁.load.including.contains name = true
    · rw [if_pos hincluding] at hcyclic
      exact absurd rfl (hcyclic _)
    · -- The context is looked at after the source, and again before what comes next.
      have hafter : ((do
          loadNamed (loadSource solve depth) name (l₁.machine.source name (.ofText text) none)
          lift poll) >>= fun _ => loadThrough solve depth (j + 1) q) =
          (do
            loadNamed (loadSource solve depth) name (l₁.machine.source name (.ofText text) none)
            loadThrough solve depth (j + 1) q) := by
        rw [bind_assoc, poll_loadEach]
      rw [if_neg hincluding, hafter] at hcyclic ⊢
      have hroom' : Room l₁.machine depth (name :: l₁.load.including) :=
        hroom.push hne (mem_sources_of_lookup hname) (mt List.contains_iff_mem.mpr hincluding)
      have hincluded := results_inclusion hproper hsolve hwide hl hsound
        ⟨hroom'.nodup, hroom'.opened, hroom'.fits⟩ hshebang hk fun l'' heq =>
          hcyclic l'' (bind_eq_of_error heq)
      refine ⟨gap, hincluded.bind (loadSettling_loadEach hproper (fun hl hn ht =>
        loadSettling_loadTerm hproper (loadsTerms_loadSource hproper 0 depth) hl hn ht) _ hl
        (Nat.zero_le _) (begins_within l₁.machine text).reader.sound) fun _ l₂ l₂' hl₂ h₂ => ?_⟩
      exact results_loadEach hproper (hsolve _) (loadsOne_loadTerm hproper (hsolve _)
        (loadsWide_loadSource hproper (hsolve _) depth)) _ h₂ hl₂.1.sound hq
  · refine ⟨.empty, ?_⟩
    have hempty := results_lift (l := l) ⟨.refl l.machine, rfl⟩ (results_poll (.refl l.machine))
    rw [hpoll] at hempty
    have hstops : ∀ i q', loadThrough solve depth (i + 1) q' l = .error e l₁ := fun i q' => by
      rw [loadThrough, loadEach_succ, bind_eq_of_error hpoll]
    rw [bind_eq_of_error (hstops _ _), bind_eq_of_error (hstops _ _)]
    exact hempty

end Loading

end Clausal
