import Clausal.Proofs.Load.Statements

/-! # The statements of a load, one after the other

A load deals with statements, one after the other: those of the terms that it reads, after expansion,
with the ones of an included source in the place of the directive.  `Loading.traceSource` loads a
source and takes down every statement when its turn comes, with the state that the load is then in.  But
for that it is `Loading.loadSource` (`Loading.mirrors_traceSource`).

Between the turns nothing happens to the database but by other loads, and every turn but the last is
one at which the statement was dealt with (`Loading.Leads`).  If the load stops with an error, it does so
at the last turn or between two turns (`Loading.Comes`).
-/

namespace Clausal

open Machine

/-- A statement whose turn has come. -/
structure Turn where
  /-- The statement. -/
  statement : Statement
  /-- The state of the load at its turn. -/
  state : Loading

/-- The statement with its terms. -/
def Turn.passage (turn : Turn) : Passage := ⟨turn.statement, turn.state.machine.store⟩

/-- A machine in the middle of a load, and the turns so far. -/
structure Traced where
  /-- The machine and the load. -/
  loading : Loading
  /-- The turns, in their order. -/
  turns : List Turn := []

/-- An action of a load of which the turns are taken down. -/
abbrev TraceM := EStateM Stop Traced

namespace Loading

variable {α β : Type}

/-- An action in which no statement has its turn. -/
def silently (action : LoadM α) : TraceM α := fun st =>
  match action st.loading with
  | .ok a l => .ok a { st with loading := l }
  | .error e l => .error e { st with loading := l }

section

variable (solve : Ref → MachineM Bool)

/-- Deals with a statement, and takes it down. -/
def traceTurn (i : Statement) : TraceM Unit := do
  modify fun st => { st with turns := st.turns ++ [⟨i, st.loading⟩] }
  silently (i.perform solve)

/-- Loads an included source. -/
def traceNamed (traceTerms : TermSource → TraceM Unit) (name : String) (source : TermSource) :
    TraceM Unit := do
  silently (change fun load => { load with including := name :: load.including })
  let leave : LoadM Unit := change fun load => { load with including := load.including.tail }
  fun st =>
    match traceTerms source st with
    | .ok () st => silently leave st
    | .error e st => (do silently leave; throw e) st

/-- Leaving the source takes its name off the stack, whatever came of it. -/
theorem traceNamed_eq (traceTerms : TermSource → TraceM Unit) (name : String) (source : TermSource)
    (st : Traced) : traceNamed traceTerms name source st =
      match traceTerms source { st with loading := { st.loading with
        load := { st.loading.load with including := name :: st.loading.load.including } } } with
      | .ok () st => .ok () { st with loading := { st.loading with
          load := { st.loading.load with including := st.loading.load.including.tail } } }
      | .error e st => .error e { st with loading := { st.loading with
          load := { st.loading.load with including := st.loading.load.including.tail } } } :=
  rfl

/-- Opens an included source and loads it. -/
def traceIncluded (traceTerms : TermSource → TraceM Unit) (file : Ref) : TraceM Unit := do
  let name ← silently (lift (examine (·.expectAtom file)))
  let source ← silently (lift (openSource name))
  let load ← silently current
  if load.including.contains name then silently (lift (fail (.cyclicSource name)))
  else traceNamed traceTerms name source

/-- Loads one term. -/
def traceTerm (traceTerms : TermSource → TraceM Unit) (t : Ref) : TraceM Unit := do
  match ← silently (lift (look (Part.of · t))) with
  | .statement i => traceTurn solve i
  | .inclusion file => traceIncluded traceTerms file

/-- Loads what remains of a source. -/
def traceEach (one : Ref → TraceM Unit) : Nat → TermSource → TraceM Unit
  | 0, _ => throw .outOfFuel
  | n + 1, source => do
    silently (lift poll)
    match ← silently (lift (nextTerm source)) with
    | none => pure ()
    | some (t, source) =>
      let terms ← silently (lift (expand solve t))
      terms.forM one
      traceEach one n source

/-- Loads a source. -/
def traceSource : Nat → TermSource → TraceM Unit
  | 0, _ => throw .outOfFuel
  | depth + 1, source =>
    traceEach solve (traceTerm solve (traceSource depth)) (source.reader.lexer.input.length + 2) source

end

/-! ## The load without the trace -/

/-- The result without the turns. -/
def untraced : EStateM.Result Stop Traced α → EStateM.Result Stop Loading α
  | .ok a st => .ok a st.loading
  | .error e st => .error e st.loading

/-- Without the turns, the first action is the second. -/
def Mirrors (traced : TraceM α) (action : LoadM α) : Prop :=
  ∀ st, untraced (traced st) = action st.loading

theorem mirrors_pure (a : α) : Mirrors (pure a) (pure a) := fun _ => rfl

theorem mirrors_throw (e : Stop) : Mirrors (throw e : TraceM α) (throw e) := fun _ => rfl

theorem mirrors_silently (action : LoadM α) : Mirrors (silently action) action := by
  intro st
  rw [silently]
  rcases action st.loading with ⟨a, l⟩ | ⟨e, l⟩ <;> rfl

theorem Mirrors.bind {traced : TraceM α} {action : LoadM α} {f : α → TraceM β} {g : α → LoadM β}
    (h : Mirrors traced action) (hf : ∀ a, Mirrors (f a) (g a)) :
    Mirrors (traced >>= f) (action >>= g) := by
  intro st
  have hst := h st
  show untraced (EStateM.bind traced f st) = EStateM.bind action g st.loading
  rw [EStateM.bind, EStateM.bind, ← hst]
  rcases traced st with ⟨a, st'⟩ | ⟨e, st'⟩
  · exact hf a st'
  · rfl

theorem Mirrors.forM {f : α → TraceM PUnit} {g : α → LoadM PUnit} (h : ∀ a, Mirrors (f a) (g a))
    (as : List α) : Mirrors (as.forM f) (as.forM g) := by
  induction as with
  | nil => exact mirrors_pure _
  | cons a as ih => exact (h a).bind fun _ => ih

variable {solve : Ref → MachineM Bool} {traceTerms : TermSource → TraceM Unit}
  {loadTerms : TermSource → LoadM Unit}

theorem mirrors_traceTurn (i : Statement) : Mirrors (traceTurn solve i) (i.perform solve) := by
  intro st
  exact mirrors_silently (i.perform solve) { st with turns := st.turns ++ [⟨i, st.loading⟩] }

theorem mirrors_traceNamed (h : ∀ source, Mirrors (traceTerms source) (loadTerms source)) (name : String)
    (source : TermSource) : Mirrors (traceNamed traceTerms name source) (loadNamed loadTerms name source) := by
  intro st
  have hst := h source { st with loading := { st.loading with
    load := { st.loading.load with including := name :: st.loading.load.including } } }
  rw [traceNamed_eq, loadNamed_eq, ← hst]
  rcases traceTerms source _ with ⟨_, st'⟩ | ⟨e, st'⟩ <;> rfl

theorem mirrors_traceIncluded (h : ∀ source, Mirrors (traceTerms source) (loadTerms source))
    (file : Ref) : Mirrors (traceIncluded traceTerms file) (loadIncluded loadTerms file) := by
  rw [loadIncluded_eq]
  refine (mirrors_silently _).bind fun name => (mirrors_silently _).bind fun source =>
    (mirrors_silently _).bind fun load => ?_
  split
  · exact mirrors_silently _
  · exact mirrors_traceNamed h name source

/-- A term is a statement, which is dealt with, or an inclusion. -/
theorem loadTerm_eq (solve : Ref → MachineM Bool) (loadTerms : TermSource → LoadM Unit) (t : Ref) :
    loadTerm solve loadTerms t = (do
      match ← lift (look (Part.of · t)) with
      | .statement i => i.perform solve
      | .inclusion file => loadIncluded loadTerms file) := by
  funext l
  have hpart : lift (look (Part.of · t)) l = .ok (Part.of l.machine.store t) l := rfl
  rw [loadTerm_apply, bind_eq_of_ok hpart, Part.of]
  rcases TopLevel.of l.machine.store t with goal | u
  · dsimp only
    rw [directive_eq]
    show ((if !(Directive.of l.machine.store goal).isInclusion then change Load.noteDirective
      else pure () : LoadM Unit) >>= fun _ => carryOut solve loadTerms
        (Directive.of l.machine.store goal)) l = _
    rcases Directive.of l.machine.store goal with _ | _ | _ | _ | _ <;> rfl
  · rfl

theorem mirrors_traceTerm (h : ∀ source, Mirrors (traceTerms source) (loadTerms source)) (t : Ref) :
    Mirrors (traceTerm solve traceTerms t) (loadTerm solve loadTerms t) := by
  rw [loadTerm_eq]
  refine (mirrors_silently _).bind fun part => ?_
  cases part with
  | statement i => exact mirrors_traceTurn i
  | inclusion file => exact mirrors_traceIncluded h file

theorem mirrors_traceEach {one : Ref → TraceM Unit} {one' : Ref → LoadM Unit}
    (h : ∀ t, Mirrors (one t) (one' t)) (n : Nat) (source : TermSource) :
    Mirrors (traceEach solve one n source) (loadEach solve one' n source) := by
  induction n generalizing source with
  | zero => exact mirrors_throw _
  | succ n ih =>
    refine (mirrors_silently _).bind fun _ => (mirrors_silently _).bind fun next => ?_
    split
    · exact mirrors_pure _
    · exact (mirrors_silently _).bind fun terms => (Mirrors.forM h terms).bind fun _ => ih _

/-- **But for the turns, a load that is traced is the load.** -/
theorem mirrors_traceSource (solve : Ref → MachineM Bool) (depth : Nat) (source : TermSource) :
    Mirrors (traceSource solve depth source) (loadSource solve depth source) := by
  induction depth generalizing source with
  | zero => exact mirrors_throw _
  | succ depth ih => exact mirrors_traceEach (mirrors_traceTerm ih) _ _

/-! ## From turn to turn -/

/-- The turns lead from one state of the load to another: between them it is quiet, and every statement
is dealt with. -/
inductive Leads (solve : Ref → MachineM Bool) (l₀ : Loading) : List Turn → Loading → Prop
  /-- No turn so far. -/
  | start : Leads solve l₀ [] l₀
  /-- What happens between the turns. -/
  | between {turns : List Turn} {l l' : Loading} (h : Leads solve l₀ turns l) (hquiet : l.Quiet l') :
    Leads solve l₀ turns l'
  /-- A turn. -/
  | turn {turns : List Turn} {l l' : Loading} {i : Statement} (h : Leads solve l₀ turns l)
    (hperform : i.perform solve l = .ok () l') : Leads solve l₀ (turns ++ [⟨i, l⟩]) l'

/-- The load stops after the turns. -/
inductive Stops (solve : Ref → MachineM Bool) (l₀ : Loading) : List Turn → Stop → Loading → Prop
  /-- Between two of them, and it does not complain that clauses do not stand together, unless another
  load has begun. -/
  | between {turns : List Turn} {l l' : Loading} {e : Stop} (h : Leads solve l₀ turns l)
    (hquiet : l.Quiet l')
    (htidy : ∀ pi, e = .error (.discontiguous pi) → l.machine.loads < l'.machine.loads) :
    Stops solve l₀ turns e l'
  /-- At the last of them. -/
  | turn {turns : List Turn} {l l' l'' : Loading} {i : Statement} {e : Stop}
    (h : Leads solve l₀ turns l) (hperform : i.perform solve l = .error e l') (hquiet : l'.Quiet l'') :
    Stops solve l₀ (turns ++ [⟨i, l⟩]) e l''

variable {l₀ l l' : Loading} {turns earlier later : List Turn} {turn : Turn} {e : Stop}

theorem Stops.quiet (h : Stops solve l₀ turns e l) (hquiet : l.Quiet l') : Stops solve l₀ turns e l' := by
  cases h with
  | between h hquiet' htidy =>
    exact .between h (hquiet'.trans hquiet) fun pi he =>
      Nat.lt_of_lt_of_le (htidy pi he) hquiet.follows.loads_le
  | turn h hperform hquiet' => exact .turn h hperform (hquiet'.trans hquiet)

/-- The turns so far lead to the state, and if there is an error, the load stops after them. -/
def Comes (solve : Ref → MachineM Bool) (l₀ : Loading) : EStateM.Result Stop Traced α → Prop
  | .ok _ st => Leads solve l₀ st.turns st.loading
  | .error e st => Stops solve l₀ st.turns e st.loading

/-- Wherever turns have led, the action goes on from there. -/
def Tracks (solve : Ref → MachineM Bool) (action : TraceM α) : Prop :=
  ∀ l₀ st, Leads solve l₀ st.turns st.loading → Comes solve l₀ (action st)

theorem tracks_pure (a : α) : Tracks solve (pure a) := fun _ _ h => h

theorem tracks_outOfFuel : Tracks solve (throw .outOfFuel : TraceM α) :=
  fun _ _ h => .between h (.refl _) nofun

theorem Tracks.bind {action : TraceM α} {f : α → TraceM β} (h : Tracks solve action)
    (hf : ∀ a, Tracks solve (f a)) : Tracks solve (action >>= f) := by
  intro l₀ st hst
  have haction := h l₀ st hst
  rcases hresult : action st with ⟨a, st'⟩ | ⟨e, st'⟩
  · rw [bind_eq_of_ok hresult]
    rw [hresult] at haction
    exact hf a l₀ st' haction
  · rw [bind_eq_of_error hresult]
    rw [hresult] at haction
    exact haction

theorem Tracks.forM {f : α → TraceM PUnit} (h : ∀ a, Tracks solve (f a)) (as : List α) :
    Tracks solve (as.forM f) := by
  induction as with
  | nil => exact tracks_pure _
  | cons a as ih => exact (h a).bind fun _ => ih

theorem tracks_silently {action : LoadM α} (h : Quietly action) : Tracks solve (silently action) := by
  intro l₀ st hst
  have hquiet := h.quiet st.loading
  rw [silently]
  rcases hresult : action st.loading with ⟨a, l⟩ | ⟨e, l⟩
  · rw [hresult] at hquiet
    exact .between hst hquiet
  · rw [hresult] at hquiet
    exact .between hst hquiet fun pi he => h.tidy st.loading pi l (he ▸ hresult)

theorem tracks_traceTurn (i : Statement) : Tracks solve (traceTurn solve i) := by
  intro l₀ st hst
  show Comes solve l₀ (silently (i.perform solve) { st with turns := st.turns ++ [⟨i, st.loading⟩] })
  rw [silently]
  dsimp only
  rcases hresult : i.perform solve st.loading with ⟨_, l⟩ | ⟨e, l⟩
  · exact .turn hst hresult
  · exact .turn hst hresult (.refl l)

theorem quietly_current : Quietly current where
  quiet l := .refl l
  tidy _ _ _ herror := by cases herror

theorem tracks_traceNamed (h : ∀ source, Tracks solve (traceTerms source)) (name : String)
    (source : TermSource) : Tracks solve (traceNamed traceTerms name source) := by
  have henter : Quietly (change fun load => { load with including := name :: load.including }) :=
    quietly_change fun _ => ⟨rfl, rfl, rfl⟩
  refine (tracks_silently henter).bind fun _ l₀ st hst => ?_
  have hleave : Quietly (change fun load => { load with including := load.including.tail }) :=
    quietly_change fun _ => ⟨rfl, rfl, rfl⟩
  have hterms := h source l₀ st hst
  show Comes solve l₀ (match traceTerms source st with
    | .ok () st => silently (change fun load => { load with including := load.including.tail }) st
    | .error e st => (do
        silently (change fun load => { load with including := load.including.tail })
        throw e : TraceM Unit) st)
  rcases hresult : traceTerms source st with ⟨_, st'⟩ | ⟨e, st'⟩
  · rw [hresult] at hterms
    exact tracks_silently hleave l₀ st' hterms
  · rw [hresult] at hterms
    exact Stops.quiet hterms (hleave.quiet st'.loading)

theorem tracks_traceIncluded (h : ∀ source, Tracks solve (traceTerms source)) (file : Ref) :
    Tracks solve (traceIncluded traceTerms file) := by
  have hname : Orderly (examine (·.expectAtom file)) := closed_orderly.examine (tidy_expectAtom · file)
  refine (tracks_silently (quietly_lift hname)).bind fun name =>
    (tracks_silently (quietly_lift (closed_orderly.openSource name))).bind fun source =>
      (tracks_silently quietly_current).bind fun load => ?_
  split
  · exact tracks_silently (quietly_lift (closed_orderly.fail nofun))
  · exact tracks_traceNamed h name source

theorem tracks_traceTerm (h : ∀ source, Tracks solve (traceTerms source)) (t : Ref) :
    Tracks solve (traceTerm solve traceTerms t) := by
  refine (tracks_silently (quietly_lift (closed_orderly.look _))).bind fun part => ?_
  cases part with
  | statement i => exact tracks_traceTurn i
  | inclusion file => exact tracks_traceIncluded h file

variable (hsolve : ∀ goal, Orderly (solve goal))
include hsolve

theorem tracks_traceEach {one : Ref → TraceM Unit} (h : ∀ t, Tracks solve (one t)) (n : Nat)
    (source : TermSource) : Tracks solve (traceEach solve one n source) := by
  induction n generalizing source with
  | zero => exact tracks_outOfFuel
  | succ n ih =>
    refine (tracks_silently (quietly_lift closed_orderly.poll)).bind fun _ =>
      (tracks_silently (quietly_lift (closed_orderly.nextTerm source))).bind fun next => ?_
    split
    · exact tracks_pure _
    · exact (tracks_silently (quietly_lift (closed_orderly.expand hsolve _))).bind fun terms =>
        (Tracks.forM h terms).bind fun _ => ih _

/-- **The turns of a load lead from one to the next**, however deep sources are included. -/
theorem tracks_traceSource (depth : Nat) (source : TermSource) :
    Tracks solve (traceSource solve depth source) := by
  induction depth generalizing source with
  | zero => exact tracks_outOfFuel
  | succ depth ih => exact tracks_traceEach hsolve (tracks_traceTerm ih) _ _

omit hsolve in
/-- Every turn has come to its state by the turns before it, and its statement was dealt with. -/
theorem Leads.to_turn (h : Leads solve l₀ turns l) (hturns : turns = earlier ++ turn :: later) :
    Leads solve l₀ earlier turn.state ∧ ∃ l', turn.statement.perform solve turn.state = .ok () l' := by
  induction h generalizing later with
  | start => simp at hturns
  | between h hquiet ih => exact ih hturns
  | @turn turns l l' i h hperform ih =>
    -- Turns are added at the end: the turn is the one that was added last, or one before it.
    rcases List.eq_nil_or_concat later with rfl | ⟨later, last, rfl⟩
    · obtain ⟨rfl, heq⟩ := List.append_inj' hturns rfl
      cases heq
      exact ⟨h, l', hperform⟩
    · rw [List.concat_eq_append, ← List.cons_append, ← List.append_assoc] at hturns
      exact ih (List.append_inj' hturns rfl).1

omit hsolve in
/-- So has every turn of a load that stops.  If it is not the last one, its statement was dealt with, and
if it was not dealt with, the load stops with its error. -/
theorem Stops.to_turn (h : Stops solve l₀ turns e l) (hturns : turns = earlier ++ turn :: later) :
    Leads solve l₀ earlier turn.state ∧
      ((∃ l', turn.statement.perform solve turn.state = .ok () l') ∨
        later = [] ∧ ∃ l', turn.statement.perform solve turn.state = .error e l' ∧ l'.Quiet l) := by
  cases h with
  | between h hquiet htidy => exact (h.to_turn hturns).imp id .inl
  | @turn turns l l' l'' i e h hperform hquiet =>
    -- At the last turn the load has stopped; the others are those that led to it.
    rcases List.eq_nil_or_concat later with rfl | ⟨later, last, rfl⟩
    · obtain ⟨rfl, heq⟩ := List.append_inj' hturns rfl
      cases heq
      exact ⟨h, .inr ⟨rfl, l', hperform, hquiet⟩⟩
    · rw [List.concat_eq_append, ← List.cons_append, ← List.append_assoc] at hturns
      exact (h.to_turn (List.append_inj' hturns rfl).1).imp id .inl

/-- No load has begun at a turn that has not begun afterwards. -/
theorem Leads.loads_le (h : Leads solve l₀ turns l) :
    ∀ turn ∈ turns, turn.state.machine.loads ≤ l.machine.loads := by
  induction h with
  | start => exact nofun
  | between h hquiet ih => exact fun turn hturn => (ih turn hturn).trans hquiet.follows.loads_le
  | @turn turns l l' i h hperform ih =>
    have hle := (Statement.loads_le_perform hsolve i l).of_ok hperform
    intro turn hturn
    rcases List.mem_append.mp hturn with hturn | hturn
    · exact (ih turn hturn).trans hle
    · exact List.mem_singleton.mp hturn ▸ hle

theorem Stops.loads_le (h : Stops solve l₀ turns e l) :
    ∀ turn ∈ turns, turn.state.machine.loads ≤ l.machine.loads := by
  cases h with
  | between h hquiet => exact fun turn hturn => (h.loads_le hsolve turn hturn).trans hquiet.follows.loads_le
  | @turn turns l' l'' _ i _ h hperform hquiet =>
    -- No load that has begun is forgotten in an error.
    have hle := Statement.loads_le_perform hsolve i l'
    rw [hperform] at hle
    have hle' := Nat.le_trans hle hquiet.follows.loads_le
    have hearlier : ∀ turn ∈ turns, turn.state.machine.loads ≤ l'.machine.loads := h.loads_le hsolve
    intro turn hturn
    rcases List.mem_append.mp hturn with hturn | hturn
    · exact (hearlier turn hturn).trans hle'
    · exact List.mem_singleton.mp hturn ▸ hle'

end Loading

namespace Machine

open Loading

variable {m : Machine} {solve : Ref → MachineM Bool} {source : TermSource}

/-- Loads a source by itself, and takes down the turns. -/
def trace (solve : Ref → MachineM Bool) (source : TermSource) (m : Machine) :
    EStateM.Result Stop Traced Unit :=
  traceSource solve (m.sources.length + 2) source { loading := m.beginLoad source }

/-- The turns of the load of a source. -/
def turns (solve : Ref → MachineM Bool) (source : TermSource) (m : Machine) : List Turn :=
  match m.trace solve source with
  | .ok _ st => st.turns
  | .error _ st => st.turns

/-- But for the turns, a load that is traced is the load. -/
theorem load_eq_trace (solve : Ref → MachineM Bool) (source : TermSource) (m : Machine) :
    load solve source m = match m.trace solve source with
      | .ok () st => .ok () st.loading.machine
      | .error e st => .error e st.loading.machine := by
  have hmirrors := mirrors_traceSource solve (m.sources.length + 2) source { loading := m.beginLoad source }
  rw [load_eq, ← hmirrors, trace]
  rcases traceSource solve (m.sources.length + 2) source { loading := m.beginLoad source } with
    ⟨_, st⟩ | ⟨e, st⟩ <;> rfl

/-- **The turns of a load lead from one to the next.** -/
theorem comes_trace (hsolve : ∀ goal, Orderly (solve goal)) (source : TermSource) (m : Machine) :
    Comes solve (m.beginLoad source) (m.trace solve source) :=
  tracks_traceSource hsolve _ source _ { loading := m.beginLoad source } .start

/-- A load that stops does so after its turns. -/
theorem stops_of_load_error (hsolve : ∀ goal, Orderly (solve goal)) {e : Stop} {m' : Machine}
    (h : load solve source m = .error e m') :
    ∃ l, l.machine = m' ∧ Stops solve (m.beginLoad source) (m.turns solve source) e l := by
  have hcomes := comes_trace hsolve source m
  rw [load_eq_trace] at h
  rw [turns]
  rcases hresult : m.trace solve source with ⟨_, st⟩ | ⟨e, st⟩ <;> rw [hresult] at h hcomes
  · cases h
  · cases h
    exact ⟨st.loading, rfl, hcomes⟩

/-- **Every turn of a load** has come to its state by the turns before it.  Its statement was dealt with,
or it is the last turn and the load stops with its error. -/
theorem turn_cases (hsolve : ∀ goal, Orderly (solve goal)) {earlier later : List Turn} {turn : Turn}
    (h : m.turns solve source = earlier ++ turn :: later) :
    Leads solve (m.beginLoad source) earlier turn.state ∧
      ((∃ l', turn.statement.perform solve turn.state = .ok () l') ∨
        later = [] ∧ ∃ e l' m', turn.statement.perform solve turn.state = .error e l' ∧
          load solve source m = .error e m') := by
  have hcomes := comes_trace hsolve source m
  rw [turns] at h
  rw [load_eq_trace]
  rcases hresult : m.trace solve source with ⟨_, st⟩ | ⟨e, st⟩
  · rw [hresult] at h hcomes
    exact (Leads.to_turn hcomes h).imp id .inl
  · rw [hresult] at h hcomes
    refine (Stops.to_turn hcomes h).imp id fun hturn => ?_
    rcases hturn with hok | ⟨rfl, l', hperform, -⟩
    · exact .inl hok
    · exact .inr ⟨rfl, e, l', st.loading.machine, hperform, rfl⟩

/-- No load has begun at a turn that has not begun when the load ends. -/
theorem loads_le_of_mem_turns (hsolve : ∀ goal, Orderly (solve goal)) {turn : Turn}
    (h : turn ∈ m.turns solve source) :
    turn.state.machine.loads ≤ (after (load solve source) m).loads := by
  have hcomes := comes_trace hsolve source m
  rw [turns] at h
  rw [after, load_eq_trace]
  rcases hresult : m.trace solve source with ⟨_, st⟩ | ⟨e, st⟩
  · rw [hresult] at h hcomes
    exact Leads.loads_le hsolve hcomes turn h
  · rw [hresult] at h hcomes
    exact Stops.loads_le hsolve hcomes turn h

end Machine

end Clausal
