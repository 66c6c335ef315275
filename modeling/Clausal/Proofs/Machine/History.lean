import Clausal.Proofs.Machine.Ledger
import Clausal.Proofs.Machine.Sessions
import Clausal.Proofs.Machine.Traversal

/-! # The history of a machine's database

Whatever a machine does, its database changes by the events of a ledger and in no other way
(`Machine.Recorded`).  Searches and built-in predicates change it by the loads that they begin only, so
this is shown for loads, from the way of proving goals within, and is then a property of all actions
(`closed_recorded`).  What holds of all ledgers then holds of every database that a machine
comes to by compiling texts, consulting files and calling predicates (`Served.history`).
-/

namespace Clausal

namespace Machine

variable {α β : Type} {m m' m'' : Machine} {running : List Nat} {id : Nat}
  {solve : Ref → MachineM Bool}

/-- The ledger of a machine while the given loads are in progress. -/
def ledger (m : Machine) (running : List Nat) : Ledger := ⟨m.database, m.loads, running⟩

/-- What happened to the database from one machine to another, while the given loads are in
progress, is a run of its ledger. -/
def Follows (running : List Nat) (m m' : Machine) : Prop :=
  ∃ es, (m.ledger running).Run es (m'.ledger running)

theorem Follows.of_same (hdb : m'.database = m.database) (hloads : m'.loads = m.loads) :
    Follows running m m' := by
  refine ⟨[], ?_⟩
  rw [ledger, ledger, hdb, hloads]
  exact .nil _

theorem Follows.refl (running : List Nat) (m : Machine) : Follows running m m := .of_same rfl rfl

theorem Follows.trans (h : Follows running m m') (h' : Follows running m' m'') :
    Follows running m m'' := by
  obtain ⟨es, hes⟩ := h
  obtain ⟨es', hes'⟩ := h'
  exact ⟨es ++ es', hes.append hes'⟩

/-- A load that begins, does what it does, and ends. -/
theorem Follows.load (h : Follows ((m.loads + 1) :: running) { m with loads := m.loads + 1 } m') :
    Follows running m m' := by
  obtain ⟨es, hes⟩ := h
  refine ⟨.begin (m.loads + 1) :: (es ++ [.finish (m.loads + 1)]),
    .cons (.begin _ _ _) (hes.append (.cons (.finish _ _ _ _) (.nil _)))⟩

/-- Whatever the action comes to, its changes to the database are a run of the ledger. -/
def Recorded (running : List Nat) (action : MachineM α) : Prop :=
  ∀ m, Ends (action m) (fun _ m' => Follows running m m') (Follows running m)

theorem Recorded.bind {action : MachineM α} {f : α → MachineM β} (h : Recorded running action)
    (hf : ∀ a, Recorded running (f a)) : Recorded running (action >>= f) := fun m =>
  Ends.bind (h m) fun a m' hm' => (hf a m').imp (fun _ _ => hm'.trans) fun _ => hm'.trans

theorem recorded_pure (a : α) : Recorded running (pure a) := .refl running

theorem recorded_throw (e : Stop) : Recorded running (throw e : MachineM α) := .refl running

theorem recorded_fail (e : Error) : Recorded running (fail e : MachineM α) := .refl running

theorem recorded_look (f : Store → α) : Recorded running (look f) := .refl running

theorem recorded_onStore (f : Store → α × Store) : Recorded running (onStore f) :=
  fun _ => .of_same rfl rfl

theorem recorded_ofExcept (e : Except Error α) : Recorded running (ofExcept e) := by
  cases e with
  | ok a => exact recorded_pure a
  | error e => exact recorded_fail e

theorem recorded_examine (f : Store → Except Error α) : Recorded running (examine f) :=
  (recorded_look f).bind recorded_ofExcept

theorem Recorded.undoing {action : MachineM α} (h : Recorded running action) :
    Recorded running (undoing action) := by
  refine (recorded_look _).bind fun mark m => ?_
  have haction := h m
  rcases hresult : action m with ⟨a, m'⟩ | ⟨e, m'⟩
  · rw [hresult] at haction
    exact haction.trans (.of_same rfl rfl)
  · rw [hresult] at haction
    exact haction.trans (.of_same rfl rfl)

theorem Recorded.under {action : MachineM α} (h : Recorded running action) (c : Context) :
    Recorded running (under c action) := by
  intro m
  have haction := h { m with context := c }
  rw [Machine.under]
  rcases hresult : action { m with context := c } with ⟨a, m'⟩ | ⟨e, m'⟩
  · rw [hresult] at haction
    exact (Follows.of_same rfl rfl).trans (Follows.trans haction (.of_same rfl rfl))
  · rw [hresult] at haction
    exact (Follows.of_same rfl rfl).trans (Follows.trans haction (.of_same rfl rfl))

/-- What is made of looking and changing something else is recorded. -/
theorem composed_recorded (running : List Nat) : Composed (Recorded running) where
  pure := recorded_pure
  bind := Recorded.bind
  outOfFuel := recorded_throw _
  examine _ := recorded_examine _
  change hf := fun m => .of_same (hf m).database (hf m).loads
  undoing := Recorded.undoing

/-- An operation on the database that is an event of the innermost load. -/
theorem recorded_onDatabase {f : Database → Except Error (α × Database)}
    (hf : ∀ db a db' n, f db = .ok (a, db') →
      ∃ e, Ledger.Step ⟨db, n, running⟩ e ⟨db', n, running⟩) : Recorded running (onDatabase f) := by
  intro m
  refine Ends.bind (Q := fun m₁ m' => m' = m ∧ m₁ = m) ⟨rfl, rfl⟩ fun m₁ m' hm' => ?_
  obtain ⟨rfl, rfl⟩ := hm'
  rcases hresult : f m₁.database with e | ⟨a, db⟩
  · exact Follows.refl running m₁
  · obtain ⟨e, he⟩ := hf m₁.database a db m₁.loads hresult
    exact ⟨[e], .cons he (.nil _)⟩

theorem recorded_changeDatabase {f : Database → Except Error Database}
    (hf : ∀ db db' n, f db = .ok db' → ∃ e, Ledger.Step ⟨db, n, running⟩ e ⟨db', n, running⟩) :
    Recorded running (changeDatabase f) := by
  refine recorded_onDatabase fun db _ db' n h => hf db db' n ?_
  rcases hresult : f db with e | db₁
  · rw [hresult] at h
    cases h
  · rw [hresult] at h
    cases h
    rfl

end Machine

/-! ## Loads -/

namespace Loading

open Machine

variable {α β : Type} {running : List Nat} {id : Nat} {solve : Ref → MachineM Bool}
  {loadTerms : TermSource → LoadM Unit}

/-- The state of the load `id` has become another one of its states. -/
structure Goes (running : List Nat) (id : Nat) (l l' : Loading) : Prop where
  /-- What happened to the database is a run of the ledger. -/
  follows : Follows (id :: running) l.machine l'.machine
  /-- It is the same load. -/
  id_eq : l'.load.id = id

theorem Goes.trans {l l' l'' : Loading} (h : Goes running id l l') (h' : Goes running id l' l'') :
    Goes running id l l'' :=
  ⟨h.follows.trans h'.follows, h'.id_eq⟩

/-- Whatever the action comes to, what it does is recorded as done by the load `id`. -/
def Recorded (running : List Nat) (id : Nat) (action : LoadM α) : Prop :=
  ∀ l, l.load.id = id → Ends (action l) (fun _ l' => Goes running id l l') (Goes running id l)

theorem Recorded.bind {action : LoadM α} {f : α → LoadM β} (h : Recorded running id action)
    (hf : ∀ a, Recorded running id (f a)) : Recorded running id (action >>= f) := fun l hl =>
  Ends.bind (h l hl) fun a l' hl' =>
    (hf a l' hl'.id_eq).imp (fun _ _ => hl'.trans) fun _ => hl'.trans

theorem recorded_pure (a : α) : Recorded running id (pure a) := fun _ hl => ⟨.refl _ _, hl⟩

theorem recorded_throw (e : Stop) : Recorded running id (throw e : LoadM α) :=
  fun _ hl => ⟨.refl _ _, hl⟩

theorem recorded_lift {action : MachineM α} (h : Machine.Recorded (id :: running) action) :
    Recorded running id (lift action) := by
  intro l hl
  have haction := h l.machine
  rw [lift]
  rcases hresult : action l.machine with ⟨a, m'⟩ | ⟨e, m'⟩
  · rw [hresult] at haction
    exact ⟨haction, hl⟩
  · rw [hresult] at haction
    exact ⟨haction, hl⟩

theorem recorded_change {f : Load → Load} (hf : ∀ load, load.id = id → (f load).id = id) :
    Recorded running id (change f) := fun l hl => ⟨.refl _ _, hf l.load hl⟩

/-- What depends on the load's own state. -/
theorem recorded_current {f : Load → LoadM α} (hf : ∀ load, load.id = id → Recorded running id (f load)) :
    Recorded running id (current >>= f) := fun l hl => hf l.load hl l hl

theorem Recorded.forM {f : α → LoadM PUnit} {as : List α} (h : ∀ a, Recorded running id (f a)) :
    Recorded running id (as.forM f) := fun l hl =>
  Ends.forM (I := Goes running id l) (fun a _ l' hl' =>
    (h a l' hl'.id_eq).imp (fun _ _ => hl'.trans) fun _ => hl'.trans) ⟨.refl _ _, hl⟩

/-- A clause that is taken note of belongs to the same load. -/
theorem load_noteClause {load noted : Load} {pi : Indicator} {flags : Flags}
    (h : load.noteClause pi flags = .ok noted) : noted.id = load.id := by
  unfold Load.noteClause at h
  split at h
  · cases h
  · cases h
    rfl

theorem recorded_lift_error (e : Error) {f : β → LoadM α} :
    Recorded running id (lift (Machine.ofExcept (.error e)) >>= f) :=
  fun _ hl => ⟨.refl _ _, hl⟩

theorem recorded_lift_ok {b : β} {f : β → LoadM α} (h : Recorded running id (f b)) :
    Recorded running id (lift (Machine.ofExcept (.ok b)) >>= f) :=
  h

/-- **Adding a clause** touches its predicate and then adds it. -/
theorem recorded_addClause (t : Ref) : Recorded running id (addClause t) := by
  refine (recorded_lift (recorded_examine _)).bind fun c => recorded_current fun load hload => ?_
  subst hload
  refine (recorded_lift (recorded_onDatabase fun db p db' n h => ⟨_, .touch n running h⟩)).bind
    fun p => ?_
  -- A clause may be refused here, with its predicate touched already.
  rcases hnote : load.noteClause c.pi p.flags with e | noted
  · exact recorded_lift_error e
  · have hid : noted.id = load.id := load_noteClause hnote
    refine recorded_lift_ok ((recorded_change fun _ _ => hid).bind fun _ => ?_)
    exact recorded_lift (recorded_changeDatabase fun db db' n h => ⟨_, .append n running h⟩)

theorem recorded_declare (property : Property) (predicates : Ref) :
    Recorded running id (declare property predicates) := by
  refine recorded_current fun load hload => ?_
  subst hload
  refine (recorded_lift (recorded_examine _)).bind fun pis => Recorded.forM fun pi => ?_
  exact recorded_lift (recorded_changeDatabase fun db db' n h => ⟨_, .declare n running h⟩)

/-- A way of proving goals of which everything is recorded, whatever loads are in progress. -/
def RecordedSolve (solve : Ref → MachineM Bool) : Prop :=
  ∀ running goal, Machine.Recorded running (solve goal)

theorem recorded_require (hsolve : RecordedSolve solve) (goal : Ref) (failure : Term → Error) :
    Recorded running id (require solve goal failure) := by
  refine (recorded_lift (hsolve _ goal).undoing).bind fun found => ?_
  split
  · exact recorded_pure _
  · exact recorded_lift ((recorded_look _).bind fun t => recorded_fail _)

theorem recorded_loadNamed (hload : ∀ source, Recorded running id (loadTerms source)) (name : String)
    (source : TermSource) : Recorded running id (loadNamed loadTerms name source) := by
  intro l hl
  have hterms := hload source
    { l with load := { l.load with including := name :: l.load.including } } hl
  rw [loadNamed_eq]
  rcases hresult : loadTerms source _ with ⟨a, l'⟩ | ⟨e, l'⟩
  · rw [hresult] at hterms
    exact ⟨hterms.follows, hterms.id_eq⟩
  · rw [hresult] at hterms
    exact ⟨hterms.follows, hterms.id_eq⟩

theorem recorded_loadIncluded (hload : ∀ source, Recorded running id (loadTerms source)) (file : Ref) :
    Recorded running id (loadIncluded loadTerms file) := by
  rw [loadIncluded_eq]
  refine (recorded_lift (recorded_examine _)).bind fun name =>
    (recorded_lift ((composed_recorded _).openSource name)).bind fun source => recorded_current fun load _ => ?_
  split
  · exact recorded_lift (recorded_fail _)
  · exact recorded_loadNamed hload name source

theorem recorded_directive (hsolve : RecordedSolve solve)
    (hload : ∀ source, Recorded running id (loadTerms source)) (goal : Ref) :
    Recorded running id (directive solve loadTerms goal) := by
  rw [directive_eq]
  refine (recorded_lift (recorded_look _)).bind fun d => ?_
  have hnoted : Recorded running id
      (if !d.isInclusion then change Load.noteDirective else pure () : LoadM Unit) := by
    split
    · exact recorded_change (f := Load.noteDirective) fun _ => (·)
    · exact recorded_pure _
  refine hnoted.bind fun _ => ?_
  cases d with
  | declare property predicates => exact recorded_declare property predicates
  | inclusion file => exact recorded_loadIncluded hload file
  | ensureLoaded file => exact recorded_loadIncluded hload file
  | initialization goal => exact recorded_require hsolve goal _
  | goal goal => exact recorded_require hsolve goal _

theorem recorded_loadTerm (hsolve : RecordedSolve solve)
    (hload : ∀ source, Recorded running id (loadTerms source)) (t : Ref) :
    Recorded running id (loadTerm solve loadTerms t) := by
  refine (recorded_lift (recorded_look _)).bind fun d => ?_
  cases d with
  | clause t => exact recorded_addClause t
  | directive goal => exact recorded_directive hsolve hload goal

theorem recorded_loadEach (hsolve : RecordedSolve solve) {one : Ref → LoadM Unit}
    (hone : ∀ t, Recorded running id (one t)) (n : Nat) (source : TermSource) :
    Recorded running id (loadEach solve one n source) := by
  induction n generalizing source with
  | zero => exact recorded_throw _
  | succ n ih =>
    have hcomposed := composed_recorded (id :: running)
    refine (recorded_lift hcomposed.poll).bind fun _ =>
      (recorded_lift (hcomposed.nextTerm source)).bind fun next => ?_
    split
    · exact recorded_pure _
    · exact (recorded_lift (hcomposed.expand (hsolve _) _)).bind fun terms =>
        (Recorded.forM hone).bind fun _ => ih _

/-- **Loading a source is recorded as done by its load**, however deep sources are included. -/
theorem recorded_loadSource (hsolve : RecordedSolve solve) (depth : Nat) (source : TermSource) :
    Recorded running id (loadSource solve depth source) := by
  induction depth generalizing source with
  | zero => exact recorded_throw _
  | succ depth ih => exact recorded_loadEach hsolve (recorded_loadTerm hsolve ih) _ _

end Loading

/-! ## Machines -/

namespace Machine

variable {running : List Nat} {solve : Ref → MachineM Bool}

theorem recorded_load (hsolve : Loading.RecordedSolve solve) (source : TermSource) :
    Recorded running (load solve source) := by
  intro m
  have hload : Loading.Recorded running (m.loads + 1)
      (Loading.loadSource solve (m.sources.length + 2) source) :=
    Loading.recorded_loadSource hsolve _ source
  exact ends_load ((hload (m.beginLoad source) rfl).imp (fun _ _ h => .load h.follows)
    fun _ h => .load h.follows)

/-- **Everything that a machine does to its database is recorded**, however deep searches and loads are
nested. -/
theorem closed_recorded : Closed fun action => ∀ running, Recorded running action where
  pure a _ := recorded_pure a
  bind haction hf running := (haction running).bind fun a => hf a running
  outOfFuel _ := recorded_throw _
  examine hf running := (composed_recorded running).examine hf
  change hf running := (composed_recorded running).change hf
  undoing haction running := (haction running).undoing
  under c haction running := (haction running).under c
  load source hsolve _ := recorded_load (fun running goal => hsolve goal running) source

theorem recorded_solve (fuel : Nat) : Loading.RecordedSolve (Machine.solve fuel) :=
  fun running goal => closed_recorded.solve fuel goal running

theorem recorded_consultFiles (fuel : Nat) (c : Context) (files : Term) :
    Recorded running (consultFiles fuel c files) :=
  (recorded_onStore _).bind fun t => closed_recorded.consult (closed_recorded.solve fuel) c t running

theorem Recorded.after {α : Type} {action : MachineM α}
    (h : Recorded running action) (m : Machine) : Follows running m (after action m) := by
  have haction := h m
  rw [Machine.after]
  rcases hresult : action m with ⟨a, m'⟩ | ⟨e, m'⟩
  · rw [hresult] at haction
    exact haction
  · rw [hresult] at haction
    exact haction

/-- What is done with a machine: texts are compiled, files consulted and predicates called, each with
any outcome and any number of times.  In between, everything but the database may be changed. -/
inductive Served (m : Machine) : Machine → Prop
  /-- Nothing is done. -/
  | refl : Served m m
  /-- Terms are built, sources and contexts are made, and the like. -/
  | adjust {m' m'' : Machine} (h : Served m m') (hdb : m''.database = m'.database)
    (hloads : m''.loads = m'.loads) : Served m m''
  /-- A text is compiled. -/
  | compile {m' : Machine} (h : Served m m') (fuel : Nat) (c : Context) (text : String)
    (args : List Term) : Served m (after (compileText fuel c text args) m')
  /-- Files are consulted. -/
  | consult {m' : Machine} (h : Served m m') (fuel : Nat) (c : Context) (files : Term) :
    Served m (after (consultFiles fuel c files) m')
  /-- A predicate is called. -/
  | call {m' : Machine} (h : Served m m') (fuel : Nat) (pi : Indicator) (args : List Ref) :
    Served m (after (Machine.call fuel pi args) m')

/-- Whatever is done with a machine is recorded. -/
theorem Served.follows {m m' : Machine} (h : Served m m') : Follows [] m m' := by
  induction h with
  | refl => exact .refl [] m
  | adjust h hdb hloads ih => exact ih.trans (.of_same hdb hloads)
  | compile h fuel c text args ih =>
    exact ih.trans ((closed_recorded.compile (closed_recorded.solve fuel) c text args []).after _)
  | consult h fuel c files ih =>
    exact ih.trans ((recorded_consultFiles fuel c files).after _)
  | call h fuel pi args ih =>
    exact ih.trans ((closed_recorded.callWith (closed_recorded.solve fuel) pi args []).after _)

/-- A new machine has built-in predicates only. -/
theorem find?_build_ne (operators : List (String × Nat × Specifier))
    (builtins : List (Indicator × Builtin)) (defaults : Bool) (pi : Indicator) (p : Predicate) :
    (build operators builtins defaults).database.find? pi ≠ some (.defined p) := by
  refine build_database (P := fun db => db.find? pi ≠ some (.defined p)) ?_ ?_ operators builtins defaults
  · intro hfind
    cases hfind
  · intro db q b hdb hfind
    rw [Database.find?_insert] at hfind
    split at hfind
    · cases hfind
    · exact hdb hfind

/-- **The databases that a machine comes to.**  Let a new machine have come to `m` and later to `m'`, by
operations of any outcome, within which loads may be nested to any depth.  What happened to the
database is the run of a ledger, in which no two loads have the same number and it is always the
innermost load that changes the database.  Of any two moments of any such run:

* every predicate that is built in at the first one is the same built-in predicate at the second;
* every predicate that is multifile, dynamic or public at the first has its flags at the second, and
  its clauses, with others after them;
* the clauses of a predicate that is none of these are the latest ones that were added to it, all by
  one load. -/
theorem Served.history {operators : List (String × Nat × Specifier)}
    {builtins : List (Indicator × Builtin)} {defaults : Bool} {m m' : Machine}
    (h : Served (build operators builtins defaults) m) (h' : Served m m') :
    let new := (build operators builtins defaults).ledger []
    (∃ es es', new.Run es (m.ledger []) ∧ (m.ledger []).Run es' (m'.ledger [])) ∧
    ∀ es led es' led', new.Run es led → led.Run es' led' →
      ((es ++ es').filterMap Event.begun?).Nodup ∧
      (∀ pi b, led.database.find? pi = some (.builtin b) →
        led'.database.find? pi = some (.builtin b)) ∧
      (∀ pi p, led.database.find? pi = some (.defined p) →
        p.flags.multifile = true ∨ p.flags.dynamic = true ∨ p.flags.inspectable = true →
        ∃ p', led'.database.find? pi = some (.defined p') ∧ p.flags.Within p'.flags ∧
          p.clauses <+: p'.clauses) ∧
      ∀ pi p, led'.database.find? pi = some (.defined p) →
        p.flags.multifile = false → p.flags.dynamic = false → p.flags.inspectable = false →
        ∃ load added, added <:+ (es ++ es').filterMap (Event.added? pi) ∧
          p.clauses = added.map Prod.snd ∧ ∀ a ∈ added, a.1 = load := by
  obtain ⟨es, hes⟩ := h.follows
  obtain ⟨es', hes'⟩ := h'.follows
  refine ⟨⟨es, es', hes, hes'⟩, fun es led es' led' hrun hrun' => ?_⟩
  have hall := hrun.append hrun'
  refine ⟨hall.begun.1, hrun'.keeps.builtin, fun pi p hp hflags => ?_,
    fun pi p hp hmultifile hdynamic hinspectable => ?_⟩
  · obtain ⟨p', hp', hext⟩ := hrun'.keeps.accumulating pi p hp (by
      simpa [Flags.accumulates, or_assoc] using hflags)
    exact ⟨p', hp', hext.flags, hext.clauses⟩
  · exact hall.singleLoads (find?_build_ne operators builtins defaults) pi p hp (by
      simp [Flags.accumulates, hmultifile, hdynamic, hinspectable])

/-- Two texts one after the other: `d` is dynamic and gets another clause, `a` is defined anew. -/
theorem history_of_two_texts :
    let new := build [] [] true
    let m := after (compileText 8 ⟨0⟩ ":- dynamic(d/0). d. a." []) new
    let m' := after (compileText 8 ⟨0⟩ "d. a. a." []) m
    Served new m ∧ Served m m' ∧
    (∃ p p', m.database.find? ⟨"d", 0⟩ = some (.defined p) ∧ p.flags.dynamic = true ∧
      p.clauses ≠ [] ∧ m'.database.find? ⟨"d", 0⟩ = some (.defined p') ∧ p.clauses <+: p'.clauses) ∧
    ∃ es p load added, (new.ledger []).Run es (m'.ledger []) ∧
      m'.database.find? ⟨"a", 0⟩ = some (.defined p) ∧ p.clauses.length = 2 ∧
      added <:+ es.filterMap (Event.added? ⟨"a", 0⟩) ∧ p.clauses = added.map Prod.snd ∧
      ∀ a ∈ added, a.1 = load := by
  intro new m m'
  have hm : Served new m := .compile .refl 8 ⟨0⟩ _ []
  have hm' : Served m m' := .compile .refl 8 ⟨0⟩ _ []
  have hd : ∃ p ∈ m.database.predicate? ⟨"d", 0⟩, p.flags.dynamic = true ∧ p.clauses ≠ [] := by
    decide +kernel
  have ha : ∃ p ∈ m'.database.predicate? ⟨"a", 0⟩, p.clauses.length = 2 ∧ p.flags = {} := by
    decide +kernel
  clear_value m' m
  obtain ⟨⟨es, es', hes, hes'⟩, hall⟩ := hm.history hm'
  obtain ⟨-, -, hkept, hsingle⟩ := hall es _ es' _ hes hes'
  refine ⟨hm, hm', ?_, ?_⟩
  · obtain ⟨p, hp, hdynamic, hne⟩ := hd
    have hp := Database.predicate?_eq_some.mp hp
    obtain ⟨p', hp', -, hclauses⟩ := hkept _ p hp (.inr (.inl hdynamic))
    exact ⟨p, p', hp, hdynamic, hne, hp', hclauses⟩
  · obtain ⟨p, hp, hlength, hflags⟩ := ha
    have hp := Database.predicate?_eq_some.mp hp
    obtain ⟨load, added, hadded⟩ := hsingle _ p hp (by rw [hflags]) (by rw [hflags]) (by rw [hflags])
    exact ⟨es ++ es', p, load, added, hes.append hes', hp, hlength, hadded⟩

end Machine

end Clausal
