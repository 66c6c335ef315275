import Clausal.Proofs.Machine.Searching

/-! # Stored clauses while programs run

A session is a machine on which texts are compiled, files consulted and predicates called, in any
order and with any outcome (`Session`).  While one of these operations runs, it is at any moment in
the middle of a search or of a load (`Activity`), and from these it comes to others: by a step, or by
beginning a search or a load within (`Moves`).

Loads are where a clause and a goal can meet.  A term of a source may be expanded to several, and if
one of these is a clause and a later one a directive, they may share variables; the directive then
runs on the variables of the stored clause.  `Moves D` describes runs in which all variables that a
directive shares with stored clauses are in the set `D`.  The main result is that in all that such a
run comes to, the variables of stored clauses outside `D` are free, so that clauses without variables
in `D` are resolved with as they were compiled (`Session.clauses_unbound`).  Without sharing, `D` is
empty and this is true of all clauses; the last example shows that sharing does happen.
-/

namespace Clausal

open Store Relation

namespace Machine

variable {m m' : Machine} {R L : List Ref} {D : Set Ref} {n : Nat} {s : Store} {t : Ref}

/-! ## Clauses out of reach -/

/-- Apart from those in `D`, the variables of stored clauses are free and not reached from the
terms. -/
def Clear (D : Set Ref) (R : List Ref) (m : Machine) : Prop :=
  ∀ pi c, m.database.Holds pi c → ∀ v ∈ c.vars, v ∉ D →
    m.store.Free v ∧ ∀ r ∈ R, ¬ m.store.Reaches r v

theorem Clear.evolve (h : m.Clear D R) (he : Evolves m m' R L) : m'.Clear D L := by
  intro pi c hc v hv hD
  rcases he.clauses pi c hc with hold | hnew
  · obtain ⟨hfree, hout⟩ := h pi c hold v hv hD
    obtain ⟨hfree', -, hout'⟩ := he.spares v hfree hout
    exact ⟨hfree', hout'⟩
  · obtain ⟨-, hfree, -, hout⟩ := hnew v hv
    exact ⟨hfree, hout⟩

theorem Clear.settle (h : m.Clear D []) (hm : Settles n m m') : m'.Clear D [] := by
  intro pi c hc v hv hD
  refine ⟨?_, nofun⟩
  rcases hm.clauses pi c hc with hold | hnew
  · exact hm.grows.free_of_nil (h pi c hold v hv hD).1
  · exact (hnew v hv).2

theorem Clear.mono {E : Set Ref} (h : m.Clear D R) (hD : D ⊆ E) : m.Clear E R :=
  fun pi c hc v hv hE => h pi c hc v hv fun hmem => hE (hD hmem)

theorem Clear.nil (h : m.Clear D R) : m.Clear D [] :=
  fun pi c hc v hv hD => ⟨(h pi c hc v hv hD).1, nofun⟩

/-- A machine with the same store and the same clauses. -/
theorem Clear.congr (h : m.Clear D R) (hs : m'.store = m.store)
    (hdb : m'.database = m.database) : m'.Clear D R := by
  rw [Clear, hs, hdb]
  exact h

theorem Sound.congr (h : m.Sound) (hs : m'.store = m.store) (hdb : m'.database = m.database) :
    m'.Sound :=
  ((Settles.refl h 0).congr hs hdb).sound

/-- The machine is sound, its clauses mean what they meant in the store `s`, and apart from those in
`D` their variables are free and not reached from the terms. -/
structure Intact (s : Store) (D : Set Ref) (R : List Ref) (m : Machine) : Prop where
  /-- The machine is sound. -/
  sound : m.Sound
  /-- The clauses are kept. -/
  persists : Persists s m.store
  /-- Their variables are out of reach. -/
  clear : m.Clear D R

theorem Intact.evolve (h : m.Intact s D R) (he : Evolves m m' R L) : m'.Intact s D L where
  sound := he.sound
  persists := by
    obtain ⟨vs, hgrows⟩ := he.grows
    exact h.persists.trans (hgrows.persists h.sound.trailed)
  clear := h.clear.evolve he

theorem Intact.settle (h : m.Intact s D []) (hm : Settles n m m') : m'.Intact s D [] where
  sound := hm.sound
  persists := h.persists.trans (hm.grows.persists h.sound.trailed)
  clear := h.clear.settle hm

theorem Intact.nil (h : m.Intact s D R) : m.Intact s D [] :=
  ⟨h.sound, h.persists, h.clear.nil⟩

theorem Intact.congr (h : m.Intact s D R) (hs : m'.store = m.store)
    (hdb : m'.database = m.database) : m'.Intact s D R :=
  ⟨h.sound.congr hs hdb, hs ▸ h.persists, h.clear.congr hs hdb⟩

/-! ## Activities -/

/-- What a machine is in the middle of.  The fuel is that of the searches within. -/
inductive Activity where
  /-- A search, about to take up its next frame. -/
  | searching (fuel : Nat) (m : Machine) (S : Search)
  /-- Loading files one after the other. -/
  | consulting (fuel : Nat) (m : Machine) (names : List String)
  /-- A load, about to read the next term of a source, in which sources may be included at most
  `depth` levels deep. -/
  | reading (fuel depth : Nat) (source : TermSource) (l : Loading)
  /-- A load, about to load the terms that a term of the source was expanded to. -/
  | loading (fuel depth : Nat) (ts : List Ref) (source : TermSource) (l : Loading)

namespace Activity

/-- The machine as it is. -/
def machine : Activity → Machine
  | searching _ m _ => m
  | consulting _ m _ => m
  | reading _ _ _ l => l.machine
  | loading _ _ _ _ l => l.machine

/-- Beginning to prove a goal. -/
def prove (fuel : Nat) (m : Machine) (goal : Ref) : Activity :=
  searching fuel m { goals := [.goal goal 0] }

/-- Beginning to load a source by itself. -/
def load (fuel : Nat) (m : Machine) (source : TermSource) : Activity :=
  reading fuel (m.sources.length + 1) source
    { machine := { m with loads := m.loads + 1 }
      load := { id := m.loads + 1, including := [source.name] } }

/-- Beginning to load a text under a context. -/
def compile (fuel : Nat) (m : Machine) (c : Context) (text : String)
    (placeholders : Option (List Term)) : Activity :=
  load fuel { m with context := c } (m.source "user" (.ofText text) placeholders)

end Activity

/-- The searches and loads that begin within built-in predicates. -/
inductive Begins (m : Machine) : Nat → Builtin → List Ref → Activity → Prop
  | once {k a} :
    Begins m (k + 1) .once [a]
      (.prove k { m with store := (m.store.apply "call" [a]).2 } (m.store.apply "call" [a]).1)
  | copyTerm {k t u rest goal} (hgoal : (m.store.copy t).2.apply "=" [(m.store.copy t).1, u] = goal) :
    Begins m (k + 1) .copyTerm (t :: u :: rest) (.prove k { m with store := goal.2 } goal.1)
  | consult {k t rest names} (hnames : fileNames m.store t = .ok names) :
    Begins m k .consult (t :: rest) (.consulting k m names)
  | compile {k t rest text} (htext : m.store.atom? t = some text) :
    Begins m k .compile (t :: rest) (.compile k m m.request text none)
  | compileDetached {k t rest text} (htext : m.store.atom? t = some text) :
    Begins m k .compileDetached (t :: rest)
      (.compile k { m with contexts := m.contexts + 1 } ⟨m.contexts⟩ text none)

/-- From one activity to the next, or to one within.  A directive may share with stored clauses the
variables in `D`. -/
inductive Moves (D : Set Ref) : Activity → Activity → Prop
  /-- A step of a search. -/
  | step {k m m' frame goals choices S}
    (hstep : Search.step (Builtin.run (solve k)) frame goals choices m = .ok (some S) m') :
    Moves D (.searching k m ⟨frame :: goals, choices⟩) (.searching k m' S)
  /-- Into a built-in predicate that a step runs. -/
  | builtin {k m t barrier goals choices name args pi us b a}
    (hcallee : Search.callee (m.store.deref t) m = .ok (name, args) m)
    (hcontrol : Search.Control.of m.store name args = .procedure pi us)
    (hfind : m.database.find? pi = some (.builtin b)) (hbegins : Begins m k b us a) :
    Moves D (.searching k m ⟨.goal t barrier :: goals, choices⟩) a
  /-- Into the load of a file. -/
  | file {k m m' name names source} (hopen : openSource name m = .ok source m') :
    Moves D (.consulting k m (name :: names)) (.load k m' source)
  /-- On to the next file. -/
  | nextFile {k m m' name names}
    (hload : (do poll; Machine.load (solve k) (← openSource name) : MachineM Unit) m = .ok () m') :
    Moves D (.consulting k m (name :: names)) (.consulting k m' names)
  /-- Into the expansion of a term by the program's rules. -/
  | expansion {k depth source l t source' m}
    (hread : nextTerm source l.machine = .ok (some (t, source')) m) (hrules : m.expansion = .byRules) :
    Moves D (.reading (k + 1) depth source l)
      (.prove k { m with store := (Loading.expansionGoal t m.store).2 }
        (Loading.expansionGoal t m.store).1.2)
  /-- On to the terms that a term was expanded to. -/
  | expanded {k depth source l t source' m ts m'}
    (hread : nextTerm source l.machine = .ok (some (t, source')) m)
    (hexpand : Loading.expand (solve k) t m = .ok ts m') :
    Moves D (.reading k depth source l) (.loading k depth ts source' { l with machine := m' })
  /-- Into the goal of a directive. -/
  | directive {k depth t ts source l g u} (hterm : TopLevel.of l.machine.store t = .directive g)
    (hgoal : Directive.of l.machine.store g = .goal u ∨
      Directive.of l.machine.store g = .initialization u)
    (hshared : ∀ pi c, l.machine.database.Holds pi c → ∀ v ∈ c.vars,
      l.machine.store.Reaches u v → v ∈ D) :
    Moves D (.loading (k + 1) depth (t :: ts) source l) (.prove k l.machine u)
  /-- Into an included source. -/
  | inclusion {k depth t ts source l g file name source' m}
    (hterm : TopLevel.of l.machine.store t = .directive g)
    (hfile : Directive.of l.machine.store g = .inclusion file ∨
      Directive.of l.machine.store g = .ensureLoaded file)
    (hname : l.machine.store.expectAtom file = .ok name)
    (hopen : openSource name l.machine = .ok source' m) :
    Moves D (.loading k (depth + 1) (t :: ts) source l)
      (.reading k depth source'
        ⟨m, { l.load with including := name :: l.load.including }⟩)
  /-- On to the next of the terms. -/
  | loaded {k depth t ts source l l'}
    (hload : Loading.loadTerm (solve k) (Loading.loadSource (solve k) depth) t l = .ok () l') :
    Moves D (.loading k depth (t :: ts) source l) (.loading k depth ts source l')
  /-- On to the next term of the source. -/
  | nextTerm {k depth source l} :
    Moves D (.loading k depth [] source l) (.reading k depth source l)

/-! ## Sessions -/

/-- The terms are not taken from stored clauses. -/
def Fresh (m : Machine) (args : List Ref) : Prop :=
  ∀ a ∈ args, a.index < m.store.size ∧
    ∀ pi c, m.database.Holds pi c → ∀ v ∈ c.vars, ¬ m.store.Reaches a v

/-- The machine that an action leaves, whatever it comes to. -/
def after {α : Type} (action : MachineM α) (m : Machine) : Machine :=
  match action m with
  | .ok _ m => m
  | .error _ m => m

/-- An action that gives a value. -/
theorem ok_after {α : Type} {action : MachineM α} {m : Machine} {a : α}
    (h : (value? (action m)).map Prod.fst = some a) : action m = .ok a (after action m) := by
  obtain ⟨⟨_, m'⟩, hvalue, rfl⟩ := Option.map_eq_some_iff.mp h
  rw [value?_eq_some] at hvalue
  rw [after, hvalue]

/-- The machines of a session, between operations. -/
inductive Session : Machine → Prop
  /-- A new machine. -/
  | build (operators : List (String × Nat × Specifier)) (builtins : List (Indicator × Builtin))
    (defaults : Bool) : Session (Machine.build operators builtins defaults)
  /-- Sources, contexts and the like are changed. -/
  | adjust {m m' : Machine} (h : Session m) (hs : m'.store = m.store) (hdb : m'.database = m.database) :
    Session m'
  /-- Terms are built or read. -/
  | allocate {m : Machine} {s : Store} (h : Session m) (hs : Adds m.store s) : Session { m with store := s }
  /-- A text is compiled. -/
  | compile {m : Machine} (h : Session m) (fuel : Nat) (c : Context) (text : String)
    {args : List Term} (hargs : ∀ x ∈ args, x.WellMade) : Session (after (compileText fuel c text args) m)
  /-- Files are consulted. -/
  | consult {m : Machine} (h : Session m) (fuel : Nat) (c : Context) {files : Term} (hfiles : files.WellMade) :
    Session (after (consultFiles fuel c files) m)
  /-- A predicate is called. -/
  | call {m : Machine} (h : Session m) (fuel : Nat) (pi : Indicator) {args : List Ref} (hargs : m.Fresh args) :
    Session (after (Machine.call fuel pi args) m)

/-- Beginning an operation. -/
inductive Operation (m : Machine) : Activity → Prop
  | compile (fuel : Nat) (c : Context) (text : String) {args : List Term}
    (hargs : ∀ x ∈ args, x.WellMade) :
    Operation m (.compile fuel m c text (if args.isEmpty then none else some args))
  | consult (fuel : Nat) (c : Context) {files : Term} {names : List String} (hfiles : files.WellMade)
    (hnames : fileNames (m.store.build files).2 (m.store.build files).1 = .ok names) :
    Operation m (.consulting fuel { m with store := (m.store.build files).2, context := c } names)
  | call (fuel : Nat) (pi : Indicator) {args : List Ref} (hargs : m.Fresh args) :
    Operation m (.prove fuel { m with store := (m.store.apply pi.name args).2 }
      (m.store.apply pi.name args).1)

/-! ## What holds between operations -/

theorem holds_insert_builtin {db : Database} {pi q : Indicator} {b : Builtin} {c : Clause}
    (h : (db.insert q (.builtin b)).Holds pi c) : db.Holds pi c := by
  obtain ⟨p, hmem, hc⟩ := h
  rcases Database.mem_set hmem with heq | hmem
  · cases heq
  · exact ⟨p, hmem, hc⟩

/-- The database of a new machine, as built-in predicates are put into it. -/
theorem build_database {P : Database → Prop} (hnone : P {})
    (hinsert : ∀ db pi b, P db → P (db.insert pi (.builtin b))) (operators : List (String × Nat × Specifier))
    (builtins : List (Indicator × Builtin)) (defaults : Bool) :
    P (Machine.build operators builtins defaults).database :=
  List.foldlRecOn _ _ hnone fun db hdb e _ => hinsert db e.1 e.2 hdb

/-- A new machine has no clauses. -/
theorem not_holds_build (operators : List (String × Nat × Specifier))
    (builtins : List (Indicator × Builtin)) (defaults : Bool) {pi : Indicator} {c : Clause} :
    ¬ (Machine.build operators builtins defaults).database.Holds pi c := by
  refine build_database (P := fun db => ¬ db.Holds pi c) ?_ ?_ operators builtins defaults
  · rintro ⟨p, hmem, -⟩
    cases hmem
  · intro db q b hdb hc
    exact hdb (holds_insert_builtin hc)

/-- A call evolves from its arguments. -/
theorem Fresh.clear (h : m.Fresh R) (hm : m.Clear D []) : m.Clear D R :=
  fun pi c hc v hv hD => ⟨(hm pi c hc v hv hD).1, fun r hr => (h r hr).2 pi c hc v hv⟩

theorem Clear.after_evolving {α : Type} {action : MachineM α} {refs : α → List Ref}
    (hclear : m.Clear D R) (h : Evolving m R action refs) :
    (after action m).Sound ∧ (after action m).Clear D [] := by
  unfold after
  rcases haction : action m with ⟨a, m'⟩ | ⟨e, m'⟩
  · rw [Evolving, haction] at h
    exact ⟨h.sound, (hclear.evolve h).nil⟩
  · rw [Evolving, haction] at h
    exact ⟨h.sound, hclear.evolve h⟩

theorem Clear.after_settling {α : Type} {action : MachineM α} {P : α → Machine → Prop}
    (hclear : m.Clear D []) (h : Settling n m action P) :
    (after action m).Sound ∧ (after action m).Clear D [] := by
  unfold after
  rcases haction : action m with ⟨a, m'⟩ | ⟨e, m'⟩
  · rw [Settling, haction] at h
    exact ⟨h.1.sound, hclear.settle h.1⟩
  · rw [Settling, haction] at h
    exact ⟨h.sound, hclear.settle h⟩

/-- **Between operations the machine is sound, and the variables of stored clauses are free.** -/
theorem Session.sound (h : Session m) : m.Sound ∧ m.Clear ∅ [] := by
  induction h with
  | build operators builtins defaults =>
    have hnone : ∀ pi c, ¬ (Machine.build operators builtins defaults).database.Holds pi c :=
      fun _ _ => not_holds_build operators builtins defaults
    exact ⟨⟨wellFormed_empty, trailed_empty, fun pi c hc => absurd hc (hnone pi c),
      fun pi c hc => absurd hc (hnone pi c)⟩, fun pi c hc => absurd hc (hnone pi c)⟩
  | adjust h hs hdb ih => exact ⟨ih.1.congr hs hdb, ih.2.congr hs hdb⟩
  | allocate h hs ih =>
    have hm := ih.1.settles_adds hs 0
    exact ⟨hm.sound, ih.2.settle hm⟩
  | compile h fuel c text hargs ih =>
    exact ih.2.after_settling
      (settling_compile (proper_solve fuel) ih.1 (Nat.zero_le _) c text hargs)
  | @consult m h fuel c files hfiles ih =>
    have hbuild := (Adds.refl ih.1.wellFormed).build hfiles
    have hload : Settling 0 m (consultFiles fuel c files) fun _ _ => True :=
      (settling_onStore (P := fun _ _ => True) ih.1 hbuild.adds trivial).bind fun t m' hm' _ =>
        settling_consult (proper_solve fuel) hm'.sound (Nat.zero_le _) c t
    exact ih.2.after_settling hload
  | call h fuel pi hargs ih =>
    exact (hargs.clear ih.2).after_evolving
      (evolving_callWith (proper_solve fuel) ih.1 pi fun a ha => (hargs a ha).1)

/-! ## What holds while an operation runs -/

namespace Activity

/-- What an activity is reached with: the machine is intact, no variable of its clauses outside `D`
is reached from what is being proved, and terms to be loaded are detached. -/
def Safe (s : Store) (D : Set Ref) : Activity → Prop
  | searching _ m S => ∃ m₀ R, m₀.Intact s D R ∧
    Search.Holding m₀ R m (S.goals.flatMap Frame.refs) S.choices
  | consulting _ m _ => m.Intact s D []
  | reading _ _ source l => l.machine.Intact s D [] ∧ source.reader.Sound
  | loading _ _ ts source l => l.machine.Intact s D [] ∧ source.reader.Sound ∧
    Loading.Waiting 0 ts l.machine

variable {a a' : Activity}

/-- The goals that a search is about, innermost first, and those to which it can turn back. -/
def goals : Activity → List Ref
  | searching _ _ S => S.refs
  | _ => []

theorem Safe.intact (h : a.Safe s D) : a.machine.Intact s D a.goals := by
  cases a with
  | searching fuel m S =>
    obtain ⟨m₀, R, hm₀, hold⟩ := h
    exact hm₀.evolve hold.evolves
  | consulting fuel m names => exact h
  | reading fuel depth source l => exact h.1
  | loading fuel depth ts source l => exact h.1

theorem safe_prove {fuel : Nat} {goal : Ref} (h : m.Intact s D [goal])
    (hgoal : goal.index < m.store.size) : (prove fuel m goal).Safe s D := by
  refine ⟨m, [goal], h, ?_, nofun, nofun⟩
  exact (h.sound.evolves_refl (List.forall_mem_singleton.mpr hgoal)).subset (by simp [Frame.refs])

/-- Proving a goal that was made from other terms. -/
theorem safe_prove_of_evolves {fuel : Nat} {goal : Ref} (h : m.Intact s D R)
    (he : Evolves m m' R [goal]) : (prove fuel m' goal).Safe s D :=
  safe_prove (h.evolve he) (he.lt goal List.mem_cons_self)

theorem safe_load {fuel : Nat} {source : TermSource} (h : m.Intact s D [])
    (hsource : source.reader.Sound) : (load fuel m source).Safe s D :=
  ⟨h.congr rfl rfl, hsource⟩

theorem safe_compile {fuel : Nat} {c : Context} {text : String} {placeholders : Option (List Term)}
    (h : m.Intact s D []) (hp : ∀ ts, placeholders = some ts → ∀ x ∈ ts, x.WellMade) :
    (compile fuel m c text placeholders).Safe s D :=
  safe_load (h.congr rfl rfl) (TermReader.sound_ofInput _ _ hp)

/-- Within a built-in predicate. -/
theorem safe_of_begins {fuel : Nat} {b : Builtin} {args : List Ref} (h : m.Intact s D args)
    (hargs : ∀ r ∈ args, r.index < m.store.size) (hbegins : Begins m fuel b args a) :
    a.Safe s D := by
  cases hbegins with
  | once => exact safe_prove_of_evolves h (h.sound.evolves_apply "call" hargs)
  | @copyTerm k t u rest goal hgoal =>
    subst hgoal
    have ht := hargs t List.mem_cons_self
    have hcopy := h.sound.evolves_copy ht (t :: u :: rest)
    have hboth : Evolves m { m with store := (m.store.copy t).2 } (t :: u :: rest)
        ([(m.store.copy t).1] ++ [u]) := by
      refine hcopy.within (fun _ => id) fun r hr => ?_
      rw [List.mem_singleton] at hr
      subst hr
      exact ⟨by simp, hargs r (by simp)⟩
    exact safe_prove_of_evolves h (hboth.trans (hboth.sound.evolves_apply "=" hboth.lt))
  | consult => exact h.nil
  | compile => exact safe_compile h.nil nofun
  | compileDetached => exact safe_compile (h.nil.congr rfl rfl) nofun

/-- **An operation begins safely.** -/
theorem safe_of_operation (h : Session m) (hbegin : Operation m a) : a.Safe m.store D := by
  obtain ⟨hsound, hclear⟩ := h.sound
  have hm : m.Intact m.store D [] := ⟨hsound, .refl _, hclear.mono (Set.empty_subset D)⟩
  cases hbegin with
  | compile fuel c text hargs =>
    refine safe_compile hm fun ts hts => ?_
    split at hts
    · cases hts
    · cases hts
      exact hargs
  | consult fuel c hfiles hnames =>
    have hbuild := (Adds.refl hsound.wellFormed).build hfiles
    exact (hm.settle (hsound.settles_adds hbuild.adds 0)).congr rfl rfl
  | @call fuel pi args hargs =>
    have hm' : m.Intact m.store D args := ⟨hsound, .refl _, hargs.clear hm.clear⟩
    exact safe_prove_of_evolves hm' (hsound.evolves_apply pi.name fun r hr => (hargs r hr).1)

/-- **What is reached from what is safe is safe.** -/
theorem Safe.moves (h : a.Safe s D) (hmoves : Moves D a a') : a'.Safe s D := by
  cases hmoves with
  | @step k m m' frame goals choices S hstep =>
    obtain ⟨m₀, R, hm₀, hold⟩ := h
    exact ⟨m₀, R, hm₀, (Search.holds_step (proper_solve k) hold).of_ok hstep⟩
  | @builtin k m t barrier goals choices name args pi us b a hcallee hcontrol hfind hbegins =>
    obtain ⟨m₀, R, hm₀, hold⟩ := h
    have hs := hold.sound.wellFormed.acyclic
    have hparts : ∀ u ∈ us, m.store.Reaches t u := by
      intro u hu
      have hrefs : u ∈ (Search.Control.of m.store name args).refs := by
        rw [hcontrol]
        exact hu
      obtain ⟨r, hr, hreach⟩ := Search.Control.reaches_of hs name hrefs
      exact (hs.reaches_deref t).trans
        ((((Search.ends_callee hs _).of_ok hcallee).2 r hr).trans hreach)
    have ht : t ∈ (Frame.goal t barrier :: goals).flatMap Frame.refs :=
      List.mem_append_left _ (List.mem_singleton_self t)
    have hus := hold.evolves.parts fun u hu => ⟨t, List.mem_append_left _ ht, hparts u hu⟩
    exact safe_of_begins (hm₀.evolve hus) hus.lt hbegins
  | @file k m m' name names source hopen =>
    have hsettles := (settling_openSource (n := 0) h.sound name).of_ok hopen
    exact safe_load (h.settle hsettles.1) hsettles.2
  | @nextFile k m m' name names hload =>
    have hstep : Settling 0 m (do poll; Machine.load (solve k) (← openSource name) : MachineM Unit)
        fun _ _ => True :=
      (settling_poll h.sound).bind fun _ m₁ hm₁ _ =>
        (settling_openSource hm₁.sound name).bind fun source m₂ hm₂ hsource =>
          settling_load (proper_solve k) hm₂.sound (Nat.zero_le _) hsource
    exact h.settle (hstep.of_ok hload).1
  | @expansion k depth source l t source' m hread hrules =>
    obtain ⟨hl, hsource⟩ := h
    obtain ⟨hsettles, hnext⟩ :=
      (settling_nextTerm (n := 0) hl.sound (Nat.zero_le _) hsource).of_ok hread
    have hgoal := Loading.evolves_expansionGoal hsettles.sound (hnext t source' rfl).1.lt []
    exact safe_prove_of_evolves (hl.settle hsettles) (hgoal.subset (by simp))
  | @expanded k depth source l t source' m ts m' hread hexpand =>
    obtain ⟨hl, hsource⟩ := h
    obtain ⟨hsettles, hnext⟩ :=
      (settling_nextTerm (n := 0) hl.sound (Nat.zero_le _) hsource).of_ok hread
    obtain ⟨ht, hsource'⟩ := hnext t source' rfl
    obtain ⟨hsettles', hts⟩ := (Loading.settling_expand (proper_solve k) hsettles.sound
      (Nat.zero_le _) ht).of_ok hexpand
    exact ⟨(hl.settle hsettles).settle hsettles', hsource', hts⟩
  | @directive k depth t ts source l g u hterm hgoal hshared =>
    obtain ⟨hl, -, hts⟩ := h
    have hs := hl.sound.wellFormed.acyclic
    have hreach : l.machine.store.Reaches t u := by
      have harg := Loading.reaches_argument hs g
      refine (Loading.reaches_topLevel hs (.inr hterm)).trans ?_
      rcases hgoal with hgoal | hgoal
      · rwa [hgoal] at harg
      · rwa [hgoal] at harg
    have hlt := hl.sound.wellFormed.lt_of_reaches (hts t List.mem_cons_self).lt hreach
    refine safe_prove ⟨hl.sound, hl.persists, fun pi c hc v hv hD => ?_⟩ hlt
    refine ⟨(hl.clear pi c hc v hv hD).1, List.forall_mem_singleton.mpr fun hr => ?_⟩
    exact hD (hshared pi c hc v hv hr)
  | @inclusion k depth t ts source l g file name source' m hterm hfile hname hopen =>
    obtain ⟨hsettles, hsource⟩ := (settling_openSource (n := 0) h.1.sound name).of_ok hopen
    exact ⟨h.1.settle hsettles, hsource⟩
  | @loaded k depth t ts source l l' hload =>
    obtain ⟨hl, hsource, hts⟩ := h
    rw [Loading.Waiting, List.forall_mem_cons] at hts
    have hsettles := ((Loading.loadSettling_loadTerm (proper_solve k)
      (Loading.loadsTerms_loadSource (proper_solve k) 0 depth) hl.sound (Nat.zero_le _)
      hts.1).of_ok hload).1
    exact ⟨hl.settle hsettles, hsource, Loading.Waiting.settle hts.2 hl.sound hsettles⟩
  | nextTerm => exact ⟨h.1, h.2.1⟩

theorem safe_of_moves {a₀ : Activity} (h : Session m) (hbegin : Operation m a₀)
    (hmoves : ReflTransGen (Moves D) a₀ a) : a.Safe m.store D := by
  induction hmoves with
  | refl => exact safe_of_operation h hbegin
  | tail _ hmove ih => exact ih.moves hmove

end Activity

/-- **While an operation of a session runs, stored clauses are resolved with as they were compiled,
unless a directive shares variables with them.**

In all that the operation comes to, with directives sharing variables in `D` only: a variable of a
stored clause that is not in `D` is free, and it is not in the goals that are being proved.  So if a
clause has no variable in `D`, then calling it with a goal that is being proved, or with any other
that does not contain its variables, is a resolution step with the rule that it was compiled from;
and that is the rule that it was before the operation, if it was there. -/
theorem Session.clauses_unbound (h : Session m) {a₀ a : Activity} (hbegin : Operation m a₀)
    (hmoves : ReflTransGen (Moves D) a₀ a) {pi : Indicator} {c : Clause}
    (hc : a.machine.database.Holds pi c) :
    (∀ v ∈ c.vars, v ∉ D → a.machine.store.Free v ∧
      ∀ t ∈ a.goals, v ∉ (a.machine.store.resolve t).vars) ∧
    ((∀ v ∈ c.vars, v ∉ D) → c.Resolvable a.machine.store) ∧
    (m.database.Holds pi c → c.source a.machine.store = c.source m.store) := by
  have ha := (Activity.safe_of_moves h hbegin hmoves).intact
  have hs := ha.sound.wellFormed
  refine ⟨fun v hv hD => ?_, fun hD => ?_, fun hbefore => ?_⟩
  · obtain ⟨hfree, hout⟩ := ha.clear pi c hc v hv hD
    exact ⟨hfree, fun t ht hmem => hout t ht (hs.acyclic.reaches_of_mem_vars hmem)⟩
  · exact (ha.sound.faithful pi c hc).resolvable hs ha.sound.trailed fun v hv =>
      (ha.clear pi c hc v hv (hD v hv)).1
  · have hm := h.sound.1
    exact (hm.faithful pi c hbefore).source_eq hm.wellFormed hs ha.persists

/-- A call of `r` in a program of two clauses, after its first step. -/
theorem clauses_unbound_in_call : ∃ m a₀ a c, Session m ∧ Operation m a₀ ∧
    ReflTransGen (Moves ∅) a₀ a ∧ a.machine.database.Holds ⟨"p", 1⟩ c ∧ c.vars ≠ [] ∧ a.goals ≠ [] ∧
    c.Resolvable a.machine.store := by
  let m := after (compileText 8 ⟨0⟩ "p(X). r :- p(b)." []) (Machine.build [] [] true)
  let goal := m.store.apply "r" []
  let result := Search.step (Builtin.run (solve 8)) (.goal goal.1 0) [] [] { m with store := goal.2 }
  have hm : Session m := .compile (.build [] [] true) 8 ⟨0⟩ _ (List.forall_mem_nil _)
  obtain ⟨⟨_, m'⟩, hresult, ⟨S, rfl, hgoals⟩, p, hp, c, hc, hvars⟩ : ∃ x ∈ value? result,
      (∃ S ∈ x.1, S.refs ≠ []) ∧
        ∃ p ∈ x.2.database.predicate? ⟨"p", 1⟩, ∃ c ∈ p.clauses, c.vars ≠ [] := by decide +kernel
  have hbegin : Operation m (.prove 8 { m with store := goal.2 } goal.1) :=
    .call 8 ⟨"r", 0⟩ (List.forall_mem_nil _)
  have hmoves : ReflTransGen (Moves ∅) (.prove 8 { m with store := goal.2 } goal.1)
      (.searching 8 m' S) := .single (.step (value?_eq_some.mp hresult))
  have hholds := Database.holds_of_find? (Database.predicate?_eq_some.mp hp) hc
  exact ⟨m, _, _, c, hm, hbegin, hmoves, hholds, hvars, hgoals,
    (hm.clauses_unbound hbegin hmoves hholds).2.1 fun _ _ => id⟩

/-- A directive can bind the variables of a clause that comes from the same expansion: this one fails,
as its second goal is not an instance of the clause any more. -/
example : (match compileText 8 ⟨0⟩
      "term_expansion(x, [foo(f(X)), (:- X = a, foo(f(b)))]). x." [] (Machine.build [] [] true) with
    | .error (.error (.failedDirective _)) _ => true
    | _ => false) = true := by decide +kernel

end Machine

end Clausal
