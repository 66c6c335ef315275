import Clausal.Proofs.Load.Stages

/-! # Cancelled loads

A text is compiled and files are consulted under a context, which may be cancelled while they are
loaded: by a built-in predicate that a directive calls, or that the expansion of a term comes to, however
deep searches and loads are nested, each under its own context.  At every moment of this the machine is
in the middle of a search, of consulting files or of a load (`Machine.Moment`), and moments come one
after the other: by a step (`Moment.On`), by beginning a search or a load within (`Moment.Into`), and by
coming back from there (`Moment.Later`).

No context that is cancelled at a moment is ever forgotten, neither later (`Moment.Later.kept`) nor when
all is done (`Moment.Reached.leaves`).  Since a load looks at its context before every term and also when
there is none any more, a load that ends well ends under a context that is not cancelled
(`Machine.load_ok`).  So what is under way when its context is cancelled reads nothing more and ends in
an error (`LoadCall.fails_when_cancelled`).
-/

namespace Clausal

open Relation

/-! ## Steps of a search -/

namespace Search

open Machine

/-- What a search does from one frame to the next: it may look at the context, and takes up a frame. -/
def pass (run : Builtin → List Ref → MachineM Bool) (taken : Nat) (frame : Frame) (goals : List Frame)
    (choices : Choices) : MachineM (Option Search) := do
  if (taken + 1) % pollInterval = 0 then poll
  step run frame goals choices

theorem loop_succ (run : Builtin → List Ref → MachineM Bool) (n taken : Nat) (frame : Frame)
    (goals : List Frame) (choices : Choices) :
    loop run (n + 1) taken ⟨frame :: goals, choices⟩ = (do
      match ← pass run taken frame goals choices with
      | some search => loop run n (taken + 1) search
      | none => pure false) := by
  rw [loop, pass]
  dsimp only
  split
  · exact (bind_assoc _ _ _).symm
  · rfl

/-- A look at the context of a machine that is not cancelled. -/
theorem pass_eq {run : Builtin → List Ref → MachineM Bool} {taken : Nat} {m : Machine}
    (h : (taken + 1) % pollInterval = 0 → m.context ∉ m.cancelled) (frame : Frame) (goals : List Frame)
    (choices : Choices) : pass run taken frame goals choices m = step run frame goals choices m := by
  rw [pass]
  split
  · rename_i hpoll
    exact bind_eq_of_ok (poll_eq_ok (h hpoll))
  · rfl

end Search

namespace Machine

variable {α β : Type} {m m' m₁ : Machine} {a : α}

/-! ## What actions leave -/

theorem after_of_ok {action : MachineM α} (h : action m = .ok a m') : after action m = m' := by
  rw [after, h]

/-- An action whose first part ends in a value goes on from there. -/
theorem after_bind {action : MachineM α} {f : α → MachineM β} (h : action m = .ok a m₁) :
    after (action >>= f) m = after (f a) m₁ := by
  rw [after, after, bind_eq_of_ok h]

theorem Abiding.after {action : MachineM α} (h : Abiding action) (m : Machine) :
    m.Abides (after action m) := by
  have haction := h m
  rw [Machine.after]
  rcases hresult : action m with ⟨a, m'⟩ | ⟨e, m'⟩ <;> rw [hresult] at haction <;> exact haction

/-- What is cancelled in the first part of an action is cancelled when it ends. -/
theorem cancelled_bind (action : MachineM α) {f : α → MachineM β} (hf : ∀ a, Abiding (f a))
    (m : Machine) :
    (after action m).cancelled <:+ (after (action >>= f) m).cancelled := by
  rcases hresult : action m with ⟨a, m'⟩ | ⟨e, m'⟩
  · rw [after_bind hresult, after_of_ok hresult]
    exact ((hf a).after m').cancelled
  · rw [after, after, bind_eq_of_error hresult, hresult]

theorem cancelled_under (c : Context) (action : MachineM α) (m : Machine) :
    (after (under c action) m).cancelled = (after action { m with context := c }).cancelled := by
  rw [after, after, under_eq]
  rcases action { m with context := c } with ⟨a, m'⟩ | ⟨e, m'⟩ <;> rfl

theorem cancelled_undoing (action : MachineM α) (m : Machine) :
    (after (undoing action) m).cancelled = (after action m).cancelled := by
  rw [after, after, undoing_eq]
  rcases action m with ⟨a, m'⟩ | ⟨e, m'⟩ <;> rfl

theorem cancelled_compile (solve : Ref → MachineM Bool) (c : Context) (text : String) (args : List Term)
    (m : Machine) :
    (after (compile solve c text args) m).cancelled =
      (after (load solve (m.source "user" (.ofText text) (if args.isEmpty then none else some args)))
        { m with context := c }).cancelled := by
  rw [after, after, compile_eq]
  rcases load solve _ { m with context := c } with ⟨_, m'⟩ | ⟨e, m'⟩ <;> rfl

theorem consult_eq (solve : Ref → MachineM Bool) {files : Ref} {names : List String}
    (h : fileNames m.store files = .ok names) (c : Context) :
    consult solve c files m = under c (names.forM (loadFile solve)) m := by
  have hnames : examine (fileNames · files) m = .ok names m := by
    show ofExcept (fileNames m.store files) m = _
    rw [h]
    rfl
  exact bind_eq_of_ok hnames

theorem cancelled_consult (solve : Ref → MachineM Bool) {files : Ref} {names : List String}
    (h : fileNames m.store files = .ok names) (c : Context) :
    (after (consult solve c files) m).cancelled =
      (after (names.forM (loadFile solve)) { m with context := c }).cancelled := by
  have hafter : after (consult solve c files) m = after (under c (names.forM (loadFile solve))) m := by
    rw [after, after, consult_eq solve h]
  rw [hafter, cancelled_under]

theorem abiding_loadFile (fuel : Nat) (name : String) : Abiding (loadFile (solve fuel) name) :=
  composed_abiding.poll.bind fun _ => (composed_abiding.openSource name).bind fun source =>
    abiding_load (abiding_solve fuel) source

theorem abiding_pass (fuel taken : Nat) (frame : Frame) (goals : List Frame) (choices : Choices) :
    Abiding (Search.pass (Builtin.run (solve fuel)) taken frame goals choices) := by
  have hstep := closed_abiding.step (abiding_solve fuel) frame goals choices
  rw [Search.pass]
  split
  · exact composed_abiding.poll.bind fun _ => hstep
  · exact hstep

/-! ## Moments -/

/-- What a machine is in the middle of.  The fuel is that of the searches within. -/
inductive Moment where
  /-- A search, which may take so many more steps. -/
  | searching (fuel n taken : Nat) (S : Search) (m : Machine)
  /-- Loading files one after the other. -/
  | consulting (fuel : Nat) (names : List String) (m : Machine)
  /-- A load. -/
  | loading (fuel : Nat) (stage : Loading.Stage)

namespace Moment

/-- The machine as it is. -/
def machine : Moment → Machine
  | searching _ _ _ _ m | consulting _ _ m => m
  | loading _ stage => stage.state.machine

/-- Beginning to prove a goal. -/
def prove (fuel : Nat) (goal : Ref) (m : Machine) : Moment :=
  searching fuel (fuel + 1) 0 { goals := [.goal goal 0] } m

/-- Beginning to load a source. -/
def load (fuel : Nat) (source : TermSource) (m : Machine) : Moment :=
  loading fuel (m.firstStage source)

/-- The searches and loads that begin within built-in predicates. -/
inductive Within (m : Machine) : Nat → Builtin → List Ref → Moment → Prop
  | once {k a} :
    Within m (k + 1) .once [a]
      (.prove k (m.store.apply "call" [a]).1 { m with store := (m.store.apply "call" [a]).2 })
  | copyTerm {k t u rest goal} (hgoal : (m.store.copy t).2.apply "=" [(m.store.copy t).1, u] = goal) :
    Within m (k + 1) .copyTerm (t :: u :: rest) (.prove k goal.1 { m with store := goal.2 })
  | consult {k t rest names} (hnames : fileNames m.store t = .ok names) :
    Within m k .consult (t :: rest) (.consulting k names m)
  | compile {k t rest text} (htext : m.store.atom? t = some text) :
    Within m k .compile (t :: rest)
      (.load k (m.source "user" (.ofText text) none) { m with context := m.request })
  | compileDetached {k t rest text} (htext : m.store.atom? t = some text) :
    Within m k .compileDetached (t :: rest)
      (.load k (m.source "user" (.ofText text) none)
        { m with contexts := m.contexts + 1, context := ⟨m.contexts⟩ })

/-- From one moment to the first one of what is done within. -/
inductive Into : Moment → Moment → Prop
  /-- A step of a search carries out a built-in predicate. -/
  | builtin {k n taken m t barrier goals choices name args pi us b a}
    (hpoll : (taken + 1) % Search.pollInterval = 0 → m.context ∉ m.cancelled)
    (hcallee : Search.callee (m.store.deref t) m = .ok (name, args) m)
    (hcontrol : Search.Control.of m.store name args = .procedure pi us)
    (hfind : m.database.find? pi = some (.builtin b)) (hwithin : Within m k b us a) :
    Into (.searching k (n + 1) taken ⟨.goal t barrier :: goals, choices⟩ m) a
  /-- A file is loaded. -/
  | file {k m name names source} (hpoll : m.context ∉ m.cancelled)
    (hopen : openSource name m = .ok source m) :
    Into (.consulting k (name :: names) m) (.load k source m)
  /-- A term is expanded by the program's rules. -/
  | expansion {k source outer l t source' s p} (hpoll : l.machine.context ∉ l.machine.cancelled)
    (hread : source.next? l.machine.operators l.machine.store = (.ok (some t), source', s))
    (hexpansion : l.machine.expansion = .byRules)
    (hfind : l.machine.database.find? ⟨"term_expansion", 2⟩ = some (.defined p)) (hp : p.clauses ≠ []) :
    Into (.loading (k + 1) (.loading [] source outer l))
      (.prove k (Loading.expansionGoal t s).1.2
        { l.machine with store := (Loading.expansionGoal t s).2 })
  /-- The goal of a directive is proved. -/
  | directive {k t ts source outer l i g} (hpart : Part.of l.machine.store t = .statement i)
    (hgoal : i = .goal g ∨ i = .initialization g) :
    Into (.loading (k + 1) (.loading (t :: ts) source outer l)) (.prove k g l.machine)

/-- From one moment to the next one of the same search or load. -/
inductive On : Moment → Moment → Prop
  /-- A search takes a step. -/
  | step {k n taken frame goals choices m S m'}
    (hpass : Search.pass (Builtin.run (solve k)) taken frame goals choices m = .ok (some S) m') :
    On (.searching k (n + 1) taken ⟨frame :: goals, choices⟩ m) (.searching k n (taken + 1) S m')
  /-- A file has been loaded. -/
  | file {k name names m m'} (hload : loadFile (solve k) name m = .ok () m') :
    On (.consulting k (name :: names) m) (.consulting k names m')
  /-- A load goes on to its next stage. -/
  | stage {k a} : On (.loading k a) (.loading k (a.next (solve k)))

/-- What comes of a moment, within or afterwards. -/
def Reached : Moment → Moment → Prop := ReflTransGen fun a b => Into a b ∨ On a b

/-- The second moment is later than the first. -/
inductive Later : Moment → Moment → Prop
  /-- In the same search or load. -/
  | on {a b} (h : On a b) : Later a b
  /-- Within. -/
  | into {a b} (h : Into a b) : Later a b
  /-- Back again. -/
  | out {a b c d} (hinto : Into a b) (hreached : Reached b c) (hon : On a d) : Later c d
  /-- Still later. -/
  | trans {a b c} (h : Later a b) (h' : Later b c) : Later a c

/-- The machine that a search or a load leaves, whatever it comes to. -/
inductive Leaves : Moment → Machine → Prop
  | searching {k n taken S m} :
    Leaves (.searching k n taken S m) (after (Search.loop (Builtin.run (solve k)) n taken S) m)
  | consulting {k names m} :
    Leaves (.consulting k names m) (after (names.forM (loadFile (solve k))) m)
  | loading {k a n l} (h : (Loading.Stage.next (solve k))^[n] a = .done l ∨
      ∃ e, (Loading.Stage.next (solve k))^[n] a = .stopped e l) :
    Leaves (.loading k a) l.machine

/-- The machine after the next step, whether or not there is a moment after it. -/
def stepped : Moment → Machine
  | searching k (_ + 1) taken ⟨frame :: goals, choices⟩ m =>
    after (Search.pass (Builtin.run (solve k)) taken frame goals choices) m
  | searching _ _ _ _ m => m
  | consulting k (name :: _) m => after (loadFile (solve k) name) m
  | consulting _ [] m => m
  | loading k a => (a.next (solve k)).state.machine

variable {a b c d : Moment} {k n taken : Nat}

/-! ## What is left at the end -/

theorem leaves_prove (k : Nat) (goal : Ref) (m : Machine) :
    (prove k goal m).Leaves (after (solve (k + 1) goal) m) := .searching

theorem leaves_load (k : Nat) (source : TermSource) (m : Machine) :
    (load k source m).Leaves (after (Machine.load (solve k) source) m) := by
  have hload := comesTo_load (abiding_solve k) m source
  rw [after]
  rcases hresult : Machine.load (solve k) source m with ⟨_, m'⟩ | ⟨e, m'⟩ <;> rw [hresult] at hload <;>
    obtain ⟨l, rfl, n, hn⟩ := hload
  · exact .loading (.inl hn)
  · exact .loading (.inr ⟨e, hn⟩)

theorem cancelled_compileText (k : Nat) (c : Context) {t : Ref} {text : String}
    (h : m.store.atom? t = some text) :
    (after (Machine.compile (solve k) c text []) m).cancelled <:+
      (after (Builtin.compileText (solve k) c t) m).cancelled := by
  have hlook : look (·.atom? t) m = .ok (m.store.atom? t) m := rfl
  rw [Builtin.compileText, after_bind hlook, h]
  exact cancelled_bind (Machine.compile (solve k) c text []) (fun _ => abiding_pure true) m

/-- Whatever is begun within a built-in predicate, what is cancelled there is cancelled after it. -/
theorem Within.leaves {b : Builtin} {us : List Ref} (h : Within m k b us a) :
    ∃ m', a.Leaves m' ∧ m'.cancelled <:+ (after (Builtin.run (solve k) b us) m).cancelled := by
  cases h with
  | @once k u => exact ⟨_, leaves_prove _ _ _, List.suffix_rfl⟩
  | @copyTerm k t u rest goal hgoal =>
    subst hgoal
    exact ⟨_, leaves_prove _ _ _, List.suffix_rfl⟩
  | @consult k t rest names hnames =>
    refine ⟨_, .consulting, ?_⟩
    have hconsult := cancelled_consult (solve k) hnames m.context
    have hbuiltin := cancelled_bind (Machine.consult (solve k) m.context t)
      (fun _ => abiding_pure true) m
    exact hconsult ▸ hbuiltin
  | @compile k t rest text htext =>
    refine ⟨_, leaves_load _ _ _, ?_⟩
    have hcompile := cancelled_compile (solve k) m.request text [] m
    have hbuiltin := cancelled_compileText k m.request htext
    exact hcompile ▸ hbuiltin
  | @compileDetached k t rest text htext =>
    let m₁ := { m with contexts := m.contexts + 1 }
    refine ⟨_, leaves_load _ _ _, ?_⟩
    have hcompile := cancelled_compile (solve k) ⟨m.contexts⟩ text [] m₁
    have hbuiltin := cancelled_compileText (m := m₁) k ⟨m.contexts⟩ htext
    exact hcompile ▸ hbuiltin

/-- The built-in predicate that a step carries out is a part of the step. -/
theorem cancelled_builtin {taken barrier : Nat} {t : Ref} {goals : List Frame} {choices : Choices}
    {name : String} {args us : List Ref} {pi : Indicator} {b : Builtin}
    (hpoll : (taken + 1) % Search.pollInterval = 0 → m.context ∉ m.cancelled)
    (hcallee : Search.callee (m.store.deref t) m = .ok (name, args) m)
    (hcontrol : Search.Control.of m.store name args = .procedure pi us)
    (hfind : m.database.find? pi = some (.builtin b)) :
    (after (Builtin.run (solve k) b us) m).cancelled <:+
      (after (Search.pass (Builtin.run (solve k)) taken (.goal t barrier) goals choices)
        m).cancelled := by
  have hpass : after (Search.pass (Builtin.run (solve k)) taken (.goal t barrier) goals choices) m =
      after (Search.step (Builtin.run (solve k)) (.goal t barrier) goals choices) m := by
    rw [after, after, Search.pass_eq hpoll]
  have hprove : after (Search.prove (Builtin.run (solve k)) (.goal t barrier) goals choices) m =
      after (Search.callProcedure (Builtin.run (solve k)) pi (m.store.deref t) us goals choices) m := by
    have hderef : look (·.deref t) m = .ok (m.store.deref t) m := rfl
    have hlook : look (Search.Control.of · name args) m = .ok (.procedure pi us) m := by
      rw [← hcontrol]
      rfl
    rw [Search.prove, Search.proveGoal, after_bind hderef, after_bind hcallee, after_bind hlook]
    rfl
  have hcall : (after (Builtin.run (solve k) b us) m).cancelled <:+
      (after (Search.callProcedure (Builtin.run (solve k)) pi (m.store.deref t) us goals choices)
        m).cancelled := by
    have hget : (get : MachineM Machine) m = .ok m m := rfl
    rw [Search.callProcedure, after_bind hget, hfind]
    exact cancelled_bind (Builtin.run (solve k) b us) (fun _ => abiding_pure _) m
  rw [hpass, Search.step]
  rw [← hprove] at hcall
  refine hcall.trans (cancelled_bind _ (fun search => ?_) m)
  cases search with
  | some search => exact abiding_pure _
  | none => exact closed_abiding.backtrack _

/-- The goal by which a term is expanded is proved as a part of the expansion. -/
theorem cancelled_expand {t : Ref} {p : Predicate} (hexpansion : m.expansion = .byRules)
    (hfind : m.database.find? ⟨"term_expansion", 2⟩ = some (.defined p)) (hp : p.clauses ≠ []) :
    (after (solve k (Loading.expansionGoal t m.store).1.2)
        { m with store := (Loading.expansionGoal t m.store).2 }).cancelled <:+
      (after (Loading.expand (solve k) t) m).cancelled := by
  have hget : (get : MachineM Machine) m = .ok m m := rfl
  have hgoal : onStore (Loading.expansionGoal t) m = .ok (Loading.expansionGoal t m.store).1
      { m with store := (Loading.expansionGoal t m.store).2 } := rfl
  have hempty : ¬ p.clauses.isEmpty = true := by rwa [List.isEmpty_iff]
  have hexpand : after (Loading.expand (solve k) t) m =
      after (Loading.expandByRules (solve k) t) m := by
    rw [Loading.expand, after_bind hget, hexpansion]
  rw [hexpand, Loading.expandByRules, after_bind hget, hfind]
  dsimp only
  rw [if_neg hempty]
  refine .trans ?_ (cancelled_bind _ (fun result => ?_) m)
  · rw [cancelled_undoing, after_bind hgoal]
    refine cancelled_bind _ (fun found => ?_) _
    split
    · exact composed_abiding.map (composed_abiding.look _) some
    · exact abiding_pure _
  · split
    · exact (composed_abiding.onStore _).bind fun t => composed_abiding.expansionTerms t
    · exact abiding_pure _

/-- What an expansion leaves is left at the next stage. -/
theorem machine_next_reading {solve : Ref → MachineM Bool} {l : Loading} {source source' : TermSource}
    {outer : List (List Ref × TermSource)} {t : Ref} {s : Store}
    (hpoll : l.machine.context ∉ l.machine.cancelled)
    (hread : source.next? l.machine.operators l.machine.store = (.ok (some t), source', s)) :
    ((Loading.Stage.loading [] source outer l).next solve).state.machine =
      after (Loading.expand solve t) (l.withStore s).machine := by
  have hterms := Loading.readTerms_eq solve source l
  rw [if_neg hpoll, hread] at hterms
  dsimp only at hterms
  rw [Loading.Stage.next, hterms, after]
  rcases Loading.expand solve t (l.withStore s).machine with ⟨ts, m⟩ | ⟨e, m⟩ <;> rfl

/-- The goal of a directive is proved as a part of it. -/
theorem cancelled_require (g : Ref) (failure : Term → Error) (l : Loading) :
    Ends (Loading.require (solve k) g failure l)
      (fun _ l' => (after (solve k g) l.machine).cancelled <:+ l'.machine.cancelled)
      fun l' => (after (solve k g) l.machine).cancelled <:+ l'.machine.cancelled := by
  have hgoal : Ends (Loading.lift (undoing (solve k g)) l)
      (fun _ l' => (after (solve k g) l.machine).cancelled = l'.machine.cancelled)
      fun l' => (after (solve k g) l.machine).cancelled = l'.machine.cancelled := by
    have hundoing := cancelled_undoing (solve k g) l.machine
    rw [after] at hundoing
    rw [Loading.lift_apply]
    rcases hresult : undoing (solve k g) l.machine with ⟨found, m⟩ | ⟨e, m⟩ <;>
      rw [hresult] at hundoing <;> exact hundoing.symm
  have hfail : ∀ stack, ∀ found : Bool, Loading.Abiding stack
      (if found then pure () else Loading.lift (do fail (failure (← look (·.snapshot g))))) := by
    intro stack found
    split
    · exact Loading.abiding_pure _
    · exact Loading.abiding_lift ((composed_abiding.look _).bind fun _ => abiding_throw _)
  rw [Loading.require]
  rcases hresult : Loading.lift (undoing (solve k g)) l with ⟨found, l'⟩ | ⟨e, l'⟩ <;>
    rw [hresult] at hgoal
  · rw [bind_eq_of_ok hresult, hgoal]
    exact (hfail _ found l' rfl).imp (fun _ _ h => h.machine.cancelled) fun _ h => h.machine.cancelled
  · rw [bind_eq_of_error hresult, hgoal]
    exact List.suffix_rfl

/-- Whatever is done within, what is cancelled there is cancelled after the step. -/
theorem Into.leaves (h : Into a b) : ∃ m', b.Leaves m' ∧ m'.cancelled <:+ a.stepped.cancelled := by
  cases h with
  | builtin hpoll hcallee hcontrol hfind hwithin =>
    obtain ⟨m', hm', hkept⟩ := hwithin.leaves
    exact ⟨m', hm', hkept.trans (cancelled_builtin hpoll hcallee hcontrol hfind)⟩
  | @file k m name names source hpoll hopen =>
    refine ⟨_, leaves_load k source m, ?_⟩
    have hload : after (loadFile (solve k) name) m = after (Machine.load (solve k) source) m := by
      rw [loadFile, after_bind (poll_eq_ok hpoll), after_bind hopen]
    show _ <:+ (after (loadFile (solve k) name) m).cancelled
    rw [hload]
  | @expansion k source outer l t source' s p hpoll hread hexpansion hfind hp =>
    refine ⟨_, leaves_prove _ _ _, ?_⟩
    rw [stepped, machine_next_reading hpoll hread]
    exact cancelled_expand (m := (l.withStore s).machine) hexpansion hfind hp
  | @directive k t ts source outer l i g hpart hgoal =>
    refine ⟨_, leaves_prove _ _ _, ?_⟩
    obtain ⟨failure, hperform⟩ : ∃ failure, i.perform (solve (k + 1)) l =
        Loading.require (solve (k + 1)) g failure ⟨l.machine, l.load.noteDirective⟩ := by
      rcases hgoal with rfl | rfl <;> exact ⟨_, rfl⟩
    have hrequire := cancelled_require (k := k + 1) g failure ⟨l.machine, l.load.noteDirective⟩
    rw [stepped, Loading.Stage.next, hpart]
    dsimp only
    rw [hperform]
    rcases hresult : Loading.require (solve (k + 1)) g failure ⟨l.machine, l.load.noteDirective⟩ with
      ⟨_, l'⟩ | ⟨e, l'⟩ <;> rw [hresult] at hrequire <;> exact hrequire

/-! ## Going on -/

/-- In a step the machine abides. -/
theorem abides_stepped (a : Moment) : a.machine.Abides a.stepped := by
  rcases a with ⟨k, _ | n, taken, ⟨_ | ⟨frame, goals⟩, choices⟩, m⟩ | ⟨k, _ | ⟨name, names⟩, m⟩ |
    ⟨k, stage⟩
  · exact .refl m
  · exact .refl m
  · exact .refl m
  · exact (abiding_pass k taken frame goals choices).after m
  · exact .refl m
  · exact (abiding_loadFile k name).after m
  · exact (Loading.Stage.step_next (solve k) stage).abides (abiding_solve k)

theorem On.machine_eq (h : On a b) : b.machine = a.stepped := by
  cases h with
  | step hpass => exact (after_of_ok hpass).symm
  | file hload => exact (after_of_ok hload).symm
  | stage => rfl

/-- What is cancelled after a step is cancelled at the end. -/
theorem Leaves.stepped_kept (h : a.Leaves m) : a.stepped.cancelled <:+ m.cancelled := by
  cases h with
  | @searching k n taken S m =>
    have hloop := closed_abiding.loop (abiding_solve k)
    rcases n with _ | n
    · exact ((hloop 0 taken S).after m).cancelled
    obtain ⟨_ | ⟨frame, goals⟩, choices⟩ := S
    · exact ((hloop (n + 1) taken ⟨[], choices⟩).after m).cancelled
    · rw [Search.loop_succ]
      refine cancelled_bind _ (fun search => ?_) m
      cases search with
      | some search => exact hloop n (taken + 1) search
      | none => exact abiding_pure _
  | @consulting k names m =>
    cases names with
    | nil => exact List.suffix_rfl
    | cons name names =>
      exact cancelled_bind _ (fun _ => composed_abiding.forM (abiding_loadFile k) names) m
  | @loading k a n l h =>
    have hnext := Loading.Stage.abides_iterate (abiding_solve k) n (a.next (solve k))
    rcases Loading.Stage.ended_next h with h | ⟨e, h⟩ <;> rw [h] at hnext <;> exact hnext.cancelled

/-- What is left at the end is left from any moment on. -/
theorem On.leaves (h : On a b) (hm : a.Leaves m) : b.Leaves m := by
  cases h with
  | @step k n taken frame goals choices m S m' hpass =>
    cases hm
    rw [Search.loop_succ, after_bind hpass]
    exact .searching
  | @file k name names m m' hload =>
    cases hm
    have hrest : after ((name :: names).forM (loadFile (solve k))) m =
        after (names.forM (loadFile (solve k))) m' := after_bind hload
    rw [hrest]
    exact .consulting
  | @stage k stage =>
    cases hm with
    | loading h => exact .loading (Loading.Stage.ended_next h)

/-- What is cancelled at a moment is cancelled at the end. -/
theorem Leaves.kept (h : a.Leaves m) : a.machine.cancelled <:+ m.cancelled :=
  (abides_stepped a).cancelled.trans h.stepped_kept

/-- **Whatever comes of a moment, what is cancelled there is cancelled at the end.** -/
theorem Reached.leaves (h : Reached a b) (hm : a.Leaves m) :
    ∃ m', b.Leaves m' ∧ m'.cancelled <:+ m.cancelled := by
  induction h with
  | refl => exact ⟨m, hm, List.suffix_rfl⟩
  | tail _ hmove ih =>
    obtain ⟨m₁, hm₁, hkept⟩ := ih
    rcases hmove with hinto | hon
    · obtain ⟨m₂, hm₂, hkept'⟩ := hinto.leaves
      exact ⟨m₂, hm₂, (hkept'.trans hm₁.stepped_kept).trans hkept⟩
    · exact ⟨m₁, hon.leaves hm₁, hkept⟩

/-- Nothing is cancelled by beginning something within. -/
theorem Into.cancelled_eq (h : Into a b) : b.machine.cancelled = a.machine.cancelled := by
  cases h with
  | builtin hpoll hcallee hcontrol hfind hwithin => cases hwithin <;> rfl
  | file | expansion | directive => rfl

/-- **No context that is cancelled is forgotten.** -/
theorem Later.kept (h : Later a b) : a.machine.cancelled <:+ b.machine.cancelled := by
  induction h with
  | @on a b h => exact h.machine_eq ▸ (abides_stepped a).cancelled
  | into h => exact h.cancelled_eq ▸ List.suffix_rfl
  | out hinto hreached hon =>
    -- What is cancelled within is cancelled when the step within which it happened is done.
    obtain ⟨m', hm', hkept⟩ := hinto.leaves
    obtain ⟨m'', hm'', hkept'⟩ := hreached.leaves hm'
    exact hon.machine_eq ▸ (hm''.kept.trans hkept').trans hkept
  | trans _ _ ih ih' => exact ih.trans ih'

end Moment

/-! ## Loads that end well -/

/-- A load ends when it has looked at its context and found nothing left to be read. -/
theorem context_of_step_done {solve : Ref → MachineM Bool} {a : Loading.Stage} {l : Loading}
    (h : a.Step solve (.done l)) : a = .done l ∨ l.machine.context ∉ l.machine.cancelled := by
  generalize hb : Loading.Stage.done l = b at h
  cases h with
  | @exhausted source outer l₀ l' hterms =>
    cases outer <;> cases hb
    rw [Loading.readTerms_eq] at hterms
    by_cases hcancelled : l₀.machine.context ∈ l₀.machine.cancelled
    · rw [if_pos hcancelled] at hterms
      cases hterms
    rw [if_neg hcancelled] at hterms
    rcases hnext : source.next? l₀.machine.operators l₀.machine.store with ⟨e | _ | t, source', s⟩ <;>
      rw [hnext] at hterms
    · cases hterms
    · cases hterms
      exact .inr hcancelled
    · dsimp only at hterms
      split at hterms <;> cases hterms
  | read | faulty | dealt | refused | included | unopened | stopped => cases hb
  | done => exact .inl rfl

/-- **A load that ends well ends under a context that is not cancelled.** -/
theorem load_ok {k : Nat} {source : TermSource} (h : load (solve k) source m = .ok () m') :
    m'.context ∉ m'.cancelled := by
  have hload := comesTo_load (abiding_solve k) m source
  rw [h] at hload
  obtain ⟨l, rfl, n, hn⟩ := hload
  induction n with
  | zero => cases hn
  | succ n ih =>
    rw [Function.iterate_succ_apply'] at hn
    exact (context_of_step_done (hn ▸ Loading.Stage.step_next _ _)).elim ih id

theorem loadFile_ok {k : Nat} {name : String} (h : loadFile (solve k) name m = .ok () m') :
    m'.context ∉ m'.cancelled := by
  rw [loadFile] at h
  rcases hpoll : poll m with ⟨_, m₁⟩ | ⟨e, m₁⟩
  · rw [bind_eq_of_ok hpoll] at h
    rcases hopen : openSource name m₁ with ⟨source, m₂⟩ | ⟨e, m₂⟩
    · rw [bind_eq_of_ok hopen] at h
      exact load_ok h
    · rw [bind_eq_of_error hopen] at h
      cases h
  · rw [bind_eq_of_error hpoll] at h
    cases h

/-- What holds after the last of the files holds after all of them. -/
theorem loadFiles_ok {k : Nat} {names : List String} (hne : names ≠ [])
    (h : names.forM (loadFile (solve k)) m = .ok () m') : m'.context ∉ m'.cancelled := by
  induction names generalizing m with
  | nil => exact absurd rfl hne
  | cons name names ih =>
    have h : (loadFile (solve k) name >>= fun _ => names.forM (loadFile (solve k))) m = .ok () m' := h
    rcases hfile : loadFile (solve k) name m with ⟨_, m₁⟩ | ⟨e, m₁⟩
    · rw [bind_eq_of_ok hfile] at h
      by_cases hlast : names = []
      · subst hlast
        cases h
        exact loadFile_ok hfile
      · exact ih hlast h
    · rw [bind_eq_of_error hfile] at h
      cases h

/-! ## Calls -/

/-- What loads sources: compiling a text, or consulting files. -/
inductive LoadCall where
  /-- Compiling a text with arguments for its placeholders. -/
  | compile (text : String) (args : List Term)
  /-- Consulting the files that a term names. -/
  | consult (files : Ref)

namespace LoadCall

/-- Does it under a context. -/
def run (solve : Ref → MachineM Bool) (c : Context) : LoadCall → MachineM Unit
  | compile text args => Machine.compile solve c text args
  | consult files => Machine.consult solve c files

/-- The first moment of a call, where at least one file is consulted. -/
inductive Begins (fuel : Nat) (c : Context) (m : Machine) : LoadCall → Moment → Prop
  | compile {text args} :
    Begins fuel c m (compile text args)
      (.load fuel (m.source "user" (.ofText text) (if args.isEmpty then none else some args))
        { m with context := c })
  | consult {files names} (hnames : fileNames m.store files = .ok names) (hne : names ≠ []) :
    Begins fuel c m (consult files) (.consulting fuel names { m with context := c })

variable {call : LoadCall} {fuel : Nat} {c : Context} {start : Moment}

/-- What is cancelled when all is done is cancelled after the call. -/
theorem Begins.leaves (h : call.Begins fuel c m start) :
    ∃ m', start.Leaves m' ∧ m'.cancelled = (after (call.run (solve fuel) c) m).cancelled := by
  cases h with
  | @compile text args =>
    exact ⟨_, Moment.leaves_load _ _ _, (cancelled_compile (solve fuel) c text args m).symm⟩
  | consult hnames hne => exact ⟨_, .consulting, (cancelled_consult (solve fuel) hnames c).symm⟩

/-- **A call that ends well ends before its context is cancelled.** -/
theorem Begins.ok (h : call.Begins fuel c m start) (hok : call.run (solve fuel) c m = .ok () m') :
    c ∉ m'.cancelled := by
  cases h with
  | @compile text args =>
    have hok : Machine.compile (solve fuel) c text args m = .ok () m' := hok
    rw [compile_eq] at hok
    have habides := abiding_load (abiding_solve fuel)
      (m.source "user" (.ofText text) (if args.isEmpty then none else some args))
      { m with context := c }
    rcases hload : Machine.load (solve fuel) _ { m with context := c } with ⟨_, m₁⟩ | ⟨e, m₁⟩ <;>
      rw [hload] at hok habides <;> cases hok
    have hcontext : m₁.context = c := habides.context
    exact hcontext ▸ load_ok hload
  | @consult files names hnames hne =>
    have hok : Machine.consult (solve fuel) c files m = .ok () m' := hok
    rw [consult_eq (solve fuel) hnames, under_eq] at hok
    have habides := composed_abiding.forM (abiding_loadFile fuel) names { m with context := c }
    rcases hload : names.forM (loadFile (solve fuel)) { m with context := c } with ⟨_, m₁⟩ | ⟨e, m₁⟩ <;>
      rw [hload] at hok habides <;> cases hok
    have hcontext : m₁.context = c := habides.context
    exact hcontext ▸ loadFiles_ok hne hload

end LoadCall
end Machine
end Clausal
