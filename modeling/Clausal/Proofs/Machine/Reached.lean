import Clausal.Proofs.Machine.History
import Clausal.Proofs.Machine.WiderLoads

/-! # Machines that are come to

A machine is reached (`Machine.Reached`) if it is new, or comes about between the operations on a
machine that was reached, or while one of them runs, however deep searches and loads are nested.
Predicates may be called with any terms of the store, also with those of stored clauses.

Every machine that is reached is sound (`Reached.sound`), so that a load that begins there binds
nothing (`Reached.load_preserves`), and its predicates were last touched by loads that have begun
(`Reached.stamped`), so that the number of the next load is new to all of them.
-/

namespace Clausal

open Relation

/-- The second store is the first one with new cells: the cells that were there are as they were,
bound or not, and so is the trail. -/
structure Store.Preserved (s s' : Store) : Prop where
  /-- There are only new cells. -/
  cells : s.cells.toList <+: s'.cells.toList
  /-- The trail is the same. -/
  trail : s'.trail = s.trail

/-- A store that has grown, with nothing bound, is preserved. -/
theorem Store.Grows.preserved {s s' : Store} (h : s.Grows s' []) : s.Preserved s' where
  cells := by
    refine List.prefix_iff_getElem?.mpr fun i hi => ?_
    have hlt : i < s.cells.size := hi
    have hkept : s'.cells[i]? = s.cells[i]? := h.kept (t := ⟨i⟩) hlt List.not_mem_nil
    rw [Array.getElem?_toList, hkept, Array.getElem?_eq_getElem hlt, Array.getElem_toList]
  trail := by
    rw [← Array.toList_inj, h.trail, List.append_nil]

namespace Ledger

variable {led led' : Ledger} {e : Event} {es : List Event}

/-- The definition of the predicate stays as it is, or a load in progress or a later one touches the
predicate. -/
def Later (led led' : Ledger) (pi : Indicator) : Prop :=
  led'.database.find? pi = led.database.find? pi ∨
    ∃ p n, led'.database.find? pi = some (.defined p) ∧ p.load = some n ∧
      (n ∈ led.running ∨ led.begun < n ∧ n ≤ led'.begun)

theorem Step.later (h : Step led e led') (pi : Indicator) : Later led led' pi := by
  have hchanges : ∀ {db db' : Database} {load : Nat} {q : Indicator} {f : Predicate → Predicate} {n : Nat}
      {loads : List Nat}, db.Changes load q f db' → (∀ p, (f p).load = p.load) →
      Later ⟨db, n, load :: loads⟩ ⟨db', n, load :: loads⟩ pi := by
    intro db db' load q f n loads hchanges hload
    by_cases hq : pi = q
    · subst hq
      exact .inr ⟨_, load, hchanges.self, (hload _).trans (db.load_found load pi), .inl List.mem_cons_self⟩
    · exact .inl (hchanges.other pi hq)
  cases h with
  | begin | finish => exact .inl rfl
  | touch n loads htouch => exact hchanges (Database.changes_touch htouch) fun _ => rfl
  | declare n loads hdeclare => exact hchanges (Database.changes_update hdeclare) fun _ => rfl
  | append n loads happend => exact hchanges (Database.changes_update happend) fun _ => rfl

/-- A load in progress after a step was in progress before it, or has just begun. -/
theorem Step.running (h : Step led e led') {n : Nat} (hn : n ∈ led'.running) :
    n ∈ led.running ∨ led.begun < n ∧ n ≤ led'.begun := by
  cases h with
  | begin db k loads =>
    rcases List.mem_cons.mp hn with rfl | hn
    · exact .inr ⟨Nat.lt_succ_self k, Nat.le_refl _⟩
    · exact .inl hn
  | finish => exact .inl (List.mem_cons_of_mem _ hn)
  | touch | declare | append => exact .inl hn

/-- **Only loads in progress and later ones touch predicates.** -/
theorem Run.later (h : Run led es led') (pi : Indicator) : Later led led' pi := by
  induction h with
  | nil led => exact .inl rfl
  | @cons led led' led'' e es step run ih =>
    have hle := step.begun.1
    have hle' := run.begun.2.1
    rcases ih with hsame | ⟨p, n, hp, hn, hrunning⟩
    · rcases step.later pi with hsame' | ⟨p, n, hp, hn, hrunning⟩
      · exact .inl (hsame.trans hsame')
      · exact .inr ⟨p, n, hsame.trans hp, hn, hrunning.imp id fun h => ⟨h.1, h.2.trans hle'⟩⟩
    · refine .inr ⟨p, n, hp, hn, ?_⟩
      rcases hrunning with hrunning | ⟨hlt, hn'⟩
      · exact (step.running hrunning).imp id fun h => ⟨h.1, h.2.trans hle'⟩
      · exact .inr ⟨Nat.lt_of_le_of_lt hle hlt, hn'⟩

end Ledger

namespace Machine

variable {m m' : Machine} {running : List Nat}

/-! ## The numbers of loads -/

/-- The predicates of the program were last touched by loads that have begun. -/
def Stamped (m : Machine) : Prop :=
  ∀ pi p, m.database.find? pi = some (.defined p) → ∃ n, p.load = some n ∧ n ≤ m.loads

theorem Stamped.congr (h : m.Stamped) (hdb : m'.database = m.database) (hloads : m.loads ≤ m'.loads) :
    m'.Stamped := by
  intro pi p hp
  obtain ⟨n, hn, hle⟩ := h pi p (hdb ▸ hp)
  exact ⟨n, hn, hle.trans hloads⟩

theorem Follows.loads_le (h : Follows running m m') : m.loads ≤ m'.loads := by
  obtain ⟨es, hes⟩ := h
  exact hes.begun.2.1

/-- Between two machines, a predicate is left as it is, or a load in progress or a later one touches
it. -/
theorem Follows.later (h : Follows running m m') (pi : Indicator) :
    m'.database.find? pi = m.database.find? pi ∨
      ∃ p n, m'.database.find? pi = some (.defined p) ∧ p.load = some n ∧
        (n ∈ running ∨ m.loads < n ∧ n ≤ m'.loads) := by
  obtain ⟨es, hes⟩ := h
  exact hes.later pi

theorem Stamped.follow (h : m.Stamped) (hm : Follows running m m') (hrunning : ∀ n ∈ running, n ≤ m.loads) :
    m'.Stamped := by
  intro pi p hp
  rcases hm.later pi with hsame | ⟨p', n, hp', hn, hlater⟩
  · obtain ⟨n, hn, hle⟩ := h pi p (hsame ▸ hp)
    exact ⟨n, hn, hle.trans hm.loads_le⟩
  · cases hp.symm.trans hp'
    refine ⟨n, hn, ?_⟩
    rcases hlater with hmem | ⟨-, hle⟩
    · exact (hrunning n hmem).trans hm.loads_le
    · exact hle

/-- What happens while no load is in progress. -/
theorem Stamped.follow_nil (h : m.Stamped) (hm : Follows [] m m') : m'.Stamped := h.follow hm nofun

theorem stamped_build (operators : List (String × Nat × Specifier))
    (builtins : List (Indicator × Builtin)) (defaults : Bool) :
    (build operators builtins defaults).Stamped :=
  fun pi p hp => absurd hp (find?_build_ne operators builtins defaults pi p)

theorem Recorded.after_stamped {α : Type} {action : MachineM α} (haction : Recorded [] action)
    (h : m.Stamped) : (Machine.after action m).Stamped :=
  h.follow_nil (haction.after m)

/-! ## What is reached -/

/-- Beginning an operation.  A predicate is called with any terms of the store. -/
inductive Begun (m : Machine) : Activity → Prop
  | compile (fuel : Nat) (c : Context) (text : String) {args : List Term}
    (hargs : ∀ x ∈ args, x.WellMade) :
    Begun m (.compile fuel m c text (if args.isEmpty then none else some args))
  | consult (fuel : Nat) (c : Context) {files : Term} {names : List String} (hfiles : files.WellMade)
    (hnames : fileNames (m.store.build files).2 (m.store.build files).1 = .ok names) :
    Begun m (.consulting fuel { m with store := (m.store.build files).2, context := c } names)
  | call (fuel : Nat) (pi : Indicator) {args : List Ref} (hargs : ∀ a ∈ args, a.index < m.store.size) :
    Begun m (.prove fuel { m with store := (m.store.apply pi.name args).2 }
      (m.store.apply pi.name args).1)

/-- What a machine is, at some moment between or within the operations on it. -/
inductive Reached : Machine → Prop
  /-- A new machine. -/
  | build (operators : List (String × Nat × Specifier)) (builtins : List (Indicator × Builtin))
    (defaults : Bool) : Reached (Machine.build operators builtins defaults)
  /-- Sources, contexts and the like are changed. -/
  | adjust {m m' : Machine} (h : Reached m) (hs : m'.store = m.store) (hdb : m'.database = m.database)
    (hloads : m'.loads = m.loads) : Reached m'
  /-- Terms are built or read. -/
  | allocate {m : Machine} {s : Store} (h : Reached m) (hs : Store.Adds m.store s) :
    Reached { m with store := s }
  /-- A text is compiled. -/
  | compile {m : Machine} (h : Reached m) (fuel : Nat) (c : Context) (text : String) {args : List Term}
    (hargs : ∀ x ∈ args, x.WellMade) : Reached (after (compileText fuel c text args) m)
  /-- Files are consulted. -/
  | consult {m : Machine} (h : Reached m) (fuel : Nat) (c : Context) {files : Term}
    (hfiles : files.WellMade) : Reached (after (consultFiles fuel c files) m)
  /-- A predicate is called. -/
  | call {m : Machine} (h : Reached m) (fuel : Nat) (pi : Indicator) {args : List Ref}
    (hargs : ∀ a ∈ args, a.index < m.store.size) : Reached (after (Machine.call fuel pi args) m)
  /-- An operation comes to the machine while it runs. -/
  | within {m : Machine} (h : Reached m) {a₀ a : Activity} (hbegin : Begun m a₀)
    (hmoves : ReflTransGen (Moves Set.univ) a₀ a) : Reached a.machine

/-! ## Soundness -/

theorem Sound.intact (h : m.Sound) (R : List Ref) : m.Intact m.store Set.univ R :=
  ⟨h, .refl _, fun _ _ _ _ _ hv => absurd (Set.mem_univ _) hv⟩

theorem settling_consultFiles (h : m.Sound) (fuel : Nat) (c : Context) {files : Term}
    (hfiles : files.WellMade) : Settling 0 m (consultFiles fuel c files) fun _ _ => True := by
  have hbuild := (Store.Adds.refl h.wellFormed).build hfiles
  exact (settling_onStore (P := fun _ _ => True) h hbuild.adds trivial).bind fun t m' hm' _ =>
    settling_consult (proper_solve fuel) hm'.sound (Nat.zero_le _) c t

theorem Sound.safe (h : m.Sound) {a : Activity} (hbegin : Begun m a) : a.Safe m.store Set.univ := by
  cases hbegin with
  | compile fuel c text hargs =>
    refine Activity.safe_compile (h.intact []) fun ts hts => ?_
    split at hts
    · cases hts
    · cases hts
      exact hargs
  | consult fuel c hfiles hnames =>
    have hbuild := (Store.Adds.refl h.wellFormed).build hfiles
    exact ((h.intact []).settle (h.settles_adds hbuild.adds 0)).congr rfl rfl
  | call fuel pi hargs =>
    exact Activity.safe_prove_of_evolves (h.intact _) (h.evolves_apply pi.name hargs)

/-- **Every machine that is reached is sound.** -/
theorem Reached.sound (h : m.Reached) : m.Sound := by
  induction h with
  | build operators builtins defaults => exact (Session.build operators builtins defaults).sound.1
  | adjust h hs hdb _ ih => exact ih.congr hs hdb
  | allocate h hs ih => exact (ih.settles_adds hs 0).sound
  | compile h fuel c text hargs ih =>
    exact ((ih.intact []).clear.after_settling
      (settling_compile (proper_solve fuel) ih (Nat.zero_le _) c text hargs)).1
  | consult h fuel c hfiles ih =>
    exact ((ih.intact []).clear.after_settling (settling_consultFiles ih fuel c hfiles)).1
  | call h fuel pi hargs ih =>
    exact ((ih.intact _).clear.after_evolving (evolving_callWith (proper_solve fuel) ih pi hargs)).1
  | within h hbegin hmoves ih =>
    have hsafe : ∀ {a}, ReflTransGen (Moves Set.univ) _ a → a.Safe _ Set.univ := fun hmoves => by
      induction hmoves with
      | refl => exact ih.safe hbegin
      | tail _ hmove ih => exact ih.moves hmove
    exact (hsafe hmoves).intact.sound

/-! ## Stamps -/

/-- The load that an activity is in the middle of has begun. -/
def Activity.Numbered : Activity → Prop
  | .searching _ _ _ | .consulting _ _ _ => True
  | .reading _ _ _ l | .loading _ _ _ _ l => l.load.id ≤ l.machine.loads

theorem Begins.numbered {k : Nat} {b : Builtin} {args : List Ref} {a : Activity} (h : Begins m k b args a)
    (hm : m.Stamped) : a.machine.Stamped ∧ a.Numbered := by
  cases h with
  | once | copyTerm | consult => exact ⟨hm, trivial⟩
  | compile | compileDetached => exact ⟨hm.congr rfl (Nat.le_succ _), Nat.le_refl _⟩

/-- A move keeps the numbers of loads in order. -/
theorem Moves.numbered {D : Set Ref} {a a' : Activity} (h : Moves D a a') (hm : a.machine.Stamped)
    (ha : a.Numbered) : a'.machine.Stamped ∧ a'.Numbered := by
  have hnext : ∀ {l : Loading} {source t source' m'}, l.machine.Stamped →
      Machine.nextTerm source l.machine = .ok (some (t, source')) m' →
      m'.Stamped ∧ l.machine.loads ≤ m'.loads := by
    intro l source t source' m' hl hread
    have hfollows : Follows [] l.machine m' := ((composed_recorded []).nextTerm source l.machine).of_ok hread
    exact ⟨hl.follow_nil hfollows, hfollows.loads_le⟩
  cases h with
  | step hstep =>
    exact ⟨hm.follow_nil ((closed_recorded.step (closed_recorded.solve _) _ _ _ [] _).of_ok hstep), trivial⟩
  | builtin hcallee hcontrol hfind hbegins => exact hbegins.numbered hm
  | @file k m m' name names source hopen =>
    obtain ⟨rfl, -⟩ := (Loading.ends_openSource m name).of_ok hopen
    exact ⟨hm.congr rfl (Nat.le_succ _), Nat.le_refl _⟩
  | @nextFile k m m' name names hload =>
    have hcomposed := composed_recorded []
    have hrecorded : Recorded [] (do poll; Machine.load (solve k) (← openSource name) : MachineM Unit) :=
      hcomposed.poll.bind fun _ => (hcomposed.openSource name).bind fun source =>
        recorded_load (recorded_solve k) source
    exact ⟨hm.follow_nil ((hrecorded _).of_ok hload), trivial⟩
  | expansion hread => exact ⟨(hnext hm hread).1.congr rfl (Nat.le_refl _), trivial⟩
  | expanded hread hexpand =>
    obtain ⟨hread', hle⟩ := hnext hm hread
    have hfollows : Follows [] _ _ := ((composed_recorded []).expand (recorded_solve _ []) _ _).of_ok hexpand
    exact ⟨hread'.follow_nil hfollows, (ha.trans hle).trans hfollows.loads_le⟩
  | directive => exact ⟨hm, trivial⟩
  | @inclusion k depth t ts source l g file name source' m hterm hfile hname hopen =>
    obtain ⟨rfl, -⟩ := (Loading.ends_openSource l.machine name).of_ok hopen
    exact ⟨hm, ha⟩
  | @loaded k depth t ts source l l' hload =>
    have hgoes : Loading.Goes [] l.load.id l l' := (Loading.recorded_loadTerm (recorded_solve k)
      (Loading.recorded_loadSource (recorded_solve k) depth) t l rfl).of_ok hload
    have hid : ∀ n ∈ [l.load.id], n ≤ l.machine.loads := List.forall_mem_singleton.mpr ha
    refine ⟨hm.follow hgoes.follows hid, ?_⟩
    show l'.load.id ≤ l'.machine.loads
    rw [hgoes.id_eq]
    exact ha.trans hgoes.follows.loads_le
  | nextTerm => exact ⟨hm, ha⟩

theorem Begun.numbered {a : Activity} (h : Begun m a) (hm : m.Stamped) :
    a.machine.Stamped ∧ a.Numbered := by
  cases h with
  | compile => exact ⟨hm.congr rfl (Nat.le_succ _), Nat.le_refl _⟩
  | consult | call => exact ⟨hm.congr rfl (Nat.le_refl _), trivial⟩

/-- **In every machine that is reached, predicates were last touched by loads that have begun.** -/
theorem Reached.stamped (h : m.Reached) : m.Stamped := by
  induction h with
  | build operators builtins defaults => exact stamped_build operators builtins defaults
  | adjust h hs hdb hloads ih => exact ih.congr hdb hloads.ge
  | allocate h hs ih => exact ih.congr rfl (Nat.le_refl _)
  | compile h fuel c text hargs ih =>
    exact (closed_recorded.compile (closed_recorded.solve fuel) c text _ []).after_stamped ih
  | consult h fuel c hfiles ih => exact (recorded_consultFiles fuel c _).after_stamped ih
  | call h fuel pi hargs ih => exact (closed_recorded.callWith (closed_recorded.solve fuel) pi _ []).after_stamped ih
  | within h hbegin hmoves ih =>
    have hnumbered : ∀ {a}, ReflTransGen (Moves Set.univ) _ a → a.machine.Stamped ∧ a.Numbered :=
      fun hmoves => by
        induction hmoves with
        | refl => exact hbegin.numbered ih
        | tail _ hmove ih => exact hmove.numbered ih.1 ih.2
    exact (hnumbered hmoves).1

/-! ## What loads leave as it was -/

theorem Settling.preserves {α : Type} {action : MachineM α} {P : α → Machine → Prop} {n : Nat}
    (h : Settling n m action P) : m.store.Preserved (after action m).store := by
  unfold after
  rcases haction : action m with ⟨a, m'⟩ | ⟨e, m'⟩
  · rw [Settling, haction] at h
    exact h.1.grows.preserved
  · rw [Settling, haction] at h
    exact h.grows.preserved

/-- **Loads leave the store as it was, but for new cells**, whatever they come to.  This is so for
texts and files that are loaded between operations, and for those that a program loads itself in the
middle of a search or of another load. -/
theorem Reached.load_preserves (h : m.Reached) (fuel : Nat) (c : Context) :
    (∀ text (args : List Term), (∀ x ∈ args, x.WellMade) →
      m.store.Preserved (after (compileText fuel c text args) m).store) ∧
    (∀ files : Term, files.WellMade → m.store.Preserved (after (consultFiles fuel c files) m).store) ∧
    ∀ files : Ref, m.store.Preserved (after (Machine.consult (solve fuel) c files) m).store := by
  have hm := h.sound
  refine ⟨fun text args hargs => ?_, fun files hfiles => ?_, fun files => ?_⟩
  · exact (settling_compile (proper_solve fuel) hm (Nat.zero_le _) c text hargs).preserves
  · exact (settling_consultFiles hm fuel c hfiles).preserves
  · exact (settling_consult (proper_solve fuel) hm (Nat.zero_le _) c files).preserves

/-- A variable that a call has bound stays bound, and no other one is, when a text stops at a directive
that has bound its own variable and consults a file that is not there. -/
theorem load_preserves_bound :
    let s := ((({} : Store).var none).2.atom "a").2
    let m := after (Machine.call 8 ⟨"=", 2⟩ [⟨0⟩, ⟨1⟩]) { build [] [] true with store := s }
    let load := compileText 8 ⟨0⟩ "p(X). :- X = b, consult(f)." []
    m.Reached ∧ m.store.trail.toList = [⟨0⟩] ∧
      (match load m with
        | .error (.error (.noSource name)) m' => name == "f" && m.store.size < m'.store.size
        | _ => false) = true ∧
      m.store.Preserved (after load m).store := by
  intro s m load
  have hs : Store.Adds {} s :=
    (((Store.Adds.refl Store.wellFormed_empty).var none).adds.atom "a").adds
  have hm : m.Reached := .call (.allocate (.build [] [] true) hs) 8 ⟨"=", 2⟩ (by decide)
  refine ⟨hm, by decide +kernel, by decide +kernel, (hm.load_preserves 8 ⟨0⟩).1 _ [] nofun⟩

end Machine

end Clausal
