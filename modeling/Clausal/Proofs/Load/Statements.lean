import Clausal.Proofs.Load.Complaints
import Clausal.Proofs.Load.Deeds

/-! # The statements of a program

A term of a source is a statement, which is dealt with at its turn, or it puts another source in its
place.  Statements are clauses, declarations, and goals that have to hold.  Dealing with a statement
does its deeds to the database, takes note of it in the load, and, if it is a goal, does what the goal
does (`Statement.perform_ok`).
-/

namespace Clausal

open Machine

/-- Something in a source that is dealt with at its turn. -/
inductive Statement where
  /-- A fact or a rule. -/
  | clause (t : Ref)
  /-- A declaration. -/
  | declare (property : Property) (predicates : Ref)
  /-- A goal for the loaded program. -/
  | initialization (goal : Ref)
  /-- Any other goal. -/
  | goal (goal : Ref)
  deriving Repr

/-- The term of a fact or a rule. -/
def Statement.clause? : Statement → Option Ref
  | .clause t => some t
  | _ => none

theorem Statement.clause?_eq_some {i : Statement} {t : Ref} : i.clause? = some t ↔ i = .clause t := by
  cases i <;> simp [clause?]

/-- The predicate whose clauses do not stand together, if this is what an action met. -/
def Stop.discontiguous? : Stop → Option Indicator
  | .error (.discontiguous pi) => some pi
  | _ => none

theorem Stop.discontiguous?_eq_some {e : Stop} {pi : Indicator} :
    e.discontiguous? = some pi ↔ e = .error (.discontiguous pi) := by
  rcases e with e | _
  · cases e <;> simp [discontiguous?]
  · simp [discontiguous?]

/-- What a term of a source is. -/
inductive Part where
  /-- A statement. -/
  | statement (i : Statement)
  /-- It puts a source in its place. -/
  | inclusion (file : Ref)
  deriving Repr

/-- Tells statements from inclusions. -/
def Part.of (s : Store) (t : Ref) : Part :=
  match TopLevel.of s t with
  | .clause t => .statement (.clause t)
  | .directive goal =>
    match Directive.of s goal with
    | .declare property predicates => .statement (.declare property predicates)
    | .inclusion file | .ensureLoaded file => .inclusion file
    | .initialization goal => .statement (.initialization goal)
    | .goal goal => .statement (.goal goal)

namespace Load

/-- The load after a clause of the predicate. -/
def noting (load : Load) (pi : Indicator) : Load :=
  { load with
    last := some pi
    seen := if load.seen.contains pi then load.seen else pi :: load.seen }

variable {load : Load} {pi q : Indicator} {flags : Flags}

theorem mem_seen_noting : q ∈ (load.noting pi).seen ↔ q = pi ∨ q ∈ load.seen := by
  unfold noting
  by_cases h : pi ∈ load.seen
  · have hq : q = pi ∨ q ∈ load.seen ↔ q ∈ load.seen :=
      ⟨fun hq => hq.elim (fun heq => heq ▸ h) fun hq => hq, .inr⟩
    simpa [h] using hq.symm
  · simp [h]

theorem noteClause_eq_ok {noted : Load} (h : load.noteClause pi flags = .ok noted) :
    noted = load.noting pi := by
  unfold noteClause at h
  split at h
  · cases h
  · cases h
    rfl

/-- The clauses of a predicate do not stand together, and are not allowed to. -/
theorem noteClause_of_gap (hlast : load.last ≠ some pi) (hseen : pi ∈ load.seen)
    (hflags : flags.allowsGaps = false) : load.noteClause pi flags = .error (.discontiguous pi) := by
  simp [noteClause, hlast, hseen, hflags]

theorem noteClause_of_no_gap (h : load.last = some pi ∨ pi ∉ load.seen ∨ flags.allowsGaps = true) :
    load.noteClause pi flags = .ok (load.noting pi) := by
  rcases h with h | h | h <;> simp [noteClause, noting, h]

end Load

namespace Loading

variable {α : Type} {l l' : Loading} {t : Ref} {c : Clause} {e : Error} {solve : Ref → MachineM Bool}

/-- The machine with another database. -/
def withDatabase (l : Loading) (db : Database) : Loading :=
  { l with machine := { l.machine with database := db } }

theorem lift_onDatabase_of_ok (f : Database → Except Error (α × Database)) {a : α} {db : Database}
    (h : f l.machine.database = .ok (a, db)) : lift (onDatabase f) l = .ok a (l.withDatabase db) := by
  have hvalue : onDatabase f l.machine = .ok a { l.machine with database := db } := by
    show EStateM.bind (ofExcept (f l.machine.database)) _ l.machine = _
    rw [h]
    rfl
  exact lift_of_ok hvalue

theorem lift_onDatabase_of_error (f : Database → Except Error (α × Database))
    (h : f l.machine.database = .error e) : lift (onDatabase f) l = .error (.error e) l := by
  have hvalue : onDatabase f l.machine = .error (.error e) l.machine := by
    show EStateM.bind (ofExcept (f l.machine.database)) _ l.machine = _
    rw [h]
    rfl
  exact lift_of_error hvalue

theorem lift_changeDatabase_of_ok {f : Database → Except Error Database} {db : Database}
    (h : f l.machine.database = .ok db) : lift (changeDatabase f) l = .ok () (l.withDatabase db) :=
  lift_onDatabase_of_ok _ (by rw [h]; rfl)

theorem lift_changeDatabase_of_error {f : Database → Except Error Database}
    (h : f l.machine.database = .error e) : lift (changeDatabase f) l = .error (.error e) l :=
  lift_onDatabase_of_error _ (by rw [h]; rfl)

/-! ## Clauses -/

theorem addClause_of_malformed (h : Clause.compile l.machine.store t = .error e) :
    addClause t l = .error (.error e) l :=
  bind_eq_of_error (lift_examine_of_error h)

section

variable (hc : Clause.compile l.machine.store t = .ok c)
include hc

theorem addClause_of_builtin {b : Builtin}
    (hb : l.machine.database.find? c.pi = some (.builtin b)) :
    addClause t l = .error (.error (.protectedProcedure c.pi)) l := by
  rw [addClause, bind_eq_of_ok (lift_examine_of_ok hc)]
  show (current >>= _) l = _
  rw [bind_eq_of_ok (show current l = .ok l.load l from rfl)]
  exact bind_eq_of_error (lift_onDatabase_of_error (·.touch l.load.id c.pi)
    (Database.touch_of_builtin hb l.load.id))

variable (hb : ∀ b, l.machine.database.find? c.pi ≠ some (.builtin b))
include hb

/-- A clause that is refused has its predicate touched. -/
theorem addClause_of_refused
    (h : l.load.noteClause c.pi (l.machine.database.found l.load.id c.pi).flags = .error e) :
    addClause t l = .error (.error e) (l.withDatabase
      (l.machine.database.insert c.pi (.defined (l.machine.database.found l.load.id c.pi)))) := by
  have htouch := lift_onDatabase_of_ok (·.touch l.load.id c.pi)
    (Database.touch_of_not_builtin hb l.load.id)
  rw [addClause, bind_eq_of_ok (lift_examine_of_ok hc)]
  refine (bind_eq_of_ok htouch).trans ?_
  rw [h]
  rfl

/-- A clause that is not is added to its predicate. -/
theorem addClause_of_noted {noted : Load}
    (h : l.load.noteClause c.pi (l.machine.database.found l.load.id c.pi).flags = .ok noted) :
    addClause t l = .ok () ⟨(l.withDatabase (l.machine.database.insert c.pi
      (.defined ((Deed.clause c).apply (l.machine.database.found l.load.id c.pi))))).machine, noted⟩ := by
  have htouch := lift_onDatabase_of_ok (·.touch l.load.id c.pi)
    (Database.touch_of_not_builtin hb l.load.id)
  have hload := l.machine.database.load_found l.load.id c.pi
  -- The predicate was touched just before, so that it does not start over here.
  have happend : (l.machine.database.insert c.pi
      (.defined (l.machine.database.found l.load.id c.pi))).append l.load.id c =
      .ok (l.machine.database.insert c.pi
        (.defined ((Deed.clause c).apply (l.machine.database.found l.load.id c.pi)))) :=
    Database.update_insert hload (Deed.clause c).apply
  rw [addClause, bind_eq_of_ok (lift_examine_of_ok hc)]
  refine (bind_eq_of_ok htouch).trans ?_
  rw [h]
  exact lift_changeDatabase_of_ok (l := ⟨(l.withDatabase _).machine, noted⟩) happend

end

/-! ## Declarations -/

theorem declare_of_malformed {property : Property} {predicates : Ref}
    (h : Indicator.declared l.machine.store predicates = .error e) :
    declare property predicates l = .error (.error e) l := by
  show (lift (examine (Indicator.declared · predicates)) >>= _) l = _
  exact bind_eq_of_error (lift_examine_of_error h)

/-- Declares a property of predicates. -/
def declareEach (id : Nat) (property : Property) (pis : List Indicator) : LoadM PUnit :=
  pis.forM fun pi => lift (changeDatabase (·.declare id property pi))

/-- Declaring a property of several predicates is a deed for each of them. -/
theorem declareEach_eq (id : Nat) (property : Property) (pis : List Indicator) (l : Loading) :
    match (pis.map (Deed.declare property)).foldlM (Deed.carryOut id) l.machine.database with
    | .ok db => declareEach id property pis l = .ok ⟨⟩ (l.withDatabase db)
    | .error e => ∃ db, declareEach id property pis l = .error (.error e) (l.withDatabase db) := by
  -- The database of an error is that of the declarations made before it.
  induction pis generalizing l with
  | nil => exact rfl
  | cons pi pis ih =>
    rw [List.map_cons, List.foldlM_cons]
    rcases hpi : l.machine.database.declare id property pi with e | db
    · have hone : declareEach id property (pi :: pis) l = .error (.error e) l :=
        bind_eq_of_error (lift_changeDatabase_of_error hpi)
      have hdeed : Deed.carryOut id l.machine.database (.declare property pi) = .error e := hpi
      rw [hdeed]
      exact ⟨l.machine.database, hone⟩
    · have hone : declareEach id property (pi :: pis) l =
          declareEach id property pis (l.withDatabase db) :=
        bind_eq_of_ok (lift_changeDatabase_of_ok hpi)
      have hdeed : Deed.carryOut id l.machine.database (.declare property pi) = .ok db := hpi
      rw [hdeed, hone]
      exact ih (l.withDatabase db)

theorem declare_of_declared {property : Property} {predicates : Ref} {pis : List Indicator}
    (h : Indicator.declared l.machine.store predicates = .ok pis) :
    declare property predicates l = declareEach l.load.id property pis l := by
  show (lift (examine (Indicator.declared · predicates)) >>= _) l = _
  exact bind_eq_of_ok (lift_examine_of_ok h)

/-! ## What happens besides -/

/-- Nothing has happened to the database but by loads that have begun since, and the load is as it was,
but for the sources that are being loaded. -/
structure Quiet (l l' : Loading) : Prop where
  /-- What happened to the database. -/
  follows : Follows [] l.machine l'.machine
  /-- The number of the load. -/
  id : l'.load.id = l.load.id
  /-- The predicate of the last clause. -/
  last : l'.load.last = l.load.last
  /-- The predicates with a clause. -/
  seen : l'.load.seen = l.load.seen

theorem Quiet.refl (l : Loading) : l.Quiet l := ⟨.refl [] _, rfl, rfl, rfl⟩

theorem Quiet.trans {l'' : Loading} (h : l.Quiet l') (h' : l'.Quiet l'') : l.Quiet l'' :=
  ⟨h.follows.trans h'.follows, h'.id.trans h.id, h'.last.trans h.last, h'.seen.trans h.seen⟩

/-- Whatever the action comes to, it was quiet, and if it complains that clauses do not stand together,
a load has begun. -/
structure Quietly (action : LoadM α) : Prop where
  /-- It was quiet. -/
  quiet : ∀ l, Ends (action l) (fun _ l' => l.Quiet l') l.Quiet
  /-- Its complaints are those of other loads. -/
  tidy : ∀ l pi l', action l = .error (.error (.discontiguous pi)) l' →
    l.machine.loads < l'.machine.loads

theorem quietly_pure (a : α) : Quietly (pure a : LoadM α) where
  quiet l := .refl l
  tidy _ _ _ herror := by cases herror

theorem Quietly.bind {β : Type} {action : LoadM α} {f : α → LoadM β} (h : Quietly action)
    (hf : ∀ a, Quietly (f a)) : Quietly (action >>= f) where
  quiet l := Ends.bind (h.quiet l) fun a l' hl' =>
    ((hf a).quiet l').imp (fun _ _ => hl'.trans) fun _ => hl'.trans
  tidy l pi l' herror := by
    -- A load that has begun in the first part has begun when the second part complains.
    rcases hresult : action l with ⟨a, l₁⟩ | ⟨e, l₁⟩
    · have hle := ((h.quiet l).of_ok hresult).follows.loads_le
      rw [bind_eq_of_ok hresult] at herror
      exact Nat.lt_of_le_of_lt hle ((hf a).tidy l₁ pi l' herror)
    · rw [bind_eq_of_error hresult] at herror
      cases herror
      exact h.tidy l pi _ hresult

theorem quietly_lift {action : MachineM α} (h : Orderly action) : Quietly (lift action) where
  quiet l := by
    have hrecorded := h.recorded [] l.machine
    rw [lift_apply]
    rcases hresult : action l.machine with ⟨a, m⟩ | ⟨e, m⟩
    · rw [hresult] at hrecorded
      exact ⟨hrecorded, rfl, rfl, rfl⟩
    · rw [hresult] at hrecorded
      exact ⟨hrecorded, rfl, rfl, rfl⟩
  tidy l pi l' herror := by
    rw [lift_apply] at herror
    rcases hresult : action l.machine with ⟨a, m⟩ | ⟨e, m⟩
    · rw [hresult] at herror
      cases herror
    · rw [hresult] at herror
      cases herror
      exact h.tidy l.machine pi m hresult

/-- A change of the sources that are being loaded. -/
theorem quietly_change {f : Load → Load}
    (hf : ∀ load, (f load).id = load.id ∧ (f load).last = load.last ∧ (f load).seen = load.seen) :
    Quietly (change f) where
  quiet l := ⟨.refl [] _, (hf l.load).1, (hf l.load).2.1, (hf l.load).2.2⟩
  tidy _ _ _ herror := by cases herror

theorem quietly_require (hsolve : ∀ goal, Orderly (solve goal)) (goal : Ref) {failure : Term → Error}
    (hfailure : ∀ x pi, failure x ≠ .discontiguous pi) : Quietly (require solve goal failure) := by
  refine (quietly_lift (hsolve goal).undoing).bind fun found => ?_
  split
  · exact quietly_pure _
  · exact quietly_lift (closed_orderly.bind (closed_orderly.look _) fun x =>
      closed_orderly.fail fun pi heq => hfailure x pi (Except.error.inj heq))

end Loading

namespace Statement

open Loading

variable {l l' : Loading} {solve : Ref → MachineM Bool} {i : Statement}

/-- Deals with a statement. -/
def perform (solve : Ref → MachineM Bool) : Statement → LoadM Unit
  | clause t => addClause t
  | declare property predicates => do
    change Load.noteDirective
    Loading.declare property predicates
  | initialization g => do
    change Load.noteDirective
    require solve g .failedInitialization
  | goal g => do
    change Load.noteDirective
    require solve g .failedDirective

/-- What a statement says is to be done to the database. -/
def deeds (s : Store) : Statement → Except Error (List Deed)
  | clause t => (Clause.compile s t).map fun c => [.clause c]
  | declare property predicates =>
    (Indicator.declared s predicates).map fun pis => pis.map (.declare property)
  | initialization _ | goal _ => .ok []

/-- The load after the statement. -/
def note (s : Store) (i : Statement) (load : Load) : Load :=
  match i with
  | clause t =>
    match Clause.compile s t with
    | .ok c => load.noting c.pi
    | .error _ => load
  | _ => load.noteDirective

theorem id_note (s : Store) (i : Statement) (load : Load) : (i.note s load).id = load.id := by
  cases i with
  | clause t =>
    rw [note]
    split <;> rfl
  | declare | initialization | goal => rfl

theorem including_note (s : Store) (i : Statement) (load : Load) :
    (i.note s load).including = load.including := by
  cases i with
  | clause t =>
    rw [note]
    split <;> rfl
  | declare | initialization | goal => rfl

/-- The statement runs a goal. -/
def IsGoal : Statement → Prop
  | clause _ | declare _ _ => False
  | initialization _ | goal _ => True

instance (i : Statement) : Decidable i.IsGoal :=
  match i with
  | clause _ | declare _ _ => .isFalse id
  | initialization _ | goal _ => .isTrue trivial

/-- **A clause or a declaration that is dealt with** does its deeds and nothing else. -/
theorem perform_ok_of_not_goal (hi : ¬ i.IsGoal) (h : i.perform solve l = .ok () l') :
    ∃ ds db, i.deeds l.machine.store = .ok ds ∧
      ds.foldlM (Deed.carryOut l.load.id) l.machine.database = .ok db ∧
      l' = ⟨(l.withDatabase db).machine, i.note l.machine.store l.load⟩ := by
  cases i with
  | clause t =>
    have h : addClause t l = .ok () l' := h
    rcases hc : Clause.compile l.machine.store t with e | c
    · rw [addClause_of_malformed hc] at h
      cases h
    by_cases hb : ∃ b, l.machine.database.find? c.pi = some (.builtin b)
    · obtain ⟨b, hb⟩ := hb
      rw [addClause_of_builtin hc hb] at h
      cases h
    rw [not_exists] at hb
    rcases hnote : l.load.noteClause c.pi (l.machine.database.found l.load.id c.pi).flags with e | noted
    · rw [addClause_of_refused hc hb hnote] at h
      cases h
    · rw [addClause_of_noted hc hb hnote] at h
      cases h
      refine ⟨[.clause c], l.machine.database.insert c.pi
        (.defined ((Deed.clause c).apply (l.machine.database.found l.load.id c.pi))), ?_, ?_, ?_⟩
      · rw [deeds, hc]
        rfl
      · have hdeed : Deed.carryOut l.load.id l.machine.database (.clause c) = _ :=
          Database.update_of_not_builtin hb l.load.id (Deed.clause c).apply
        rw [List.foldlM_cons, hdeed]
        rfl
      · rw [note, hc, Load.noteClause_eq_ok hnote]
  | declare property predicates =>
    have h : Loading.declare property predicates ⟨l.machine, l.load.noteDirective⟩ = .ok () l' := h
    rcases hpis : Indicator.declared l.machine.store predicates with e | pis
    · rw [declare_of_malformed (l := ⟨l.machine, l.load.noteDirective⟩) hpis] at h
      cases h
    rw [declare_of_declared (l := ⟨l.machine, l.load.noteDirective⟩) hpis] at h
    have hdeeds := declareEach_eq l.load.id property pis ⟨l.machine, l.load.noteDirective⟩
    refine ⟨pis.map (.declare property), ?_⟩
    dsimp only at hdeeds
    rcases hdb : (pis.map (Deed.declare property)).foldlM (Deed.carryOut l.load.id)
        l.machine.database with e | db
    · rw [hdb] at hdeeds
      obtain ⟨db, herror⟩ := hdeeds
      cases h.symm.trans herror
    · rw [hdb] at hdeeds
      cases h.symm.trans hdeeds
      refine ⟨db, ?_, rfl, rfl⟩
      rw [deeds, hpis]
      rfl
  | initialization goal | goal goal => exact absurd trivial hi

/-- A goal is taken note of, and then proved quietly. -/
theorem perform_goal (hsolve : ∀ goal, Orderly (solve goal)) (hi : i.IsGoal) :
    ∃ action : LoadM Unit, Quietly action ∧
      ∀ l : Loading, i.perform solve l = action ⟨l.machine, l.load.noteDirective⟩ := by
  cases i with
  | clause | declare => exact hi.elim
  | initialization g =>
    exact ⟨require solve g .failedInitialization, quietly_require hsolve g nofun, fun _ => rfl⟩
  | goal g => exact ⟨require solve g .failedDirective, quietly_require hsolve g nofun, fun _ => rfl⟩

/-- No load ends before it has begun. -/
theorem loads_le_perform (hsolve : ∀ goal, Orderly (solve goal)) (i : Statement) (l : Loading) :
    Ends (i.perform solve l) (fun _ l' => l.machine.loads ≤ l'.machine.loads)
      fun l' => l.machine.loads ≤ l'.machine.loads := by
  have hsolve' : RecordedSolve solve := fun running goal => (hsolve goal).recorded running
  have hnote : Loading.Recorded [] l.load.id (change Load.noteDirective) :=
    recorded_change fun _ hid => hid
  have hperform : Loading.Recorded [] l.load.id (i.perform solve) := by
    cases i with
    | clause t => exact recorded_addClause t
    | declare property predicates => exact hnote.bind fun _ => recorded_declare property predicates
    | initialization g | goal g => exact hnote.bind fun _ => recorded_require hsolve' g _
  exact (hperform l rfl).imp (fun _ _ h => h.follows.loads_le) fun _ h => h.follows.loads_le

/-- **A statement that is dealt with** does its deeds and is taken note of, and its goal is proved
quietly. -/
theorem perform_ok (hsolve : ∀ goal, Orderly (solve goal)) (h : i.perform solve l = .ok () l') :
    ∃ ds db, i.deeds l.machine.store = .ok ds ∧
      ds.foldlM (Deed.carryOut l.load.id) l.machine.database = .ok db ∧
      Quiet ⟨(l.withDatabase db).machine, i.note l.machine.store l.load⟩ l' := by
  by_cases hi : i.IsGoal
  · obtain ⟨action, hquiet, hperform⟩ := perform_goal hsolve hi
    rw [hperform] at h
    have hl' := (hquiet.quiet _).of_ok h
    cases i with
    | clause | declare => exact hi.elim
    | initialization g | goal g => exact ⟨[], l.machine.database, rfl, rfl, hl'⟩
  · obtain ⟨ds, db, hds, hdb, rfl⟩ := perform_ok_of_not_goal hi h
    exact ⟨ds, db, hds, hdb, .refl _⟩

end Statement

/-- A statement, and the store with its terms when its turn comes. -/
structure Passage where
  /-- The statement. -/
  statement : Statement
  /-- The store. -/
  store : Store

namespace Passage

variable {p : Passage} {pi : Indicator}

/-- What is to be done to the database, if the statement can be made sense of. -/
def deeds (p : Passage) : List Deed :=
  match p.statement.deeds p.store with
  | .ok ds => ds
  | .error _ => []

/-- The predicate that the passage is a clause of. -/
def pi? (p : Passage) : Option Indicator :=
  match p.statement with
  | .clause t =>
    match Clause.compile p.store t with
    | .ok c => some c.pi
    | .error _ => none
  | _ => none

/-- The passage declares that the clauses of the predicate need not stand together. -/
def Allows (p : Passage) (pi : Indicator) : Prop :=
  ∃ property, property ≠ .inspectable ∧ Deed.declare property pi ∈ p.deeds

theorem deeds_eq {ds : List Deed} (h : p.statement.deeds p.store = .ok ds) : p.deeds = ds := by
  rw [deeds, h]

theorem pi?_eq_some : p.pi? = some pi ↔ ∃ t c, p.statement = .clause t ∧
    Clause.compile p.store t = .ok c ∧ c.pi = pi := by
  obtain ⟨i, s⟩ := p
  cases i with
  | clause t =>
    rcases hc : Clause.compile s t with e | c <;> simp [pi?, hc]
  | declare | initialization | goal => simp [pi?]

/-- A clause is a deed about its predicate. -/
theorem mem_deeds_of_pi? (h : p.pi? = some pi) : pi ∈ p.deeds.map Deed.pi := by
  obtain ⟨t, c, hstatement, hc, rfl⟩ := pi?_eq_some.mp h
  have hds : p.deeds = [.clause c] := deeds_eq (by rw [hstatement, Statement.deeds, hc]; rfl)
  rw [hds]
  exact List.mem_cons_self

end Passage

end Clausal
