import Clausal.Run

/-! # What all actions of a machine have in common

Searches, expansions and built-in predicates are made of few actions: they look at the store and
change it, make contexts and write to the log, end with errors, undo bindings, change the context, and
begin loads.  A property of actions that is closed under these (`Machine.Closed`) is one of all of them
(`Closed.solve`).  One that is closed under all but the last two (`Machine.Composed`) is a property of
what loads do between the terms that they load.

That the clauses of a predicate do not stand together is a complaint of loads only.  No other action
ends with it (`Tidy`), and a property may be one of such actions.
-/

namespace Clausal

/-! ## The complaint -/

/-- The result is not the complaint that the clauses of a predicate do not stand together. -/
def Tidy {α : Type} (e : Except Error α) : Prop := ∀ pi, e ≠ .error (.discontiguous pi)

section

variable {α β : Type} {s : Store} {t : Ref}

theorem tidy_ok (a : α) : Tidy (.ok a : Except Error α) := nofun

theorem tidy_pure (a : α) : Tidy (pure a : Except Error α) := nofun

theorem tidy_instantiation : Tidy (.error .instantiation : Except Error α) := nofun

theorem tidy_typeError (s : Store) (expected : Expected) (t : Ref) :
    Tidy (.error (s.typeError expected t) : Except Error α) := nofun

theorem Tidy.bind {e : Except Error α} {f : α → Except Error β} (he : Tidy e) (hf : ∀ a, Tidy (f a)) :
    Tidy (e >>= f) := by
  cases e with
  | ok a => exact hf a
  | error e => exact fun pi heq => he pi (congrArg Except.error (Except.error.inj heq))

theorem Tidy.map {e : Except Error α} (he : Tidy e) (f : α → β) : Tidy (e.map f) := by
  cases e with
  | ok a => exact nofun
  | error e => exact fun pi heq => he pi (congrArg Except.error (Except.error.inj heq))

theorem Tidy.mapM {f : α → Except Error β} (hf : ∀ a, Tidy (f a)) (as : List α) : Tidy (as.mapM f) := by
  induction as with
  | nil => exact tidy_pure _
  | cons a as ih =>
    rw [List.mapM_cons]
    exact (hf a).bind fun _ => ih.bind fun _ => tidy_pure _

theorem Tidy.foldlM {f : β → α → Except Error β} (hf : ∀ b a, Tidy (f b a)) (b : β) (as : List α) :
    Tidy (as.foldlM f b) := by
  induction as generalizing b with
  | nil => exact tidy_pure b
  | cons a as ih =>
    rw [List.foldlM_cons]
    exact (hf b a).bind fun b => ih b

theorem tidy_expectAtom (s : Store) (t : Ref) : Tidy (s.expectAtom t) := by
  unfold Store.expectAtom
  split <;> first | exact tidy_ok _ | exact nofun

theorem tidy_ofRef (s : Store) (t : Ref) : Tidy (Indicator.ofRef s t) := by
  unfold Indicator.ofRef
  split
  · exact tidy_instantiation
  · refine (tidy_expectAtom s _).bind fun name => ?_
    split
    · exact tidy_instantiation
    · split
      · exact tidy_pure _
      · exact tidy_typeError s _ _
    · exact tidy_typeError s _ _
  · exact tidy_typeError s _ _

theorem tidy_declared (s : Store) (t : Ref) : Tidy (Indicator.declared s t) := by
  have hrest : ∀ terms : List Ref, Tidy (terms.mapM (Indicator.ofRef s)) := Tidy.mapM (tidy_ofRef s)
  unfold Indicator.declared
  dsimp only
  by_cases hvar : s.isVar t = true
  · rw [if_pos hvar]
    exact tidy_instantiation.bind fun _ => by split <;> first | exact hrest _ | exact tidy_instantiation
  · rw [if_neg hvar]
    split <;> first | exact hrest _ | exact tidy_instantiation

theorem tidy_fileNames (s : Store) (t : Ref) : Tidy (Machine.fileNames s t) := by
  unfold Machine.fileNames
  split
  · exact nofun
  · exact Tidy.mapM (tidy_expectAtom s) _
  · exact (tidy_expectAtom s t).map _
  · exact tidy_typeError s _ _

theorem tidy_headIndicator (s : Store) (t : Ref) : Tidy (Clause.headIndicator s t) := by
  unfold Clause.headIndicator
  split <;> first | exact tidy_ok _ | exact nofun

theorem tidy_goal (s : Store) (d : Clause.Draft) (t : Ref) : Tidy (d.goal s t) := by
  unfold Clause.Draft.goal
  split <;> first | exact tidy_ok _ | exact nofun

theorem tidy_body (s : Store) (d : Clause.Draft) (body : Option Ref) (f : Clause.Draft → Clause) :
    Tidy (do
      let d ← match body with
        | none => pure d
        | some body => (s.operands "," body).foldlM (Clause.Draft.goal s) (d.emit .enter)
      pure (f d) : Except Error Clause) := by
  cases body with
  | none => exact tidy_pure _
  | some body => exact (Tidy.foldlM (tidy_goal s) _ _).bind fun _ => tidy_pure _

theorem tidy_compile (s : Store) (t : Ref) : Tidy (Clause.compile s t) := by
  unfold Clause.compile
  dsimp only
  by_cases hvar : s.isVar t = true
  · rw [if_pos hvar]
    exact tidy_instantiation.bind fun _ => (tidy_headIndicator s _).bind fun pi => tidy_body s _ _ _
  · rw [if_neg hvar]
    exact (tidy_headIndicator s _).bind fun pi => tidy_body s _ _ _

theorem tidy_ofRead (e : ReadError) (pi : Indicator) : Error.ofRead e ≠ .discontiguous pi := by
  cases e <;> exact nofun

end

namespace Machine

/-! ## What actions are made of -/

/-- The machine works under the context that it worked under and can open the sources that it could, and
the contexts that were cancelled are cancelled. -/
structure Abides (m m' : Machine) : Prop where
  /-- The context in force. -/
  context : m'.context = m.context
  /-- The sources. -/
  sources : m'.sources = m.sources
  /-- The contexts that are cancelled. -/
  cancelled : m.cancelled <:+ m'.cancelled

/-- Besides, nothing happened to its database and no load has begun. -/
structure Undisturbed (m m' : Machine) : Prop extends Abides m m' where
  /-- The database. -/
  database : m'.database = m.database
  /-- The number of loads. -/
  loads : m'.loads = m.loads

theorem Abides.refl (m : Machine) : Abides m m := ⟨rfl, rfl, List.suffix_rfl⟩

theorem Undisturbed.refl (m : Machine) : Undisturbed m m := ⟨.refl m, rfl, rfl⟩

/-- The property is one of everything that is made of looking at the machine and changing what it holds
besides its database, of errors, and of what is undone. -/
structure Composed (P : {α : Type} → MachineM α → Prop) : Prop where
  /-- Values. -/
  pure : ∀ {α : Type} (a : α), P (Pure.pure a)
  /-- One action after the other. -/
  bind : ∀ {α β : Type} {action : MachineM α} {f : α → MachineM β}, P action → (∀ a, P (f a)) →
    P (action >>= f)
  /-- The end of the fuel. -/
  outOfFuel : ∀ {α : Type}, P (throw .outOfFuel : MachineM α)
  /-- Looking for something that may not be there. -/
  examine : ∀ {α : Type} {f : Store → Except Error α}, (∀ s, Tidy (f s)) → P (examine f)
  /-- Changes of everything but the database, the number of loads, the sources and the context, in which
  no cancelled context is forgotten. -/
  change : ∀ {α : Type} {f : Machine → α × Machine},
    (∀ m, Undisturbed m (f m).2) → P (modifyGet f : MachineM α)
  /-- What is undone. -/
  undoing : ∀ {α : Type} {action : MachineM α}, P action → P (undoing action)

/-- The property is one of everything that searches and built-in predicates are made of. -/
structure Closed (P : {α : Type} → MachineM α → Prop) : Prop extends Composed P where
  /-- Another context. -/
  under : ∀ {α : Type} {action : MachineM α} (c : Context), P action → P (under c action)
  /-- Loads, of which the goals are proved by actions of the same kind. -/
  load : ∀ {solve : Ref → MachineM Bool} (source : TermSource), (∀ goal, P (solve goal)) →
    P (load solve source)

section

variable {α β : Type} {P : {α : Type} → MachineM α → Prop} {solve : Ref → MachineM Bool}

namespace Composed

theorem get (h : Composed P) : P (get : MachineM Machine) :=
  h.change (f := fun m => (m, m)) .refl

theorem look (h : Composed P) (f : Store → α) : P (look f) :=
  h.change (f := fun m => (f m.store, m)) .refl

theorem onStore (h : Composed P) (f : Store → α × Store) : P (onStore f) :=
  h.change (f := fun m => ((f m.store).1, { m with store := (f m.store).2 }))
    fun _ => ⟨⟨rfl, rfl, List.suffix_rfl⟩, rfl, rfl⟩

theorem changeStore (h : Composed P) (f : Store → Store) : P (changeStore f) := h.onStore _

theorem newContext (h : Composed P) : P newContext :=
  h.change fun _ => ⟨⟨rfl, rfl, List.suffix_rfl⟩, rfl, rfl⟩

theorem map (h : Composed P) {action : MachineM α} (haction : P action) (f : α → β) :
    P (f <$> action) := by
  have hbind : f <$> action = action >>= fun a => Pure.pure (f a) := (bind_pure_comp f action).symm
  rw [hbind]
  exact h.bind haction fun a => h.pure (f a)

theorem fail (h : Composed P) {e : Error} (he : Tidy (.error e : Except Error α)) :
    P (fail e : MachineM α) :=
  h.examine (f := fun _ => .error e) fun _ => he

/-- Ending with an error about a term of the store. -/
theorem complain (h : Composed P) {f : Store → Error} (hf : ∀ s, Tidy (.error (f s) : Except Error α)) :
    P (do Machine.fail (← Machine.look f) : MachineM α) :=
  h.examine (f := fun s => .error (f s)) hf

theorem forM (h : Composed P) {f : α → MachineM PUnit} (hf : ∀ a, P (f a)) (as : List α) :
    P (as.forM f) := by
  induction as with
  | nil => exact h.pure _
  | cons a as ih => exact h.bind (hf a) fun _ => ih

theorem poll (h : Composed P) : P poll := by
  refine h.bind h.get fun m => ?_
  split
  · exact h.fail nofun
  · exact h.pure _

theorem openSource (h : Composed P) (name : String) : P (openSource name) := by
  refine h.bind h.get fun m => ?_
  split
  · exact h.pure _
  · exact h.fail nofun
  · exact h.fail nofun

theorem nextTerm (h : Composed P) (source : TermSource) : P (nextTerm source) := by
  refine h.bind h.get fun m => h.bind (h.onStore _) fun (result, source) => ?_
  dsimp only
  split
  · exact h.pure _
  · exact h.fail fun pi heq => tidy_ofRead _ pi (Except.error.inj heq)

/-! ## Expansions -/

theorem expansionTerms (h : Composed P) (t : Ref) : P (Loading.expansionTerms t) := by
  refine h.bind (h.look _) fun shape => ?_
  split
  · exact h.pure _
  · exact h.fail nofun
  · exact h.pure _
  · exact h.complain fun s => tidy_typeError s _ _

theorem expandByRules (h : Composed P) (hsolve : ∀ goal, P (solve goal)) (t : Ref) :
    P (Loading.expandByRules solve t) := by
  refine h.bind h.get fun m => ?_
  split
  · split
    · exact h.pure _
    · refine h.bind (h.undoing ?_) fun result => ?_
      · refine h.bind (h.onStore _) fun (expansion, goal) => h.bind (hsolve goal) fun found => ?_
        split
        · exact h.map (h.look _) some
        · exact h.pure _
      · split
        · exact h.bind (h.onStore _) fun t => h.expansionTerms t
        · exact h.pure _
  · exact h.pure _

theorem expand (h : Composed P) (hsolve : ∀ goal, P (solve goal)) (t : Ref) :
    P (Loading.expand solve t) := by
  refine h.bind h.get fun m => ?_
  split
  · exact h.expandByRules hsolve t
  · exact h.bind (h.onStore _) fun _ => h.pure _
  · exact h.pure _
  · exact h.pure _
  · exact h.bind (h.look _) fun _ => h.fail nofun

end Composed

namespace Closed

/-! ## Built-in predicates -/

theorem callWith (h : Closed P) (hsolve : ∀ goal, P (solve goal)) (pi : Indicator) (args : List Ref) :
    P (callWith solve pi args) := by
  have hcall : P (do solve (← Machine.onStore (·.apply pi.name args))) :=
    h.bind (h.onStore _) fun goal => hsolve goal
  unfold Machine.callWith
  dsimp only
  split
  · exact h.bind (h.fail nofun) fun _ => hcall
  · exact hcall

theorem compile (h : Closed P) (hsolve : ∀ goal, P (solve goal)) (c : Context) (text : String)
    (args : List Term) : P (compile solve c text args) :=
  h.under c (h.bind h.get fun _ => h.load _ hsolve)

theorem consult (h : Closed P) (hsolve : ∀ goal, P (solve goal)) (c : Context) (files : Ref) :
    P (consult solve c files) := by
  refine h.bind (h.examine fun s => tidy_fileNames s files) fun names => h.under c (h.forM (fun name => ?_) names)
  exact h.bind h.poll fun _ => h.bind (h.openSource name) fun source => h.load source hsolve

theorem compileText (h : Closed P) (hsolve : ∀ goal, P (solve goal)) (c : Context) (t : Ref) :
    P (Builtin.compileText solve c t) := by
  refine h.bind (h.look _) fun text => ?_
  split
  · exact h.bind (h.compile hsolve c _ _) fun _ => h.pure _
  · exact h.fail nofun

/-- **Built-in predicates have the property**, if what they prove has. -/
theorem run (h : Closed P) (hsolve : ∀ goal, P (solve goal)) (b : Builtin) (args : List Ref) :
    P (Builtin.run solve b args) := by
  unfold Builtin.run
  split
  · refine h.bind (h.look _) fun isVar => ?_
    split
    · exact h.fail nofun
    · exact h.bind (h.look _) fun _ => h.fail nofun
  · exact h.onStore _
  · exact h.bind h.get fun m => h.bind (h.consult hsolve _ _) fun _ => h.pure _
  · exact h.pure _
  · exact h.pure _
  · exact h.bind (h.look _) fun terms =>
      h.bind (h.change fun _ => ⟨⟨rfl, rfl, List.suffix_rfl⟩, rfl, rfl⟩) fun _ => h.pure _
  · exact h.bind h.get fun m =>
      h.bind (h.change fun _ => ⟨⟨rfl, rfl, List.suffix_cons _ _⟩, rfl, rfl⟩) fun _ => h.pure _
  · exact h.bind h.get fun m => h.compileText hsolve _ _
  · exact h.bind h.newContext fun c => h.compileText hsolve c _
  · exact h.callWith hsolve _ _
  · exact h.look _
  · exact h.look _
  · exact h.bind (h.onStore _) fun copy => h.callWith hsolve _ _
  · exact h.look _
  · exact h.look _
  · exact h.bind (h.examine fun s => tidy_ofRef s _) fun pi => h.bind h.get fun m => h.pure _
  · exact h.complain fun s => tidy_typeError s _ _
  · exact h.complain fun s => tidy_typeError s _ _
  · exact h.pure _

/-! ## Searches -/

theorem tryClauses (h : Closed P) (goal : Ref) (goals : List Frame) (choices : Choices)
    (clauses : List Clause) : P (Search.tryClauses goal goals choices clauses) := by
  induction clauses with
  | nil => exact h.pure _
  | cons c clauses ih =>
    refine h.bind (h.look _) fun mark => h.bind (h.onStore _) fun body => ?_
    cases body with
    | some body => exact h.pure _
    | none => exact h.bind (h.changeStore _) fun _ => ih

theorem backtrack (h : Closed P) (choices : Choices) : P (Search.backtrack choices) := by
  induction choices with
  | nil => exact h.pure _
  | cons point choices ih =>
    refine h.bind (h.changeStore _) fun _ => ?_
    cases point.alternative with
    | resume goals => exact h.pure _
    | clauses goal rest goals =>
      refine h.bind (h.tryClauses _ _ _ _) fun search => ?_
      cases search with
      | some search => exact h.pure _
      | none => exact ih

theorem withArgs (h : Closed P) (goal : Ref) (extra : List Ref) : P (Search.withArgs goal extra) := by
  refine h.bind (h.look _) fun goal => ?_
  split
  · exact h.pure _
  · refine h.bind (h.look _) fun view => ?_
    split
    · exact h.fail nofun
    · exact h.onStore _
    · exact h.onStore _
    · exact h.complain fun s => tidy_typeError s _ _

theorem callee (h : Closed P) (goal : Ref) : P (Search.callee goal) := by
  refine h.bind (h.look _) fun view => ?_
  split
  · exact h.fail nofun
  · exact h.pure _
  · exact h.pure _
  · exact h.complain fun s => tidy_typeError s _ _

theorem callProcedure (h : Closed P) (hsolve : ∀ goal, P (solve goal)) (pi : Indicator) (goal : Ref)
    (args : List Ref) (goals : List Frame) (choices : Choices) :
    P (Search.callProcedure (Builtin.run solve) pi goal args goals choices) := by
  refine h.bind h.get fun m => ?_
  split
  · exact h.fail nofun
  · exact h.bind (h.run hsolve _ _) fun found => h.pure _
  · exact h.tryClauses _ _ _ _

theorem proveControl (h : Closed P) (hsolve : ∀ goal, P (solve goal)) (goal : Ref) (barrier : Nat)
    (goals : List Frame) (choices : Choices) (control : Search.Control Ref) :
    P (Search.proveControl (Builtin.run solve) goal barrier goals choices control) := by
  cases control with
  | succeed | fail | cut | both | ifThen => exact h.pure _
  | ifThenElse | either | not => exact h.bind (h.look _) fun mark => h.pure _
  | call goal extra => exact h.bind (h.withArgs goal extra) fun goal => h.pure _
  | procedure pi args => exact h.callProcedure hsolve _ _ _ _ _

theorem step (h : Closed P) (hsolve : ∀ goal, P (solve goal)) (frame : Frame) (goals : List Frame)
    (choices : Choices) : P (Search.step (Builtin.run solve) frame goals choices) := by
  have hprove : P (Search.prove (Builtin.run solve) frame goals choices) := by
    cases frame with
    | goal t barrier =>
      exact h.bind (h.look _) fun goal => h.bind (h.callee goal) fun (name, args) =>
        h.bind (h.look _) fun control => h.proveControl hsolve _ _ _ _ control
    | cutTo height => exact h.pure _
    | fail => exact h.pure _
  refine h.bind hprove fun search => ?_
  cases search with
  | some search => exact h.pure _
  | none => exact h.backtrack _

theorem loop (h : Closed P) (hsolve : ∀ goal, P (solve goal)) (fuel taken : Nat) (search : Search) :
    P (Search.loop (Builtin.run solve) fuel taken search) := by
  induction fuel generalizing taken search with
  | zero =>
    obtain ⟨_ | ⟨frame, goals⟩, choices⟩ := search
    · exact h.pure _
    · exact h.outOfFuel
  | succ fuel ih =>
    obtain ⟨_ | ⟨frame, goals⟩, choices⟩ := search
    · exact h.pure _
    have hstep := h.step hsolve frame goals choices
    rw [Search.loop]
    dsimp only
    split
    · refine h.bind h.poll fun _ => h.bind hstep fun next => ?_
      cases next with
      | some search => exact ih _ search
      | none => exact h.pure _
    · refine h.bind hstep fun next => ?_
      cases next with
      | some search => exact ih _ search
      | none => exact h.pure _

end Closed

end

/-- **What is closed under the actions that searches are made of is a property of searches**, however
deep searches and loads are nested. -/
theorem Closed.solve {P : {α : Type} → MachineM α → Prop} (h : Closed P) (fuel : Nat) (goal : Ref) :
    P (Machine.solve fuel goal) := by
  induction fuel generalizing goal with
  | zero => exact h.outOfFuel
  | succ fuel ih => exact h.loop ih _ _ _

end Machine

end Clausal
