import Clausal.Proofs.Clause.Widening
import Clausal.Proofs.Inclusion.Joining

/-! # Machines with wider stores

A machine whose store has cells put in does what it does without them: the same predicates with the
same clauses, the same answers and the same errors, except that places are shifted and variables
numbered anew.  `Machine.Wider` relates two such machines, and the lemmas here say that the actions of
which loads and searches are made correspond.
-/

namespace Clausal

namespace Gap

variable (gap : Gap)

/-- The predicate with the places in its clauses shifted. -/
def predicate (p : Predicate) : Predicate := { p with clauses := p.clauses.map gap.clause }

/-- The definition with the places in its clauses shifted. -/
def procedure : Procedure → Procedure
  | .builtin b => .builtin b
  | .defined p => .defined (gap.predicate p)

/-- The database with the places in its clauses shifted. -/
def database (db : Database) : Database := ⟨db.entries.map fun e => (e.1, gap.procedure e.2)⟩

/-- A database is as it was if its clauses are. -/
theorem database_of_clauses {gap : Gap} {db : Database}
    (h : ∀ pi c, db.Holds pi c → gap.clause c = c) : gap.database db = db := by
  obtain ⟨entries⟩ := db
  refine congrArg Database.mk ((List.map_congr_left fun e he => ?_).trans (List.map_id _))
  obtain ⟨pi, b | p⟩ := e
  · rfl
  · have hclauses : p.clauses.map gap.clause = p.clauses :=
      (List.map_congr_left fun c hc => h pi c ⟨p, he, hc⟩).trans (List.map_id _)
    show (pi, Procedure.defined (gap.predicate p)) = _
    rw [predicate, hclauses]
    rfl

/-- What makes an action stop, with variables numbered as in the wider store. -/
def stop : Stop → Stop
  | .error e => .error (gap.error e)
  | .outOfFuel => .outOfFuel

end Gap

namespace Database

variable {gap : Gap} {db : Database} {load : Nat} {pi : Indicator}

theorem find?_wide (gap : Gap) (db : Database) (pi : Indicator) :
    (gap.database db).find? pi = (db.find? pi).map gap.procedure := by
  have hlookup := lookup_map_injective Function.injective_id gap.procedure db.entries pi
  exact hlookup

theorem insert_wide (gap : Gap) (db : Database) (pi : Indicator) (p : Procedure) :
    (gap.database db).insert pi (gap.procedure p) = gap.database (db.insert pi p) := by
  have hset : ∀ entries : List (Indicator × Procedure),
      set pi (gap.procedure p) (entries.map fun e => (e.1, gap.procedure e.2)) =
        (set pi p entries).map fun e => (e.1, gap.procedure e.2) := by
    intro entries
    induction entries with
    | nil => rfl
    | cons e entries ih =>
      rw [List.map_cons, set, set, ih]
      split <;> rfl
  exact congrArg Database.mk (hset db.entries)

theorem touchedBy_wide (gap : Gap) (load : Nat) (p : Predicate) :
    (gap.predicate p).touchedBy load = gap.predicate (p.touchedBy load) := by
  unfold Predicate.touchedBy
  by_cases hload : p.load = some load
  · simp [Gap.predicate, hload]
  · by_cases haccumulates : p.flags.accumulates = true <;> simp [Gap.predicate, hload, haccumulates]

theorem touch_wide (gap : Gap) (db : Database) (load : Nat) (pi : Indicator) :
    (gap.database db).touch load pi =
      gap.except (fun r => (gap.predicate r.1, gap.database r.2)) (db.touch load pi) := by
  have hinsert : ∀ p, Except.ok (gap.predicate p, (gap.database db).insert pi (.defined (gap.predicate p))) =
      gap.except (fun r => (gap.predicate r.1, gap.database r.2))
        (.ok (p, db.insert pi (.defined p))) := fun p =>
    congrArg (fun db => Except.ok (gap.predicate p, db)) (insert_wide gap db pi (.defined p))
  simp only [touch, find?_wide]
  rcases db.find? pi with _ | ⟨b | p⟩
  · exact hinsert { load := some load }
  · rfl
  · have hp := hinsert (p.touchedBy load)
    rw [← touchedBy_wide] at hp
    exact hp

theorem update_wide (gap : Gap) (db : Database) (load : Nat) (pi : Indicator)
    {f f' : Predicate → Predicate} (hf : ∀ p, f' (gap.predicate p) = gap.predicate (f p)) :
    (gap.database db).update load pi f' = gap.except gap.database (db.update load pi f) := by
  refine gap.except_bind _ gap.database (touch_wide gap db load pi) fun (p, db) => ?_
  refine congrArg Except.ok ?_
  rw [← insert_wide, Gap.procedure, ← hf]

theorem declare_wide (gap : Gap) (db : Database) (load : Nat) (property : Property) (pi : Indicator) :
    (gap.database db).declare load property pi =
      gap.except gap.database (db.declare load property pi) :=
  update_wide gap db load pi fun _ => rfl

theorem append_wide (gap : Gap) (db : Database) (load : Nat) (c : Clause) :
    (gap.database db).append load (gap.clause c) = gap.except gap.database (db.append load c) :=
  update_wide gap db load c.pi fun p => by
    simp [Gap.predicate]

end Database

namespace Machine

/-- The second machine has a wider store than the first, and a database that differs accordingly.
Otherwise the two agree, except in what was logged.  Their settings are those of a given machine. -/
structure Wider (gap : Gap) (base m m' : Machine) : Prop where
  /-- The stores. -/
  store : Store.Wider gap m.store m'.store
  /-- The databases. -/
  database : m'.database = gap.database m.database
  /-- The operators. -/
  operators : m.operators = base.operators ∧ m'.operators = base.operators
  /-- How double-quoted text is read. -/
  doubleQuotes : m.doubleQuotes = base.doubleQuotes ∧ m'.doubleQuotes = base.doubleQuotes
  /-- The sources. -/
  sources : m.sources = base.sources ∧ m'.sources = base.sources
  /-- What is done with terms before they are loaded. -/
  expansion : m.expansion = base.expansion ∧ m'.expansion = base.expansion
  /-- The context in force. -/
  context : m'.context = m.context
  /-- The context of the request. -/
  request : m'.request = m.request
  /-- The contexts that are cancelled. -/
  cancelled : m'.cancelled = m.cancelled
  /-- The number of contexts. -/
  contexts : m'.contexts = m.contexts
  /-- The number of loads. -/
  loads : m'.loads = m.loads

/-- How a machine corresponds to one with a wider store. -/
def widening (gap : Gap) (base : Machine) : Correspondence Stop Machine where
  errors e e' := e'.unplaced = (gap.stop e).unplaced
  states := Wider gap base

variable {α β γ δ : Type} {gap : Gap} {base m m' : Machine} {φ : α → β} {ψ : γ → δ} {s s' : Store}

/-- The results correspond, with places shifted in the values by `φ`. -/
def Results (gap : Gap) (base : Machine) {α β : Type} (φ : α → β) (r : EStateM.Result Stop Machine α)
    (r' : EStateM.Result Stop Machine β) : Prop :=
  (widening gap base).Matches (fun a a' => a' = φ a) r r'

theorem Wider.withStore (h : Wider gap base m m') (hs : Store.Wider gap s s') :
    Wider gap base { m with store := s } { m' with store := s' } :=
  { h with store := hs }

theorem Wider.withDatabase (h : Wider gap base m m') (db : Database) :
    Wider gap base { m with database := db } { m' with database := gap.database db } :=
  { h with database := rfl }

/-! ## Actions -/

theorem Results.bind {action : MachineM α} {action' : MachineM β} {f : α → MachineM γ}
    {f' : β → MachineM δ} {P : α → Machine → Prop} {E : Machine → Prop}
    (h : Results gap base φ (action m) (action' m')) (hends : Ends (action m) P E)
    (hf : ∀ a s s', P a s → Wider gap base s s' → Results gap base ψ (f a s) (f' (φ a) s')) :
    Results gap base ψ ((action >>= f) m) ((action' >>= f') m') :=
  Correspondence.Matches.bind h fun a _ s s' hs _ heq hst => heq ▸ hf a s s' (hends.of_ok hs) hst

/-- The same, where nothing needs to be known of the first result. -/
theorem Results.then {action : MachineM α} {action' : MachineM β} {f : α → MachineM γ}
    {f' : β → MachineM δ} (h : Results gap base φ (action m) (action' m'))
    (hf : ∀ a s s', Wider gap base s s' → Results gap base ψ (f a s) (f' (φ a) s')) :
    Results gap base ψ ((action >>= f) m) ((action' >>= f') m') :=
  Correspondence.Matches.bind h fun a _ s s' _ _ heq hst => heq ▸ hf a s s' hst

theorem results_pure (h : Wider gap base m m') (a : α) {b : β} (hb : b = φ a) :
    Results gap base φ ((pure a : MachineM α) m) ((pure b : MachineM β) m') :=
  ⟨hb, h⟩

theorem results_fail (h : Wider gap base m m') {e e' : Error} (he : e' = gap.error e) :
    Results gap base φ ((fail e : MachineM α) m) ((fail e' : MachineM β) m') :=
  Correspondence.matches_error (he ▸ rfl) h

theorem results_ofExcept (h : Wider gap base m m') {x : Except Error α} {x' : Except Error β}
    (hx : x' = gap.except φ x) : Results gap base φ (ofExcept x m) (ofExcept x' m') := by
  subst hx
  cases x with
  | ok a => exact results_pure h a rfl
  | error e => exact results_fail h rfl

theorem results_look (h : Wider gap base m m') {f : Store → α} {f' : Store → β}
    (hf : f' m'.store = φ (f m.store)) : Results gap base φ (look f m) (look f' m') :=
  ⟨hf, h⟩

/-- An action that looks at the stores first. -/
theorem Results.of_look {f : Store → α} {f' : Store → β} {k : α → MachineM γ} {k' : β → MachineM δ}
    (h : Results gap base ψ (k (f m.store) m) (k' (f' m'.store) m')) :
    Results gap base ψ ((look f >>= k) m) ((look f' >>= k') m') :=
  h

/-- An action that looks at the machines first. -/
theorem Results.of_get {k : Machine → MachineM γ} {k' : Machine → MachineM δ}
    (h : Results gap base ψ (k m m) (k' m' m')) :
    Results gap base ψ ((get >>= k) m) ((get >>= k') m') :=
  h

theorem results_examine (h : Wider gap base m m') {f : Store → Except Error α}
    {f' : Store → Except Error β} (hf : f' m'.store = gap.except φ (f m.store)) :
    Results gap base φ (examine f m) (examine f' m') :=
  results_ofExcept h hf

theorem results_onStore (h : Wider gap base m m') {f : Store → α × Store} {f' : Store → β × Store}
    (hf : Store.Widens (Store.Wider gap) φ (f m.store) (f' m'.store)) :
    Results gap base φ (onStore f m) (onStore f' m') :=
  ⟨hf.value, h.withStore hf.store⟩

theorem results_undoing (h : Wider gap base m m') {action : MachineM α} {action' : MachineM β}
    (haction : Results gap base φ (action m) (action' m')) :
    Results gap base φ (undoing action m) (undoing action' m') := by
  rw [undoing_eq, undoing_eq, h.store.mark]
  generalize action m = r at haction
  generalize action' m' = r' at haction
  rcases r with ⟨a, m₁⟩ | ⟨e, m₁⟩ <;> rcases r' with ⟨a', m₁'⟩ | ⟨e', m₁'⟩
  · exact ⟨haction.1, haction.2.withStore (haction.2.store.undoTo _)⟩
  · exact haction.elim
  · exact haction.elim
  · obtain ⟨he, hst⟩ := haction.resolve_left id
    exact .inr ⟨he, hst.withStore (hst.store.undoTo _)⟩

theorem results_onDatabase (h : Wider gap base m m') {f : Database → Except Error (α × Database)}
    {f' : Database → Except Error (β × Database)}
    (hf : f' (gap.database m.database) =
      gap.except (fun r => (φ r.1, gap.database r.2)) (f m.database)) :
    Results gap base φ (onDatabase f m) (onDatabase f' m') := by
  show Results gap base φ
    ((ofExcept (f m.database) >>= fun r => do modify fun m => { m with database := r.2 }; pure r.1 :
      MachineM α) m)
    ((ofExcept (f' m'.database) >>= fun r => do modify fun m => { m with database := r.2 }; pure r.1 :
      MachineM β) m')
  rw [h.database, hf]
  rcases f m.database with e | ⟨a, db⟩
  · exact results_fail h rfl
  · exact ⟨rfl, h.withDatabase db⟩

theorem results_changeDatabase (h : Wider gap base m m') {f f' : Database → Except Error Database}
    (hf : f' (gap.database m.database) = gap.except gap.database (f m.database)) :
    Results gap base id (changeDatabase f m) (changeDatabase f' m') := by
  refine results_onDatabase h ?_
  rw [hf]
  rcases f m.database with e | db <;> rfl

theorem results_poll (h : Wider gap base m m') : Results gap base id (poll m) (poll m') := by
  have hcancelled : m'.cancelled.contains m'.context = m.cancelled.contains m.context := by
    rw [h.cancelled, h.context]
  show Results gap base id
    ((if m.cancelled.contains m.context then fail .cancelled else pure () : MachineM Unit) m)
    ((if m'.cancelled.contains m'.context then fail .cancelled else pure () : MachineM Unit) m')
  rw [hcancelled]
  split
  · exact results_fail h rfl
  · exact results_pure h () rfl

theorem results_under (h : Wider gap base m m') (c : Context) {action : MachineM α}
    {action' : MachineM β}
    (haction : Results gap base φ (action { m with context := c }) (action' { m' with context := c })) :
    Results gap base φ (under c action m) (under c action' m') := by
  have houter : ∀ {m₁ m₁' : Machine}, Wider gap base m₁ m₁' →
      Wider gap base { m₁ with context := m.context } { m₁' with context := m'.context } := fun h₁ =>
    { h₁ with context := h.context }
  rw [under, under]
  generalize action { m with context := c } = r at haction
  generalize action' { m' with context := c } = r' at haction
  rcases r with ⟨a, m₁⟩ | ⟨e, m₁⟩ <;> rcases r' with ⟨a', m₁'⟩ | ⟨e', m₁'⟩
  · exact ⟨haction.1, houter haction.2⟩
  · exact haction.elim
  · exact haction.elim
  · obtain ⟨he, hst⟩ := haction.resolve_left id
    exact .inr ⟨he, houter hst⟩

theorem Wider.withContext (h : Wider gap base m m') (c : Context) :
    Wider gap base { m with context := c } { m' with context := c } :=
  { h with context := rfl }

theorem source_wide (h : Wider gap base m m') (name : String) (input : Input)
    (placeholders : Option (List Term)) :
    m'.source name input placeholders = m.source name input placeholders := by
  rw [source, source, h.doubleQuotes.1, h.doubleQuotes.2]

theorem results_openSource (h : Wider gap base m m') (name : String) :
    Results gap base id (openSource name m) (openSource name m') := by
  rw [openSource_eq, openSource_eq, h.sources.1, h.sources.2]
  rcases base.sources.lookup name with _ | ⟨input | message⟩
  · exact results_fail h rfl
  · exact results_pure h _ (source_wide h name input none)
  · exact results_fail h rfl

/-- What was read of two sources: corresponding terms, or none. -/
inductive SameRead (gap : Gap) (quotes : DoubleQuotes) :
    Option (Ref × TermSource) → Option (Ref × TermSource) → Prop
  /-- Nothing is left. -/
  | none : SameRead gap quotes none none
  /-- A term was read. -/
  | some (t : Ref) {source source' : TermSource} (h : source.Begins [] quotes source') :
    SameRead gap quotes (some (t, source)) (some (gap.ref t, source'))

theorem matches_nextTerm (h : Wider gap base m m') {quotes : DoubleQuotes}
    {source source' : TermSource} (hsource : source.Begins [] quotes source') :
    (widening gap base).Matches (SameRead gap quotes) (nextTerm source m) (nextTerm source' m') := by
  have hoperators : m'.operators = m.operators := h.operators.2.trans h.operators.1.symm
  have hnext := TermSource.sameNext_next? m.operators Input.nextLine_nil hsource h.store
  generalize hx' : source'.next? m.operators m'.store = x' at hnext
  rw [← hoperators] at hx'
  rw [nextTerm_eq, nextTerm_eq, hx']
  generalize source.next? m.operators m.store = x at hnext
  cases hnext with
  | term hbegins hs => exact ⟨.some _ hbegins, h.withStore hs⟩
  | ends hnil hs => exact ⟨.none, h.withStore hs⟩
  | goesOn hne => exact absurd rfl hne
  | fails he hs =>
    refine Correspondence.matches_error ?_ (h.withStore hs)
    have hread : ∀ e : ReadError, gap.error (.ofRead e) = .ofRead e := fun e => by cases e <;> rfl
    show Stop.error _ = Stop.error (Error.unplaced (gap.error (.ofRead _)))
    rw [hread]
    exact congrArg Stop.error (Error.unplaced_ofRead he)
  | cut hne he => exact absurd rfl hne

end Machine

end Clausal
