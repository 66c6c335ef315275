import Clausal.Proofs.Load.Trace

/-! # What stays while a machine works

Whatever a machine does, it ends under the context under which it began, with the same sources, and a
context that was cancelled stays cancelled (`Machine.closed_abiding`).  A load puts names of included
sources on its stack and takes them off again, so that dealing with a term, and in particular with an
inclusion, leaves the stack as it was, whether or not it succeeds (`Loading.abiding_loadTerm`).
-/

namespace Clausal

theorem Ends.of_error {ε σ α : Type} {Q : α → σ → Prop} {E : σ → Prop} {r : EStateM.Result ε σ α}
    (h : Ends r Q E) {e : ε} {st : σ} (hr : r = .error e st) : E st := by
  subst hr
  exact h

namespace Machine

variable {α β : Type} {m m' m'' : Machine}

theorem Abides.trans (h : m.Abides m') (h' : m'.Abides m'') : m.Abides m'' where
  context := h'.context.trans h.context
  sources := h'.sources.trans h.sources
  cancelled := h.cancelled.trans h'.cancelled

/-- Whatever the action comes to, the machine abides. -/
def Abiding (action : MachineM α) : Prop :=
  ∀ m, Ends (action m) (fun _ m' => m.Abides m') m.Abides

theorem Abiding.bind {action : MachineM α} {f : α → MachineM β} (h : Abiding action)
    (hf : ∀ a, Abiding (f a)) : Abiding (action >>= f) := fun m =>
  Ends.bind (h m) fun a m' hm' => (hf a m').imp (fun _ _ => hm'.trans) fun _ => hm'.trans

theorem abiding_pure (a : α) : Abiding (pure a) := .refl

theorem abiding_throw (e : Stop) : Abiding (throw e : MachineM α) := .refl

theorem abiding_ofExcept (e : Except Error α) : Abiding (ofExcept e) := by
  cases e with
  | ok a => exact abiding_pure a
  | error e => exact abiding_throw _

theorem Abiding.undoing {action : MachineM α} (h : Abiding action) : Abiding (undoing action) := by
  intro m
  have haction := h m
  rw [undoing_eq]
  rcases hresult : action m with ⟨a, m'⟩ | ⟨e, m'⟩ <;> rw [hresult] at haction <;>
    exact ⟨haction.context, haction.sources, haction.cancelled⟩

/-- The context before is put back. -/
theorem Abiding.under {action : MachineM α} (h : Abiding action) (c : Context) :
    Abiding (under c action) := by
  intro m
  have haction := h { m with context := c }
  rw [under_eq]
  rcases hresult : action { m with context := c } with ⟨a, m'⟩ | ⟨e, m'⟩ <;> rw [hresult] at haction <;>
    exact ⟨rfl, haction.sources, haction.cancelled⟩

theorem composed_abiding : Composed Abiding where
  pure := abiding_pure
  bind := Abiding.bind
  outOfFuel := abiding_throw _
  examine _ m := abiding_ofExcept _ m
  change hf m := (hf m).toAbides
  undoing := Abiding.undoing

/-- An operation on the database. -/
theorem abiding_onDatabase (f : Database → Except Error (α × Database)) : Abiding (onDatabase f) := by
  refine composed_abiding.get.bind fun m => (abiding_ofExcept _).bind fun (a, database) => ?_
  have hchange : Abiding (modify fun m => { m with database } : MachineM PUnit) :=
    fun _ => ⟨rfl, rfl, List.suffix_rfl⟩
  exact hchange.bind fun _ => abiding_pure a

end Machine

/-! ## Loads -/

namespace Loading

open Machine

variable {α β : Type} {stack : List String} {l l' l'' : Loading} {solve : Ref → MachineM Bool}
  {loadTerms : TermSource → LoadM Unit}

/-- The machine abides, and the stack of the sources being loaded is the given one. -/
structure Abides (stack : List String) (l l' : Loading) : Prop where
  /-- The machine. -/
  machine : l.machine.Abides l'.machine
  /-- The stack. -/
  including : l'.load.including = stack

theorem Abides.trans (h : Abides stack l l') (h' : Abides stack l' l'') : Abides stack l l'' :=
  ⟨h.machine.trans h'.machine, h'.including⟩

/-- Whatever the action comes to, begun with the given stack, it ends with it. -/
def Abiding (stack : List String) (action : LoadM α) : Prop :=
  ∀ l, l.load.including = stack → Ends (action l) (fun _ l' => Abides stack l l') (Abides stack l)

theorem Abiding.bind {action : LoadM α} {f : α → LoadM β} (h : Abiding stack action)
    (hf : ∀ a, Abiding stack (f a)) : Abiding stack (action >>= f) := fun l hl =>
  Ends.bind (h l hl) fun a l' hl' =>
    (hf a l' hl'.including).imp (fun _ _ => hl'.trans) fun _ => hl'.trans

theorem abiding_pure (a : α) : Abiding stack (pure a) := fun l hl => ⟨.refl l.machine, hl⟩

theorem abiding_throw (e : Stop) : Abiding stack (throw e : LoadM α) :=
  fun l hl => ⟨.refl l.machine, hl⟩

theorem abiding_lift {action : MachineM α} (h : Machine.Abiding action) :
    Abiding stack (lift action) := by
  intro l hl
  have haction := h l.machine
  rw [lift_apply]
  rcases hresult : action l.machine with ⟨a, m'⟩ | ⟨e, m'⟩ <;> rw [hresult] at haction <;>
    exact ⟨haction, hl⟩

theorem abiding_change {f : Load → Load}
    (hf : ∀ load, load.including = stack → (f load).including = stack) :
    Abiding stack (change f) :=
  fun l hl => ⟨.refl l.machine, hf l.load hl⟩

/-- What depends on the load's own state. -/
theorem abiding_current {f : Load → LoadM α}
    (hf : ∀ load, load.including = stack → Abiding stack (f load)) : Abiding stack (current >>= f) :=
  fun l hl => hf l.load hl l hl

theorem Abiding.forM {f : α → LoadM PUnit} {as : List α} (h : ∀ a, Abiding stack (f a)) :
    Abiding stack (as.forM f) := fun l hl =>
  Ends.forM (I := Abides stack l) (fun a _ l' hl' =>
    (h a l' hl'.including).imp (fun _ _ => hl'.trans) fun _ => hl'.trans) ⟨.refl l.machine, hl⟩

theorem abiding_addClause (t : Ref) : Abiding stack (addClause t) := by
  refine (abiding_lift (composed_abiding.examine (tidy_compile · t))).bind fun c =>
    abiding_current fun load hload => (abiding_lift (abiding_onDatabase _)).bind fun p => ?_
  rcases hnote : load.noteClause c.pi p.flags with e | noted
  · exact fun l hl => ⟨.refl l.machine, hl⟩
  · have hnoted : noted.including = stack := by
      rw [Load.noteClause_eq_ok hnote]
      exact hload
    exact fun l hl => ((abiding_change fun _ _ => hnoted).bind fun _ =>
      abiding_lift (abiding_onDatabase _)) l hl

theorem abiding_declare (property : Property) (predicates : Ref) :
    Abiding stack (declare property predicates) :=
  abiding_current fun _ _ =>
    (abiding_lift (composed_abiding.examine (tidy_declared · predicates))).bind fun _ =>
      Abiding.forM fun _ => abiding_lift (abiding_onDatabase _)

theorem abiding_require (hsolve : ∀ goal, Machine.Abiding (solve goal)) (goal : Ref)
    (failure : Term → Error) : Abiding stack (require solve goal failure) := by
  refine (abiding_lift (hsolve goal).undoing).bind fun found => ?_
  split
  · exact abiding_pure _
  · exact abiding_lift ((composed_abiding.look _).bind fun _ => Machine.abiding_throw _)

/-- **Dealing with a statement leaves the stack as it was.** -/
theorem abiding_perform (hsolve : ∀ goal, Machine.Abiding (solve goal)) (i : Statement) :
    Abiding stack (i.perform solve) := by
  have hnote : Abiding stack (change Load.noteDirective) :=
    abiding_change (f := Load.noteDirective) fun _ => id
  cases i with
  | clause t => exact abiding_addClause t
  | declare property predicates => exact hnote.bind fun _ => abiding_declare property predicates
  | initialization goal | goal goal => exact hnote.bind fun _ => abiding_require hsolve goal _

/-- The name of an included source is on the stack while the source is loaded. -/
theorem abiding_loadNamed {name : String} (hload : ∀ source, Abiding (name :: stack) (loadTerms source))
    (source : TermSource) : Abiding stack (loadNamed loadTerms name source) := by
  intro l hl
  have hterms := hload source { l with load := { l.load with including := name :: l.load.including } }
    (congrArg (name :: ·) hl)
  rw [loadNamed_eq]
  rcases hresult : loadTerms source _ with ⟨_, l'⟩ | ⟨e, l'⟩ <;> rw [hresult] at hterms <;>
    exact ⟨hterms.machine, congrArg List.tail hterms.including⟩

/-- **An inclusion leaves the stack as it was**, whether the source is loaded, is not there, is being
loaded already, or fails. -/
theorem abiding_loadIncluded (hload : ∀ stack source, Abiding stack (loadTerms source)) (file : Ref) :
    Abiding stack (loadIncluded loadTerms file) := by
  rw [loadIncluded_eq]
  refine (abiding_lift (composed_abiding.examine (tidy_expectAtom · file))).bind fun name =>
    (abiding_lift (composed_abiding.openSource name)).bind fun source => abiding_current fun _ _ => ?_
  split
  · exact abiding_lift (Machine.abiding_throw _)
  · exact abiding_loadNamed (hload _) source

/-- **Loading a term leaves the stack as it was**, however deep sources are included. -/
theorem abiding_loadTerm (hsolve : ∀ goal, Machine.Abiding (solve goal))
    (hload : ∀ stack source, Abiding stack (loadTerms source)) (t : Ref) :
    Abiding stack (loadTerm solve loadTerms t) := by
  rw [loadTerm_eq]
  refine (abiding_lift (composed_abiding.look _)).bind fun part => ?_
  cases part with
  | statement i => exact abiding_perform hsolve i
  | inclusion file => exact abiding_loadIncluded hload file

theorem abiding_loadEach (hsolve : ∀ goal, Machine.Abiding (solve goal)) {one : Ref → LoadM Unit}
    (hone : ∀ t, Abiding stack (one t)) (n : Nat) (source : TermSource) :
    Abiding stack (loadEach solve one n source) := by
  induction n generalizing source with
  | zero => exact abiding_throw _
  | succ n ih =>
    refine (abiding_lift composed_abiding.poll).bind fun _ =>
      (abiding_lift (composed_abiding.nextTerm source)).bind fun next => ?_
    split
    · exact abiding_pure _
    · exact (abiding_lift (composed_abiding.expand hsolve _)).bind fun terms =>
        (Abiding.forM hone).bind fun _ => ih _

theorem abiding_loadSource (hsolve : ∀ goal, Machine.Abiding (solve goal)) (depth : Nat)
    (stack : List String) (source : TermSource) : Abiding stack (loadSource solve depth source) := by
  induction depth generalizing stack source with
  | zero => exact abiding_throw _
  | succ depth ih => exact abiding_loadEach hsolve (abiding_loadTerm hsolve ih) _ _

end Loading

/-! ## Machines -/

namespace Machine

theorem abiding_load {solve : Ref → MachineM Bool} (hsolve : ∀ goal, Abiding (solve goal))
    (source : TermSource) : Abiding (load solve source) := by
  intro m
  have hload := Loading.abiding_loadSource hsolve (m.sources.length + 2) [source.name] source
    (m.beginLoad source) rfl
  -- That a load has begun is counted, and nothing else is different when it begins.
  have hbegun : m.Abides (m.beginLoad source).machine := ⟨rfl, rfl, List.suffix_rfl⟩
  exact ends_load (hload.imp (fun _ _ h => hbegun.trans h.machine) fun _ h => hbegun.trans h.machine)

/-- **Whatever a machine does, it abides**, however deep searches and loads are nested. -/
theorem closed_abiding : Closed Abiding where
  toComposed := composed_abiding
  under c h := h.under c
  load source hsolve := abiding_load hsolve source

theorem abiding_solve (fuel : Nat) (goal : Ref) : Abiding (solve fuel goal) :=
  closed_abiding.solve fuel goal

end Machine

end Clausal
