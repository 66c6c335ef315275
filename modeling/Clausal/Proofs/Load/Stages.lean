import Clausal.Proofs.Inclusion.Stacking
import Clausal.Proofs.Machine.Constancy
import Clausal.Proofs.Syntax.Termination

/-! # Loads step by step

A load is at any moment at a stage: sources are open, each within the next, and of each of them there
are terms that were read and are still to be dealt with, and a rest that is still to be read
(`Loading.Stage`).  The next stage is that after one more term was read or dealt with (`Stage.next`).
Nothing bounds how many stages there are, nor how deep sources are included.

Still every load comes to its end after finitely many of them, and is what the stages come to
(`Machine.comesTo_load`): sources that are open are different, so that only finitely many can be open at
a time, and every term that is read leaves less to be read.  The stack of the load names the sources
that are open, none of them twice, from the one with which the load began (`Stage.Stacked`).
-/

namespace Clausal

/-! ## What is left to be read -/

namespace Input

theorem characters_dropLine_le {input rest : Input} (h : input.dropLine = .ok rest) :
    rest.characters ≤ input.characters := by
  induction input with
  | nil =>
    cases h
    exact Nat.le_refl _
  | cons item input ih =>
    cases item with
    | fault fault => cases h
    | char c =>
      rw [dropLine] at h
      split at h
      · cases h
        exact Nat.le_succ _
      · exact (ih h).trans (Nat.le_succ _)

theorem characters_dropShebang_le {input rest : Input} (h : input.dropShebang = .ok rest) :
    rest.characters ≤ input.characters := by
  unfold dropShebang at h
  split at h
  · cases h
  · cases h
  · exact (characters_dropLine_le h).trans ((Nat.le_succ _).trans (Nat.le_succ _))
  · cases h
    exact Nat.le_refl _

end Input

namespace TermSource

variable {source source' : TermSource} {ops : OperatorTable} {s s' : Store} {t : Ref}

theorem supply_started (h : source.started = .ok source') :
    source'.reader.supply ≤ source.reader.supply := by
  unfold started at h
  split at h
  · split at h
    · rename_i hdrop
      cases h
      exact Nat.add_le_add_right (Input.characters_dropShebang_le hdrop) _
    · cases h
  · cases h
    exact Nat.le_refl _

/-- Every term of a source leaves less of it. -/
theorem supply_next? (h : source.next? ops s = (.ok (some t), source', s')) :
    source'.reader.supply < source.reader.supply := by
  unfold next? at h
  rcases hstarted : source.started with e | begun <;> rw [hstarted] at h
  · cases h
  · rcases hreader : begun.reader.next? ops s with ⟨result, reader, s₁⟩
    dsimp only at h
    rw [hreader] at h
    cases h
    exact (TermReader.supply_next? hreader).trans_le (supply_started hstarted)

theorem name_next? (h : source.next? ops s = (.ok (some t), source', s')) :
    source'.name = source.name := by
  unfold next? at h
  rcases hstarted : source.started with e | begun <;> rw [hstarted] at h
  · cases h
  · rcases hreader : begun.reader.next? ops s with ⟨result, reader, s₁⟩
    dsimp only at h
    rw [hreader] at h
    cases h
    unfold started at hstarted
    split at hstarted
    · split at hstarted <;> cases hstarted
      rfl
    · cases hstarted
      rfl

/-- A load allows for more terms than there are. -/
theorem supply_lt (source : TermSource) :
    source.reader.supply < source.reader.lexer.input.length + 2 := by
  have hle := Input.characters_le_length source.reader.lexer.input
  have hahead : source.reader.ahead.elim 0 Token.weight ≤ 1 := by
    cases source.reader.ahead with
    | none => exact Nat.zero_le _
    | some t => exact t.weight_le
  rw [TermReader.supply]
  omega

end TermSource

/-- Nothing is done under a context that is cancelled. -/
theorem Machine.poll_eq_error {m : Machine} (h : m.context ∈ m.cancelled) :
    poll m = .error (.error .cancelled) m := by
  show (if m.cancelled.contains m.context then fail .cancelled else pure () : MachineM Unit) m = _
  rw [if_pos (List.contains_iff_mem.mpr h)]
  rfl

namespace Loading

open Machine

/-! ## Stages -/

/-- Reads the next term of a source, and gives the terms to be loaded for it, or finds that there is
none. -/
def readTerms (solve : Ref → MachineM Bool) (source : TermSource) :
    LoadM (Option (List Ref × TermSource)) := do
  lift poll
  match ← lift (nextTerm source) with
  | none => pure none
  | some (t, source) =>
    let ts ← lift (expand solve t)
    pure (some (ts, source))

/-- Opens an included source, unless it is open already, and puts its name on the stack. -/
def openIncluded (file : Ref) : LoadM TermSource := do
  let name ← lift (examine (·.expectAtom file))
  let source ← lift (openSource name)
  if (← current).including.contains name then lift (fail (.cyclicSource name))
  change fun load => { load with including := name :: load.including }
  pure source

/-- Another source is entered. -/
def enter (l : Loading) (name : String) : Loading :=
  { l with load := { l.load with including := name :: l.load.including } }

/-- The innermost source is left. -/
def leave (l : Loading) : Loading :=
  { l with load := { l.load with including := l.load.including.tail } }

/-- What a load is in the middle of. -/
inductive Stage where
  /-- Terms are to be dealt with, and then what remains of the source that they were read from.  This
  source is included in the outer ones, the innermost of them first, which have terms to be dealt with
  and a rest of their own. -/
  | loading (ts : List Ref) (source : TermSource) (outer : List (List Ref × TermSource)) (l : Loading)
  /-- The load has ended. -/
  | done (l : Loading)
  /-- The load has met an error, or the fuel has run out. -/
  | stopped (e : Stop) (l : Loading)

namespace Stage

/-- The machine and the load at the stage. -/
def state : Stage → Loading
  | loading _ _ _ l | done l | stopped _ l => l

/-- The source that is to be read next, with those that it is included in. -/
def reading? : Stage → Option (TermSource × List (List Ref × TermSource) × Loading)
  | loading [] source outer l => some (source, outer, l)
  | loading (_ :: _) _ _ _ | done _ | stopped _ _ => none

/-- The name of the source with which the load has stopped, since it would be open twice. -/
def cycle? : Stage → Option String
  | stopped (.error (.cyclicSource name)) _ => some name
  | _ => none

/-- The stage after a source was loaded that is included in the given ones. -/
def resume : List (List Ref × TermSource) → Loading → Stage
  | [], l => done l
  | (ts, source) :: outer, l => loading ts source outer l.leave

/-- The next stage.  There is none after the load has ended. -/
def next (solve : Ref → MachineM Bool) : Stage → Stage
  | loading [] source outer l =>
    match readTerms solve source l with
    | .ok (some (ts, source)) l => loading ts source outer l
    | .ok none l => resume outer l
    | .error e l => stopped e l
  | loading (t :: ts) source outer l =>
    match Part.of l.machine.store t with
    | .statement i =>
      match i.perform solve l with
      | .ok () l => loading ts source outer l
      | .error e l => stopped e l
    | .inclusion file =>
      match openIncluded file l with
      | .ok inner l => loading [] inner ((ts, source) :: outer) l
      | .error e l => stopped e l
  | stage => stage

/-- What comes after a stage, case by case. -/
inductive Step (solve : Ref → MachineM Bool) : Stage → Stage → Prop
  /-- A term is read. -/
  | read {source source' outer ts l l'} (h : readTerms solve source l = .ok (some (ts, source')) l') :
    Step solve (loading [] source outer l) (loading ts source' outer l')
  /-- A source has come to its end. -/
  | exhausted {source outer l l'} (h : readTerms solve source l = .ok none l') :
    Step solve (loading [] source outer l) (resume outer l')
  /-- A term cannot be read. -/
  | faulty {source outer l l' e} (h : readTerms solve source l = .error e l') :
    Step solve (loading [] source outer l) (stopped e l')
  /-- A statement is dealt with. -/
  | dealt {t ts source outer l l' i} (hpart : Part.of l.machine.store t = .statement i)
    (h : i.perform solve l = .ok () l') :
    Step solve (loading (t :: ts) source outer l) (loading ts source outer l')
  /-- A statement cannot be dealt with. -/
  | refused {t ts source outer l l' i e} (hpart : Part.of l.machine.store t = .statement i)
    (h : i.perform solve l = .error e l') :
    Step solve (loading (t :: ts) source outer l) (stopped e l')
  /-- A source is included that is not open yet. -/
  | included {t file ts source inner outer l} (hpart : Part.of l.machine.store t = .inclusion file)
    (h : openIncluded file l = .ok inner (l.enter inner.name))
    (hnew : inner.name ∉ l.load.including) (hopened : inner.name ∈ l.machine.sources.map Prod.fst) :
    Step solve (loading (t :: ts) source outer l)
      (loading [] inner ((ts, source) :: outer) (l.enter inner.name))
  /-- A source cannot be included. -/
  | unopened {t file ts source outer l e} (hpart : Part.of l.machine.store t = .inclusion file)
    (h : openIncluded file l = .error (.error e) l) :
    Step solve (loading (t :: ts) source outer l) (stopped (.error e) l)
  /-- Nothing comes after the end. -/
  | done {l} : Step solve (done l) (done l)
  /-- Nor after the load has stopped. -/
  | stopped {e l} : Step solve (stopped e l) (stopped e l)

/-- The load comes from one stage to the other. -/
def Reaches (solve : Ref → MachineM Bool) (a b : Stage) : Prop := ∃ n, (next solve)^[n] a = b

variable {solve : Ref → MachineM Bool} {a b c : Stage} {outer : List (List Ref × TermSource)}

theorem Reaches.refl (a : Stage) : a.Reaches solve a := ⟨0, rfl⟩

theorem Reaches.of_next (h : (a.next solve).Reaches solve b) : a.Reaches solve b := by
  obtain ⟨n, h⟩ := h
  exact ⟨n + 1, h⟩

theorem Reaches.trans (h : a.Reaches solve b) (h' : b.Reaches solve c) : a.Reaches solve c := by
  obtain ⟨n, rfl⟩ := h
  obtain ⟨k, rfl⟩ := h'
  exact ⟨k + n, Function.iterate_add_apply _ k n a⟩

end Stage

variable {solve : Ref → MachineM Bool} {l l' : Loading} {source source' : TermSource} {ts : List Ref}
  {t : Ref} {stack : List String}

theorem Stage.cycle?_eq_some {a : Stage} {name : String} (h : a.cycle? = some name) :
    ∃ l, a = stopped (.error (.cyclicSource name)) l := by
  unfold cycle? at h
  split at h
  · cases h
    exact ⟨_, rfl⟩
  · cases h

/-! ## Loading, read by read -/

theorem loadEach_eq (one : Ref → LoadM Unit) (n : Nat) (source : TermSource) :
    loadEach solve one (n + 1) source = (do
      match ← readTerms solve source with
      | none => pure ()
      | some (ts, source) => do
        ts.forM one
        loadEach solve one n source) := by
  rw [loadEach_succ, readTerms]
  simp only [bind_assoc]
  refine congrArg (bind (lift poll)) (funext fun _ => congrArg (bind _) (funext fun next => ?_))
  rcases next with _ | ⟨t, source⟩
  · rfl
  · simp only [loadNext, loadRead, bind_assoc, pure_bind]

/-- An included source is opened, loaded and left, whatever came of it. -/
theorem loadIncluded_apply (loadTerms : TermSource → LoadM Unit) (file : Ref) (l : Loading) :
    loadIncluded loadTerms file l =
      match openIncluded file l with
      | .ok source l =>
        match loadTerms source l with
        | .ok () l => .ok () l.leave
        | .error e l => .error e l.leave
      | .error e l => .error e l := by
  rw [loadIncluded_eq, openIncluded]
  rcases hname : lift (examine (·.expectAtom file)) l with ⟨name, l₁⟩ | ⟨e, l₁⟩
  · rw [bind_eq_of_ok hname, bind_eq_of_ok hname]
    rcases hopen : lift (openSource name) l₁ with ⟨source, l₂⟩ | ⟨e, l₂⟩
    · rw [bind_eq_of_ok hopen, bind_eq_of_ok hopen]
      have hload : (current : LoadM Load) l₂ = .ok l₂.load l₂ := rfl
      rw [bind_eq_of_ok hload, bind_eq_of_ok hload]
      split <;> rfl
    · rw [bind_eq_of_error hopen, bind_eq_of_error hopen]
  · rw [bind_eq_of_error hname, bind_eq_of_error hname]

/-! ## Reading and including -/

theorem abiding_readTerms (hsolve : ∀ goal, Machine.Abiding (solve goal)) (source : TermSource) :
    Abiding stack (readTerms solve source) := by
  refine (abiding_lift composed_abiding.poll).bind fun _ =>
    (abiding_lift (composed_abiding.nextTerm source)).bind fun next => ?_
  split
  · exact abiding_pure _
  · exact (abiding_lift (composed_abiding.expand hsolve _)).bind fun _ => abiding_pure _

theorem ends_readTerms (hsolve : ∀ goal, Machine.Abiding (solve goal)) (source : TermSource)
    (l : Loading) :
    Ends (readTerms solve source l) (fun _ => Abides l.load.including l) (Abides l.load.including l) :=
  abiding_readTerms hsolve source l rfl

/-- What reading comes to.  Under a context that is cancelled, nothing is read. -/
theorem readTerms_eq (solve : Ref → MachineM Bool) (source : TermSource) (l : Loading) :
    readTerms solve source l =
      if l.machine.context ∈ l.machine.cancelled then .error (.error .cancelled) l
      else match source.next? l.machine.operators l.machine.store with
        | (.ok (some t), source, s) =>
          match expand solve t (l.withStore s).machine with
          | .ok ts m => .ok (some (ts, source)) ⟨m, l.load⟩
          | .error e m => .error e ⟨m, l.load⟩
        | (.ok none, _, s) => .ok none (l.withStore s)
        | (.error e, _, s) => .error (.error (.ofRead e)) (l.withStore s) := by
  rw [readTerms]
  by_cases hcancelled : l.machine.context ∈ l.machine.cancelled
  · rw [if_pos hcancelled]
    exact bind_eq_of_error (lift_of_error (poll_eq_error hcancelled))
  · have hread := lift_nextTerm source l
    rw [if_neg hcancelled, bind_eq_of_ok (lift_of_ok (poll_eq_ok hcancelled))]
    rcases hnext : source.next? l.machine.operators l.machine.store with ⟨e | _ | t, source', s⟩ <;>
      rw [hnext] at hread
    · exact bind_eq_of_error hread
    · exact bind_eq_of_ok hread
    · show (lift (nextTerm source) >>= _) l = _
      rw [bind_eq_of_ok hread]
      show (lift (expand solve t) >>= fun ts => pure (some (ts, source'))) (l.withStore s) = _
      dsimp only
      rcases hexpand : expand solve t (l.withStore s).machine with ⟨ts, m⟩ | ⟨e, m⟩
      · exact bind_eq_of_ok (lift_of_ok hexpand)
      · exact bind_eq_of_error (lift_of_error hexpand)

/-- Every term that is read leaves less of its source. -/
theorem readTerms_eq_some (h : readTerms solve source l = .ok (some (ts, source')) l') :
    source'.reader.supply < source.reader.supply ∧ source'.name = source.name := by
  rw [readTerms_eq] at h
  split at h
  · cases h
  rcases hnext : source.next? l.machine.operators l.machine.store with ⟨e | _ | t, source₁, s⟩ <;>
    rw [hnext] at h
  · cases h
  · cases h
  · dsimp only at h
    split at h <;> cases h
    exact ⟨TermSource.supply_next? hnext, TermSource.name_next? hnext⟩

/-- A source that is included is one of the machine that is not open yet.  Its name is put on the stack,
and nothing else happens; and nothing happens at all if no source can be included. -/
theorem openIncluded_cases (file : Ref) (l : Loading) :
    (∃ e, openIncluded file l = .error (.error e) l) ∨
      ∃ source, openIncluded file l = .ok source (l.enter source.name) ∧
        source.name ∉ l.load.including ∧ source.name ∈ l.machine.sources.map Prod.fst := by
  unfold openIncluded
  rcases hname : l.machine.store.expectAtom file with e | name
  · exact .inl ⟨e, bind_eq_of_error (lift_examine_of_error hname)⟩
  rw [bind_eq_of_ok (lift_examine_of_ok hname)]
  have hopen := openSource_eq name l.machine
  rcases hlookup : l.machine.sources.lookup name with _ | ⟨input | message⟩ <;> rw [hlookup] at hopen
  · exact .inl ⟨_, bind_eq_of_error (lift_of_error hopen)⟩
  · have hload : (current : LoadM Load) l = .ok l.load l := rfl
    rw [bind_eq_of_ok (lift_of_ok hopen), bind_eq_of_ok hload]
    by_cases hnew : l.load.including.contains name = true
    · rw [if_pos hnew]
      exact .inl ⟨.cyclicSource name, rfl⟩
    · rw [if_neg hnew]
      exact .inr ⟨_, rfl, mt List.contains_iff_mem.mpr hnew, mem_sources_of_lookup hlookup⟩
  · exact .inl ⟨_, bind_eq_of_error (lift_of_error hopen)⟩

theorem ends_perform (hsolve : ∀ goal, Machine.Abiding (solve goal)) (i : Statement) (l : Loading) :
    Ends (i.perform solve l) (fun _ => Abides l.load.including l) (Abides l.load.including l) :=
  abiding_perform hsolve i l rfl

/-- Where terms stand for themselves, reading does not run out of fuel. -/
theorem readTerms_ne_outOfFuel (hexpansion : l.machine.expansion = .byRules)
    (hrules : l.machine.RuleFree) (source : TermSource) (l' : Loading) :
    readTerms solve source l ≠ .error .outOfFuel l' := by
  intro h
  rw [readTerms_eq] at h
  split at h
  · cases h
  · rcases hnext : source.next? l.machine.operators l.machine.store with ⟨e | _ | t, source', s⟩ <;>
      rw [hnext] at h
    · cases h
    · cases h
    · have hexpand : expand solve t (l.withStore s).machine = .ok [t] (l.withStore s).machine :=
        expand_of_ruleFree (m := (l.withStore s).machine) hexpansion hrules t
      dsimp only at h
      rw [hexpand] at h
      cases h

/-- Nor does dealing with clauses and declarations. -/
theorem perform_ne_outOfFuel {i : Statement} (hi : ¬ i.IsGoal) (l' : Loading) :
    i.perform solve l ≠ .error .outOfFuel l' := by
  intro h
  cases i with
  | clause t =>
    have h : addClause t l = .error .outOfFuel l' := h
    rcases hc : Clause.compile l.machine.store t with e | c
    · rw [addClause_of_malformed hc] at h
      cases h
    by_cases hb : ∃ b, l.machine.database.find? c.pi = some (.builtin b)
    · obtain ⟨b, hb⟩ := hb
      rw [addClause_of_builtin hc hb] at h
      cases h
    rw [not_exists] at hb
    rcases hnote : l.load.noteClause c.pi (l.machine.database.found l.load.id c.pi).flags with e | noted
    · rw [addClause_of_refused hc hb hnote] at h
      cases h
    · rw [addClause_of_noted hc hb hnote] at h
      cases h
  | declare property predicates =>
    have h : Loading.declare property predicates ⟨l.machine, l.load.noteDirective⟩ =
        .error .outOfFuel l' := h
    rcases hpis : Indicator.declared l.machine.store predicates with e | pis
    · rw [declare_of_malformed (l := ⟨l.machine, l.load.noteDirective⟩) hpis] at h
      cases h
    · rw [declare_of_declared (l := ⟨l.machine, l.load.noteDirective⟩) hpis] at h
      have hdeeds := declareEach_eq l.load.id property pis ⟨l.machine, l.load.noteDirective⟩
      dsimp only at hdeeds
      rcases hdb : (pis.map (Deed.declare property)).foldlM (Deed.carryOut l.load.id)
          l.machine.database with e | db <;> rw [hdb] at hdeeds
      · obtain ⟨db, herror⟩ := hdeeds
        cases h.symm.trans herror
      · cases h.symm.trans hdeeds
  | initialization goal | goal goal => exact hi trivial

namespace Stage

variable {a b : Stage} {outer : List (List Ref × TermSource)} {depth n : Nat}
  {r : EStateM.Result Stop Loading Unit}

/-! ## Steps -/

theorem step_next (solve : Ref → MachineM Bool) (a : Stage) : a.Step solve (a.next solve) := by
  rcases a with ⟨_ | ⟨t, ts⟩, source, outer, l⟩ | l | ⟨e, l⟩
  · rw [next]
    rcases hread : readTerms solve source l with ⟨_ | ⟨ts, source'⟩, l'⟩ | ⟨e, l'⟩
    · exact .exhausted hread
    · exact .read hread
    · exact .faulty hread
  · rw [next]
    rcases hpart : Part.of l.machine.store t with i | file <;> dsimp only
    · rcases hperform : i.perform solve l with ⟨_, l'⟩ | ⟨e, l'⟩
      · exact .dealt hpart hperform
      · exact .refused hpart hperform
    · obtain ⟨e, hopen⟩ | ⟨inner, hopen, hnew, hopened⟩ := openIncluded_cases file l <;> rw [hopen]
      · exact .unopened hpart hopen
      · exact .included hpart hopen hnew hopened
  · exact .done
  · exact .stopped

theorem Step.next_eq (h : a.Step solve b) : a.next solve = b := by
  cases h with
  | read h | exhausted h | faulty h => rw [next, h]
  | dealt hpart h | refused hpart h | included hpart h | unopened hpart h => simp only [next, hpart, h]
  | done | stopped => rfl

theorem Step.reaches (h : a.Step solve b) : a.Reaches solve b := .of_next (h.next_eq ▸ .refl _)

/-! ## The code by its stages -/

/-- The stages come to what the code comes to: to the outer sources, or to the same error with the same
machine. -/
def ComesTo (solve : Ref → MachineM Bool) (a : Stage) (outer : List (List Ref × TermSource)) :
    EStateM.Result Stop Loading Unit → Prop
  | .ok () l => a.Reaches solve (resume outer l)
  | .error e l => ∃ l', l'.machine = l.machine ∧ a.Reaches solve (stopped e l')

theorem ComesTo.of_reaches (h : a.Reaches solve b) (hb : b.ComesTo solve outer r) :
    a.ComesTo solve outer r := by
  rcases r with ⟨_, l⟩ | ⟨e, l⟩
  · exact h.trans hb
  · obtain ⟨l', hl', hb⟩ := hb
    exact ⟨l', hl', h.trans hb⟩

/-- An error of a source is one of those within which it is included. -/
theorem ComesTo.leave {e : Stop} {inner : List (List Ref × TermSource)}
    (h : a.ComesTo solve inner (.error e l)) : a.ComesTo solve outer (.error e l.leave) := h

/-- Sources are loaded by their stages, if there is room for them. -/
def Staged (solve : Ref → MachineM Bool) (depth : Nat) (loadTerms : TermSource → LoadM Unit) : Prop :=
  ∀ source outer l, Room l.machine depth l.load.including → l.load.including ≠ [] →
    (loading [] source outer l).ComesTo solve outer (loadTerms source l)

/-- Dealing with a term, after which the rest is dealt with. -/
theorem comesTo_loadTerm (hload : Staged solve depth (loadSource solve depth))
    (hroom : Room l.machine (depth + 1) l.load.including) (hne : l.load.including ≠ [])
    (t : Ref) (ts : List Ref) (source : TermSource) (outer : List (List Ref × TermSource)) :
    match loadTerm solve (loadSource solve depth) t l with
    | .ok () l' => (loading (t :: ts) source outer l).Reaches solve (loading ts source outer l')
    | .error e l' => (loading (t :: ts) source outer l).ComesTo solve outer (.error e l') := by
  have hlook : lift (look (Part.of · t)) l = .ok (Part.of l.machine.store t) l := rfl
  rw [loadTerm_eq, bind_eq_of_ok hlook]
  rcases hpart : Part.of l.machine.store t with i | file <;> dsimp only
  · rcases hperform : i.perform solve l with ⟨_, l'⟩ | ⟨e, l'⟩
    · exact (Step.dealt hpart hperform).reaches
    · exact ⟨l', rfl, (Step.refused hpart hperform).reaches⟩
  · rw [loadIncluded_apply]
    obtain ⟨e, hopen⟩ | ⟨inner, hopen, hnew, hopened⟩ := openIncluded_cases file l <;> rw [hopen] <;>
      dsimp only
    · exact ⟨l, rfl, (Step.unopened hpart hopen).reaches⟩
    · have hstep : (loading (t :: ts) source outer l).Step solve _ := .included hpart hopen hnew hopened
      have hinner := hload inner ((ts, source) :: outer) (l.enter inner.name)
        (hroom.push hne hopened hnew) (List.cons_ne_nil _ _)
      rcases hresult : loadSource solve depth inner (l.enter inner.name) with ⟨_, l₂⟩ | ⟨e, l₂⟩ <;>
        rw [hresult] at hinner
      · exact hstep.reaches.trans hinner
      · exact hinner.leave.of_reaches hstep.reaches

section

variable (hsolve : ∀ goal, Machine.Abiding (solve goal))
include hsolve

/-- Dealing with terms, if what remains of their source is loaded by its stages. -/
theorem comesTo_forM (hload : Staged solve depth (loadSource solve depth)) {rest : LoadM Unit}
    (hrest : ∀ l, Room l.machine (depth + 1) l.load.including → l.load.including ≠ [] →
      (loading [] source outer l).ComesTo solve outer (rest l))
    (hroom : Room l.machine (depth + 1) l.load.including) (hne : l.load.including ≠ [])
    (ts : List Ref) :
    (loading ts source outer l).ComesTo solve outer
      ((do ts.forM (loadTerm solve (loadSource solve depth)); rest) l) := by
  induction ts generalizing l with
  | nil => exact hrest l hroom hne
  | cons t ts ih =>
    have hterm := comesTo_loadTerm hload hroom hne t ts source outer
    have habides := abiding_loadTerm hsolve (abiding_loadSource hsolve depth) t l rfl
    have hforM : (do (t :: ts).forM (loadTerm solve (loadSource solve depth)); rest : LoadM Unit) =
        (do loadTerm solve (loadSource solve depth) t
            ts.forM (loadTerm solve (loadSource solve depth))
            rest) := bind_assoc _ _ _
    rw [hforM]
    rcases hresult : loadTerm solve (loadSource solve depth) t l with ⟨_, l'⟩ | ⟨e, l'⟩ <;>
      rw [hresult] at hterm habides
    · rw [bind_eq_of_ok hresult]
      have hsame : l'.load.including = l.load.including := habides.including
      exact (ih (hsame ▸ hroom.congr habides.machine.sources) (hsame ▸ hne)).of_reaches hterm
    · rw [bind_eq_of_error hresult]
      exact hterm

theorem comesTo_loadEach (hload : Staged solve depth (loadSource solve depth)) (n : Nat)
    (source : TermSource) (hn : source.reader.supply < n) :
    ∀ l, Room l.machine (depth + 1) l.load.including → l.load.including ≠ [] →
      (loading [] source outer l).ComesTo solve outer
        (loadEach solve (loadTerm solve (loadSource solve depth)) n source l) := by
  induction n generalizing source with
  | zero => exact absurd hn (Nat.not_lt_zero _)
  | succ n ih =>
    intro l hroom hne
    have habides := abiding_readTerms hsolve source l rfl
    rw [loadEach_eq]
    rcases hread : readTerms solve source l with ⟨_ | ⟨ts, source'⟩, l'⟩ | ⟨e, l'⟩ <;>
      rw [hread] at habides
    · rw [bind_eq_of_ok hread]
      exact (Step.exhausted hread).reaches
    · have hless := (readTerms_eq_some hread).1
      have hsame : l'.load.including = l.load.including := habides.including
      rw [bind_eq_of_ok hread]
      have hforM := comesTo_forM hsolve hload (ih source' (by omega))
        (hsame ▸ hroom.congr habides.machine.sources) (hsame ▸ hne) ts
      exact hforM.of_reaches (Step.read hread).reaches
    · rw [bind_eq_of_error hread]
      exact ⟨l', rfl, (Step.faulty hread).reaches⟩

/-- **Sources are loaded by their stages**, however deep they are included.  The induction is on how
many can still be opened, and on what is left to be read within. -/
theorem staged_loadSource (depth : Nat) : Staged solve depth (loadSource solve depth) := by
  induction depth with
  | zero => exact fun _ _ _ hroom _ => absurd hroom.pos (Nat.lt_irrefl 0)
  | succ depth ih =>
    exact fun source outer l => comesTo_loadEach hsolve ih _ source source.supply_lt l

end

/-! ## From stage to stage -/

/-- In a step the machine abides. -/
theorem Step.abides (hsolve : ∀ goal, Machine.Abiding (solve goal)) (h : a.Step solve b) :
    a.state.machine.Abides b.state.machine := by
  cases h with
  | @read source source' outer ts l l' h =>
    exact ((ends_readTerms hsolve source l).of_ok h).machine
  | @exhausted source outer l l' h =>
    cases outer <;> exact ((ends_readTerms hsolve source l).of_ok h).machine
  | @faulty source outer l l' e h => exact ((ends_readTerms hsolve source l).of_error h).machine
  | @dealt t ts source outer l l' i hpart h => exact ((ends_perform hsolve i l).of_ok h).machine
  | @refused t ts source outer l l' i e hpart h => exact ((ends_perform hsolve i l).of_error h).machine
  | included | unopened | done | stopped => exact .refl _

theorem abides_iterate (hsolve : ∀ goal, Machine.Abiding (solve goal)) (n : Nat) (a : Stage) :
    a.state.machine.Abides ((next solve)^[n] a).state.machine := by
  induction n generalizing a with
  | zero => exact .refl _
  | succ n ih => exact ((step_next solve a).abides hsolve).trans (ih _)

/-- A load that has ended at a stage has ended at the next one. -/
theorem ended_next (h : (next solve)^[n] a = done l ∨ ∃ e, (next solve)^[n] a = stopped e l) :
    (next solve)^[n] (a.next solve) = done l ∨ ∃ e, (next solve)^[n] (a.next solve) = stopped e l := by
  rw [← Function.iterate_succ_apply, Function.iterate_succ_apply']
  rcases h with h | ⟨e, h⟩ <;> rw [h]
  · exact .inl rfl
  · exact .inr ⟨e, rfl⟩

/-- Nothing comes after the load has stopped. -/
theorem iterate_stopped {e : Stop} (h : (next solve)^[n] a = stopped e l) (k : Nat) :
    (next solve)^[k + n] a = stopped e l := by
  rw [Function.iterate_add_apply, h]
  exact Function.iterate_fixed rfl k

/-! ## The stack of the load -/

/-- The names of the sources that are open, the innermost first, while there are any. -/
def open? : Stage → Option (List String)
  | loading _ source outer _ => some (source.name :: outer.map (·.2.name))
  | done _ | stopped _ _ => none

/-- The stack of the load is made of the names of the sources that are open.  None of them is there
twice, and the one with which the load began is the last. -/
structure Stacked (name : String) (a : Stage) : Prop where
  /-- While sources are open, the stack is made of their names. -/
  names : ∀ names ∈ a.open?, a.state.load.including = names
  /-- No source is there twice. -/
  nodup : a.state.load.including.Nodup
  /-- The outermost source. -/
  outermost : a.state.load.including.getLast? = some name

variable {name : String}

/-- The stack and the sources are the same. -/
theorem Stacked.congr (h : a.Stacked name) (hsame : b.state.load.including = a.state.load.including)
    (hopen : ∀ names ∈ b.open?, names ∈ a.open?) : b.Stacked name where
  names names hnames := hsame.trans (h.names names (hopen names hnames))
  nodup := hsame ▸ h.nodup
  outermost := hsame ▸ h.outermost

/-- A source is left. -/
theorem Stacked.resume (h : (loading ts source outer l).Stacked name)
    (hsame : l'.load.including = l.load.including) : (resume outer l').Stacked name := by
  cases outer with
  | nil => exact h.congr hsame nofun
  | cons frame outer =>
    have hnames : l'.load.including = source.name :: frame.2.name :: outer.map (·.2.name) :=
      hsame.trans (h.names _ rfl)
    have htail : l'.leave.load.including = frame.2.name :: outer.map (·.2.name) :=
      congrArg List.tail hnames
    have hnodup : l'.load.including.Nodup := hsame ▸ h.nodup
    have houtermost : l'.load.including.getLast? = some name := hsame ▸ h.outermost
    rw [hnames] at hnodup houtermost
    refine ⟨fun names hopen => htail.trans (Option.some.inj hopen), ?_, ?_⟩
    · show l'.leave.load.including.Nodup
      exact htail ▸ hnodup.of_cons
    · show l'.leave.load.including.getLast? = some name
      exact htail ▸ houtermost

/-- **From stage to stage, the stack names the sources that are open**, each of them once. -/
theorem Stacked.step (hsolve : ∀ goal, Machine.Abiding (solve goal)) (h : a.Stacked name)
    (hstep : a.Step solve b) : b.Stacked name := by
  cases hstep with
  | @read source source' outer ts l l' hterms =>
    refine h.congr ((ends_readTerms hsolve source l).of_ok hterms).including fun names hopen => ?_
    rwa [open?, (readTerms_eq_some hterms).2] at hopen
  | @exhausted source outer l l' hterms =>
    exact h.resume ((ends_readTerms hsolve source l).of_ok hterms).including
  | @faulty source outer l l' e hterms =>
    exact h.congr ((ends_readTerms hsolve source l).of_error hterms).including nofun
  | @dealt t ts source outer l l' i hpart hdealt =>
    exact h.congr ((ends_perform hsolve i l).of_ok hdealt).including fun _ => id
  | @refused t ts source outer l l' i e hpart hdealt =>
    exact h.congr ((ends_perform hsolve i l).of_error hdealt).including nofun
  | @included t file ts source inner outer l hpart hopen hnew hopened =>
    refine ⟨fun names hnames => ?_, List.nodup_cons.mpr ⟨hnew, h.nodup⟩, ?_⟩
    · exact (congrArg (inner.name :: ·) (h.names _ rfl)).trans (Option.some.inj hnames)
    · have houtermost : l.load.including.getLast? = some name := h.outermost
      show (inner.name :: l.load.including).getLast? = some name
      rw [List.getLast?_cons, houtermost]
      rfl
  | unopened => exact h.congr rfl nofun
  | done | stopped => exact h

/-! ## Loads that run no goals -/

instance (m : Machine) : Decidable m.RuleFree :=
  match hfind : m.database.find? ⟨"term_expansion", 2⟩ with
  | none | some (.builtin _) => .isTrue fun p hp => by cases hfind.symm.trans hp
  | some (.defined p) => decidable_of_iff (p.clauses.isEmpty = true) (by simp [RuleFree, hfind])

/-- No goal is run: terms are not expanded, and directives are declarations and inclusions. -/
def Plain : Stage → Prop
  | loading [] _ _ l => l.machine.expansion = .byRules ∧ l.machine.RuleFree
  | loading (t :: _) _ _ l =>
    match Part.of l.machine.store t with
    | .statement i => ¬ i.IsGoal
    | .inclusion _ => True
  | done _ | stopped _ _ => True

instance (a : Stage) : Decidable a.Plain :=
  match a with
  | loading [] _ _ l =>
    inferInstanceAs (Decidable (l.machine.expansion = .byRules ∧ l.machine.RuleFree))
  | loading (t :: _) _ _ l => by
    unfold Plain
    dsimp only
    split <;> infer_instance
  | done _ | stopped _ _ => .isTrue trivial

/-- **Without goals, no step is one in which the fuel runs out.** -/
theorem Plain.step_ne (h : a.Plain) (hstep : a.Step solve (stopped .outOfFuel l)) :
    a = stopped .outOfFuel l := by
  generalize hb : stopped .outOfFuel l = b at hstep
  cases hstep with
  | @exhausted source outer => cases outer <;> cases hb
  | faulty hterms =>
    cases hb
    exact absurd hterms (readTerms_ne_outOfFuel h.1 h.2 _ _)
  | refused hpart hdealt =>
    cases hb
    rw [Plain, hpart] at h
    exact absurd hdealt (perform_ne_outOfFuel h _)
  | read | dealt | included | unopened | done => cases hb
  | stopped => rfl

end Stage

end Loading

namespace Machine

open Loading

/-- The first stage of the load of a source. -/
def firstStage (m : Machine) (source : TermSource) : Stage := .loading [] source [] (m.beginLoad source)

theorem stacked_firstStage (m : Machine) (source : TermSource) :
    (m.firstStage source).Stacked source.name :=
  ⟨fun _ hopen => Option.some.inj hopen, List.nodup_singleton _, rfl⟩

section

variable {m : Machine} {source : TermSource} {solve : Ref → MachineM Bool}

/-- **A load is what its stages come to**, however many there are. -/
theorem comesTo_load (hsolve : ∀ goal, Machine.Abiding (solve goal)) (m : Machine)
    (source : TermSource) :
    match load solve source m with
    | .ok () m' => ∃ l, l.machine = m' ∧ (m.firstStage source).Reaches solve (.done l)
    | .error e m' => ∃ l, l.machine = m' ∧ (m.firstStage source).Reaches solve (.stopped e l) := by
  have hroom : Room (m.beginLoad source).machine (m.sources.length + 2)
      (m.beginLoad source).load.including :=
    ⟨List.nodup_singleton _, nofun, Nat.le_refl _⟩
  have hstages := Stage.staged_loadSource hsolve (m.sources.length + 2) source [] (m.beginLoad source)
    hroom (List.cons_ne_nil _ _)
  rw [load_eq]
  rcases hresult : loadSource solve (m.sources.length + 2) source (m.beginLoad source) with
    ⟨_, l⟩ | ⟨e, l⟩ <;> rw [hresult] at hstages
  · exact ⟨l, rfl, hstages⟩
  · exact hstages

/-- A load that runs no goals does not run out of fuel. -/
theorem load_ne_outOfFuel (hsolve : ∀ goal, Machine.Abiding (solve goal))
    (hplain : ∀ n, ((Stage.next solve)^[n] (m.firstStage source)).Plain) (m' : Machine) :
    load solve source m ≠ .error .outOfFuel m' := by
  intro h
  have hstages : ∀ n l, (Stage.next solve)^[n] (m.firstStage source) ≠ .stopped .outOfFuel l := by
    intro n
    induction n with
    | zero => exact fun l heq => by cases heq
    | succ n ih =>
      intro l
      rw [Function.iterate_succ_apply']
      intro heq
      exact ih l ((hplain n).step_ne (heq ▸ Stage.step_next solve _))
  have hload := comesTo_load hsolve m source
  rw [h] at hload
  obtain ⟨l, -, n, hn⟩ := hload
  exact hstages n l hn

end

/-- **Every load ends, and keeps its stack in order.**  Whatever sources a machine has and however they
include each other, the stages of a load come to an end, which is what the load comes to; and if no goal
is run, it is not that the fuel has run out.  At every stage, the stack is made of the names of the
sources that are open, none of which is there twice, from the innermost to the one with which the load
began.  After a term was loaded, and in particular after a source was included, the stack is what it was
before, also if the source is not there, is open already, or ends in an error at any depth. -/
theorem load_ends (fuel : Nat) (m : Machine) (source : TermSource) :
    (match load (solve fuel) source m with
      | .ok () m' => ∃ n l, l.machine = m' ∧
        (Stage.next (solve fuel))^[n] (m.firstStage source) = .done l
      | .error e m' => ∃ n l, l.machine = m' ∧
        (Stage.next (solve fuel))^[n] (m.firstStage source) = .stopped e l) ∧
    ((∀ n, ((Stage.next (solve fuel))^[n] (m.firstStage source)).Plain) →
      ∀ m', load (solve fuel) source m ≠ .error .outOfFuel m') ∧
    (∀ n, ((Stage.next (solve fuel))^[n] (m.firstStage source)).Stacked source.name) ∧
    ∀ depth t l, Ends (loadTerm (solve fuel) (loadSource (solve fuel) depth) t l)
      (fun _ l' => l'.load.including = l.load.including)
      fun l' => l'.load.including = l.load.including := by
  have hsolve : ∀ goal, Machine.Abiding (solve fuel goal) := abiding_solve fuel
  refine ⟨?_, load_ne_outOfFuel hsolve, fun n => ?_, fun depth t l => ?_⟩
  · have hload := comesTo_load hsolve m source
    rcases hresult : load (solve fuel) source m with ⟨_, m'⟩ | ⟨e, m'⟩ <;> rw [hresult] at hload <;>
      exact let ⟨l, hl, n, hn⟩ := hload; ⟨n, l, hl, hn⟩
  · induction n with
    | zero => exact stacked_firstStage m source
    | succ n ih =>
      rw [Function.iterate_succ_apply']
      exact ih.step hsolve (Stage.step_next _ _)
  · exact (abiding_loadTerm hsolve (abiding_loadSource hsolve depth) t l rfl).imp
      (fun _ _ h => h.including) fun _ h => h.including

/-- Two sources that include each other: the load stops where the first one would be open twice. -/
theorem load_ends_in_cycle : ∃ (m : Machine) (source : TermSource),
    (∀ n, ((Stage.next (solve 1))^[n] (m.firstStage source)).Plain) ∧
    ((Stage.next (solve 1))^[3] (m.firstStage source)).state.load.including = ["b", "a"] ∧
    (∃ l, (Stage.next (solve 1))^[4] (m.firstStage source) =
      .stopped (.error (.cyclicSource "a")) l) ∧
    ∀ m', load (solve 1) source m ≠ .error .outOfFuel m' := by
  let m : Machine := { Machine.build [] [] true with sources :=
    [("a", .readable (.ofText ":- include(b).")), ("b", .readable (.ofText ":- include(a)."))] }
  let source := m.source "a" (.ofText ":- include(b).") none
  let stage (n : Nat) := (Stage.next (solve 1))^[n] (m.firstStage source)
  have hcyclic : (stage 4).cycle? = some "a" := by decide +kernel
  obtain ⟨l, hl⟩ := Stage.cycle?_eq_some hcyclic
  have hplain : ∀ n, (stage n).Plain := by
    intro n
    rcases Nat.lt_or_ge n 4 with hn | hn
    · have hfirst : ∀ n < 4, (stage n).Plain := by decide +kernel
      exact hfirst n hn
    · -- Nothing comes after the fourth stage.
      obtain ⟨k, rfl⟩ := Nat.exists_eq_add_of_le' hn
      have hlast : stage (k + 4) = .stopped (.error (.cyclicSource "a")) l := Stage.iterate_stopped hl k
      rw [hlast]
      trivial
  exact ⟨m, source, hplain, by decide +kernel, ⟨l, hl⟩, (load_ends 1 m source).2.1 hplain⟩

end Machine

end Clausal
