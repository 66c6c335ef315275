import Clausal.Load
import Clausal.Proofs.Machine.Evolution
import Clausal.Proofs.Machine.Reading
import Clausal.Proofs.Store.Contents

/-! # Loading leaves no bindings

Loading a source settles the machine (`settling_load`), whether it ends or is given up: all bindings
that its directives and expansions make are undone, and the clauses that it adds are compiled from
terms that were read or built meanwhile, so that their variables are new.  This is so for any way of
proving goals that binds only what is reached from the goal (`Proper`).

The terms that are loaded are detached all the time that they wait to be loaded.  Two of them may
share variables if they come from one expansion; so a directive can bind the variables of a clause
that was stored before it, but only while it runs.
-/

namespace Clausal

open Store Relation

namespace Machine

variable {α β : Type} {m m' : Machine} {s : Store} {R R' : List Ref} {t u v : Ref} {n : Nat}

/-! ## Contexts, sources, loads and expansions -/

theorem nextTerm_eq (source : TermSource) (m : Machine) :
    nextTerm source m = match source.next? m.operators m.store with
      | (.ok t, source, s) => .ok (t.map (·, source)) { m with store := s }
      | (.error e, _, s) => .error (.error (.ofRead e)) { m with store := s } := by
  have hget : (get : MachineM Machine) m = .ok m m := rfl
  rw [nextTerm, bind_eq_of_ok hget]
  simp only [onStore, Bind.bind, EStateM.bind]
  rcases source.next? m.operators m.store with ⟨e | t, source, s⟩ <;> rfl

theorem under_eq {α : Type} (c : Context) (action : MachineM α) (m : Machine) :
    under c action m = match action { m with context := c } with
      | .ok a m' => .ok a { m' with context := m.context }
      | .error e m' => .error e { m' with context := m.context } := rfl

theorem undoing_eq {α : Type} (action : MachineM α) (m : Machine) :
    undoing action m = match action m with
      | .ok a m' => .ok a { m' with store := m'.store.undoTo m.store.mark }
      | .error e m' => .error e { m' with store := m'.store.undoTo m.store.mark } := rfl

theorem poll_eq_ok (h : m.context ∉ m.cancelled) : poll m = .ok () m := by
  show (if m.cancelled.contains m.context then fail .cancelled else pure () : MachineM Unit) m = _
  rw [if_neg (by simpa using h)]
  rfl

theorem openSource_eq (name : String) (m : Machine) :
    openSource name m = match m.sources.lookup name with
      | some (.readable input) => .ok (m.source name input none) m
      | some (.unopenable message) => .error (.error (.input message)) m
      | none => .error (.error (.noSource name)) m := by
  show (match m.sources.lookup name with
    | some (.readable input) => pure (m.source name input none)
    | some (.unopenable message) => fail (.input message)
    | none => fail (.noSource name) : MachineM TermSource) m = _
  rcases m.sources.lookup name with _ | ⟨input | message⟩ <;> rfl

/-- The load of a source, as it begins. -/
def beginLoad (m : Machine) (source : TermSource) : Loading where
  machine := { m with loads := m.loads + 1 }
  load := { id := m.loads + 1, including := [source.name] }

theorem load_eq (solve : Ref → MachineM Bool) (source : TermSource) (m : Machine) :
    load solve source m =
      match Loading.loadSource solve (m.sources.length + 2) source (m.beginLoad source) with
      | .ok () l => .ok () l.machine
      | .error e l => .error e l.machine := rfl

/-- What a load of a source comes to is what the source comes to. -/
theorem ends_load {solve : Ref → MachineM Bool} {source : TermSource} {Q E : Machine → Prop}
    (h : Ends (Loading.loadSource solve (m.sources.length + 2) source (m.beginLoad source))
      (fun _ l => Q l.machine) fun l => E l.machine) :
    Ends (load solve source m) (fun _ => Q) E := by
  rw [load_eq]
  rcases hresult : Loading.loadSource solve (m.sources.length + 2) source (m.beginLoad source) with
    ⟨_, l⟩ | ⟨e, l⟩ <;> rw [hresult] at h <;> exact h

/-- Compiling a text is loading it, under the context. -/
theorem compile_eq (solve : Ref → MachineM Bool) (c : Context) (text : String) (args : List Term)
    (m : Machine) :
    compile solve c text args m =
      match load solve (m.source "user" (.ofText text) (if args.isEmpty then none else some args))
          { m with context := c } with
      | .ok a m' => .ok a { m' with context := m.context }
      | .error e m' => .error e { m' with context := m.context } := by
  have hload : (get >>= fun m => load solve (m.source "user" (.ofText text)
      (if args.isEmpty then none else some args)) : MachineM Unit) { m with context := c } =
      load solve (m.source "user" (.ofText text) (if args.isEmpty then none else some args))
        { m with context := c } := rfl
  have hcompile : compile solve c text args = under c (get >>= fun m =>
      load solve (m.source "user" (.ofText text) (if args.isEmpty then none else some args))) := rfl
  rw [hcompile, under_eq, hload]
  generalize load solve _ _ = r
  cases r <;> rfl

/-- No clause says how terms are to be expanded. -/
def RuleFree (m : Machine) : Prop :=
  ∀ p, m.database.find? ⟨"term_expansion", 2⟩ = some (.defined p) → p.clauses = []

theorem expand_of_ruleFree {solve : Ref → MachineM Bool} (hexpansion : m.expansion = .byRules)
    (h : m.RuleFree) (t : Ref) : Loading.expand solve t m = .ok [t] m := by
  have hget : (get : MachineM Machine) m = .ok m m := rfl
  rw [Loading.expand, bind_eq_of_ok hget, hexpansion]
  dsimp only
  rw [Loading.expandByRules, bind_eq_of_ok hget]
  rcases hp : m.database.find? ⟨"term_expansion", 2⟩ with _ | ⟨b | p⟩
  · rfl
  · rfl
  · have hempty : p.clauses.isEmpty = true := by
      rw [h p hp]
      rfl
    dsimp only
    rw [if_pos hempty]
    rfl

/-! ## Proving goals -/

/-- Whatever the action comes to, the machine has evolved, and what it gives refers to the terms. -/
abbrev Evolving (m : Machine) (R : List Ref) (action : MachineM α) (refs : α → List Ref) : Prop :=
  Ends (action m) (fun a m' => Evolves m m' R (refs a)) fun m' => Evolves m m' R []

theorem ends_onStore {f : Store → α × Store} {Q : α → Machine → Prop} {E : Machine → Prop}
    (h : Q (f m.store).1 { m with store := (f m.store).2 }) : Ends (onStore f m) Q E :=
  h

/-- A way of proving goals that binds only what is reached from the goal. -/
def Proper (solve : Ref → MachineM Bool) : Prop :=
  ∀ {m goal}, m.Sound → goal.index < m.store.size → Evolving m [goal] (solve goal) fun _ => []

/-- An operation on the store is an evolution if it spares what is out of reach. -/
theorem Sound.evolves_store (h : m.Sound) {vs : List Ref} (hs : s.WellFormed) (ht : s.Trailed)
    (hgrows : Grows m.store s vs) (hlt : ∀ r ∈ R', r.index < s.size)
    (hspares : ∀ v, m.store.Free v → (∀ r ∈ R, ¬ m.store.Reaches r v) →
      s.Free v ∧ Spares m.store s v ∧ ∀ r ∈ R', ¬ s.Reaches r v) :
    Evolves m { m with store := s } R R' where
  sound := h.of_persists hs ht (hgrows.persists h.trailed)
  grows := ⟨vs, hgrows⟩
  lt := hlt
  spares := hspares
  clauses _ _ := .inl

/-- A name applied to terms. -/
theorem Sound.evolves_apply (h : m.Sound) (name : String) {args : List Ref}
    (hargs : ∀ a ∈ args, a.index < m.store.size) :
    Evolves m { m with store := (m.store.apply name args).2 } args
      [(m.store.apply name args).1] := by
  have hgrows := grows_apply m.store name args
  refine h.evolves_store (h.wellFormed.apply name hargs) (h.trailed.apply name args) hgrows
    (List.forall_mem_singleton.mpr (apply_lt _ _ _)) fun v hf hout =>
      ⟨hgrows.free_of_nil hf, hgrows.spares h.wellFormed v, List.forall_mem_singleton.mpr ?_⟩
  intro hr
  obtain ⟨name, hc⟩ := hf
  obtain ⟨a, ha, hr⟩ := h.wellFormed.reaches_of_apply hargs (index_lt_of_cell? hc) hr
  exact hout a ha hr

/-- A copy with fresh variables. -/
theorem Sound.evolves_copy (h : m.Sound) (ht : t.index < m.store.size) (R : List Ref) :
    Evolves m { m with store := (m.store.copy t).2 } R [(m.store.copy t).1] := by
  have hcopy := copiesApart_copy h.wellFormed ht
  exact h.evolves_store hcopy.wellFormed (hcopy.trailed h.trailed) hcopy.grows
    (List.forall_mem_singleton.mpr hcopy.lt) fun v hf _ => ⟨hcopy.grows.free_of_nil hf,
      hcopy.grows.spares h.wellFormed v, List.forall_mem_singleton.mpr (hcopy.apart v hf)⟩

/-- A term of new cells. -/
theorem Sound.evolves_allocates (h : m.Sound) {r : Ref × Store}
    (hr : Allocates m.store m.store r) (R : List Ref) :
    Evolves m { m with store := r.2 } R [r.1] := by
  refine h.evolves_store hr.adds.wellFormed (hr.adds.trailed h.trailed) hr.adds.grows
    (List.forall_mem_singleton.mpr hr.new.lt) fun v hf _ => ⟨hr.adds.grows.free_of_nil hf,
      hr.adds.grows.spares h.wellFormed v, List.forall_mem_singleton.mpr fun hreach => ?_⟩
  obtain ⟨name, hc⟩ := hf
  exact absurd (index_lt_of_cell? hc) (Nat.not_lt.mpr (hr.detached.le v hreach))

/-! ## Actions that settle -/

/-- Whatever the action comes to, the machine has settled, and `P` holds of what it gives. -/
abbrev Settling (n : Nat) (m : Machine) (action : MachineM α) (P : α → Machine → Prop) : Prop :=
  Ends (action m) (fun a m' => Settles n m m' ∧ P a m') fun m' => Settles n m m'

theorem Settling.bind {action : MachineM α} {f : α → MachineM β} {P : α → Machine → Prop}
    {P' : β → Machine → Prop} (h : Settling n m action P)
    (hf : ∀ a m', Settles n m m' → P a m' → Settling n m' (f a) P') :
    Settling n m (action >>= f) P' :=
  Ends.bind h fun a m' ha => (hf a m' ha.1 ha.2).imp (fun _ _ hb => ⟨ha.1.trans hb.1, hb.2⟩)
    fun _ hb => ha.1.trans hb

theorem settling_pure (h : m.Sound) {a : α} {P : α → Machine → Prop} (ha : P a m) :
    Settling n m (pure a) P :=
  ⟨.refl h n, ha⟩

theorem settling_fail (h : m.Sound) (e : Error) (P : α → Machine → Prop) :
    Settling n m (fail e) P :=
  Settles.refl h n

theorem settling_ofExcept (h : m.Sound) {e : Except Error α} {P : α → Machine → Prop}
    (ha : ∀ a, e = .ok a → P a m) : Settling n m (ofExcept e) P := by
  cases e with
  | ok a => exact settling_pure h (ha a rfl)
  | error e => exact settling_fail h e P

theorem settling_look (h : m.Sound) {f : Store → α} {P : α → Machine → Prop} (ha : P (f m.store) m) :
    Settling n m (look f) P :=
  ⟨.refl h n, ha⟩

theorem settling_examine (h : m.Sound) {f : Store → Except Error α} {P : α → Machine → Prop}
    (ha : ∀ a, f m.store = .ok a → P a m) : Settling n m (examine f) P :=
  settling_ofExcept h ha

/-- Looking at the machine. -/
theorem settling_get {f : Machine → MachineM α} {P : α → Machine → Prop}
    (h : Settling n m (f m) P) : Settling n m (get >>= f) P :=
  h

/-- An operation that only adds cells that mention one another. -/
theorem settling_onStore (h : m.Sound) {f : Store → α × Store} {P : α → Machine → Prop}
    (hf : Adds m.store (f m.store).2) (hP : P (f m.store).1 { m with store := (f m.store).2 }) :
    Settling n m (onStore f) P :=
  ⟨h.settles_adds hf n, hP⟩

theorem settling_poll (h : m.Sound) : Settling n m poll fun _ _ => True := by
  refine settling_get ?_
  split
  · exact settling_fail h _ _
  · exact settling_pure h trivial

/-- Whatever is proved is forgotten. -/
theorem settling_undoing (hn : n ≤ m.store.size) {action : MachineM α} {P : α → Prop}
    (h : Ends (action m) (fun a m' => Evolves m m' R [] ∧ P a) fun m' => Evolves m m' R []) :
    Settling n m (undoing action) fun a _ => P a := by
  show Ends (undoing action m) _ _
  rw [undoing_eq]
  rcases haction : action m with ⟨a, m'⟩ | ⟨e, m'⟩
  · rw [haction] at h
    exact ⟨h.1.undo.mono hn, h.2⟩
  · rw [haction] at h
    exact h.undo.mono hn

/-! ## Sources -/

theorem settling_openSource (h : m.Sound) (name : String) :
    Settling n m (openSource name) fun source _ => source.reader.Sound := by
  refine settling_get ?_
  split
  · exact settling_pure h (TermReader.sound_ofInput _ _ nofun)
  · exact settling_fail h _ _
  · exact settling_fail h _ _

theorem settling_nextTerm (h : m.Sound) (hn : n ≤ m.store.size) {source : TermSource}
    (hsource : source.reader.Sound) :
    Settling n m (nextTerm source) fun next m' => ∀ t source', next = some (t, source') →
      m'.store.Detached n t ∧ source'.reader.Sound := by
  refine settling_get ?_
  obtain ⟨hadds, hok⟩ := TermSource.next?_reads hsource h.wellFormed m.operators rfl
  refine (settling_onStore (P := fun r m' => ∀ t, r.1 = .ok t →
    ReadsNew m.store t r.2.reader m'.store) h hadds hok).bind fun r m' hm' hr => ?_
  obtain ⟨result, source'⟩ := r
  dsimp only
  split
  · rename_i t
    refine settling_pure hm'.sound fun u source'' heq => ?_
    obtain ⟨hreader, hadds', hnew⟩ := hr t rfl
    obtain ⟨w, rfl, heq⟩ := Option.map_eq_some_iff.mp heq
    cases heq
    exact ⟨(hadds'.detached (hnew _ rfl)).mono hn, hreader⟩
  · exact settling_fail hm'.sound _ _

end Machine

namespace Loading

open Machine

variable {α β : Type} {m m' : Machine} {l l' : Loading} {t u v : Ref} {ts : List Ref} {n : Nat}
  {solve : Ref → MachineM Bool}

/-- The terms wait to be loaded: nothing in them is older than the place `n`, or bound. -/
abbrev Waiting (n : Nat) (ts : List Ref) (m : Machine) : Prop := ∀ t ∈ ts, m.store.Detached n t

theorem Waiting.settle (h : Waiting n ts m) (hm : m.Sound) (hm' : Settles n m m') :
    Waiting n ts m' :=
  fun t ht => hm'.detached hm (h t ht)

/-! ## Goals of the program -/

theorem settling_expansionTerms (h : m.Sound) (ht : m.store.Detached n t) :
    Settling n m (expansionTerms t) (Waiting n) := by
  refine (settling_look (P := fun r m' => m' = m ∧ r = m.store.listShape t) h ⟨rfl, rfl⟩).bind
    fun r m' hm' hr => ?_
  obtain ⟨rfl, hr⟩ := hr
  split
  · refine settling_pure h fun u hu => ht.of_reaches h.wellFormed ?_
    exact h.wellFormed.acyclic.reaches_of_mem_listShape (hr ▸ hu)
  · exact settling_fail h _ _
  · exact settling_pure h (List.forall_mem_singleton.mpr ht)
  · exact (settling_look (P := fun _ _ => True) h trivial).bind fun _ _ hm'' _ =>
      settling_fail hm''.sound _ _

/-- The goal that expands a term is about a copy of it. -/
theorem evolves_expansionGoal (h : m.Sound) (ht : t.index < m.store.size) (R : List Ref) :
    Evolves m { m with store := (expansionGoal t m.store).2 } R
      [(expansionGoal t m.store).1.1, (expansionGoal t m.store).1.2] := by
  let copy := m.store.copy t
  let expansion := copy.2.var none
  let goal := expansion.2.apply "term_expansion" [copy.1, expansion.1]
  have hcopy : Evolves m { m with store := copy.2 } R [copy.1] := h.evolves_copy ht R
  have hvar : Evolves { m with store := copy.2 } { m with store := expansion.2 } [] [expansion.1] :=
    hcopy.sound.evolves_allocates ((Adds.refl hcopy.sound.wellFormed).var none) []
  have hboth : Evolves m { m with store := expansion.2 } R ([expansion.1] ++ [copy.1]) :=
    hcopy.trans (hvar.within nofun fun r hr => ⟨hr, hcopy.lt r hr⟩)
  have happly : Evolves { m with store := expansion.2 } { m with store := goal.2 }
      [copy.1, expansion.1] [goal.1] :=
    hboth.sound.evolves_apply _ fun a ha => hboth.lt a (by simpa [or_comm] using ha)
  have hall : Evolves m { m with store := goal.2 } R ([goal.1] ++ [expansion.1]) :=
    hboth.trans (happly.within (by simp) fun r hr =>
      ⟨List.mem_append_left _ hr, hboth.lt r (List.mem_append_left _ hr)⟩)
  refine hall.subset fun r hr => ?_
  rcases List.mem_cons.mp hr with rfl | hr
  · exact List.mem_append_right _ List.mem_cons_self
  · exact List.mem_append_left _ hr

/-- An expansion that is found is taken out of the store, so that undoing the bindings does not
touch it. -/
theorem evolves_expansion (hsolve : Proper solve) (h : m.Sound) (ht : t.index < m.store.size) :
    Ends ((do
        let (expansion, goal) ← onStore (expansionGoal t)
        if ← solve goal then some <$> look (·.snapshot expansion) else pure none :
          MachineM (Option Term)) m)
      (fun r m' => Evolves m m' [] [] ∧ ∀ x, r = some x → x.WellMade)
      fun m' => Evolves m m' [] [] := by
  have hgoal := evolves_expansionGoal h ht []
  refine (ends_onStore (Q := fun r m' => Evolves m m' [] [r.1, r.2]) hgoal).bind fun r m' hm' => ?_
  have hlater : ∀ m'', Evolves m' m'' [r.2] [] → Evolves m m'' [] [] := fun m'' hm'' =>
    (hm'.subset (by simp)).trans hm''
  have hproof := hsolve hm'.sound (hm'.lt r.2 (by simp))
  refine (hproof.imp (fun _ => hlater) hlater).bind fun found m'' hm'' => ?_
  split
  · exact ⟨hm'', fun x hx => Option.some.inj hx ▸ hm''.sound.wellFormed.wellMade_snapshot _⟩
  · exact ⟨hm'', nofun⟩

/-- **Expanding a term** gives terms that wait to be loaded. -/
theorem settling_expandByRules (hsolve : Proper solve) (h : m.Sound) (hn : n ≤ m.store.size)
    (ht : m.store.Detached n t) : Settling n m (expandByRules solve t) (Waiting n) := by
  have hself : Settling n m (pure [t] : MachineM (List Ref)) (Waiting n) :=
    settling_pure h (List.forall_mem_singleton.mpr ht)
  unfold expandByRules
  refine settling_get ?_
  split
  · split
    · exact hself
    · refine (settling_undoing hn (evolves_expansion hsolve h ht.lt)).bind fun r m' hm' hr => ?_
      split
      · rename_i x
        have hbuild := (Adds.refl hm'.sound.wellFormed).build (hr x rfl)
        have hx := hbuild.detached.mono (hn.trans hm'.grows.size_le)
        exact (settling_onStore (P := fun u m'' => m''.store.Detached n u) hm'.sound hbuild.adds
          hx).bind fun u m'' hm'' hu => settling_expansionTerms hm''.sound hu
      · exact settling_pure hm'.sound (List.forall_mem_singleton.mpr (hm'.detached h ht))
  · exact hself

theorem settling_expand (hsolve : Proper solve) (h : m.Sound) (hn : n ≤ m.store.size)
    (ht : m.store.Detached n t) : Settling n m (expand solve t) (Waiting n) := by
  refine settling_get ?_
  split
  · exact settling_expandByRules hsolve h hn ht
  · -- Wrapping adds a cell of which the term is the argument.
    have happly := h.evolves_apply "wrapped" (List.forall_mem_singleton.mpr ht.lt)
    have hgrows := grows_apply m.store "wrapped" [t]
    have hwrapped := h.wellFormed.detached_apply "wrapped" (List.forall_mem_singleton.mpr ht) hn
    have hsettles : Settles n m { m with store := (m.store.apply "wrapped" [t]).2 } :=
      ⟨happly.sound, hgrows, fun _ _ => .inl⟩
    refine Settling.bind (P := fun u m' => m'.store.Detached n u) ⟨hsettles, hwrapped⟩
      fun u m' hm' hu => settling_pure hm'.sound (List.forall_mem_singleton.mpr hu)
  · exact settling_pure h (by simp [Waiting, ht])
  · exact settling_pure h nofun
  · exact (settling_look (P := fun _ _ => True) h trivial).bind fun _ _ hm' _ =>
      settling_fail hm'.sound _ _

/-! ## Loads -/

theorem lift_apply (action : MachineM α) (l : Loading) :
    lift action l = match action l.machine with
      | .ok a m => .ok a ⟨m, l.load⟩
      | .error e m => .error e ⟨m, l.load⟩ := rfl

theorem lift_of_ok {action : MachineM α} {a : α} (h : action l.machine = .ok a m) :
    lift action l = .ok a ⟨m, l.load⟩ := by
  rw [lift_apply, h]

theorem lift_of_error {action : MachineM α} {e : Stop} (h : action l.machine = .error e m) :
    lift action l = .error e ⟨m, l.load⟩ := by
  rw [lift_apply, h]

theorem lift_examine_of_ok {f : Store → Except Error α} {a : α} (h : f l.machine.store = .ok a) :
    lift (examine f) l = .ok a l := by
  have hvalue : examine f l.machine = .ok a l.machine := by
    show ofExcept (f l.machine.store) l.machine = _
    rw [h]
    rfl
  exact lift_of_ok hvalue

theorem lift_examine_of_error {f : Store → Except Error α} {e : Error}
    (h : f l.machine.store = .error e) : lift (examine f) l = .error (.error e) l := by
  have hvalue : examine f l.machine = .error (.error e) l.machine := by
    show ofExcept (f l.machine.store) l.machine = _
    rw [h]
    rfl
  exact lift_of_error hvalue

/-- Whatever the action of a load comes to, the machine has settled, and `P` holds of what it
gives. -/
abbrev LoadSettling (n : Nat) (l : Loading) (action : LoadM α) (P : α → Machine → Prop) : Prop :=
  Ends (action l) (fun a l' => Settles n l.machine l'.machine ∧ P a l'.machine)
    fun l' => Settles n l.machine l'.machine

theorem LoadSettling.bind {action : LoadM α} {f : α → LoadM β} {P : α → Machine → Prop}
    {P' : β → Machine → Prop} (h : LoadSettling n l action P)
    (hf : ∀ a l', Settles n l.machine l'.machine → P a l'.machine → LoadSettling n l' (f a) P') :
    LoadSettling n l (action >>= f) P' :=
  Ends.bind h fun a l' ha => (hf a l' ha.1 ha.2).imp (fun _ _ hb => ⟨ha.1.trans hb.1, hb.2⟩)
    fun _ hb => ha.1.trans hb

theorem loadSettling_lift {action : MachineM α} {P : α → Machine → Prop}
    (h : Settling n l.machine action P) : LoadSettling n l (lift action) P := by
  obtain ⟨m, load⟩ := l
  simp only [LoadSettling, lift]
  rcases haction : action m with ⟨a, m'⟩ | ⟨e, m'⟩
  · rw [Settling, haction] at h
    exact h
  · rw [Settling, haction] at h
    exact h

theorem loadSettling_pure (h : l.machine.Sound) {a : α} {P : α → Machine → Prop}
    (ha : P a l.machine) : LoadSettling n l (pure a) P :=
  ⟨.refl h n, ha⟩

theorem loadSettling_current (h : l.machine.Sound) :
    LoadSettling n l current fun _ _ => True :=
  ⟨.refl h n, trivial⟩

theorem loadSettling_change (h : l.machine.Sound) (f : Load → Load) :
    LoadSettling n l (change f) fun _ _ => True :=
  ⟨.refl h n, trivial⟩

/-- An operation on the database that adds clauses of the given kind only. -/
theorem settling_onDatabase (h : m.Sound) {f : Database → Except Error (α × Database)}
    (hf : ∀ a db, f m.database = .ok (a, db) → ∀ pi c, db.Holds pi c → m.database.Holds pi c ∨
      (c.Faithful m.store ∧ c.pi = pi ∧ ∀ v ∈ c.vars, n ≤ v.index ∧ m.store.Free v)) :
    Settling n m (onDatabase f) fun _ _ => True := by
  refine settling_get ((settling_ofExcept (P := fun r m' => m' = m ∧ f m.database = .ok r) h
    fun r hr => ⟨rfl, hr⟩).bind fun r m' hm' hr => ?_)
  obtain ⟨rfl, hr⟩ := hr
  obtain ⟨a, db⟩ := r
  have hclauses := hf a db hr
  refine Settling.bind (P := fun _ _ => True) ⟨⟨⟨h.wellFormed, h.trailed, fun pi c hc => ?_,
    fun pi c hc => ?_⟩, Grows.refl _, fun pi c hc => ?_⟩, trivial⟩
    fun _ m'' hm'' _ => settling_pure hm''.sound trivial
  · exact (hclauses pi c hc).elim (h.faithful pi c) fun hnew => hnew.1
  · exact (hclauses pi c hc).elim (h.filed pi c) fun hnew => hnew.2.1
  · exact (hclauses pi c hc).imp id fun hnew => hnew.2.2

theorem settling_changeDatabase (h : m.Sound) {f : Database → Except Error Database}
    (hf : ∀ db, f m.database = .ok db → ∀ pi c, db.Holds pi c → m.database.Holds pi c ∨
      (c.Faithful m.store ∧ c.pi = pi ∧ ∀ v ∈ c.vars, n ≤ v.index ∧ m.store.Free v)) :
    Settling n m (changeDatabase f) fun _ _ => True := by
  refine settling_onDatabase h fun _ db hdb => ?_
  rcases hok : f m.database with e | db'
  · rw [hok] at hdb
    cases hdb
  · rw [hok] at hdb
    cases hdb
    exact hf db hok

/-- **Adding a clause** that was waiting. -/
theorem loadSettling_addClause (h : l.machine.Sound) (ht : l.machine.store.Detached n t) :
    LoadSettling n l (addClause t) fun _ _ => True := by
  refine (loadSettling_lift (settling_examine (P := fun c m' => m' = l.machine ∧
    Clause.compile l.machine.store t = .ok c) h fun c hc => ⟨rfl, hc⟩)).bind fun c l₁ hl₁ hc => ?_
  obtain ⟨hmachine, hcompile⟩ := hc
  obtain ⟨hfaithful, hvars⟩ :=
    Clause.faithful_of_compile h.wellFormed h.trailed ht hcompile
  refine (loadSettling_current hl₁.sound).bind fun load l₂ hl₂ _ => ?_
  refine (loadSettling_lift (settling_onDatabase hl₂.sound fun p db hdb pi c' hc' =>
    .inl ((Database.holds_of_touch hdb).2 pi c' hc'))).bind fun p l₃ hl₃ _ => ?_
  refine (loadSettling_lift (settling_ofExcept (P := fun _ _ => True) hl₃.sound
    fun _ _ => trivial)).bind fun noted l₄ hl₄ _ => ?_
  refine (loadSettling_change hl₄.sound _).bind fun _ l₅ hl₅ _ => ?_
  refine loadSettling_lift (settling_changeDatabase hl₅.sound fun db hdb pi c' hc' => ?_)
  have hall := ((hl₂.trans hl₃).trans hl₄).trans hl₅
  rw [← hmachine] at hfaithful hvars h
  refine (Database.holds_of_append hdb hc').imp id ?_
  rintro ⟨rfl, rfl⟩
  refine ⟨?_, rfl, fun v hv => ⟨(hvars v hv).1, hall.grows.free_of_nil (hvars v hv).2.1⟩⟩
  exact hfaithful.persist h.wellFormed hall.sound.wellFormed (hall.grows.persists h.trailed)

theorem loadSettling_declare (h : l.machine.Sound) (property : Property) (predicates : Ref) :
    LoadSettling n l (declare property predicates) fun _ _ => True := by
  refine (loadSettling_current h).bind fun load l₁ hl₁ _ => ?_
  refine (loadSettling_lift (settling_examine (P := fun _ _ => True) hl₁.sound
    fun _ _ => trivial)).bind fun pis l₂ hl₂ _ => ?_
  have hone : ∀ pi ∈ pis, ∀ l', Settles n l₂.machine l'.machine →
      Ends (lift (changeDatabase (·.declare load.id property pi)) l')
        (fun _ l'' => Settles n l₂.machine l''.machine) fun l'' =>
          Settles n l₂.machine l''.machine := by
    intro pi _ l' hl'
    refine (loadSettling_lift (settling_changeDatabase (n := n) hl'.sound fun db hdb q c hc =>
      .inl (Database.holds_of_declare hdb hc))).imp (fun _ _ hl'' => hl'.trans hl''.1)
      fun _ hl'' => hl'.trans hl''
  exact (Ends.forM hone (.refl hl₂.sound n)).imp (fun _ _ h => ⟨h, trivial⟩) fun _ => id

/-- A goal that has to hold. -/
theorem loadSettling_require (hsolve : Proper solve) (h : l.machine.Sound)
    (hn : n ≤ l.machine.store.size) (ht : t.index < l.machine.store.size)
    (failure : Term → Error) :
    LoadSettling n l (require solve t failure) fun _ _ => True := by
  have hproof := (hsolve h ht).imp
    (fun (_ : Bool) m' (hm' : Evolves l.machine m' [t] []) => And.intro hm' trivial) fun _ => id
  refine (loadSettling_lift (settling_undoing (P := fun _ => True) hn hproof)).bind
    fun found l' hl' _ => ?_
  split
  · exact loadSettling_pure hl'.sound trivial
  · exact loadSettling_lift ((settling_look (P := fun _ _ => True) hl'.sound trivial).bind
      fun _ _ hm' _ => settling_fail hm'.sound _ _)

/-- A way of loading the terms of a source that settles the machine. -/
def LoadsTerms (n : Nat) (loadTerms : TermSource → LoadM Unit) : Prop :=
  ∀ {l source}, l.machine.Sound → n ≤ l.machine.store.size → source.reader.Sound →
    LoadSettling n l (loadTerms source) fun _ _ => True

/-- The terms of an included source, of which the name is taken down meanwhile. -/
def loadNamed (loadTerms : TermSource → LoadM Unit) (name : String) (source : TermSource) :
    LoadM Unit := do
  change fun load => { load with including := name :: load.including }
  let leave : LoadM Unit := change fun load => { load with including := load.including.tail }
  fun l =>
    match loadTerms source l with
    | .ok () l => leave l
    | .error e l => (do leave; throw e) l

/-- Leaving the source takes its name off the stack, whatever came of it. -/
theorem loadNamed_eq (loadTerms : TermSource → LoadM Unit) (name : String) (source : TermSource)
    (l : Loading) : loadNamed loadTerms name source l =
      match loadTerms source { l with load := { l.load with including := name :: l.load.including } } with
      | .ok () l => .ok () { l with load := { l.load with including := l.load.including.tail } }
      | .error e l => .error e { l with load := { l.load with including := l.load.including.tail } } :=
  rfl

theorem loadIncluded_eq (loadTerms : TermSource → LoadM Unit) (file : Ref) :
    loadIncluded loadTerms file = (do
      let name ← lift (examine (·.expectAtom file))
      let source ← lift (openSource name)
      let load ← current
      if load.including.contains name then lift (fail (.cyclicSource name))
      else loadNamed loadTerms name source) := by
  refine congrArg (Bind.bind _) (funext fun name => congrArg (Bind.bind _) (funext fun source =>
    congrArg (Bind.bind _) (funext fun load => ?_)))
  split
  · rfl
  · rfl

/-- Does what a directive asks for. -/
def carryOut (solve : Ref → MachineM Bool) (loadTerms : TermSource → LoadM Unit) :
    Directive → LoadM Unit
  | .declare property predicates => declare property predicates
  | .inclusion file | .ensureLoaded file => loadIncluded loadTerms file
  | .initialization goal => require solve goal .failedInitialization
  | .goal goal => require solve goal .failedDirective

theorem directive_eq (loadTerms : TermSource → LoadM Unit) (goal : Ref) :
    directive solve loadTerms goal = (do
      let directive ← lift (look (Directive.of · goal))
      (if !directive.isInclusion then change Load.noteDirective else pure () : LoadM Unit)
      carryOut solve loadTerms directive) := by
  refine congrArg (Bind.bind _) (funext fun directive => ?_)
  cases directive <;> rfl

theorem loadTerm_apply (loadTerms : TermSource → LoadM Unit) (t : Ref) (l : Loading) :
    loadTerm solve loadTerms t l = (match TopLevel.of l.machine.store t with
      | .clause t => addClause t
      | .directive goal => directive solve loadTerms goal : LoadM Unit) l :=
  rfl

theorem loadSettling_loadNamed {loadTerms : TermSource → LoadM Unit} {source : TermSource}
    (hload : LoadsTerms n loadTerms) (h : l.machine.Sound) (hn : n ≤ l.machine.store.size)
    (hsource : source.reader.Sound) (name : String) :
    LoadSettling n l (loadNamed loadTerms name source) fun _ _ => True := by
  have hterms : LoadSettling n
      { l with load := { l.load with including := name :: l.load.including } } (loadTerms source)
      fun _ _ => True := hload h hn hsource
  show Ends (loadNamed loadTerms name source l) _ _
  rw [loadNamed_eq]
  rcases hresult : loadTerms source _ with ⟨a, l'⟩ | ⟨e, l'⟩
  · rw [LoadSettling, hresult] at hterms
    exact hterms
  · rw [LoadSettling, hresult] at hterms
    exact hterms

theorem loadSettling_loadIncluded {loadTerms : TermSource → LoadM Unit}
    (hload : LoadsTerms n loadTerms) (h : l.machine.Sound) (hn : n ≤ l.machine.store.size)
    (file : Ref) : LoadSettling n l (loadIncluded loadTerms file) fun _ _ => True := by
  rw [loadIncluded_eq]
  refine (loadSettling_lift (settling_examine (P := fun _ _ => True) h
    fun _ _ => trivial)).bind fun name l₁ hl₁ _ => ?_
  refine (loadSettling_lift (settling_openSource hl₁.sound name)).bind
    fun source l₂ hl₂ hsource => ?_
  refine (loadSettling_current hl₂.sound).bind fun load l₃ hl₃ _ => ?_
  have hn' := hn.trans ((hl₁.trans hl₂).trans hl₃).grows.size_le
  split
  · exact loadSettling_lift (settling_fail hl₃.sound _ _)
  · exact loadSettling_loadNamed hload hl₃.sound hn' hsource name

/-- The term that a directive is about is a part of the goal. -/
theorem reaches_argument (hs : m.store.Acyclic) (goal : Ref) :
    m.store.Reaches goal (Directive.of m.store goal).argument := by
  unfold Directive.of
  split
  · rename_i name arg hview
    have hpart : m.store.Reaches goal arg :=
      (hs.reaches_deref goal).tail (.arg (cell?_deref_of_view_compound hview) (by simp))
    split <;> first | exact hpart | exact .refl
  · exact .refl

theorem loadSettling_carryOut (hsolve : Proper solve) {loadTerms : TermSource → LoadM Unit}
    (hload : LoadsTerms n loadTerms) (h : l.machine.Sound) (hn : n ≤ l.machine.store.size)
    {d : Directive} (hd : d.argument.index < l.machine.store.size) :
    LoadSettling n l (carryOut solve loadTerms d) fun _ _ => True := by
  cases d with
  | declare property predicates => exact loadSettling_declare h property predicates
  | inclusion file => exact loadSettling_loadIncluded hload h hn file
  | ensureLoaded file => exact loadSettling_loadIncluded hload h hn file
  | initialization goal => exact loadSettling_require hsolve h hn hd _
  | goal goal => exact loadSettling_require hsolve h hn hd _

theorem loadSettling_directive (hsolve : Proper solve) {loadTerms : TermSource → LoadM Unit}
    (hload : LoadsTerms n loadTerms) (h : l.machine.Sound) (hn : n ≤ l.machine.store.size)
    (ht : t.index < l.machine.store.size) :
    LoadSettling n l (directive solve loadTerms t) fun _ _ => True := by
  rw [directive_eq]
  refine (loadSettling_lift (settling_look (P := fun d m' => m' = l.machine ∧
    d = Directive.of l.machine.store t) h ⟨rfl, rfl⟩)).bind fun d l₁ hl₁ hd => ?_
  obtain ⟨hmachine, hd⟩ := hd
  have harg : d.argument.index < l.machine.store.size := by
    rw [hd]
    exact h.wellFormed.lt_of_reaches ht (reaches_argument h.wellFormed.acyclic t)
  have hnoted : LoadSettling n l₁
      (if !d.isInclusion then change Load.noteDirective else pure () : LoadM Unit) fun _ _ => True := by
    split
    · exact loadSettling_change hl₁.sound _
    · exact loadSettling_pure hl₁.sound trivial
  refine hnoted.bind fun _ l₂ hl₂ _ => ?_
  have hle := (hl₁.trans hl₂).grows.size_le
  exact loadSettling_carryOut hsolve hload hl₂.sound (hn.trans hle) (Nat.lt_of_lt_of_le harg hle)

/-- The clause or the goal of a directive is a part of the term. -/
theorem reaches_topLevel (hs : m.store.Acyclic)
    (h : TopLevel.of m.store t = .clause u ∨ TopLevel.of m.store t = .directive u) :
    m.store.Reaches t u := by
  unfold TopLevel.of at h
  split at h
  · rename_i name goal hview
    split at h
    · rcases h with h | h <;> cases h
      exact (hs.reaches_deref t).tail (.arg (cell?_deref_of_view_compound hview) (by simp))
    · rcases h with h | h <;> cases h
      exact .refl
  · rcases h with h | h <;> cases h
    exact .refl

/-- **Loading a term** that was waiting. -/
theorem loadSettling_loadTerm (hsolve : Proper solve) {loadTerms : TermSource → LoadM Unit}
    (hload : LoadsTerms n loadTerms) (h : l.machine.Sound) (hn : n ≤ l.machine.store.size)
    (ht : l.machine.store.Detached n t) :
    LoadSettling n l (loadTerm solve loadTerms t) fun _ _ => True := by
  refine (loadSettling_lift (settling_look (P := fun d m' => m' = l.machine ∧
    d = TopLevel.of l.machine.store t) h ⟨rfl, rfl⟩)).bind fun d l₁ hl₁ hd => ?_
  obtain ⟨hmachine, rfl⟩ := hd
  split
  · rename_i u hu
    have hpart := ht.of_reaches h.wellFormed (reaches_topLevel h.wellFormed.acyclic (.inl hu))
    exact loadSettling_addClause hl₁.sound (hl₁.detached h hpart)
  · rename_i goal hgoal
    have hpart := h.wellFormed.lt_of_reaches ht.lt
      (reaches_topLevel h.wellFormed.acyclic (.inr hgoal))
    have hle := hl₁.grows.size_le
    exact loadSettling_directive hsolve hload hl₁.sound (hn.trans hle)
      (Nat.lt_of_lt_of_le hpart hle)

/-- Loading the terms of an expansion one after the other. -/
theorem loadSettling_forM {one : Ref → LoadM Unit}
    (hone : ∀ {l t}, l.machine.Sound → n ≤ l.machine.store.size → l.machine.store.Detached n t →
      LoadSettling n l (one t) fun _ _ => True)
    (h : l.machine.Sound) (hn : n ≤ l.machine.store.size) (hts : Waiting n ts l.machine) :
    LoadSettling n l (ts.forM one) fun _ _ => True := by
  have hstep : ∀ t ∈ ts, ∀ l', Settles n l.machine l'.machine →
      Ends (one t l') (fun _ l'' => Settles n l.machine l''.machine) fun l'' =>
        Settles n l.machine l''.machine := by
    intro t ht l' hl'
    refine (hone hl'.sound (hn.trans hl'.grows.size_le) (hl'.detached h (hts t ht))).imp
      (fun _ _ hl'' => hl'.trans hl''.1) fun _ hl'' => hl'.trans hl''
  exact (Ends.forM hstep (.refl h n)).imp (fun _ _ h => ⟨h, trivial⟩) fun _ => id

theorem loadSettling_loadEach (hsolve : Proper solve) {one : Ref → LoadM Unit}
    (hone : ∀ {l t}, l.machine.Sound → n ≤ l.machine.store.size → l.machine.store.Detached n t →
      LoadSettling n l (one t) fun _ _ => True) (k : Nat) {source : TermSource}
    (h : l.machine.Sound) (hn : n ≤ l.machine.store.size) (hsource : source.reader.Sound) :
    LoadSettling n l (loadEach solve one k source) fun _ _ => True := by
  induction k generalizing l source with
  | zero => exact Settles.refl h n
  | succ k ih =>
    refine (loadSettling_lift (settling_poll h)).bind fun _ l₁ hl₁ _ => ?_
    have hn₁ := hn.trans hl₁.grows.size_le
    refine (loadSettling_lift (settling_nextTerm hl₁.sound hn₁ hsource)).bind
      fun next l₂ hl₂ hnext => ?_
    have hn₂ := hn₁.trans hl₂.grows.size_le
    split
    · exact loadSettling_pure hl₂.sound trivial
    · rename_i t source'
      obtain ⟨ht, hsource'⟩ := hnext t source' rfl
      refine (loadSettling_lift (settling_expand hsolve hl₂.sound hn₂ ht)).bind
        fun terms l₃ hl₃ hterms => ?_
      have hn₃ := hn₂.trans hl₃.grows.size_le
      refine (loadSettling_forM hone hl₃.sound hn₃ hterms).bind fun _ l₄ hl₄ _ => ?_
      exact ih hl₄.sound (hn₃.trans hl₄.grows.size_le) hsource'

/-- **Loading a source settles the machine**, however deep sources are included. -/
theorem loadsTerms_loadSource (hsolve : Proper solve) (n depth : Nat) :
    LoadsTerms n (loadSource solve depth) := by
  induction depth with
  | zero => exact fun h _ _ => Settles.refl h n
  | succ depth ih =>
    intro l source h hn hsource
    exact loadSettling_loadEach hsolve (fun h hn ht => loadSettling_loadTerm hsolve ih h hn ht) _ h
      hn hsource

end Loading

namespace Machine

variable {m : Machine} {n : Nat} {solve : Ref → MachineM Bool}

theorem settling_load (hsolve : Proper solve) (h : m.Sound) (hn : n ≤ m.store.size)
    {source : TermSource} (hsource : source.reader.Sound) :
    Settling n m (load solve source) fun _ _ => True := by
  have hsame : Settles n m (m.beginLoad source).machine := (Settles.refl h n).congr rfl rfl
  have hload := Loading.loadsTerms_loadSource hsolve n (m.sources.length + 2)
    (l := m.beginLoad source) hsame.sound hn hsource
  exact ends_load (Q := fun m' => Settles n m m' ∧ True)
    (hload.imp (fun _ _ h => ⟨hsame.trans h.1, trivial⟩) fun _ h => hsame.trans h)

/-- An action under another context. -/
theorem settling_under {α : Type} (h : m.Sound) (c : Context) {action : MachineM α}
    (haction : ∀ {m' : Machine}, m'.Sound → m'.store = m.store →
      Settling n m' action fun _ _ => True) :
    Settling n m (under c action) fun _ _ => True := by
  have hsame : Settles n m { m with context := c } := (Settles.refl h n).congr rfl rfl
  have hinner := haction hsame.sound rfl
  show Ends (under c action m) _ _
  rw [under_eq]
  rcases hresult : action { m with context := c } with ⟨a, m'⟩ | ⟨e, m'⟩
  · rw [Settling, hresult] at hinner
    exact ⟨(hsame.trans hinner.1).congr rfl rfl, trivial⟩
  · rw [Settling, hresult] at hinner
    exact (hsame.trans hinner).congr rfl rfl

/-- **Compiling a text settles the machine.** -/
theorem settling_compile (hsolve : Proper solve) (h : m.Sound) (hn : n ≤ m.store.size)
    (c : Context) (text : String) {args : List Term} (hargs : ∀ a ∈ args, a.WellMade) :
    Settling n m (compile solve c text args) fun _ _ => True := by
  refine settling_under h c fun h' hstore => settling_get ?_
  refine settling_load hsolve h' (hstore ▸ hn) (TermReader.sound_ofInput _ _ fun ts hts => ?_)
  split at hts
  · cases hts
  · cases hts
    exact hargs

/-- **Consulting files settles the machine.** -/
theorem settling_consult (hsolve : Proper solve) (h : m.Sound) (hn : n ≤ m.store.size)
    (c : Context) (files : Ref) : Settling n m (consult solve c files) fun _ _ => True := by
  refine (settling_examine (P := fun _ m' => m' = m) h fun _ _ => rfl).bind
    fun names m₁ hm₁ heq => ?_
  subst heq
  refine settling_under h c fun {m'} h' hstore => ?_
  have hone : ∀ name ∈ names, ∀ m'', Settles n m' m'' →
      Ends ((do poll; load solve (← openSource name) : MachineM Unit) m'')
        (fun _ m₃ => Settles n m' m₃) fun m₃ => Settles n m' m₃ := by
    intro name _ m'' hm''
    have hstep : Settling n m'' (do poll; load solve (← openSource name) : MachineM Unit)
        fun _ _ => True :=
      (settling_poll hm''.sound).bind fun _ m₃ hm₃ _ =>
        (settling_openSource hm₃.sound name).bind fun source m₄ hm₄ hsource =>
          settling_load hsolve hm₄.sound (hn.trans (hstore ▸
            ((hm''.trans hm₃).trans hm₄).grows.size_le)) hsource
    exact hstep.imp (fun _ _ hm₃ => hm''.trans hm₃.1) fun _ hm₃ => hm''.trans hm₃
  exact (Ends.forM hone (.refl h' n)).imp (fun _ _ h => ⟨h, trivial⟩) fun _ => id

end Machine

end Clausal
