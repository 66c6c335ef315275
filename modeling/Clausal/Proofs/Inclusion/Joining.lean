import Clausal.Proofs.Inclusion.Sources
import Clausal.Proofs.Machine.Searching

/-! # Loading texts one after the other

If every term of a text is complete, then to load it together with what stands on the lines after it
is to load the one and then the other (`unplaced_loadEach_append`).  Only the places that errors of
reading name differ.
-/

namespace Clausal

/-- The error without its place. -/
def Error.unplaced : Error → Error
  | unreadable e => unreadable e.unplaced
  | e => e

theorem Error.unplaced_ofRead {e e' : ReadError} (h : e'.unplaced = e.unplaced) :
    (Error.ofRead e').unplaced = (Error.ofRead e).unplaced := by
  cases e <;> cases e' <;> first | exact congrArg unreadable h | cases h <;> rfl

/-- The same for whatever makes an action stop. -/
def Stop.unplaced : Stop → Stop
  | .error e => .error e.unplaced
  | .outOfFuel => .outOfFuel

/-- The result of an action, its error without its place. -/
def unplaced {σ α : Type} : EStateM.Result Stop σ α → EStateM.Result Stop σ α
  | .ok a st => .ok a st
  | .error e st => .error e.unplaced st

theorem eq_ok_of_unplaced {σ α : Type} {r : EStateM.Result Stop σ α} {a : α} {st : σ}
    (h : unplaced r = unplaced (.ok a st)) : r = .ok a st := by
  rcases r with ⟨a', st'⟩ | ⟨e, st'⟩
  · exact h
  · cases h

theorem eq_error_of_unplaced {σ α : Type} {r : EStateM.Result Stop σ α} {e : Stop} {st : σ}
    (h : unplaced r = unplaced (.error e st)) :
    ∃ e', r = .error e' st ∧ e'.unplaced = e.unplaced := by
  rcases r with ⟨a', st'⟩ | ⟨e', st'⟩
  · cases h
  · obtain ⟨he, rfl⟩ : e'.unplaced = e.unplaced ∧ st' = st := by simpa [unplaced] using h
    exact ⟨e', rfl, he⟩

theorem unplaced_bind {σ α β : Type} {m m' : EStateM Stop σ α} {f f' : α → EStateM Stop σ β} {st : σ}
    (h : unplaced (m st) = unplaced (m' st))
    (hf : ∀ a st', m st = .ok a st' → unplaced (f a st') = unplaced (f' a st')) :
    unplaced ((m >>= f) st) = unplaced ((m' >>= f') st) := by
  show unplaced (EStateM.bind m f st) = unplaced (EStateM.bind m' f' st)
  rw [EStateM.bind, EStateM.bind]
  rcases hm : m st with ⟨a, s⟩ | ⟨e, s⟩ <;> rcases hm' : m' st with ⟨a', s'⟩ | ⟨e', s'⟩ <;>
    rw [hm, hm'] at h
  · cases h
    exact hf a s hm
  · cases h
  · cases h
  · obtain ⟨he, rfl⟩ : e.unplaced = e'.unplaced ∧ s = s' := by simpa [unplaced] using h
    exact congrArg (EStateM.Result.error · s) he

/-- The machines read their sources, open them and expand terms in the same way. -/
structure Machine.SameSettings (m m' : Machine) : Prop where
  /-- The operators. -/
  operators : m'.operators = m.operators
  /-- How double-quoted text is read. -/
  doubleQuotes : m'.doubleQuotes = m.doubleQuotes
  /-- The sources. -/
  sources : m'.sources = m.sources
  /-- What is done with terms before they are loaded. -/
  expansion : m'.expansion = m.expansion

theorem Machine.SameSettings.trans {m m' m'' : Machine} (h : m.SameSettings m')
    (h' : m'.SameSettings m'') : m.SameSettings m'' :=
  ⟨h'.operators.trans h.operators, h'.doubleQuotes.trans h.doubleQuotes,
    h'.sources.trans h.sources, h'.expansion.trans h.expansion⟩

/-! ## Complete terms -/

theorem ReadError.isCut_congr {e e' : ReadError} (h : e'.unplaced = e.unplaced) :
    e'.isCut = e.isCut := by
  cases e <;> cases e' <;> first | rfl | cases h

/-- Any store is the empty one with cells put in. -/
theorem Store.shifted_empty (s : Store) : Shifted ⟨0, s.size⟩ {} s where
  le := Nat.le_refl _
  size := (Nat.zero_add _).symm
  cell _ := cell?_eq_none (Nat.le_add_left _ _)

namespace TermSource

variable {ops : OperatorTable} {source source' rest : TermSource} {quotes : DoubleQuotes}
  {s s' : Store}

/-- Every term of the source, up to one that does not read as a term, is closed by its full stop, and
so is every comment. -/
inductive Complete (ops : OperatorTable) : TermSource → Prop
  | intro {source : TermSource}
    (closed : ∀ e source' s, source.next? ops {} = (.error e, source', s) → e.isCut = false)
    (rest : ∀ t source' s, source.next? ops {} = (.ok (some t), source', s) →
      Complete ops source') : Complete ops source

/-- Reads the terms of a source, so many at most, to see whether they are complete. -/
def isComplete (ops : OperatorTable) : Nat → TermSource → Bool
  | 0, _ => false
  | n + 1, source => match source.next? ops {} with
    | (.ok (some _), source, _) => source.isComplete ops n
    | (.ok none, _, _) => true
    | (.error e, _, _) => !e.isCut

theorem complete_of_isComplete {n : Nat} (h : source.isComplete ops n = true) :
    source.Complete ops := by
  induction n generalizing source with
  | zero => cases h
  | succ n ih =>
    rw [isComplete] at h
    refine ⟨fun e r s hnext => ?_, fun t r s hnext => ih ?_⟩
    · rw [hnext] at h
      exact Bool.not_eq_true' _ ▸ h
    · rw [hnext] at h
      exact h

/-- What a source gives in any store is what it gives in the empty one. -/
theorem sameNext_empty (ops : OperatorTable) (h : source.Begins [] quotes source') (s : Store) :
    SameNext (Begins [] quotes) [] ⟨0, s.size⟩ (Store.Shifted ⟨0, s.size⟩) (source.next? ops {})
      (source'.next? ops s) :=
  sameNext_next? ops Input.nextLine_nil h s.shifted_empty

theorem next?_eq_error (h : source.Begins [] quotes source') {e' : ReadError}
    (hnext : source'.next? ops s = (.error e', rest, s')) :
    ∃ e r s₀, source.next? ops {} = (.error e, r, s₀) ∧ e'.unplaced = e.unplaced := by
  have hsame := sameNext_empty ops h s
  rw [hnext] at hsame
  generalize source.next? ops {} = x at hsame
  cases hsame with
  | goesOn hne => exact absurd rfl hne
  | fails he => exact ⟨_, _, _, rfl, he⟩
  | cut hne => exact absurd rfl hne

theorem next?_eq_some (h : source.Begins [] quotes source') {t' : Ref}
    (hnext : source'.next? ops s = (.ok (some t'), rest, s')) :
    ∃ t r s₀, source.next? ops {} = (.ok (some t), r, s₀) ∧ r.Begins [] quotes rest := by
  have hsame := sameNext_empty ops h s
  rw [hnext] at hsame
  generalize source.next? ops {} = x at hsame
  cases hsame with
  | term hbegins => exact ⟨_, _, _, rfl, hbegins⟩
  | goesOn hne => exact absurd rfl hne
  | cut hne => exact absurd rfl hne

theorem next?_eq_none (h : source.Begins [] quotes source') (hend : (source.next? ops {}).1 = .ok none)
    (s : Store) : (source'.next? ops s).1 = .ok none := by
  have hsame := sameNext_empty ops h s
  generalize source.next? ops {} = x at hsame hend
  generalize source'.next? ops s = x' at hsame ⊢
  cases hsame with
  | ends => rfl
  | goesOn hne => exact absurd rfl hne
  | term | fails | cut => cases hend

/-- An error in complete terms is not that they end too early. -/
theorem Complete.closed (hcomplete : source.Complete ops) (h : source.Begins [] quotes source')
    {e' : ReadError} (hnext : source'.next? ops s = (.error e', rest, s')) : e'.isCut = false := by
  obtain ⟨hclosed, -⟩ := hcomplete
  obtain ⟨e, r, s₀, hfirst, he⟩ := next?_eq_error h hnext
  exact (ReadError.isCut_congr he).trans (hclosed e r s₀ hfirst)

/-- Places do not matter. -/
theorem Complete.congr (hcomplete : source.Complete ops) (h : source.Begins [] quotes source') :
    source'.Complete ops := by
  -- By induction on the terms that are left to be read.
  induction hcomplete generalizing source' with
  | @intro source hclosed hrest ih =>
    refine ⟨fun e r s hnext => ?_, fun t r s hnext => ?_⟩
    · exact Complete.closed ⟨hclosed, hrest⟩ h hnext
    · obtain ⟨t₀, r₀, s₀, hfirst, hbegins⟩ := next?_eq_some h hnext
      exact ih t₀ r₀ s₀ hfirst hbegins

/-- What follows a term, in whatever store it was read, is complete. -/
theorem Complete.next (hcomplete : source.Complete ops) (h : source.Begins [] quotes source')
    {t' : Ref} (hnext : source'.next? ops s = (.ok (some t'), rest, s')) : rest.Complete ops := by
  obtain ⟨-, hrest⟩ := hcomplete
  obtain ⟨t, r, s₀, hfirst, hbegins⟩ := next?_eq_some h hnext
  exact (hrest t r s₀ hfirst).congr hbegins

end TermSource

theorem TermReader.Begins.sound {quotes : DoubleQuotes} {r r' : TermReader}
    (h : r.Begins [] quotes r') : r.Sound where
  ahead token htoken := by
    rw [h.ahead.1] at htoken
    cases htoken
  placeholders args hargs := by
    rw [h.placeholders.1] at hargs
    cases hargs

namespace Loading

open Machine

variable {α : Type} {solve : Ref → MachineM Bool} {one : Ref → LoadM Unit} {l : Loading}
  {source source' q : TermSource} {more rest : Input} {quotes : DoubleQuotes}

/-- The machine with another store. -/
def withStore (l : Loading) (s : Store) : Loading := { l with machine := { l.machine with store := s } }

/-- Loads a term that was read. -/
def loadRead (solve : Ref → MachineM Bool) (one : Ref → LoadM Unit) (t : Ref) : LoadM Unit := do
  let terms ← lift (expand solve t)
  terms.forM one

/-- Terms that are loaded leave the machine sound and its settings as they are. -/
def Steady (solve : Ref → MachineM Bool) (one : Ref → LoadM Unit) : Prop :=
  ∀ ⦃l t u l'⦄, l.machine.Sound → l.machine.store.Detached 0 t → loadRead solve one t l = .ok u l' →
    l'.machine.Sound ∧ l.machine.SameSettings l'.machine

/-- Loads what was read of a source, and then what remains of it. -/
def loadNext (solve : Ref → MachineM Bool) (one : Ref → LoadM Unit) (done : LoadM Unit)
    (loadRest : TermSource → LoadM Unit) : Option (Ref × TermSource) → LoadM Unit
  | none => done
  | some (t, source) => do
    loadRead solve one t
    loadRest source

theorem loadEach_succ (n : Nat) (source : TermSource) :
    loadEach solve one (n + 1) source = (do
      lift poll
      let next ← lift (nextTerm source)
      loadNext solve one (pure ()) (loadEach solve one n) next) := by
  rw [loadEach]
  refine congrArg (bind (lift poll)) (funext fun _ => congrArg (bind _) (funext fun next => ?_))
  rcases next with _ | ⟨t, source⟩
  · rfl
  · simp only [loadNext, loadRead, bind_assoc]

theorem loadNext_bind (done : LoadM Unit) (loadRest : TermSource → LoadM Unit)
    (next : Option (Ref × TermSource)) (after : LoadM Unit) :
    (do loadNext solve one done loadRest next; after) =
      loadNext solve one (do done; after) (fun source => do loadRest source; after) next := by
  rcases next with _ | ⟨t, source⟩
  · rfl
  · simp only [loadNext, bind_assoc]

theorem lift_poll_eq_ok {u : Unit} {l l' : Loading} (h : lift poll l = .ok u l') : l' = l := by
  have hpoll := Search.ends_poll l.machine
  rw [lift] at h
  rcases hm : poll l.machine with ⟨_, m⟩ | ⟨e, m⟩ <;> rw [hm] at h hpoll <;> cases h
  rw [show m = l.machine from hpoll]

theorem lift_nextTerm (source : TermSource) (l : Loading) :
    lift (nextTerm source) l = match source.next? l.machine.operators l.machine.store with
      | (.ok t, source, s) => .ok (t.map (·, source)) (l.withStore s)
      | (.error e, _, s) => .error (.error (.ofRead e)) (l.withStore s) := by
  obtain ⟨m, load⟩ := l
  rw [lift, nextTerm_eq]
  rcases source.next? m.operators m.store with ⟨e | t, source, s⟩ <;> rfl

/-- What reading leaves behind. -/
theorem sound_of_next? (hl : l.machine.Sound) (hsource : source.reader.Sound) {t : Ref} {r : TermSource}
    {s : Store} (hnext : source.next? l.machine.operators l.machine.store = (.ok (some t), r, s)) :
    (l.withStore s).machine.Sound ∧ s.Detached 0 t := by
  have hsettles := loadSettling_lift (settling_nextTerm hl (Nat.zero_le _) hsource)
  have hread := lift_nextTerm source l
  rw [hnext] at hread
  obtain ⟨hs, ht⟩ := hsettles.of_ok hread
  exact ⟨hs.sound, (ht t r rfl).1⟩

/-- Sources that give the same next term are loaded alike if their remainders are. -/
theorem unplaced_next {done : LoadM Unit} {loadRest loadRest' : TermSource → LoadM Unit}
    {begins : TermSource → TermSource → Prop} (hsteady : Steady solve one) (hl : l.machine.Sound)
    (hsource : source.reader.Sound)
    (hnext : SameNext begins more .empty (Store.Wider .empty) (source.next? l.machine.operators l.machine.store)
      (source'.next? l.machine.operators l.machine.store))
    (hdone : (source.next? l.machine.operators l.machine.store).1 = .ok none →
      more = [] ∧ done = pure ())
    (hcut : ∀ e, (source.next? l.machine.operators l.machine.store).1 = .error e →
      more = [] ∨ e.isCut = false)
    (hrest : ∀ t r r' s l', source.next? l.machine.operators l.machine.store = (.ok (some t), r, s) →
      source'.next? l.machine.operators l.machine.store = (.ok (some t), r', s) → begins r r' →
      l'.machine.Sound → l.machine.SameSettings l'.machine →
      unplaced (loadRest r l') = unplaced (loadRest' r' l')) :
    unplaced ((lift (nextTerm source) >>= loadNext solve one done loadRest) l) =
      unplaced ((lift (nextTerm source') >>= loadNext solve one (pure ()) loadRest') l) := by
  show unplaced (EStateM.bind _ _ l) = unplaced (EStateM.bind _ _ l)
  rw [EStateM.bind, EStateM.bind, lift_nextTerm, lift_nextTerm]
  -- Whatever is read is new, so that loading it leaves the machine sound.
  have hsound := fun t r s => sound_of_next? (t := t) (r := r) (s := s) hl hsource
  generalize hx : source.next? l.machine.operators l.machine.store = x at hnext hdone hcut hrest hsound
  generalize hx' : source'.next? l.machine.operators l.machine.store = x' at hnext hrest
  cases hnext with
  | @term t r r' s s' hbegins hs =>
    obtain rfl := hs.eq_of_empty
    obtain ⟨hread, ht⟩ := hsound t r s' rfl
    refine unplaced_bind rfl fun u l₂ h₂ => ?_
    obtain ⟨hl₂, hsettings⟩ := hsteady hread ht h₂
    have hstore : l.machine.SameSettings (l.withStore s').machine := ⟨rfl, rfl, rfl, rfl⟩
    exact hrest t r r' _ l₂ rfl rfl hbegins hl₂ (hstore.trans hsettings)
  | ends hnil hs =>
    obtain rfl := hs.eq_of_empty
    show unplaced (done _) = unplaced ((pure () : LoadM Unit) _)
    rw [(hdone rfl).2]
  | goesOn hne => exact absurd (hdone rfl).1 hne
  | fails he hs =>
    obtain rfl := hs.eq_of_empty
    exact congrArg (fun e => EStateM.Result.error (Stop.error e) _) (Error.unplaced_ofRead he).symm
  | cut hne he =>
    rcases hcut _ rfl with hnil | hclosed
    · exact absurd hnil hne
    · rw [he] at hclosed
      cases hclosed

/-- Neither the places of the terms nor the bound on their number matter, if the bound is not
reached. -/
theorem unplaced_loadEach (hsteady : Steady solve one) {n n' : Nat} (hl : l.machine.Sound)
    (h : source.Begins [] quotes source')
    (hn : source.reader.lexer.input.length < n) (hn' : source'.reader.lexer.input.length < n') :
    unplaced (loadEach solve one n source l) = unplaced (loadEach solve one n' source' l) := by
  induction n generalizing n' source source' l with
  | zero => omega
  | succ n ih =>
    obtain ⟨n', rfl⟩ := Nat.exists_eq_add_of_lt (Nat.zero_lt_of_lt hn')
    rw [Nat.zero_add] at hn' ⊢
    rw [loadEach_succ, loadEach_succ]
    refine unplaced_bind rfl fun u l₁ hpoll => ?_
    obtain rfl := lift_poll_eq_ok hpoll
    refine unplaced_next hsteady hl h.reader.sound
      (TermSource.sameNext_next? _ Input.nextLine_nil h (.refl _))
      (fun _ => ⟨rfl, rfl⟩) (fun _ _ => .inl rfl) fun t r r' s l₂ hnext hnext' hr hl₂ _ => ?_
    have hlt := TermSource.length_next?_lt _ h.reader.self hnext
    have hlt' := TermSource.length_next?_lt _ h.reader.other hnext'
    exact ih hl₂ hr (by omega) (by omega)

/-- **Two texts, one after the other.**  The first has complete terms only. -/
theorem unplaced_loadEach_append (hsteady : Steady solve one) {n n' k : Nat} (hl : l.machine.Sound)
    (hcomplete : source.Complete l.machine.operators)
    (h : source.Begins (.char '\n' :: rest) quotes source') (hq : q.reader.lexer.input = rest)
    (hstarted : q.atStart = false) (hqself : q.reader.Begins [] quotes q.reader)
    (hn : source.reader.lexer.input.length < n) (hn' : source'.reader.lexer.input.length < n')
    (hk : rest.length < k) :
    unplaced ((do loadEach solve one n source; loadEach solve one k q) l) =
      unplaced (loadEach solve one n' source' l) := by
  induction n generalizing n' source source' l with
  | zero => omega
  | succ n ih =>
    obtain ⟨n', rfl⟩ := Nat.exists_eq_add_of_lt (Nat.zero_lt_of_lt hn')
    obtain ⟨k', rfl⟩ := Nat.exists_eq_add_of_lt (Nat.zero_lt_of_lt hk)
    simp only [Nat.zero_add] at hn' hk ih ⊢
    rw [loadEach_succ, loadEach_succ n', bind_assoc]
    refine unplaced_bind rfl fun u l₁ hpoll => ?_
    obtain rfl := lift_poll_eq_ok hpoll
    simp only [bind_assoc, loadNext_bind, pure_bind]
    -- Where the first text ends, the joined text goes on with the second one.
    by_cases hend : (source.next? l₁.machine.operators l₁.machine.store).1 = .ok none
    · have hstore := TermSource.store_of_next?_none _ hend
      have hdone : (lift (nextTerm source) >>= loadNext solve one (loadEach solve one (k' + 1) q)
          fun source => do loadEach solve one n source; loadEach solve one (k' + 1) q) l₁ =
          loadEach solve one (k' + 1) q l₁ := by
        show EStateM.bind _ _ l₁ = _
        rw [EStateM.bind, lift_nextTerm]
        rcases hx : source.next? l₁.machine.operators l₁.machine.store with ⟨e | _ | t, r, s⟩ <;>
          rw [hx] at hend hstore <;> cases hend
        obtain rfl : s = l₁.machine.store := hstore
        rfl
      rw [hdone, loadEach_succ]
      show unplaced (EStateM.bind _ _ l₁) = _
      rw [EStateM.bind, hpoll]
      refine unplaced_next hsteady hl hqself.sound
        (TermSource.sameNext_beyond _ hend h hq hstarted hqself.ahead.1 hqself.placeholders.1
          hqself.doubleQuotes.1 (.refl _))
        (fun _ => ⟨rfl, rfl⟩) (fun _ _ => .inl rfl) fun t r r' s l₂ hnext hnext' hr hl₂ _ => ?_
      have hlt := TermSource.length_next?_lt _ hqself hnext
      have hlt' := TermSource.length_next?_lt _ h.reader.other hnext'
      rw [hq] at hlt
      exact unplaced_loadEach hsteady hl₂ hr (by omega) (by omega)
    -- Before that both give the same term, since none of the first text is cut off.
    · have hself : source.Begins [] quotes source := ⟨h.reader.self, rfl⟩
      refine unplaced_next hsteady hl h.reader.self.sound
        (TermSource.sameNext_next? _ (.inr ⟨rest, rfl⟩) h (.refl _)) (fun hnone => absurd hnone hend)
        (fun e he => .inr ?_) fun t r r' s l₂ hnext hnext' hr hl₂ hsettings => ?_
      · rcases hx : source.next? l₁.machine.operators l₁.machine.store with ⟨x, r, s⟩
        rw [hx] at he
        cases he
        exact hcomplete.closed hself hx
      · have hlt := TermSource.length_next?_lt _ h.reader.self hnext
        have hlt' := TermSource.length_next?_lt _ h.reader.other hnext'
        have hrest := hcomplete.next hself hnext
        rw [← hsettings.operators] at hrest
        exact ih hl₂ hrest hr (by omega) (by omega)

end Loading

end Clausal
