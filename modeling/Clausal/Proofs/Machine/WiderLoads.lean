import Clausal.Proofs.Machine.Loading
import Clausal.Proofs.Machine.Widening

/-! # Loads in wider stores

A load does the same in a machine whose store has cells put in (`Loading.loadsWide_loadSource`), if the
goals of the program are proved in the same way.  The places of the terms that it reads do not matter
either, so errors of reading correspond up to their places.
-/

namespace Clausal

namespace Loading

open Machine

variable {α β γ δ : Type} {gap : Gap} {base : Machine} {l l' : Loading} {φ : α → β} {ψ : γ → δ}
  {t : Ref} {solve solve' : Ref → MachineM Bool}

/-- The machines correspond, and the loads are the same. -/
structure Wider (gap : Gap) (base : Machine) (l l' : Loading) : Prop where
  /-- The machines. -/
  machine : Machine.Wider gap base l.machine l'.machine
  /-- The loads. -/
  load : l'.load = l.load

/-- How a load corresponds to one in a wider store. -/
def widening (gap : Gap) (base : Machine) : Correspondence Stop Loading where
  errors e e' := e'.unplaced = (gap.stop e).unplaced
  states := Wider gap base
  failed l l' := Machine.Wider gap base l.machine l'.machine

/-- The results correspond, with places shifted in the values by `φ`. -/
def Results (gap : Gap) (base : Machine) {α β : Type} (φ : α → β) (r : EStateM.Result Stop Loading α)
    (r' : EStateM.Result Stop Loading β) : Prop :=
  (widening gap base).Matches (fun a a' => a' = φ a) r r'

theorem Results.bind {action : LoadM α} {action' : LoadM β} {f : α → LoadM γ} {f' : β → LoadM δ}
    {P : α → Loading → Prop} {E : Loading → Prop}
    (h : Results gap base φ (action l) (action' l')) (hends : Ends (action l) P E)
    (hf : ∀ a s s', P a s → Wider gap base s s' → Results gap base ψ (f a s) (f' (φ a) s')) :
    Results gap base ψ ((action >>= f) l) ((action' >>= f') l') :=
  Correspondence.Matches.bind h fun a _ s s' hs _ heq hst => heq ▸ hf a s s' (hends.of_ok hs) hst

/-- The same, where nothing needs to be known of the first result. -/
theorem Results.then {action : LoadM α} {action' : LoadM β} {f : α → LoadM γ} {f' : β → LoadM δ}
    (h : Results gap base φ (action l) (action' l'))
    (hf : ∀ a s s', Wider gap base s s' → Results gap base ψ (f a s) (f' (φ a) s')) :
    Results gap base ψ ((action >>= f) l) ((action' >>= f') l') :=
  Correspondence.Matches.bind h fun a _ s s' _ _ heq hst => heq ▸ hf a s s' hst

theorem ends_lift {action : MachineM α} {P : α → Machine → Prop} {E : Machine → Prop}
    (h : Ends (action l.machine) P E) :
    Ends (lift action l) (fun a l' => P a l'.machine) fun l' => E l'.machine := by
  obtain ⟨m, load⟩ := l
  rw [lift]
  dsimp only at h ⊢
  rcases haction : action m with ⟨a, m'⟩ | ⟨e, m'⟩ <;> rw [haction] at h <;> exact h

theorem matches_lift {Q : α → β → Prop} (h : Wider gap base l l') {action : MachineM α}
    {action' : MachineM β}
    (haction : (Machine.widening gap base).Matches Q (action l.machine) (action' l'.machine)) :
    (widening gap base).Matches Q (lift action l) (lift action' l') := by
  obtain ⟨m, load⟩ := l
  obtain ⟨m', load'⟩ := l'
  rw [lift, lift]
  dsimp only at haction ⊢
  generalize action m = r at haction
  generalize action' m' = r' at haction
  rcases r with ⟨a, m₁⟩ | ⟨e, m₁⟩ <;> rcases r' with ⟨a', m₁'⟩ | ⟨e', m₁'⟩
  · exact ⟨haction.1, haction.2, h.load⟩
  · exact haction.elim
  · exact haction.elim
  · obtain ⟨he, hst⟩ := haction.resolve_left id
    exact .inr ⟨he, hst⟩

theorem results_lift (h : Wider gap base l l') {action : MachineM α} {action' : MachineM β}
    (haction : Machine.Results gap base φ (action l.machine) (action' l'.machine)) :
    Results gap base φ (lift action l) (lift action' l') :=
  matches_lift h haction

theorem results_current (h : Wider gap base l l') {f f' : Load → LoadM α} {ψ : α → α}
    (hf : Results gap base ψ (f l.load l) (f' l.load l')) :
    Results gap base ψ ((current >>= f) l) ((current >>= f') l') := by
  show Results gap base ψ (f l.load l) (f' l'.load l')
  rw [h.load]
  exact hf

theorem results_change (h : Wider gap base l l') (f : Load → Load) :
    Results gap base id (change f l) (change f l') :=
  ⟨rfl, h.machine, congrArg f h.load⟩

/-! ## Clauses and declarations -/

theorem results_addClause (h : Wider gap base l l') (hs : l.machine.store.Acyclic) (t : Ref) :
    Results gap base id (addClause t l) (addClause (gap.ref t) l') := by
  refine (results_lift h (results_examine h.machine (h.machine.store.compile hs t))).then
    fun c l₁ l₁' h₁ => results_current h₁ ?_
  refine (results_lift (φ := gap.predicate) h₁ (results_onDatabase h₁.machine
    (Database.touch_wide gap _ l₁.load.id c.pi))).then fun p l₂ l₂' h₂ => ?_
  refine (results_lift (φ := id) h₂ (results_ofExcept h₂.machine ?_)).then fun noted l₃ l₃' h₃ =>
    (results_change h₃ fun _ => noted).then fun _ l₄ l₄' h₄ => ?_
  · show l₁.load.noteClause c.pi p.flags = gap.except id (l₁.load.noteClause c.pi p.flags)
    unfold Load.noteClause
    split <;> rfl
  · exact results_lift h₄ (results_changeDatabase h₄.machine
      (Database.append_wide gap _ l₁.load.id c))

theorem results_forM {f f' : α → LoadM PUnit} {g : α → α} {I : Loading → Prop} {as : List α}
    (h : ∀ a ∈ as, ∀ s s', I s → Wider gap base s s' → Results gap base id (f a s) (f' (g a) s'))
    (hI : ∀ a ∈ as, ∀ s u s', I s → f a s = .ok u s' → I s') (hl : I l) (hwide : Wider gap base l l') :
    Results gap base id (as.forM f l) ((as.map g).forM f' l') :=
  Correspondence.Matches.forM (C := widening gap base) (I := I) (g := g) rfl h hI hl hwide

theorem results_declare (h : Wider gap base l l') (hs : l.machine.store.Acyclic)
    (property : Property) (predicates : Ref) :
    Results gap base id (declare property predicates l) (declare property (gap.ref predicates) l') := by
  refine results_current h ?_
  refine (results_lift (φ := id) h (results_examine h.machine (h.machine.store.declared hs _))).then
    fun pis l₁ l₁' h₁ => ?_
  exact Correspondence.Matches.forM_self (I := fun _ => True) rfl
    (fun pi _ s s' _ hst => results_lift hst (results_changeDatabase hst.machine
      (Database.declare_wide gap _ l.load.id property pi))) (fun _ _ _ _ _ _ _ => trivial) trivial h₁

/-! ## Goals of the program -/

/-- Goals are proved in the same way in a wider store. -/
def SolvesWide (gap : Gap) (solve : Ref → MachineM Bool) : Prop :=
  ∀ {base m m' : Machine} {goal : Ref}, Machine.Wider gap base m m' → m.Sound →
    goal.index < m.store.size → Machine.Results gap base id (solve goal m) (solve (gap.ref goal) m')

variable {m m' : Machine}

theorem results_expansionTerms (h : Machine.Wider gap base m m') (hs : m.store.Acyclic) (t : Ref) :
    Machine.Results gap base (List.map gap.ref) (expansionTerms t m)
      (expansionTerms (gap.ref t) m') := by
  unfold expansionTerms
  refine Machine.Results.of_look ?_
  rw [h.store.listShape hs]
  rcases m.store.listShape t with ⟨_ | ⟨item, items⟩, _ | tail | tail⟩
  · exact results_pure h _ rfl
  · exact results_fail h rfl
  · exact results_pure h _ rfl
  · exact results_pure h _ rfl
  · exact results_fail h rfl
  · exact results_fail h (h.store.typeError hs .list t)

theorem widens_expansionGoal {s s' : Store} (h : Store.Wider gap s s') (hs : s.WellFormed)
    (ht : t.index < s.size) :
    Store.Widens (Store.Wider gap) (fun r => (gap.ref r.1, gap.ref r.2)) (expansionGoal t s)
      (expansionGoal (gap.ref t) s') := by
  have hcopy := h.copy hs ht
  have hvar := Store.Shifting.var hcopy.store none
  have happly := Store.Shifting.apply hvar.store "term_expansion" [(s.copy t).1, ((s.copy t).2.var none).1]
  rw [List.map_cons, List.map_cons, List.map_nil, ← hcopy.value, ← hvar.value] at happly
  exact ⟨Prod.ext hvar.value happly.value, happly.store⟩

theorem results_expansion (hproper : Proper solve) (hsolve : SolvesWide gap solve)
    (h : Machine.Wider gap base m m') (hm : m.Sound) (ht : t.index < m.store.size) :
    Machine.Results gap base (Option.map gap.term)
      ((do
        let (expansion, goal) ← onStore (expansionGoal t)
        if ← solve goal then some <$> look (·.snapshot expansion) else pure none :
          MachineM (Option Term)) m)
      ((do
        let (expansion, goal) ← onStore (expansionGoal (gap.ref t))
        if ← solve goal then some <$> look (·.snapshot expansion) else pure none :
          MachineM (Option Term)) m') := by
  have hgoal := evolves_expansionGoal hm ht []
  refine (results_onStore h (widens_expansionGoal h.store hm.wellFormed ht)).bind
    (ends_onStore (Q := fun r m' => Evolves m m' [] [r.1, r.2]) (E := fun _ => True) hgoal)
    fun (expansion, goal) m₁ m₁' hm₁ h₁ => ?_
  have hlt := hm₁.lt goal (by simp)
  refine (hsolve h₁ hm₁.sound hlt).bind (hproper hm₁.sound hlt) fun found m₂ m₂' hm₂ h₂ => ?_
  cases found with
  | true => exact ⟨congrArg some (h₂.store.snapshot hm₂.sound.wellFormed.acyclic expansion), h₂⟩
  | false => exact results_pure h₂ none rfl

theorem results_expandByRules (hproper : Proper solve) (hsolve : SolvesWide gap solve)
    (h : Machine.Wider gap base m m') (hm : m.Sound) (ht : t.index < m.store.size) :
    Machine.Results gap base (List.map gap.ref) (expandByRules solve t m)
      (expandByRules solve (gap.ref t) m') := by
  have hself : Machine.Results gap base (List.map gap.ref) ((pure [t] : MachineM (List Ref)) m)
      ((pure [gap.ref t] : MachineM (List Ref)) m') := results_pure h [t] rfl
  unfold expandByRules
  refine Machine.Results.of_get ?_
  rw [h.database, Database.find?_wide]
  rcases m.database.find? ⟨"term_expansion", 2⟩ with _ | ⟨b | p⟩
  · exact hself
  · exact hself
  · have hempty : (gap.predicate p).clauses.isEmpty = p.clauses.isEmpty := by
      simp [Gap.predicate]
    dsimp only [Option.map_some, Gap.procedure]
    rw [hempty]
    cases p.clauses.isEmpty with
    | true => exact hself
    | false =>
      rw [if_neg Bool.false_ne_true, if_neg Bool.false_ne_true]
      refine (results_undoing h (results_expansion hproper hsolve h hm ht)).bind
        (settling_undoing (Nat.zero_le _) (evolves_expansion hproper hm ht))
        fun result m₁ m₁' hm₁ h₁ => ?_
      obtain ⟨hsettles, hresult⟩ := hm₁
      rcases result with _ | x
      · exact results_pure h₁ [t] rfl
      · have hbuild := (Store.Adds.refl hsettles.sound.wellFormed).build (hresult x rfl)
        exact (results_onStore h₁ (h₁.store.build gap.place_injective x)).bind
          (ends_onStore (Q := fun _ m => m.store.Acyclic) (E := fun _ => True)
            hbuild.adds.wellFormed.acyclic)
          fun u m₂ m₂' hs h₂ => results_expansionTerms h₂ hs u

theorem results_expand (hproper : Proper solve) (hsolve : SolvesWide gap solve)
    (h : Machine.Wider gap base m m') (hm : m.Sound) (ht : t.index < m.store.size) :
    Machine.Results gap base (List.map gap.ref) (expand solve t m) (expand solve (gap.ref t) m') := by
  have hexpansion : m'.expansion = m.expansion := h.expansion.2.trans h.expansion.1.symm
  unfold expand
  refine Machine.Results.of_get ?_
  rw [hexpansion]
  cases m.expansion with
  | byRules => exact results_expandByRules hproper hsolve h hm ht
  | wrapped =>
    have happly := Store.Shifting.apply h.store "wrapped" [t]
    exact ⟨congrArg (fun u => [u]) happly.value, h.withStore happly.store⟩
  | doubled => exact results_pure h [t, t] rfl
  | dropped => exact results_pure h [] rfl
  | thrown =>
    exact results_fail h (congrArg Error.thrown (h.store.snapshot hm.wellFormed.acyclic t))

/-! ## Directives -/

/-- The terms of two sources that read alike are loaded in the same way. -/
def LoadsWide (gap : Gap) (loadTerms : TermSource → LoadM Unit) : Prop :=
  ∀ {base : Machine} {l l' : Loading} {source source' : TermSource}, Wider gap base l l' →
    l.machine.Sound → source.Begins [] base.doubleQuotes source' →
    Results gap base id (loadTerms source l) (loadTerms source' l')

theorem begins_source (m : Machine) (name : String) (input : Input) :
    (m.source name input none).Begins [] m.doubleQuotes (m.source name input none) :=
  ⟨⟨(List.append_nil _).symm, ⟨rfl, rfl⟩, ⟨rfl, rfl⟩, ⟨rfl, rfl⟩⟩, rfl⟩

theorem ends_openSource (m : Machine) (name : String) :
    Ends (openSource name m) (fun source m' => m' = m ∧ ∃ input,
      m.sources.lookup name = some (.readable input) ∧ source = m.source name input none)
      fun m' => m' = m := by
  rw [openSource_eq]
  rcases m.sources.lookup name with _ | ⟨input | message⟩
  · exact rfl
  · exact ⟨rfl, input, rfl, rfl⟩
  · exact rfl

theorem results_leave {l l' : Loading} (h : Wider gap base l l') :
    Wider gap base { l with load := { l.load with including := l.load.including.tail } }
      { l' with load := { l'.load with including := l'.load.including.tail } } :=
  ⟨h.machine, by rw [h.load]⟩

theorem results_loadNamed {loadTerms : TermSource → LoadM Unit} (hload : LoadsWide gap loadTerms)
    (h : Wider gap base l l') (hl : l.machine.Sound) (name : String) {source source' : TermSource}
    (hsource : source.Begins [] base.doubleQuotes source') :
    Results gap base id (loadNamed loadTerms name source l)
      (loadNamed loadTerms name source' l') := by
  have hnamed : Wider gap base
      { l with load := { l.load with including := name :: l.load.including } }
      { l' with load := { l'.load with including := name :: l'.load.including } } :=
    ⟨h.machine, by rw [h.load]⟩
  have hterms := hload hnamed hl hsource
  rw [loadNamed_eq, loadNamed_eq]
  generalize loadTerms source _ = r at hterms
  generalize loadTerms source' _ = r' at hterms
  rcases r with ⟨_, l₁⟩ | ⟨e, l₁⟩ <;> rcases r' with ⟨_, l₁'⟩ | ⟨e', l₁'⟩
  · exact ⟨rfl, results_leave hterms.2⟩
  · exact hterms.elim
  · exact hterms.elim
  · obtain ⟨he, hst⟩ := hterms.resolve_left id
    exact .inr ⟨he, hst⟩

theorem results_loadIncluded {loadTerms : TermSource → LoadM Unit} (hload : LoadsWide gap loadTerms)
    (h : Wider gap base l l') (hl : l.machine.Sound) (file : Ref) :
    Results gap base id (loadIncluded loadTerms file l) (loadIncluded loadTerms (gap.ref file) l') := by
  have hs := hl.wellFormed.acyclic
  rw [loadIncluded_eq, loadIncluded_eq]
  refine (results_lift (φ := id) h (results_examine h.machine (h.machine.store.expectAtom hs file))).bind
    (loadSettling_lift (settling_examine (n := 0) (P := fun _ _ => True) hl fun _ _ => trivial))
    fun name l₁ l₁' hl₁ h₁ => ?_
  refine (results_lift h₁ (results_openSource h₁.machine name)).bind
    (ends_lift (ends_openSource l₁.machine name)) fun source l₂ l₂' hl₂ h₂ => ?_
  obtain ⟨hmachine, input, -, rfl⟩ := hl₂
  have hsource := begins_source l₁.machine name input
  rw [h₁.machine.doubleQuotes.1] at hsource
  have hl₂ : l₂.machine.Sound := hmachine ▸ hl₁.1.sound
  refine results_current (ψ := id) h₂ ?_
  dsimp only [id]
  split
  · exact results_lift h₂ (results_fail h₂.machine rfl)
  · exact results_loadNamed hload h₂ hl₂ name hsource

theorem results_require (hproper : Proper solve) (hsolve : SolvesWide gap solve)
    (h : Wider gap base l l') (hl : l.machine.Sound) {goal : Ref}
    (hgoal : goal.index < l.machine.store.size) {failure : Term → Error}
    (hfailure : ∀ x, failure (gap.term x) = gap.error (failure x)) :
    Results gap base id (require solve goal failure l) (require solve (gap.ref goal) failure l') := by
  refine (results_lift h (results_undoing h.machine (hsolve h.machine hl hgoal))).bind
    (loadSettling_lift (settling_undoing (n := 0) (P := fun _ => True) (Nat.zero_le _)
      ((hproper hl hgoal).imp (fun _ _ hm => ⟨hm, trivial⟩) fun _ => id)))
    fun found l₁ l₁' hl₁ h₁ => ?_
  cases found with
  | true => exact ⟨rfl, h₁⟩
  | false =>
    simp only [id, Bool.false_eq_true, if_false]
    refine results_lift h₁ (Machine.Results.of_look (results_fail h₁.machine ?_))
    rw [h₁.machine.store.snapshot hl₁.1.sound.wellFormed.acyclic]
    exact hfailure _

theorem results_carryOut (hproper : Proper solve) (hsolve : SolvesWide gap solve)
    {loadTerms : TermSource → LoadM Unit} (hload : LoadsWide gap loadTerms)
    (h : Wider gap base l l') (hl : l.machine.Sound) {d : Directive}
    (hd : d.argument.index < l.machine.store.size) :
    Results gap base id (carryOut solve loadTerms d l)
      (carryOut solve loadTerms (gap.directive d) l') := by
  cases d with
  | declare property predicates => exact results_declare h hl.wellFormed.acyclic property predicates
  | inclusion file => exact results_loadIncluded hload h hl file
  | ensureLoaded file => exact results_loadIncluded hload h hl file
  | initialization goal => exact results_require hproper hsolve h hl hd fun _ => rfl
  | goal goal => exact results_require hproper hsolve h hl hd fun _ => rfl

theorem results_directive (hproper : Proper solve) (hsolve : SolvesWide gap solve)
    {loadTerms : TermSource → LoadM Unit} (hload : LoadsWide gap loadTerms)
    (h : Wider gap base l l') (hl : l.machine.Sound) (ht : t.index < l.machine.store.size) :
    Results gap base id (directive solve loadTerms t l)
      (directive solve loadTerms (gap.ref t) l') := by
  have harg := hl.wellFormed.lt_of_reaches ht (reaches_argument hl.wellFormed.acyclic t)
  rw [directive_eq, directive_eq]
  refine (results_lift (φ := gap.directive) h (results_look h.machine
    (h.machine.store.directive hl.wellFormed.acyclic t))).bind
    (P := fun d l₁ => l₁ = l ∧ d = Directive.of l.machine.store t) (E := fun _ => True)
    ⟨rfl, rfl⟩ fun d l₁ l₁' hd h₁ => ?_
  obtain ⟨rfl, rfl⟩ := hd
  refine Results.bind (P := fun _ l₂ => l₂.machine = l₁.machine) (E := fun _ => True) (φ := id)
    ?_ ?_ fun _ l₂ l₂' hl₂ h₂ => results_carryOut hproper hsolve hload h₂ (hl₂ ▸ hl) (hl₂ ▸ harg)
  · cases Directive.of l₁.machine.store t <;>
      first | exact results_change h₁ Load.noteDirective | exact ⟨rfl, h₁⟩
  · cases Directive.of l₁.machine.store t <;> exact rfl

/-! ## Sources -/

theorem results_loadTerm (hproper : Proper solve) (hsolve : SolvesWide gap solve)
    {loadTerms : TermSource → LoadM Unit} (hload : LoadsWide gap loadTerms)
    (h : Wider gap base l l') (hl : l.machine.Sound) (ht : t.index < l.machine.store.size) :
    Results gap base id (loadTerm solve loadTerms t l)
      (loadTerm solve loadTerms (gap.ref t) l') := by
  have hs := hl.wellFormed.acyclic
  refine (results_lift (φ := gap.topLevel) h (results_look h.machine
    (h.machine.store.topLevel hs t))).bind
    (P := fun d l₁ => l₁ = l ∧ d = TopLevel.of l.machine.store t) (E := fun _ => True)
    ⟨rfl, rfl⟩ fun d l₁ l₁' hd h₁ => ?_
  obtain ⟨rfl, rfl⟩ := hd
  rcases hd : TopLevel.of l₁.machine.store t with goal | u
  · have hgoal := hl.wellFormed.lt_of_reaches ht (reaches_topLevel hs (.inr hd))
    exact results_directive hproper hsolve hload h₁ hl hgoal
  · exact results_addClause h₁ hs u

/-- Ways of loading a term that correspond. -/
structure LoadsOne (gap : Gap) (base : Machine) (one : Ref → LoadM Unit) : Prop where
  /-- They do the same in a wider store. -/
  results : ∀ {l l' : Loading} {t : Ref}, Wider gap base l l' → l.machine.Sound →
    t.index < l.machine.store.size → Results gap base id (one t l) (one (gap.ref t) l')
  /-- They settle the machine. -/
  settles : ∀ {l : Loading} {t : Ref}, l.machine.Sound → 0 ≤ l.machine.store.size →
    l.machine.store.Detached 0 t → LoadSettling 0 l (one t) fun _ _ => True

theorem loadSettling_loadRead (hproper : Proper solve) {one : Ref → LoadM Unit}
    (hone : LoadsOne gap base one) (hl : l.machine.Sound) (ht : l.machine.store.Detached 0 t) :
    LoadSettling 0 l (loadRead solve one t) fun _ _ => True :=
  (loadSettling_lift (settling_expand hproper hl (Nat.zero_le _) ht)).bind fun _ _ hl₁ hterms =>
    loadSettling_forM hone.settles hl₁.sound (Nat.zero_le _) hterms

theorem results_loadRead (hproper : Proper solve) (hsolve : SolvesWide gap solve)
    {one : Ref → LoadM Unit} (hone : LoadsOne gap base one) (h : Wider gap base l l')
    (hl : l.machine.Sound) (ht : l.machine.store.Detached 0 t) :
    Results gap base id (loadRead solve one t l) (loadRead solve one (gap.ref t) l') := by
  refine (results_lift h (results_expand hproper hsolve h.machine hl ht.lt)).bind
    (loadSettling_lift (settling_expand hproper hl (Nat.zero_le _) ht)) fun terms l₁ l₁' hl₁ h₁ => ?_
  exact results_forM (f := one) (g := gap.ref)
    (I := fun l => l.machine.Sound ∧ Waiting 0 terms l.machine)
    (fun t ht s s' hs hw => hone.results hw hs.1 (hs.2 t ht).lt)
    (fun t ht s u s' hs heq => by
      have hsettled := (hone.settles hs.1 (Nat.zero_le _) (hs.2 t ht)).of_ok heq
      exact ⟨hsettled.1.sound, hs.2.settle hs.1 hsettled.1⟩)
    ⟨hl₁.1.sound, hl₁.2⟩ h₁

theorem results_loadEach (hproper : Proper solve) (hsolve : SolvesWide gap solve)
    {one : Ref → LoadM Unit} (hone : LoadsOne gap base one)
    (k : Nat) {source source' : TermSource} (h : Wider gap base l l') (hl : l.machine.Sound)
    (hsource : source.Begins [] base.doubleQuotes source') :
    Results gap base id (loadEach solve one k source l) (loadEach solve one k source' l') := by
  induction k generalizing l l' source source' with
  | zero => exact .inr ⟨rfl, h.machine⟩
  | succ k ih =>
    rw [loadEach_succ, loadEach_succ]
    refine (results_lift h (results_poll h.machine)).bind (loadSettling_lift (settling_poll (n := 0) hl))
      fun _ l₁ l₁' hl₁ h₁ => ?_
    replace hl := hl₁.1.sound
    refine (matches_lift h₁ (matches_nextTerm h₁.machine hsource)).bind
      fun next next' l₂ l₂' hnext _ hread h₂ => ?_
    have hl₂ := (loadSettling_lift (settling_nextTerm hl (Nat.zero_le _)
      hsource.reader.sound)).of_ok hnext
    cases hread with
    | none => exact ⟨rfl, h₂⟩
    | some t hrest =>
      have ht := (hl₂.2 t _ rfl).1
      exact (results_loadRead hproper hsolve hone h₂ hl₂.1.sound ht).bind
        (loadSettling_loadRead hproper hone hl₂.1.sound ht)
        fun _ l₃ l₃' hl₃ h₃ => ih h₃ hl₃.1.sound hrest

theorem loadsOne_loadTerm (hproper : Proper solve) (hsolve : SolvesWide gap solve) {depth : Nat}
    (hload : LoadsWide gap (loadSource solve depth)) :
    LoadsOne gap base (loadTerm solve (loadSource solve depth)) where
  results h hl ht := results_loadTerm hproper hsolve hload h hl ht
  settles hl hn ht :=
    loadSettling_loadTerm hproper (loadsTerms_loadSource hproper 0 depth) hl hn ht

/-- **A load does the same in a wider store**, however deep sources are included. -/
theorem loadsWide_loadSource (hproper : Proper solve) (hsolve : SolvesWide gap solve) (depth : Nat) :
    LoadsWide gap (loadSource solve depth) := by
  induction depth with
  | zero => exact fun h _ _ => .inr ⟨rfl, h.machine⟩
  | succ depth ih =>
    intro base l l' source source' h hl hsource
    have hlength : source'.reader.lexer.input.length = source.reader.lexer.input.length := by
      rw [hsource.reader.input, List.append_nil]
    rw [loadSource, loadSource, hlength]
    exact results_loadEach hproper hsolve (loadsOne_loadTerm hproper hsolve ih) _ h hl hsource

end Loading

namespace Machine

variable {gap : Gap} {base m m' : Machine} {solve : Ref → MachineM Bool}

theorem results_load (hproper : Proper solve) (hsolve : Loading.SolvesWide gap solve)
    (h : Wider gap base m m') (hm : m.Sound) {source source' : TermSource}
    (hname : source'.name = source.name) (hsource : source.Begins [] base.doubleQuotes source') :
    Results gap base id (load solve source m) (load solve source' m') := by
  have hlength : m'.sources.length = m.sources.length := by
    rw [h.sources.1, h.sources.2]
  have hbegun : Loading.Wider gap base (m.beginLoad source) (m'.beginLoad source') :=
    ⟨{ h with loads := congrArg (· + 1) h.loads }, by rw [beginLoad, beginLoad, hname, h.loads]⟩
  have hsound : (m.beginLoad source).machine.Sound := ⟨hm.1, hm.2, hm.3, hm.4⟩
  have hload := Loading.loadsWide_loadSource hproper hsolve (m.sources.length + 2) hbegun hsound hsource
  rw [load_eq, load_eq, hlength]
  generalize Loading.loadSource solve (m.sources.length + 2) source _ = r at hload
  generalize Loading.loadSource solve (m.sources.length + 2) source' _ = r' at hload
  rcases r with ⟨_, l₁⟩ | ⟨e, l₁⟩ <;> rcases r' with ⟨_, l₁'⟩ | ⟨e', l₁'⟩
  · exact ⟨rfl, hload.2.machine⟩
  · exact hload.elim
  · exact hload.elim
  · obtain ⟨he, hst⟩ := hload.resolve_left id
    exact .inr ⟨he, hst⟩

/-- **Compiling a text does the same in a wider store.** -/
theorem results_compile (hproper : Proper solve) (hsolve : Loading.SolvesWide gap solve)
    (h : Wider gap base m m') (hm : m.Sound) (c : Context) (text : String) :
    Results gap base id (compile solve c text [] m) (compile solve c text [] m') := by
  have hm' : { m with context := c }.Sound := ⟨hm.1, hm.2, hm.3, hm.4⟩
  refine results_under h c (Results.of_get (results_load hproper hsolve (h.withContext c) hm' rfl ?_))
  have hsource := source_wide (h.withContext c) "user" (.ofText text) none
  rw [show (if ([] : List Term).isEmpty then none else some []) = (none : Option (List Term)) from rfl,
    hsource, ← (h.withContext c).doubleQuotes.1]
  exact Loading.begins_source _ _ _

theorem fileNames_wide {s s' : Store} (h : Store.Wider gap s s') (hs : s.Acyclic) (t : Ref) :
    fileNames s' (gap.ref t) = gap.except id (fileNames s t) := by
  rw [fileNames, fileNames, h.listShape hs]
  have hnames : ∀ items : List Ref,
      (items.map gap.ref).mapM s'.expectAtom = gap.except id (items.mapM s.expectAtom) := by
    intro items
    have hmapM := gap.except_mapM gap.ref id (h.expectAtom hs) items
    rwa [List.map_id_fun] at hmapM
  rcases s.listShape t with ⟨_ | ⟨item, items⟩, _ | tail | tail⟩
  · exact hnames []
  · rfl
  · dsimp only [List.map_nil, Gap.listEnd]
    rw [h.expectAtom hs]
    cases s.expectAtom t <;> rfl
  · exact hnames (item :: items)
  · exact congrArg Except.error (h.typeError hs .atom t)
  · exact congrArg Except.error (h.typeError hs .atom t)

/-- Loads one of several files. -/
def loadFile (solve : Ref → MachineM Bool) (name : String) : MachineM Unit := do
  poll
  load solve (← openSource name)

theorem results_loadFile (hproper : Proper solve) (hsolve : Loading.SolvesWide gap solve)
    (h : Wider gap base m m') (hm : m.Sound) (name : String) :
    Results gap base id (loadFile solve name m) (loadFile solve name m') := by
  refine (results_poll h).bind (Search.ends_poll m) fun _ m₁ m₁' hm₁ h₁ => ?_
  subst hm₁
  refine (results_openSource h₁ name).bind (Loading.ends_openSource m₁ name)
    fun source m₂ m₂' hm₂ h₂ => ?_
  obtain ⟨rfl, input, -, rfl⟩ := hm₂
  have hsource := Loading.begins_source m₂ name input
  exact results_load hproper hsolve h₂ hm rfl (h₂.doubleQuotes.1 ▸ hsource)

theorem settling_loadFile (hproper : Proper solve) (hm : m.Sound) (name : String) :
    Settling 0 m (loadFile solve name) fun _ _ => True :=
  (settling_poll hm).bind fun _ _ hm₁ _ =>
    (settling_openSource hm₁.sound name).bind fun _ _ hm₂ hsource =>
      settling_load hproper hm₂.sound (Nat.zero_le _) hsource

/-- **Consulting files does the same in a wider store.** -/
theorem results_consult (hproper : Proper solve) (hsolve : Loading.SolvesWide gap solve)
    (h : Wider gap base m m') (hm : m.Sound) (c : Context) (files : Ref) :
    Results gap base id (consult solve c files m) (consult solve c (gap.ref files) m') := by
  refine (results_examine (φ := id) h (fileNames_wide h.store hm.wellFormed.acyclic files)).bind
    (settling_examine (n := 0) (P := fun _ _ => True) hm fun _ _ => trivial)
    fun names m₁ m₁' hm₁ h₁ => results_under h₁ c ?_
  have hm₁ : { m₁ with context := c }.Sound := ⟨hm₁.1.sound.1, hm₁.1.sound.2, hm₁.1.sound.3, hm₁.1.sound.4⟩
  exact Correspondence.Matches.forM_self (I := Sound) rfl
    (fun name _ m m' hm h => results_loadFile hproper hsolve h hm name)
    (fun name _ m u m' hm hok => ((settling_loadFile hproper hm name).of_ok hok).1.sound)
    hm₁ (h₁.withContext c)

end Machine

end Clausal
