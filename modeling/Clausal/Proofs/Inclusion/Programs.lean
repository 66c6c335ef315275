import Clausal.Proofs.Inclusion.Splicing
import Clausal.Proofs.Machine.Sessions

/-! # Including a source is putting its text in the place of the directive

A directive to include a source may be replaced by the text of the source, if that text consists of
complete terms and the terms of the program are not expanded: the load comes to the same end and leaves
the same program (`Machine.compile_inclusion`).  Errors may name other places, and variables are
numbered differently, since the directive takes up cells of the store.
-/

namespace Clausal

namespace Error

/-- The error with its variables numbered anew. -/
def renumber (f : Nat → Nat) : Error → Error
  | type expected culprit => type expected (culprit.renumber f)
  | thrown ball => thrown (ball.renumber f)
  | failedDirective goal => failedDirective (goal.renumber f)
  | failedInitialization goal => failedInitialization (goal.renumber f)
  | e => e

end Error

/-- Entries of two tables, in two stores, are the same up to the numbers of variables. -/
inductive Entry.Same (f : Nat → Nat) (s s' : Store) : Entry → Entry → Prop
  /-- They stand for the same term. -/
  | term {t t' : Ref} (h : s'.snapshot t' = (s.snapshot t).renumber f) : Same f s s' (.term t) (.term t')
  /-- They name the same predicate. -/
  | procedure (pi : Indicator) : Same f s s' (.procedure pi) (.procedure pi)

/-- Clauses of two machines are the same up to the numbers of variables. -/
structure Clause.Same (f : Nat → Nat) (s s' : Store) (c c' : Clause) : Prop where
  /-- The predicate. -/
  pi : c'.pi = c.pi
  /-- The instructions. -/
  code : c'.code = c.code
  /-- The clause as it was read. -/
  raw : s'.snapshot c'.raw = (s.snapshot c.raw).renumber f
  /-- The table. -/
  table : List.Forall₂ (Entry.Same f s s') c.table c'.table
  /-- The variables, in their order. -/
  vars : c'.vars.map s'.snapshot = c.vars.map fun v => (s.snapshot v).renumber f

/-- Definitions of two machines are the same up to the numbers of variables. -/
inductive Procedure.Same (f : Nat → Nat) (s s' : Store) : Procedure → Procedure → Prop
  /-- What is built in. -/
  | builtin (b : Builtin) : Same f s s' (.builtin b) (.builtin b)
  /-- What is defined by clauses. -/
  | defined {p p' : Predicate} (flags : p'.flags = p.flags) (load : p'.load = p.load)
    (clauses : List.Forall₂ (Clause.Same f s s') p.clauses p'.clauses) :
    Same f s s' (.defined p) (.defined p')

namespace Machine

/-- The machines have the same predicates in the same order, with the same definitions up to the
numbers of variables. -/
def SameProgram (f : Nat → Nat) (m m' : Machine) : Prop :=
  List.Forall₂ (fun e e' => e'.1 = e.1 ∧ Procedure.Same f m.store m'.store e.2 e'.2)
    m.database.entries m'.database.entries

/-- Two loads come to the same end, and leave the same program.  Variables may be numbered anew, and
the places that errors of reading name may be others. -/
inductive SameOutcome : EStateM.Result Stop Machine Unit → EStateM.Result Stop Machine Unit → Prop
  /-- Both succeed. -/
  | loaded {m m' : Machine} (f : Nat → Nat) (hf : Function.Injective f) (h : SameProgram f m m') :
    SameOutcome (.ok () m) (.ok () m')
  /-- Both meet the same error. -/
  | failed {m m' : Machine} {e e' : Error} (f : Nat → Nat) (hf : Function.Injective f)
    (he : e'.unplaced = (e.renumber f).unplaced) (h : SameProgram f m m') :
    SameOutcome (.error (.error e) m) (.error (.error e') m')
  /-- Both run out of fuel. -/
  | outOfFuel {m m' : Machine} (f : Nat → Nat) (hf : Function.Injective f) (h : SameProgram f m m') :
    SameOutcome (.error .outOfFuel m) (.error .outOfFuel m')

variable {gap : Gap} {base m m' : Machine}

/-- A definition is the same in a wider store. -/
theorem Wider.sameProcedure (h : Wider gap base m m') (hs : m.store.Acyclic) (proc : Procedure) :
    Procedure.Same gap.place m.store m'.store proc (gap.procedure proc) := by
  have hentry : ∀ e, Entry.Same gap.place m.store m'.store e (gap.entry e) := fun e => by
    cases e with
    | term t => exact .term (h.store.snapshot hs t)
    | procedure pi => exact .procedure pi
  have hclause : ∀ c, Clause.Same gap.place m.store m'.store c (gap.clause c) := fun c =>
    { pi := rfl
      code := rfl
      raw := h.store.snapshot hs c.raw
      table := List.forall₂_map_right_iff.mpr (List.forall₂_same.mpr fun e _ => hentry e)
      vars := by
        show (c.vars.map gap.ref).map m'.store.snapshot = _
        rw [List.map_map]
        exact List.map_congr_left fun v _ => h.store.snapshot hs v }
  cases proc with
  | builtin b => exact .builtin b
  | defined p =>
    exact .defined rfl rfl (List.forall₂_map_right_iff.mpr (List.forall₂_same.mpr fun c _ => hclause c))

theorem Wider.sameProgram (h : Wider gap base m m') (hs : m.store.Acyclic) :
    SameProgram gap.place m m' := by
  rw [SameProgram, h.database]
  exact List.forall₂_map_right_iff.mpr
    (List.forall₂_same.mpr fun e _ => ⟨rfl, h.sameProcedure hs e.2⟩)

theorem sameOutcome_of_results {r r' : EStateM.Result Stop Machine Unit}
    (h : Results gap base id r r') (hr : Ends r (fun _ m => m.store.Acyclic) fun m => m.store.Acyclic) :
    SameOutcome r r' := by
  rcases r with ⟨_, m⟩ | ⟨e, m⟩ <;> rcases r' with ⟨_, m'⟩ | ⟨e', m'⟩
  · exact .loaded gap.place gap.place_injective (h.2.sameProgram hr)
  · exact h.elim
  · exact h.elim
  · obtain ⟨he, hst⟩ := h.resolve_left id
    have hprogram := Wider.sameProgram hst hr
    have he : e'.unplaced = (gap.stop e).unplaced := he
    -- Both ways of numbering anew are the same.
    have hrenumber : ∀ e, gap.error e = e.renumber gap.place := fun e => by cases e <;> rfl
    rcases e with e | _ <;> rcases e' with e' | _
    · have he := Stop.error.inj he
      rw [hrenumber] at he
      exact .failed gap.place gap.place_injective he hprogram
    · cases he
    · cases he
    · exact .outOfFuel gap.place gap.place_injective hprogram

end Machine

namespace Machine

variable {m m' : Machine}

theorem within_congr (h : m.SameSettings m') (text : String) : m'.within text = m.within text := by
  rw [within, within, source, source, h.doubleQuotes]

theorem Reads.congr (h : m.SameSettings m') {text : String} {x : Term} (hreads : m.Reads text x) :
    m'.Reads text x := by
  rwa [Reads, within_congr h, h.operators]

end Machine

namespace Loading

open Machine

variable {solve : Ref → MachineM Bool} {l : Loading} {depth : Nat} {a b c : String}

/-! ## Texts that are joined -/

/-- Only a text that begins with `#!` has a line for the shell. -/
theorem dropShebang_ofText {text : String} (h : ¬ ['#', '!'] <+: text.toList) :
    (Input.ofText text).dropShebang = .ok (.ofText text) := by
  unfold Input.ofText
  rcases htext : text.toList with _ | ⟨c, _ | ⟨d, rest⟩⟩
  · rfl
  · rw [Input.dropShebang.eq_def]
    simp
  · rw [htext] at h
    have hne : ¬ (c = '#' ∧ d = '!') := fun ⟨hc, hd⟩ => h (by subst hc hd; exact ⟨rest, rfl⟩)
    rw [List.map_cons, List.map_cons, Input.dropShebang.eq_def]
    split <;> simp_all

theorem ofText_join (a b c : String) : Input.ofText ("\n".intercalate [a, b, c]) =
    Input.ofText a ++ .char '\n' :: (Input.ofText b ++ .char '\n' :: Input.ofText c) := by
  have hjoin : "\n".intercalate [a, b, c] = a ++ "\n" ++ b ++ "\n" ++ c := rfl
  rw [hjoin]
  simp [Input.ofText]

/-- A source that is loaded to its end leaves a sound machine with the settings that it had. -/
theorem ends_loadEach (hproper : Proper solve) (hsolve : ∀ gap, SolvesWide gap solve)
    (hl : l.machine.Sound) (n : Nat) {q : TermSource} (hq : q.Begins [] l.machine.doubleQuotes q) :
    Ends (loadThrough solve depth n q l)
      (fun _ l' => l'.machine.Sound ∧ l.machine.SameSettings l'.machine) fun _ => True := by
  have hone : LoadsOne .empty l.machine (loadTerm solve (loadSource solve depth)) :=
    loadsOne_loadTerm hproper (hsolve .empty) (loadsWide_loadSource hproper (hsolve .empty) depth)
  have hsettings := settings_of_results
    (results_loadEach hproper (hsolve .empty) hone n ⟨.refl l.machine, rfl⟩ hl hq)
  have hsettles := loadSettling_loadEach hproper hone.settles n hl (Nat.zero_le _) hq.reader.sound
  rcases hresult : loadThrough solve depth n q l with ⟨_, l'⟩ | ⟨e, l'⟩
  · exact ⟨(hsettles.of_ok hresult).1.sound, hsettings.of_ok hresult⟩
  · trivial

/-- A source that is loaded to its end leaves the stack of the sources being loaded as it was. -/
theorem including_loadEach (hproper : Proper solve) (hsolve : ∀ gap, SolvesWide gap solve)
    (hl : l.machine.Sound) (hroom : Room l.machine (depth + 1) l.load.including)
    (hne : l.load.including ≠ []) (n : Nat) {q : TermSource} (hq : q.reader.Sound) :
    Ends (loadThrough solve depth n q l)
      (fun _ l' => l'.load.including = l.load.including) fun _ => True := by
  obtain ⟨name, outer, hstack⟩ := List.exists_cons_of_ne_nil hne
  have hinside : Inside name [] outer l ⟨l.machine, withStack l.load outer⟩ := ⟨rfl, hstack, rfl⟩
  rw [hstack] at hroom ⊢
  have hmatches : (inside name [] outer).Matches Eq (loadThrough solve depth n q l) _ :=
    inside_loadEach hproper (hsolve .empty)
      (loadsInside_loadSource hproper (hsolve .empty) name outer depth) n hinside hl hroom hq
  generalize loadThrough solve depth n q l = r at hmatches ⊢
  rcases r with ⟨_, l'⟩ | ⟨e, l'⟩
  · obtain ⟨_, l'', -, -, h⟩ := hmatches.of_ok rfl
    exact h.including
  · trivial

/-- Three texts, one after the other. -/
theorem unplaced_loadEach_join (hproper : Proper solve) (hsolve : ∀ gap, SolvesWide gap solve)
    (depth : Nat) (hl : l.machine.Sound)
    (ha : (l.machine.source "user" (.ofText a) none).Complete l.machine.operators)
    (hb : (l.machine.within b).Complete l.machine.operators) {n i j k : Nat}
    (hn : (Input.ofText ("\n".intercalate [a, b, c])).length < n) (hi : (Input.ofText a).length < i)
    (hj : (Input.ofText b).length < j) (hk : (Input.ofText c).length < k) :
    unplaced (loadThrough solve depth n
        (l.machine.source "user" (.ofText ("\n".intercalate [a, b, c])) none) l) =
      unplaced ((do
        loadThrough solve depth i
          (l.machine.source "user" (.ofText a) none)
        loadThrough solve depth j (l.machine.within b)
        loadThrough solve depth k (l.machine.within c)) l) := by
  have hsteady := steady_loadTerm hproper (hsolve .empty) depth
  have hrest : Input.ofText (b ++ "\n" ++ c) = Input.ofText b ++ .char '\n' :: Input.ofText c := by
    simp [Input.ofText]
  have hfirst : (l.machine.source "user" (.ofText a) none).Begins
      (.char '\n' :: Input.ofText (b ++ "\n" ++ c)) l.machine.doubleQuotes
      (l.machine.source "user" (.ofText ("\n".intercalate [a, b, c])) none) := by
    refine ⟨⟨?_, ⟨rfl, rfl⟩, ⟨rfl, rfl⟩, ⟨rfl, rfl⟩⟩, rfl⟩
    rw [hrest]
    exact ofText_join a b c
  have hsecond : (l.machine.within b).Begins (.char '\n' :: Input.ofText c) l.machine.doubleQuotes
      (l.machine.within (b ++ "\n" ++ c)) :=
    ⟨⟨hrest, ⟨rfl, rfl⟩, ⟨rfl, rfl⟩, ⟨rfl, rfl⟩⟩, rfl⟩
  -- First what follows the first text, and then what follows the second.
  rw [← unplaced_loadEach_append (k := (Input.ofText (b ++ "\n" ++ c)).length + 1) hsteady hl ha
    hfirst rfl rfl (begins_within l.machine (b ++ "\n" ++ c)).reader hi hn (Nat.lt_succ_self _)]
  refine unplaced_bind rfl fun u l₁ hok => ?_
  obtain ⟨hl₁, hsettings⟩ := (ends_loadEach hproper hsolve hl i
    (begins_source l.machine "user" (.ofText a))).of_ok hok
  rw [← hsettings.operators] at hb
  exact (unplaced_loadEach_append hsteady hl₁ hb hsecond rfl rfl
    (begins_within l.machine c).reader hj (Nat.lt_succ_self _) hk).symm

/-! ## The load -/

variable {name functor directive text after : String}

/-- **The directive may be replaced by the text of the source.** -/
theorem results_join (hproper : Proper solve) (hsolve : ∀ gap, SolvesWide gap solve)
    {before : String} {n n' i : Nat} (hl : l.machine.Sound)
    (hexpansion : l.machine.expansion = .byRules)
    (hroom : Room l.machine (depth + 1) l.load.including) (hne : l.load.including ≠ [])
    (hbefore : (l.machine.source "user" (.ofText before) none).Complete l.machine.operators)
    (htext : (l.machine.within text).Complete l.machine.operators)
    (hshebang : (Input.ofText text).dropShebang = .ok (.ofText text))
    (hfunctor : functor = "include" ∨ functor = "ensure_loaded")
    (hdirective : l.machine.Reads directive (.compound ":-" [.compound functor [.atom name]]))
    (hname : l.machine.sources.lookup name = some (.readable (.ofText text)))
    (hi : (Input.ofText before).length < i)
    (hrules : ∀ u l', loadThrough solve depth i
      (l.machine.source "user" (.ofText before) none) l = .ok u l' → l'.machine.RuleFree)
    (hn : (Input.ofText ("\n".intercalate [before, text, after])).length < n)
    (hn' : (Input.ofText ("\n".intercalate [before, directive, after])).length < n')
    (hcyclic : ∀ l', loadThrough solve depth n'
        (l.machine.source "user" (.ofText ("\n".intercalate [before, directive, after])) none) l ≠
      .error (.error (.cyclicSource name)) l') :
    ∃ gap base, Results gap base id
      (loadThrough solve depth n
        (l.machine.source "user" (.ofText ("\n".intercalate [before, text, after])) none) l)
      (loadThrough solve depth n'
        (l.machine.source "user" (.ofText ("\n".intercalate [before, directive, after])) none) l) := by
  have hjoin := unplaced_loadEach_join (c := after) hproper hsolve depth hl hbefore htext hn hi
    (Nat.lt_succ_self _) (Nat.lt_succ_self _)
  have hjoin' := unplaced_loadEach_join (j := (Input.ofText directive).length + 2) (c := after)
    hproper hsolve depth hl hbefore hdirective.complete hn' hi (by omega) (Nat.lt_succ_self _)
  -- If the first text is loaded to its end, the two texts are told apart by what comes next.
  rcases hok : loadThrough solve depth i
      (l.machine.source "user" (.ofText before) none) l with ⟨u, l₁⟩ | ⟨e, l₁⟩
  · obtain ⟨hl₁, hsettings⟩ := (ends_loadEach hproper hsolve hl i
      (begins_source l.machine "user" (.ofText before))).of_ok hok
    have hincluding := (including_loadEach hproper hsolve hl hroom hne i
      (begins_source l.machine "user" (.ofText before)).reader.sound).of_ok hok
    rw [bind_eq_of_ok hok] at hjoin hjoin'
    rw [← hincluding] at hroom hne
    rw [← within_congr hsettings, ← within_congr hsettings] at hjoin hjoin'
    -- Joining the texts changes no more of an error than its place.
    have hnever : ∀ l', (do
        loadThrough solve depth ((Input.ofText directive).length + 2)
          (l₁.machine.within directive)
        loadThrough solve depth ((Input.ofText after).length + 1)
          (l₁.machine.within after)) l₁ ≠ .error (.error (.cyclicSource name)) l' := by
      intro l' heq
      rw [heq] at hjoin'
      obtain ⟨e', he', hunplaced⟩ := eq_error_of_unplaced hjoin'
      refine hcyclic l' (he'.trans ?_)
      rcases e' with e' | _
      · cases e' <;> cases hunplaced
        rfl
      · cases hunplaced
    obtain ⟨gap, hresults⟩ := results_splice hproper hsolve hl₁ (hsettings.expansion.trans hexpansion)
      (hrules u l₁ hok) (hroom.congr hsettings.sources) hne hfunctor (Reads.congr hsettings hdirective)
      (hsettings.sources ▸ hname) hshebang (begins_within l₁.machine after) (Nat.lt_succ_self _) hnever
    exact ⟨gap, _, hresults.congr_unplaced hjoin hjoin'⟩
  · have hempty : Results .empty l.machine id (loadThrough solve depth i _ l)
        (loadThrough solve depth i _ l) := results_loadEach hproper (hsolve .empty)
      (loadsOne_loadTerm hproper (hsolve .empty) (loadsWide_loadSource hproper (hsolve .empty) depth))
      i ⟨.refl l.machine, rfl⟩ hl (begins_source l.machine "user" (.ofText before))
    rw [hok] at hempty
    rw [bind_eq_of_error hok] at hjoin hjoin'
    exact ⟨.empty, l.machine, hempty.congr_unplaced hjoin hjoin'⟩

end Loading

namespace Machine

open Loading

variable {m : Machine}

/-- The load of a text, as it begins. -/
def beginText (m : Machine) (c : Context) : Loading :=
  { machine := { m with context := c, loads := m.loads + 1 }
    load := { id := m.loads + 1, including := ["user"] } }

/-- Loading a text, from where it begins. -/
def loadText (m : Machine) (fuel : Nat) (c : Context) (text : String) :
    EStateM.Result Stop Loading Unit :=
  loadEach (solve fuel) (loadTerm (solve fuel) (loadSource (solve fuel) (m.sources.length + 1)))
    ((Input.ofText text).length + 2) (m.source "user" (.ofText text) none) (m.beginText c)

/-- The machine that a load leaves, with the context that was in force before it. -/
def restored (c : Context) : EStateM.Result Stop Loading Unit → EStateM.Result Stop Machine Unit
  | .ok a l => .ok a { l.machine with context := c }
  | .error e l => .error e { l.machine with context := c }

/-- What loading a text comes to. -/
theorem compileText_eq (fuel : Nat) (c : Context) (text : String) (m : Machine) :
    compileText fuel c text [] m = restored m.context (m.loadText fuel c text) := by
  have hload : Loading.loadSource (solve fuel) (m.sources.length + 2) (m.source "user" (.ofText text) none)
      (beginLoad { m with context := c } (m.source "user" (.ofText text) none)) = m.loadText fuel c text := rfl
  have hargs : (if ([] : List Term).isEmpty then none else some []) = (none : Option (List Term)) := rfl
  rw [compileText, compile_eq, hargs, load_eq, hload]
  generalize m.loadText fuel c text = r
  cases r <;> rfl

theorem results_restored {gap : Gap} {base : Machine} {r r' : EStateM.Result Stop Loading Unit}
    (h : Loading.Results gap base id r r') (c : Context) :
    Results gap base id (restored c r) (restored c r') := by
  rcases r with ⟨_, l⟩ | ⟨e, l⟩ <;> rcases r' with ⟨_, l'⟩ | ⟨e', l'⟩
  · exact ⟨rfl, h.2.machine.withContext c⟩
  · exact h.elim
  · exact h.elim
  · obtain ⟨he, hst⟩ := h.resolve_left id
    exact .inr ⟨he, Wider.withContext hst c⟩

/-- **Including a source is putting its text in the place of the directive**: the load comes to the
same end and leaves the same program.  The text before the directive and that of the source consist of
complete terms, no terms are expanded where the directive stands, and the source is not included while
it is being loaded. -/
theorem compile_inclusion (fuel : Nat) (c : Context) (hm : m.Sound)
    (hexpansion : m.expansion = .byRules) {before text after directive name functor : String}
    (hbefore : (m.source "user" (.ofText before) none).Complete m.operators)
    (htext : (m.within text).Complete m.operators)
    (hshebang : ¬ ['#', '!'] <+: text.toList)
    (hfunctor : functor = "include" ∨ functor = "ensure_loaded")
    (hdirective : m.Reads directive (.compound ":-" [.compound functor [.atom name]]))
    (hname : m.sources.lookup name = some (.readable (.ofText text)))
    (hrules : ∀ m', compileText fuel c before [] m = .ok () m' → m'.RuleFree)
    (hcyclic : ∀ m', compileText fuel c ("\n".intercalate [before, directive, after]) [] m ≠
      .error (.error (.cyclicSource name)) m') :
    SameOutcome (compileText fuel c ("\n".intercalate [before, text, after]) [] m)
      (compileText fuel c ("\n".intercalate [before, directive, after]) [] m) := by
  have hl : (m.beginText c).machine.Sound := hm.congr rfl rfl
  have hsettings : m.SameSettings (m.beginText c).machine := ⟨rfl, rfl, rfl, rfl⟩
  have hroom : Room (m.beginText c).machine (m.sources.length + 1 + 1) (m.beginText c).load.including :=
    ⟨List.nodup_singleton _, nofun, by simp [beginText]⟩
  have hrules' : ∀ u l', m.loadText fuel c before = .ok u l' → l'.machine.RuleFree := by
    intro u l' hok
    have hcompile : compileText fuel c before [] m = .ok () { l'.machine with context := m.context } := by
      rw [compileText_eq, hok, restored]
    exact hrules { l'.machine with context := m.context } hcompile
  have hcyclic' : ∀ l', m.loadText fuel c ("\n".intercalate [before, directive, after]) ≠
      .error (.error (.cyclicSource name)) l' := by
    intro l' herror
    refine hcyclic { l'.machine with context := m.context } ?_
    rw [compileText_eq, herror, restored]
  obtain ⟨gap, base, hresults⟩ := results_join (proper_solve fuel) (fun _ => solvesWide_solve fuel) hl
    hexpansion hroom (List.cons_ne_nil _ _) hbefore htext (dropShebang_ofText hshebang) hfunctor
    (hdirective.congr hsettings) hname (Nat.lt_add_of_pos_right Nat.zero_lt_two) hrules'
    (Nat.lt_add_of_pos_right Nat.zero_lt_two) (Nat.lt_add_of_pos_right Nat.zero_lt_two) hcyclic'
  rw [compileText_eq, compileText_eq]
  refine sameOutcome_of_results (results_restored hresults m.context) ?_
  -- What the first load leaves is sound, whether or not it succeeds.
  have hnone : ∀ x ∈ ([] : List Term), x.WellMade := nofun
  have hsettles := settling_compile (proper_solve fuel) hm (Nat.zero_le _) c
    ("\n".intercalate [before, text, after]) hnone
  rw [← compileText_eq]
  exact hsettles.imp (fun _ _ h => h.1.sound.wellFormed.acyclic) fun _ h => h.sound.wellFormed.acyclic

/-- A clause that is included between a clause of its own predicate and one of another. -/
theorem compile_inclusion_between_clauses :
    let m := { build [] [] true with sources := [("f", .readable (.ofText "q(b)."))] }
    let included := compileText 8 ⟨0⟩ ("\n".intercalate ["q(a).", ":- include(f).", "r(X) :- q(X)."])
      [] m
    SameOutcome (compileText 8 ⟨0⟩ ("\n".intercalate ["q(a).", "q(b).", "r(X) :- q(X)."]) [] m)
      included ∧ ∃ m', included = .ok () m' := by
  intro m included
  have hm : m.Sound := (Session.sound (.build [] [] true)).1.congr rfl rfl
  have hexpansion : m.expansion = .byRules := by decide +kernel
  have hname : m.sources.lookup "f" = some (.readable (.ofText "q(b).")) := List.lookup_cons_self
  have hbefore : (m.source "user" (.ofText "q(a).") none).Complete m.operators :=
    TermSource.complete_of_isComplete (n := 2) (by decide +kernel)
  have htext : (m.within "q(b).").Complete m.operators :=
    TermSource.complete_of_isComplete (n := 2) (by decide +kernel)
  have hdirective : m.Reads ":- include(f)." (.compound ":-" [.compound "include" [.atom "f"]]) :=
    reads_of_includes? (by decide +kernel)
  have hrules : ∀ x ∈ value? (compileText 8 ⟨0⟩ "q(a)." [] m),
      (x.2.database.find? ⟨"term_expansion", 2⟩).isNone = true := by decide +kernel
  obtain ⟨⟨_, m'⟩, hm'⟩ := Option.isSome_iff_exists.mp
    (show (value? included).isSome = true by decide +kernel)
  have hm' := value?_eq_some.mp hm'
  -- The machine is not to be computed with from here on.
  clear_value m
  refine ⟨?_, m', hm'⟩
  refine compile_inclusion 8 ⟨0⟩ hm hexpansion hbefore htext (by decide) (.inl rfl) hdirective
    hname (fun m₁ h₁ p hp => ?_) fun m₁ h₁ => ?_
  · have hnone := hrules _ (value?_eq_some.mpr h₁)
    rw [hp] at hnone
    cases hnone
  · cases hm'.symm.trans h₁

end Machine

end Clausal
