import Clausal.Proofs.Clause.Activation
import Clausal.Proofs.Store.GapOperations
import Clausal.Database

/-! # Clauses in a wider store

Cells that are put into the store shift the places that clauses, declarations and errors mention, and
change nothing else: what is compiled, declared or refused in the wider store is what is compiled,
declared or refused without the cells (`Store.Wider.compile`, `Store.Wider.declared`), and a clause is
entered in the same way (`Store.Wider.enter`).
-/

namespace Clausal

namespace Gap

variable (gap : Gap)

/-- The entry of a table with the place in it shifted. -/
def entry : Entry → Entry
  | .term t => .term (gap.ref t)
  | .procedure pi => .procedure pi

/-- The clause with the places in it shifted. -/
def clause (c : Clause) : Clause :=
  { c with raw := gap.ref c.raw, table := c.table.map gap.entry, vars := c.vars.map gap.ref }

/-- The clause being compiled with the places in it shifted. -/
def draft (d : Clause.Draft) : Clause.Draft :=
  { d with table := d.table.map gap.entry, vars := d.vars.map gap.ref }

/-- The term of a source with the place in it shifted. -/
def topLevel : TopLevel → TopLevel
  | .directive goal => .directive (gap.ref goal)
  | .clause t => .clause (gap.ref t)

/-- The directive with the place in it shifted. -/
def directive : Directive → Directive
  | .declare property predicates => .declare property (gap.ref predicates)
  | .inclusion file => .inclusion (gap.ref file)
  | .ensureLoaded file => .ensureLoaded (gap.ref file)
  | .initialization goal => .initialization (gap.ref goal)
  | .goal goal => .goal (gap.ref goal)

/-- The error with the variables in it numbered as in the wider store. -/
def error : Error → Error
  | .type expected culprit => .type expected (gap.term culprit)
  | .thrown ball => .thrown (gap.term ball)
  | .failedDirective goal => .failedDirective (gap.term goal)
  | .failedInitialization goal => .failedInitialization (gap.term goal)
  | e => e

/-- The result with places and variables as in the wider store. -/
def except {α β : Type} (f : α → β) : Except Error α → Except Error β
  | .ok a => .ok (f a)
  | .error e => .error (gap.error e)

theorem except_bind {α α' β β' : Type} (f : α → α') (g : β → β') {x : Except Error α}
    {x' : Except Error α'} (h : x' = gap.except f x) {k : α → Except Error β}
    {k' : α' → Except Error β'} (hk : ∀ a, k' (f a) = gap.except g (k a)) :
    (x' >>= k') = gap.except g (x >>= k) := by
  subst h
  cases x with
  | error e => rfl
  | ok a => exact hk a

theorem except_mapM {α α' β β' : Type} (f : α → α') (g : β → β') {k : α → Except Error β}
    {k' : α' → Except Error β'} (hk : ∀ a, k' (f a) = gap.except g (k a)) (as : List α) :
    (as.map f).mapM k' = gap.except (List.map g) (as.mapM k) := by
  induction as with
  | nil => rfl
  | cons a as ih =>
    rw [List.map_cons, List.mapM_cons, List.mapM_cons]
    refine gap.except_bind g (List.map g) (hk a) fun b => ?_
    exact gap.except_bind (List.map g) (List.map g) ih fun bs => rfl

theorem entry_injective : Function.Injective gap.entry := by
  intro e e' h
  cases e <;> cases e' <;> simp_all [entry]

end Gap

theorem idxOf?_map {α β : Type} [DecidableEq α] [DecidableEq β] {f : α → β}
    (hf : Function.Injective f) (l : List α) (a : α) : (l.map f).idxOf? (f a) = l.idxOf? a := by
  simp only [List.idxOf?, List.findIdx?_map]
  congr 1
  funext x
  simp [hf.eq_iff]

namespace Store

variable {gap : Gap} {s s' : Store} {t u v : Ref}

/-! ## Declarations -/

theorem Wider.typeError (h : Wider gap s s') (hs : s.Acyclic) (expected : Expected) (t : Ref) :
    s'.typeError expected (gap.ref t) = gap.error (s.typeError expected t) :=
  congrArg (Error.type expected) (h.snapshot hs t)

theorem Wider.expectAtom (h : Wider gap s s') (hs : s.Acyclic) (t : Ref) :
    s'.expectAtom (gap.ref t) = gap.except id (s.expectAtom t) := by
  rw [Store.expectAtom, Store.expectAtom, h.view hs]
  rcases s.view t with v | l | ⟨name, args⟩
  · rfl
  · cases l with
    | atom name => rfl
    | _ => exact congrArg Except.error (h.typeError hs .atom t)
  · exact congrArg Except.error (h.typeError hs .atom t)

theorem ofRef_eq_error {name : String} {args : List Ref} (hview : s.view t = .compound name args)
    (h : ¬ (name = "/" ∧ args.length = 2)) :
    Indicator.ofRef s t = .error (s.typeError .indicator t) := by
  rw [Indicator.ofRef, hview]
  split <;> simp_all
  rfl

theorem Wider.indicator (h : Wider gap s s') (hs : s.Acyclic) (t : Ref) :
    Indicator.ofRef s' (gap.ref t) = gap.except id (Indicator.ofRef s t) := by
  have herror : ∀ expected u, Except.error (s'.typeError expected (gap.ref u)) =
      gap.except id (.error (s.typeError expected u) : Except Error Indicator) := fun expected u =>
    congrArg Except.error (h.typeError hs expected u)
  have hview' := h.view hs t
  rcases hview : s.view t with v | l | ⟨name, args⟩ <;> rw [hview] at hview'
  · rw [Indicator.ofRef, Indicator.ofRef, hview, hview']
    rfl
  · rw [Indicator.ofRef, Indicator.ofRef, hview, hview']
    exact herror .indicator t
  · by_cases hslash : name = "/" ∧ args.length = 2
    · obtain ⟨rfl, hlength⟩ := hslash
      obtain ⟨a, b, rfl⟩ := List.length_eq_two.mp hlength
      rw [Indicator.ofRef, Indicator.ofRef, hview, hview']
      refine gap.except_bind id id (h.expectAtom hs a) fun name => ?_
      simp only [id]
      rw [h.view hs]
      rcases s.view b with v | l | ⟨name', args⟩
      · rfl
      · cases l with
        | small n =>
          simp only [Gap.view]
          split
          · rfl
          · exact herror .indicator t
        | _ => exact herror .integer b
      · exact herror .integer b
    · rw [ofRef_eq_error hview hslash, ofRef_eq_error hview' (by rwa [List.length_map]),
        herror .indicator t]

theorem Wider.declared (h : Wider gap s s') (hs : s.Acyclic) (t : Ref) :
    Indicator.declared s' (gap.ref t) = gap.except id (Indicator.declared s t) := by
  have hmap : ∀ terms : List Ref, (terms.map gap.ref).mapM (Indicator.ofRef s') =
      gap.except id (terms.mapM (Indicator.ofRef s)) := fun terms => by
    have hmapM := gap.except_mapM gap.ref id (h.indicator hs) terms
    rw [List.map_id_fun] at hmapM
    exact hmapM
  simp only [Indicator.declared, h.isVar hs, h.listShape hs, h.operands hs]
  cases s.isVar t with
  | true => rfl
  | false =>
    rcases s.listShape t with ⟨_ | ⟨item, items⟩, _ | tail | tail⟩ <;>
      first | exact hmap _ | rfl

/-! ## Directives -/

theorem topLevel_eq_clause {name : String} {args : List Ref} (hview : s.view t = .compound name args)
    (h : ¬ ((name = ":-" ∨ name = "?-") ∧ args.length = 1)) : TopLevel.of s t = .clause t := by
  rw [TopLevel.of, hview]
  rcases args with _ | ⟨a, _ | ⟨b, args⟩⟩ <;> simp_all

theorem Wider.topLevel (h : Wider gap s s') (hs : s.Acyclic) (t : Ref) :
    TopLevel.of s' (gap.ref t) = gap.topLevel (TopLevel.of s t) := by
  have hview' := h.view hs t
  rcases hview : s.view t with v | l | ⟨name, args⟩ <;> rw [hview] at hview'
  · rw [TopLevel.of, TopLevel.of, hview, hview']
    rfl
  · rw [TopLevel.of, TopLevel.of, hview, hview']
    rfl
  · by_cases hgoal : (name = ":-" ∨ name = "?-") ∧ args.length = 1
    · obtain ⟨hname, hlength⟩ := hgoal
      obtain ⟨a, rfl⟩ := List.length_eq_one_iff.mp hlength
      rw [TopLevel.of, TopLevel.of, hview, hview']
      simp [Gap.view, Gap.topLevel, hname]
    · rw [topLevel_eq_clause hview hgoal, topLevel_eq_clause hview' (by rwa [List.length_map])]
      rfl

theorem directive_eq_goal {name : String} {args : List Ref} (hview : s.view t = .compound name args)
    (h : args.length ≠ 1) : Directive.of s t = .goal t := by
  rw [Directive.of, hview]
  rcases args with _ | ⟨a, _ | ⟨b, args⟩⟩ <;> simp_all

theorem Wider.directive (h : Wider gap s s') (hs : s.Acyclic) (t : Ref) :
    Directive.of s' (gap.ref t) = gap.directive (Directive.of s t) := by
  have hview' := h.view hs t
  rcases hview : s.view t with v | l | ⟨name, args⟩ <;> rw [hview] at hview'
  · rw [Directive.of, Directive.of, hview, hview']
    rfl
  · rw [Directive.of, Directive.of, hview, hview']
    rfl
  · by_cases hlength : args.length = 1
    · obtain ⟨a, rfl⟩ := List.length_eq_one_iff.mp hlength
      rw [Directive.of, Directive.of, hview, hview']
      simp only [Gap.view, List.map_cons, List.map_nil]
      split <;> rfl
    · rw [directive_eq_goal hview hlength, directive_eq_goal hview' (by rwa [List.length_map])]
      rfl

/-! ## Compilation -/

theorem headBody_eq {name : String} {args : List Ref} (hview : s.view t = .compound name args)
    (h : ¬ (name = ":-" ∧ args.length = 2)) : Clause.headBody s t = (s.deref t, none) := by
  rw [Clause.headBody, hview]
  split <;> simp_all

theorem Wider.headBody (h : Wider gap s s') (hs : s.Acyclic) (t : Ref) :
    Clause.headBody s' (gap.ref t) =
      (gap.ref (Clause.headBody s t).1, (Clause.headBody s t).2.map gap.ref) := by
  have hview' := h.view hs t
  rcases hview : s.view t with v | l | ⟨name, args⟩ <;> rw [hview] at hview'
  · rw [Clause.headBody, Clause.headBody, hview, hview', h.deref hs]
    rfl
  · rw [Clause.headBody, Clause.headBody, hview, hview', h.deref hs]
    rfl
  · by_cases hrule : name = ":-" ∧ args.length = 2
    · obtain ⟨rfl, hlength⟩ := hrule
      obtain ⟨a, b, rfl⟩ := List.length_eq_two.mp hlength
      rw [Clause.headBody, Clause.headBody, hview, hview']
      rfl
    · rw [headBody_eq hview hrule, headBody_eq hview' (by rwa [List.length_map]), h.deref hs]
      rfl

theorem Wider.headIndicator (h : Wider gap s s') (hs : s.Acyclic) (t : Ref) :
    Clause.headIndicator s' (gap.ref t) = gap.except id (Clause.headIndicator s t) := by
  rw [Clause.headIndicator, Clause.headIndicator, h.view hs]
  rcases s.view t with v | l | ⟨name, args⟩
  · rfl
  · cases l with
    | atom name => rfl
    | _ => exact congrArg Except.error (h.typeError hs .callable t)
  · simp [Gap.view, Gap.except]

theorem draft_emit (d : Clause.Draft) (i : Instruction) :
    (gap.draft d).emit i = gap.draft (d.emit i) := rfl

theorem draft_slot (d : Clause.Draft) (v : Ref) :
    (gap.draft d).slot (gap.ref v) = ((d.slot v).1, gap.draft (d.slot v).2) := by
  have hidx := idxOf?_map gap.ref_injective d.vars v
  simp only [Clause.Draft.slot, Gap.draft, hidx]
  rcases d.vars.idxOf? v with _ | n
  · simp
  · rfl

/-- Whether the entry of a table is the term at `t`. -/
def isTerm (s : Store) (t : Ref) : Entry → Bool
  | .term u => s.same t u
  | .procedure _ => false

theorem termOffset_eq (s : Store) (d : Clause.Draft) (t : Ref) :
    Clause.Draft.termOffset s d t = match d.table.findIdx? (s.isTerm t) with
      | some n => (n, d)
      | none => (d.table.length, { d with table := d.table ++ [.term t] }) := rfl

theorem Wider.termOffset (h : Wider gap s s') (hs : s.Acyclic) (d : Clause.Draft) (t : Ref) :
    Clause.Draft.termOffset s' (gap.draft d) (gap.ref t) =
      ((Clause.Draft.termOffset s d t).1, gap.draft (Clause.Draft.termOffset s d t).2) := by
  have hfound : (gap.draft d).table.findIdx? (s'.isTerm (gap.ref t)) =
      d.table.findIdx? (s.isTerm t) := by
    rw [Gap.draft, List.findIdx?_map]
    congr 1
    funext e
    cases e with
    | term u => exact h.same hs t u
    | procedure pi => rfl
  rw [termOffset_eq, termOffset_eq, hfound]
  rcases d.table.findIdx? (s.isTerm t) with _ | n
  · simp [Gap.draft, Gap.entry]
  · rfl

theorem draft_procedureOffset (d : Clause.Draft) (pi : Indicator) :
    (gap.draft d).procedureOffset pi =
      ((d.procedureOffset pi).1, gap.draft (d.procedureOffset pi).2) := by
  have hidx := idxOf?_map gap.entry_injective d.table (.procedure pi)
  simp only [Clause.Draft.procedureOffset]
  rw [show (gap.draft d).table.idxOf? (.procedure pi) = d.table.idxOf? (.procedure pi) from hidx]
  split
  · rfl
  · simp [Gap.draft, Gap.entry]

theorem Wider.argument (h : Wider gap s s') (hs : s.Acyclic) (d : Clause.Draft) (t : Ref) :
    Clause.Draft.argument s' (gap.draft d) (gap.ref t) = gap.draft (Clause.Draft.argument s d t) := by
  have hfold : ∀ (vs : List Ref) (d : Clause.Draft),
      (vs.map gap.ref).foldl (fun d v => (d.slot v).2) (gap.draft d) =
        gap.draft (vs.foldl (fun d v => (d.slot v).2) d) := by
    intro vs
    induction vs with
    | nil => exact fun _ => rfl
    | cons v vs ih =>
      intro d
      rw [List.map_cons, List.foldl_cons, List.foldl_cons, draft_slot]
      exact ih _
  simp only [Clause.Draft.argument, h.deref hs, h.view hs, h.freeVars hs, hfold]
  rcases s.view (s.deref t) with v | l | ⟨name, args⟩
  · simp only [Gap.view, draft_slot, draft_emit]
  · simp only [Gap.view, h.termOffset hs, draft_emit]
  · simp only [Gap.view, h.termOffset hs, draft_emit]

theorem draft_callProcedure (d : Clause.Draft) (pi : Indicator) :
    (gap.draft d).callProcedure pi = gap.draft (d.callProcedure pi) := by
  simp only [Clause.Draft.callProcedure, draft_procedureOffset, draft_emit]

theorem Wider.arguments (h : Wider gap s s') (hs : s.Acyclic) (d : Clause.Draft) (ts : List Ref) :
    (ts.map gap.ref).foldl (Clause.Draft.argument s') (gap.draft d) =
      gap.draft (ts.foldl (Clause.Draft.argument s) d) := by
  induction ts generalizing d with
  | nil => rfl
  | cons t ts ih =>
    rw [List.map_cons, List.foldl_cons, List.foldl_cons, h.argument hs]
    exact ih _

theorem Wider.goal (h : Wider gap s s') (hs : s.Acyclic) (d : Clause.Draft) (t : Ref) :
    Clause.Draft.goal s' (gap.draft d) (gap.ref t) =
      gap.except gap.draft (Clause.Draft.goal s d t) := by
  rw [Clause.Draft.goal, Clause.Draft.goal, h.view hs]
  rcases s.view t with v | l | ⟨name, args⟩
  · exact congrArg Except.ok (by rw [h.argument hs, draft_callProcedure])
  · cases l with
    | atom name => exact congrArg Except.ok (draft_callProcedure d ⟨name, 0⟩)
    | _ => exact congrArg Except.error (h.typeError hs .callable t)
  · refine congrArg Except.ok ?_
    rw [h.arguments hs, draft_callProcedure, List.length_map]

theorem Wider.goals (h : Wider gap s s') (hs : s.Acyclic) (d : Clause.Draft) (ts : List Ref) :
    (ts.map gap.ref).foldlM (Clause.Draft.goal s') (gap.draft d) =
      gap.except gap.draft (ts.foldlM (Clause.Draft.goal s) d) := by
  induction ts generalizing d with
  | nil => rfl
  | cons t ts ih =>
    rw [List.map_cons, List.foldlM_cons, List.foldlM_cons]
    exact gap.except_bind gap.draft gap.draft (h.goal hs d t) ih

/-- **A clause is compiled to the same instructions.** -/
theorem Wider.compile (h : Wider gap s s') (hs : s.Acyclic) (t : Ref) :
    Clause.compile s' (gap.ref t) = gap.except gap.clause (Clause.compile s t) := by
  simp only [Clause.compile, h.isVar hs, h.headBody hs, h.deref hs]
  cases s.isVar t with
  | true => rfl
  | false =>
    refine gap.except_bind id gap.clause (h.headIndicator hs _) fun pi => ?_
    simp only [h.args hs]
    have hargs := h.arguments hs {} (s.args (Clause.headBody s t).1)
    rw [show gap.draft {} = {} from rfl] at hargs
    rw [hargs]
    rcases (Clause.headBody s t).2 with _ | body
    · rfl
    · simp only [Option.map_some, h.operands hs, draft_emit]
      exact gap.except_bind gap.draft gap.clause (h.goals hs _ _) fun d => rfl

end Store

namespace Clause

open Store

variable {gap : Gap} {c : Clause} {act act' : Activation} {s s' : Store} {t : Ref}

/-! ## Entering a clause -/

/-- What a part of entering a clause gives, and the activation after it, are those of the wider
store. -/
structure Widens {α : Type} (gap : Gap) (φ : α → α) (r r' : α × Activation) : Prop where
  /-- What it gives. -/
  value : r'.1 = φ r.1
  /-- The fresh variables. -/
  frame : r'.2.frame = r.2.frame.map gap.ref
  /-- The stores. -/
  store : Wider gap r.2.store r'.2.store
  /-- What stands for the clause's variables. -/
  fresh : r'.2.fresh = gap.entries r.2.fresh

/-- The activation in the wider store. -/
def ActsWide (gap : Gap) (act act' : Activation) : Prop := Widens gap id ((), act) ((), act')

theorem Widens.activation {α : Type} {φ : α → α} {r r' : α × Activation} (h : Widens gap φ r r') :
    ActsWide gap r.2 r'.2 :=
  ⟨rfl, h.frame, h.store, h.fresh⟩

theorem ActsWide.widens {α : Type} {φ : α → α} (h : ActsWide gap act act') {a a' : α} (ha : a' = φ a) :
    Widens gap φ (a, act) (a', act') :=
  ⟨ha, h.frame, h.store, h.fresh⟩

theorem ActsWide.withStore (h : ActsWide gap act act') (hs : Wider gap s s') :
    ActsWide gap { act with store := s } { act' with store := s' } :=
  ⟨rfl, h.frame, hs, h.fresh⟩

theorem term?_clause (gap : Gap) (c : Clause) (n : Nat) :
    (gap.clause c).term? n = (c.term? n).map gap.ref := by
  simp only [term?, Gap.clause, List.getElem?_map]
  rcases c.table[n]? with _ | ⟨t | pi⟩ <;> rfl

theorem procedure?_clause (gap : Gap) (c : Clause) (n : Nat) :
    (gap.clause c).procedure? n = c.procedure? n := by
  simp only [procedure?, Gap.clause, List.getElem?_map]
  rcases c.table[n]? with _ | ⟨t | pi⟩ <;> rfl

theorem widens_operand (h : ActsWide gap act act') (hgood : act.Good) (hc : c.InRange act.store)
    (i : Instruction) :
    Widens gap (Option.map gap.ref) (c.operand act i) ((gap.clause c).operand act' i) := by
  cases i with
  | const n =>
    rcases hterm : c.term? n with _ | template
    · simp only [operand, term?_clause, hterm, Option.map_none]
      exact h.widens rfl
    · have hcopy := h.store.copyWith hgood.wellFormed hgood.inRange (hc.term?_lt hterm)
      rw [← h.fresh] at hcopy
      obtain ⟨frame, s, fresh⟩ := act
      obtain ⟨frame', s', fresh'⟩ := act'
      simp only [operand, term?_clause, hterm, Option.map_some]
      exact ⟨congrArg some hcopy.value, h.frame, hcopy.store, hcopy.fresh⟩
  | var n =>
    refine h.widens ?_
    rw [h.frame, List.getElem?_map]
  | _ => exact h.widens rfl

theorem widens_matchHead (h : ActsWide gap act act') (hgood : act.Good) (hc : c.InRange act.store)
    (args : List Ref) (hargs : ∀ a ∈ args, a.index < act.store.size) (code : List Instruction) :
    Widens gap id (c.matchHead act code args)
      ((gap.clause c).matchHead act' code (args.map gap.ref)) := by
  induction code generalizing act act' args with
  | nil =>
    have hnone : ∀ (c : Clause) (act : Activation) (args : List Ref),
        c.matchHead act [] args = (none, act) := by
      intro c act args
      rw [matchHead] <;> intros <;> contradiction
    rw [hnone, hnone]
    exact h.widens rfl
  | cons i code ih =>
    by_cases hexit : i = .exit
    · subst hexit
      exact h.widens rfl
    by_cases henter : i = .enter
    · subst henter
      exact h.widens rfl
    rcases args with _ | ⟨arg, args⟩
    · have hnone : ∀ (c : Clause) (act : Activation), c.matchHead act (i :: code) [] = (none, act) := by
        intro c act
        cases i <;> first | rfl | contradiction
      rw [List.map_nil, hnone, hnone]
      exact h.widens rfl
    rw [List.forall_mem_cons] at hargs
    have hyields := yields_operand hgood hc i
    have hwide := widens_operand h hgood hc i
    rw [List.map_cons, matchHead_operand hexit henter, matchHead_operand hexit henter]
    generalize c.operand act i = r at hyields hwide
    generalize (gap.clause c).operand act' i = r' at hwide
    obtain ⟨o, act₁⟩ := r
    obtain ⟨o', act₁'⟩ := r'
    obtain rfl : o' = o.map gap.ref := hwide.value
    rcases o with _ | t
    · exact hwide.activation.widens rfl
    · have hadv := hyields.advances
      have harg := Nat.lt_of_lt_of_le hargs.1 hadv.size_le
      have hu := unifies_unify hadv.good.wellFormed harg (hyields.lt t rfl)
      obtain ⟨hadv', -⟩ := hyields.unifies hgood rfl hu hargs.1
      have hunify := hwide.store.unify hadv.good.wellFormed harg (hyields.lt t rfl)
      dsimp only [Option.map_some]
      generalize act₁.store.unify arg t = u at hunify hadv'
      generalize act₁'.store.unify (gap.ref arg) (gap.ref t) = u' at hunify
      obtain ⟨ok, s⟩ := u
      obtain ⟨ok', s'⟩ := u'
      obtain rfl : ok' = ok := hunify.value
      have hnext := hwide.activation.withStore hunify.store
      cases ok' with
      | false => exact hnext.widens rfl
      | true =>
        exact ih hnext hadv'.good (hc.mono hadv'.size_le) args fun a ha =>
          Nat.lt_of_lt_of_le (hargs.2 a ha) hadv'.size_le

theorem widens_buildBody (h : ActsWide gap act act') (hgood : act.Good) (hc : c.InRange act.store)
    (pushed goals : List Ref) (hlt : ∀ t ∈ pushed, t.index < act.store.size)
    (code : List Instruction) :
    Widens gap (Option.map (List.map gap.ref)) (c.buildBody act pushed goals code)
      ((gap.clause c).buildBody act' (pushed.map gap.ref) (goals.map gap.ref) code) := by
  induction code generalizing act act' pushed goals with
  | nil => exact h.widens rfl
  | cons i code ih =>
    by_cases hexit : i = .exit
    · subst hexit
      refine h.widens ?_
      rw [Option.map_some, List.map_reverse]
    by_cases hcall : ∃ n, i = .call n
    · obtain ⟨n, rfl⟩ := hcall
      rcases hpi : c.procedure? n with _ | pi
      · simp only [buildBody, procedure?_clause, hpi]
        exact h.widens rfl
      · have hpi' : (gap.clause c).procedure? n = some pi := (procedure?_clause gap c n).trans hpi
        rw [buildBody_call hpi, buildBody_call hpi']
        have hgrows := grows_apply act.store pi.name pushed.reverse
        have hadv := Activation.advances_store hgood hgrows (hgood.wellFormed.apply pi.name fun t ht =>
          hlt t (List.mem_reverse.mp ht)) fun ht => ht.apply pi.name pushed.reverse
        have happly := Shifting.apply h.store pi.name pushed.reverse
        rw [List.map_reverse] at happly
        have hrest := ih (h.withStore happly.store) hadv.good (hc.mono hgrows.size_le) []
          ((act.store.apply pi.name pushed.reverse).1 :: goals) (List.forall_mem_nil _)
        rw [List.map_cons, ← happly.value] at hrest
        exact hrest
    · have hyields := yields_operand hgood hc i
      have hwide := widens_operand h hgood hc i
      rw [buildBody_operand hexit fun n hn => hcall ⟨n, hn⟩,
        buildBody_operand hexit fun n hn => hcall ⟨n, hn⟩]
      generalize c.operand act i = r at hyields hwide
      generalize (gap.clause c).operand act' i = r' at hwide
      obtain ⟨o, act₁⟩ := r
      obtain ⟨o', act₁'⟩ := r'
      obtain rfl : o' = o.map gap.ref := hwide.value
      rcases o with _ | t
      · exact hwide.activation.widens rfl
      · refine ih hwide.activation hyields.advances.good (hc.mono hyields.grows.size_le) (t :: pushed)
          goals ?_
        rw [List.forall_mem_cons]
        exact ⟨hyields.lt t rfl, fun u hu => Nat.lt_of_lt_of_le (hlt u hu) hyields.grows.size_le⟩

theorem widens_freshFrame (h : Wider gap s s') (vars : List Ref) :
    Store.Widens (Store.Wider gap) (List.map gap.ref) (freshFrame s vars) (freshFrame s' (vars.map gap.ref)) := by
  induction vars generalizing s s' with
  | nil => exact ⟨rfl, h⟩
  | cons v vars ih =>
    have hvar := Shifting.var h none
    have hrest := ih hvar.store
    exact ⟨congrArg₂ List.cons hvar.value hrest.value, hrest.store⟩

theorem actsWide_begin (h : Wider gap s s') (c : Clause) :
    ActsWide gap (c.begin s) ((gap.clause c).begin s') := by
  have hframe := widens_freshFrame h c.vars
  refine ⟨rfl, hframe.value, hframe.store, ?_⟩
  show (c.vars.map gap.ref).zip (freshFrame s' (c.vars.map gap.ref)).1 =
    gap.entries (c.vars.zip (freshFrame s c.vars).1)
  rw [hframe.value, Gap.entries, List.zip_map]
  rfl

/-- **A clause is entered in the same way.** -/
theorem widens_enter (h : Wider gap s s') (hs : s.WellFormed) (hc : c.InRange s) (t : Ref) :
    Store.Widens (Store.Wider gap) (Option.map (List.map gap.ref)) (c.enter t s)
      ((gap.clause c).enter (gap.ref t) s') := by
  have hgood := good_begin hs c
  have hgrows := grows_begin hs c
  have hbegin := actsWide_begin h c
  have hargs := hbegin.store.args hgood.wellFormed.acyclic t
  have hlt := hgood.wellFormed.args_lt t
  have hmatch := matches_matchHead hgood (hc.mono hgrows.size_le) _ hlt c.code
  have hwide := widens_matchHead hbegin hgood (hc.mono hgrows.size_le) _ hlt c.code
  rw [enter_eq, enter_eq]
  rw [← hargs] at hwide
  have hcode : (gap.clause c).code = c.code := rfl
  rw [hcode]
  generalize c.matchHead (c.begin s) c.code ((c.begin s).store.args t) = r at hmatch hwide
  generalize (gap.clause c).matchHead ((gap.clause c).begin s') c.code _ = r' at hwide
  obtain ⟨o, act₁⟩ := r
  obtain ⟨o', act₁'⟩ := r'
  obtain rfl : o' = o := hwide.value
  rcases o' with _ | code
  · exact ⟨rfl, hwide.store⟩
  · have hbody := widens_buildBody hwide.activation hmatch.advances.good
      (hc.mono (hgrows.size_le.trans hmatch.advances.size_le)) [] [] (List.forall_mem_nil _) code
    exact ⟨hbody.value, hbody.store⟩

end Clause

end Clausal
