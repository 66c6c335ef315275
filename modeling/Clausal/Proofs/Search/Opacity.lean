import Clausal.Proofs.Machine.Ledger
import Clausal.Proofs.Search.Refinement
import Clausal.Proofs.Search.Wrapping

/-! # Variables for goals

A variable that is a conjunct of a body is called through `call/1`, so cuts of the goal that it is bound
to are local.  A variable deeper in the body, among the goals that a control construct is made of, is
proved as if that goal were written in its place: a cut in it cuts off the clauses of the predicate
(`search_cut_through`).

Calling such variables makes no difference to a search unless a goal that comes up in their place cuts,
or turns a disjunction into a condition (`Intact.search_wrapped`).
-/

namespace Clausal

open Store

namespace Tree

variable {V : Type} {t t' : Tree V}

/-- The second clause is the first one in which some of the variables in goal position in the body are
called through `call/1`. -/
inductive WrapsClause : Tree V → Tree V → Prop
  /-- No variable is. -/
  | same (t : Tree V) : WrapsClause t t
  /-- In the body of a rule. -/
  | rule (head : Tree V) {body body' : Tree V} (h : Wraps IsVariable body body') :
    WrapsClause (.compound ":-" [head, body]) (.compound ":-" [head, body'])

theorem WrapsClause.wraps (h : WrapsClause t t') : t.rule.Wraps t'.rule := by
  cases h with
  | same => exact ⟨rfl, List.forall₂_same.mpr fun u _ => .same u⟩
  | rule head h => exact ⟨rfl, h.conjuncts.imp fun u u' hu => hu.imp fun _ _ => trivial⟩

end Tree

/-- The second definition has the same clauses, in which some of the variables in goal position are
called through `call/1`. -/
inductive Procedure.Wraps (s : Store) : Procedure → Procedure → Prop
  /-- What is built in. -/
  | builtin (b : Builtin) : Wraps s (.builtin b) (.builtin b)
  /-- What is defined by clauses. -/
  | defined {p p' : Predicate} (clauses : List.Forall₂ (fun c c' =>
      Tree.WrapsClause ((s.undoTo 0).resolve c.raw) ((s.undoTo 0).resolve c'.raw)) p.clauses p'.clauses) :
    Wraps s (.defined p) (.defined p')

theorem Procedure.Wraps.refl (s : Store) (proc : Procedure) : proc.Wraps s proc := by
  cases proc with
  | builtin b => exact .builtin b
  | defined p => exact .defined (List.forall₂_same.mpr fun c _ => .same _)

/-- Adding either of two clauses to a database. -/
theorem Database.wraps_append {db db₁ db₂ : Database} {load : Nat} {c c' : Clause} {s : Store}
    (hpi : c'.pi = c.pi)
    (hraw : Tree.WrapsClause ((s.undoTo 0).resolve c.raw) ((s.undoTo 0).resolve c'.raw))
    (h₁ : db.append load c = .ok db₁) (h₂ : db.append load c' = .ok db₂) (pi : Indicator) :
    Option.Rel (Procedure.Wraps s) (db₁.find? pi) (db₂.find? pi) := by
  have hchanges₁ := changes_update h₁
  have hchanges₂ := changes_update h₂
  rw [hpi] at hchanges₂
  by_cases heq : pi = c.pi
  · rw [heq, hchanges₁.self, hchanges₂.self]
    refine .some (.defined (List.rel_append ?_ (.cons hraw .nil)))
    exact List.forall₂_same.mpr fun d _ => .same _
  · rw [hchanges₁.other pi heq, hchanges₂.other pi heq]
    rcases db.find? pi with _ | proc
    · exact .none
    · exact .some (.refl s proc)

/-- A predicate of which nothing is known yet begins with the clause that is added. -/
theorem Database.append_of_find?_eq_none {db : Database} {c : Clause} (load : Nat)
    (h : db.find? c.pi = none) : ∃ db', db.append load c = .ok db' ∧
      db'.find? c.pi = some (.defined { clauses := [c], load := some load }) := by
  have htouch : db.touch load c.pi =
      .ok ({ load := some load }, db.insert c.pi (.defined { load := some load })) := by
    rw [touch, h]
    rfl
  rw [append, update, htouch]
  refine ⟨_, rfl, ?_⟩
  rw [find?_insert, if_pos rfl]
  rfl

namespace Machine

open Reference Search

variable {m m' : Machine} {t : Ref}

theorem program_wraps (hstore : m'.store = m.store)
    (hdb : ∀ pi, Option.Rel (Procedure.Wraps m.store) (m.database.find? pi) (m'.database.find? pi))
    (pi : Indicator) : (m.program pi).Wraps (m'.program pi) := by
  have hpi := hdb pi
  unfold program
  generalize m.database.find? pi = proc at hpi
  generalize m'.database.find? pi = proc' at hpi
  cases hpi with
  | none => exact .same _
  | some h =>
    cases h with
    | builtin b => exact .same _
    | defined clauses =>
      refine .rules ?_
      rw [hstore, List.forall₂_map_left_iff, List.forall₂_map_right_iff]
      exact clauses.imp fun c c' hc => hc.wraps

/-- Where a search halts, a search that comes to the same outcomes halts, and shows the same. -/
theorem Intact.shows_alike (h : m.Intact m.store ∅ [t]) (h' : m'.Intact m'.store ∅ [t])
    (hstore : m'.store = m.store) (ht : t.index < m.store.size)
    (hctx : m.cancelled.contains m.context = false) (hctx' : m'.cancelled.contains m'.context = false)
    (hown : ∀ pi, ¬ ComesTo m.program (query m.store t) (.foreign pi))
    (hcomes : ∀ o, ComesTo m.program (query m.store t) o → ComesTo m'.program (query m.store t) o)
    (solve : Ref → MachineM Bool) (fuel : Nat)
    (hhalts : ∀ m₁, first (Builtin.run solve) fuel t m ≠ .error .outOfFuel m₁) :
    ∃ o enough, Shows m.store t (first (Builtin.run solve) fuel t m) o ∧
      ∀ fuel', enough ≤ fuel' → Shows m.store t (first (Builtin.run solve) fuel' t m') o := by
  rcases ho : (prove m.program fuel 0 (query m.store t)).outcome? with _ | o
  · obtain ⟨m₁, hm₁⟩ := first_of_unfinished h ht hctx solve ho (Nat.le_refl fuel)
    exact absurd hm₁ (hhalts m₁)
  have hforeign : ∀ pi, o ≠ .foreign pi := by
    rintro pi rfl
    exact hown pi ⟨fuel, ho⟩
  obtain ⟨j, hshort, hlong⟩ := first_of_outcome h ht hctx solve ho hforeign
  have hle : j ≤ fuel := by
    by_contra hlt
    obtain ⟨m₁, hm₁⟩ := hshort fuel (Nat.lt_of_not_le hlt)
    exact hhalts m₁ hm₁
  obtain ⟨depth, ho'⟩ := hcomes o ⟨fuel, ho⟩
  rw [← hstore] at ho' ht
  obtain ⟨enough, -, hlong'⟩ := first_of_outcome h' ht hctx' solve ho' hforeign
  rw [hstore] at hlong'
  exact ⟨o, enough, hlong fuel hle, hlong'⟩

/-- **Where no goal that comes up for a variable cuts, calling the variables through `call/1` makes no
difference.**  Take two machines with the same store, whose databases have the same clauses, but that in
the bodies of the second one some of the variables in goal position are called through `call/1`, and a
goal that is not taken from stored clauses.  Suppose that apart from control constructs, predicates with
clauses and equality nothing is called before the first answer, and that in the search none of the
variables stands for a goal that cuts, unless it is a condition or negated, or for an implication to the
left of a disjunction.

Then the search on either machine halts only if it does on the other one, and both show the same outcome:
they succeed with the same bindings, up to the names of new variables, or fail, or report the same
error. -/
theorem Intact.search_wrapped (h : m.Intact m.store ∅ [t]) (h' : m'.Intact m'.store ∅ [t])
    (hstore : m'.store = m.store)
    (hdb : ∀ pi, Option.Rel (Procedure.Wraps m.store) (m.database.find? pi) (m'.database.find? pi))
    (ht : t.index < m.store.size) (hctx : m.cancelled.contains m.context = false)
    (hctx' : m'.cancelled.contains m'.context = false)
    (hown : ∀ pi, ¬ ComesTo m.program (query m.store t) (.foreign pi))
    (hindifferent : Indifferent m.program m'.program (query m.store t)) (solve : Ref → MachineM Bool)
    (fuel : Nat) :
    ((∀ m₁, first (Builtin.run solve) fuel t m ≠ .error .outOfFuel m₁) → ∃ o enough,
      Shows m.store t (first (Builtin.run solve) fuel t m) o ∧
      ∀ fuel', enough ≤ fuel' → Shows m.store t (first (Builtin.run solve) fuel' t m') o) ∧
    ((∀ m₁, first (Builtin.run solve) fuel t m' ≠ .error .outOfFuel m₁) → ∃ o enough,
      Shows m.store t (first (Builtin.run solve) fuel t m') o ∧
      ∀ fuel', enough ≤ fuel' → Shows m.store t (first (Builtin.run solve) fuel' t m) o) := by
  have hiff : ∀ o, ComesTo m'.program (query m.store t) o ↔ ComesTo m.program (query m.store t) o :=
    fun o => comesTo_wrapped (program_wraps hstore hdb) hindifferent
  constructor
  · exact h.shows_alike h' hstore ht hctx hctx' hown (fun o => (hiff o).mpr) solve fuel
  · have hback := h'.shows_alike h hstore.symm (hstore ▸ ht) hctx' hctx
    rw [hstore] at hback
    exact hback (fun pi ho => hown pi ((hiff _).mp ho)) (fun o => (hiff o).mp) solve fuel

/-- Calling variables makes no difference on a machine whose terms mention neither the cut nor an
implication. -/
theorem Sound.indifferent (hm : m.Sound) (hbuiltins : ∀ pi b, m.database.find? pi = some (.builtin b) →
      (b = .unify ∧ pi.arity = 2) ∨ (pi.name ≠ "call" ∧ pi.name ∉ m.store.names))
    (hcut : "!" ∉ m.store.names) (harrow : "->" ∉ m.store.names) (P' : Program) (t : Ref) :
    Indifferent m.program P' (query m.store t) := by
  have hunmentioned : ∀ name, name ≠ "call" → name ∉ m.store.names → ¬ m.Mentions name := by
    intro name hcall hname hmentions
    exact hmentions.elim hcall hname
  exact indifferent_of_over (hm.program_over hbuiltins) (hunmentioned "!" (by decide) hcut)
    (hm.query_over t) (hunmentioned "->" (by decide) harrow)

/-! ## Two machines with a rule -/

/-- A further clause, compiled from a detached term. -/
theorem Sound.settles_append (hm : m.Sound) {n load : Nat} {c : Clause} {db : Database}
    (ht : m.store.Detached n t) (hcompile : Clause.compile m.store t = .ok c)
    (hdb : m.database.append load c = .ok db) : Settles n m { m with database := db } := by
  obtain ⟨hfaithful, hvars⟩ := Clause.faithful_of_compile hm.wellFormed hm.trailed ht hcompile
  have hcases : ∀ pi c', db.Holds pi c' → m.database.Holds pi c' ∨ (pi = c.pi ∧ c' = c) := by
    intro pi c' hc'
    exact Database.holds_of_append hdb hc'
  refine ⟨⟨hm.wellFormed, hm.trailed, ?_, ?_⟩, .refl _, ?_⟩
  · intro pi c' hc'
    obtain hold | ⟨rfl, rfl⟩ := hcases pi c' hc'
    · exact hm.faithful pi c' hold
    · exact hfaithful
  · intro pi c' hc'
    obtain hold | ⟨rfl, rfl⟩ := hcases pi c' hc'
    · exact hm.filed pi c' hold
    · rfl
  · intro pi c' hc'
    refine (hcases pi c' hc').imp id ?_
    rintro ⟨rfl, rfl⟩ v hv
    exact ⟨(hvars v hv).1, (hvars v hv).2.1⟩

/-- Variables of clauses are not reached from a new term. -/
theorem Clear.allocates {D : Set Ref} (h : m.Clear D []) {s : Store} {r : Ref × Store}
    (hr : Allocates m.store s r) : Clear D [r.1] { m with store := r.2 } := by
  intro pi c hc v hv hD
  have hfree := (h pi c hc v hv hD).1
  refine ⟨hr.adds.grows.free_of_nil hfree, List.forall_mem_singleton.mpr ?_⟩
  intro hreach
  obtain ⟨name, hcell⟩ := hfree
  exact Nat.not_lt.mpr (hr.detached.le v hreach) (index_lt_of_cell? hcell)

/-- A machine with a clause, in front of a new goal. -/
theorem Session.intact_append (hm : Session m) {n load : Nat} {u : Ref} {c : Clause} {db : Database}
    (hu : m.store.Detached n u) (hcompile : Clause.compile m.store u = .ok c)
    (hdb : m.database.append load c = .ok db) {r : Ref × Store} (hr : Allocates m.store m.store r) :
    Intact r.2 ∅ [r.1] { m with store := r.2, database := db } := by
  have hsettles := hm.sound.1.settles_append hu hcompile hdb
  have hclear : Clear ∅ [] { m with database := db } := hm.sound.2.settle hsettles
  exact ⟨(hsettles.sound.settles_adds hr.adds 0).sound, .refl _, hclear.allocates hr⟩

/-- A rule `p(G) :- ( G ; true )`, and the rule in which the variable is called, are proved alike for an
equation. -/
theorem search_wrapped_equation : ∃ m m' t m₁ o enough,
    m.Intact m.store ∅ [t] ∧ m'.Intact m'.store ∅ [t] ∧ m'.store = m.store ∧
    (∀ pi, Option.Rel (Procedure.Wraps m.store) (m.database.find? pi) (m'.database.find? pi)) ∧
    m.program ⟨"p", 1⟩ ≠ m'.program ⟨"p", 1⟩ ∧
    first (Builtin.run (solve 8)) 64 t m = .ok true m₁ ∧ Shows m.store t (.ok true m₁) o ∧
    ∀ fuel, enough ≤ fuel → Shows m.store t (first (Builtin.run (solve 8)) fuel t m') o := by
  let rule : Term → Term := fun goal =>
    .compound ":-" [.compound "p" [.var ⟨0, none⟩], .compound ";" [goal, .atom "true"]]
  let rules := (build [] [] true).store.build
    (.compound "both" [rule (.var ⟨0, none⟩), rule (.compound "call" [.var ⟨0, none⟩])])
  let m₀ : Machine := { build [] [] true with store := rules.2 }
  let goal := m₀.store.build (.compound "p" [.compound "=" [.var ⟨0, none⟩, .atom "a"]])
  have hmade : ∀ {name : String} {x : Term}, x.WellMade → (Term.compound name [x]).WellMade := by
    intro name x hx
    exact .compound (List.cons_ne_nil _ _) (List.forall_mem_singleton.mpr hx)
  have hmade₂ : ∀ {name : String} {x y : Term}, x.WellMade → y.WellMade →
      (Term.compound name [x, y]).WellMade := by
    intro name x y hx hy
    exact .compound (List.cons_ne_nil _ _)
      (List.forall_mem_cons.mpr ⟨hx, List.forall_mem_singleton.mpr hy⟩)
  have hatom : ∀ name, (Term.atom name).WellMade := fun name => .literal trivial
  have hrule : ∀ goal : Term, goal.WellMade → (rule goal).WellMade := fun goal hgoal =>
    hmade₂ (hmade (.var _)) (hmade₂ hgoal (hatom "true"))
  have hrules : Allocates _ _ rules := (Adds.refl (Session.build [] [] true).sound.1.wellFormed).build
    (hmade₂ (hrule _ (.var _)) (hrule _ (hmade (.var _))))
  have hm₀ : Session m₀ := (Session.build [] [] true).allocate hrules.adds
  have hgoal : Allocates m₀.store m₀.store goal :=
    (Adds.refl hm₀.sound.1.wellFormed).build (hmade (hmade₂ (.var _) (hatom "a")))
  -- The rules are the terms at 4 and 9, and their bodies are those at 3 and 8.
  have hboth : m₀.store.cell? rules.1 = some (.compound "both" [⟨4⟩, ⟨9⟩]) := by decide +kernel
  have hdetached : ∀ t ∈ [⟨4⟩, ⟨9⟩], m₀.store.Detached 0 t := fun t ht =>
    hrules.detached.of_reaches hrules.adds.wellFormed (.single (.arg hboth ht))
  have hcells : (goal.2.undoTo 0).cell? ⟨4⟩ = some (.compound ":-" [⟨1⟩, ⟨3⟩]) ∧
      (goal.2.undoTo 0).cell? ⟨1⟩ = some (.compound "p" [⟨0⟩]) ∧
      (goal.2.undoTo 0).cell? ⟨3⟩ = some (.compound ";" [⟨0⟩, ⟨2⟩]) ∧
      (goal.2.undoTo 0).cell? ⟨2⟩ = some (.literal (.atom "true")) := by decide +kernel
  have hcells' : (goal.2.undoTo 0).cell? ⟨9⟩ = some (.compound ":-" [⟨5⟩, ⟨8⟩]) ∧
      (goal.2.undoTo 0).cell? ⟨5⟩ = some (.compound "p" [⟨0⟩]) ∧
      (goal.2.undoTo 0).cell? ⟨8⟩ = some (.compound ";" [⟨6⟩, ⟨7⟩]) ∧
      (goal.2.undoTo 0).cell? ⟨6⟩ = some (.compound "call" [⟨0⟩]) ∧
      (goal.2.undoTo 0).cell? ⟨7⟩ = some (.literal (.atom "true")) := by decide +kernel
  have hfree : (goal.2.undoTo 0).cell? ⟨0⟩ = some (.var none none) := by decide +kernel
  -- What the search comes to is seen while the clause is at hand.
  obtain ⟨c, hc, hpi, hraw, hfound⟩ : ∃ c, Clause.compile m₀.store ⟨4⟩ = .ok c ∧
      c.pi = ⟨"p", 1⟩ ∧ c.raw = ⟨4⟩ ∧ ∀ db ∈ (m₀.database.append 0 c).toOption,
        (value? (first (Builtin.run (solve 8)) 64 goal.1
          { m₀ with store := goal.2, database := db })).map Prod.fst = some true :=
    exists_ok_of_any (by decide +kernel)
  obtain ⟨c', hc', hpi', hraw'⟩ : ∃ c', Clause.compile m₀.store ⟨9⟩ = .ok c' ∧
      c'.pi = ⟨"p", 1⟩ ∧ c'.raw = ⟨9⟩ := exists_ok_of_any (by decide +kernel)
  have hentries : m₀.database.entries = [(⟨"throw", 1⟩, .builtin .throw), (⟨"=", 2⟩, .builtin .unify),
      (⟨"consult", 1⟩, .builtin .consult)] := by rfl
  have hctx : m₀.cancelled.contains m₀.context = false := by rfl
  have hnames : ∀ name ∈ ["!", "->", "throw", "consult"], name ∉ goal.2.names := by decide +kernel
  clear_value goal m₀
  have hnone : m₀.database.find? ⟨"p", 1⟩ = none := by
    rw [Database.find?, hentries]
    rfl
  obtain ⟨db, hdb, hfind⟩ := Database.append_of_find?_eq_none 0 (hpi ▸ hnone)
  obtain ⟨db', hdb', hfind'⟩ := Database.append_of_find?_eq_none 0 (hpi' ▸ hnone)
  rw [hpi] at hfind
  rw [hpi'] at hfind'
  let m : Machine := { m₀ with store := goal.2, database := db }
  let m' : Machine := { m₀ with store := goal.2, database := db' }
  have hm : m.Intact m.store ∅ [goal.1] :=
    hm₀.intact_append (hdetached ⟨4⟩ (by simp)) hc hdb hgoal
  have hm' : m'.Intact m'.store ∅ [goal.1] :=
    hm₀.intact_append (hdetached ⟨9⟩ (by simp)) hc' hdb' hgoal
  have hs : (goal.2.undoTo 0).Acyclic := (hm.sound.wellFormed.undoTo 0).acyclic
  have hplain : (goal.2.undoTo 0).resolve ⟨4⟩ = .compound ":-" [.compound "p" [.var ⟨0⟩],
      .compound ";" [.var ⟨0⟩, .literal (.atom "true")]] := by
    simp [hs.resolve_of_compound hcells.1, hs.resolve_of_compound hcells.2.1,
      hs.resolve_of_compound hcells.2.2.1, resolve_of_literal hcells.2.2.2,
      resolve_of_free ⟨_, hfree⟩, Literal.canon]
  have hcalled : (goal.2.undoTo 0).resolve ⟨9⟩ = .compound ":-" [.compound "p" [.var ⟨0⟩],
      .compound ";" [.compound "call" [.var ⟨0⟩], .literal (.atom "true")]] := by
    simp [hs.resolve_of_compound hcells'.1, hs.resolve_of_compound hcells'.2.1,
      hs.resolve_of_compound hcells'.2.2.1, hs.resolve_of_compound hcells'.2.2.2.1,
      resolve_of_literal hcells'.2.2.2.2, resolve_of_free ⟨_, hfree⟩, Literal.canon]
  have hwraps : ∀ pi, Option.Rel (Procedure.Wraps m.store) (m.database.find? pi)
      (m'.database.find? pi) := by
    intro pi
    refine Database.wraps_append (hpi'.trans hpi.symm) ?_ hdb hdb' pi
    rw [hraw, hraw', hplain, hcalled]
    exact .rule _ (.either (.called ⟨_, rfl⟩) (.same _))
  have hdiffer : m.program ⟨"p", 1⟩ ≠ m'.program ⟨"p", 1⟩ := by
    simp [m, m', program, hfind, hfind', Clause.source, hraw, hraw', hplain, hcalled, Tree.rule,
      Tree.conjuncts, Tree.asCall]
  have hbuiltins : ∀ pi b, m.database.find? pi = some (.builtin b) →
      (b = .unify ∧ pi.arity = 2) ∨ (pi.name ≠ "call" ∧ pi.name ∉ m.store.names) := by
    intro pi b hb
    have hne : pi ≠ c.pi := by
      rintro rfl
      rw [hpi, hfind] at hb
      cases hb
    rw [(Database.changes_update hdb).other pi hne] at hb
    have hmem := Database.mem_of_find? hb
    rw [hentries] at hmem
    simp only [List.mem_cons, List.not_mem_nil, or_false, Prod.mk.injEq, Procedure.builtin.injEq] at hmem
    rcases hmem with ⟨rfl, -⟩ | ⟨rfl, rfl⟩ | ⟨rfl, -⟩
    · exact .inr ⟨by decide, hnames "throw" (by simp)⟩
    · exact .inl ⟨rfl, rfl⟩
    · exact .inr ⟨by decide, hnames "consult" (by simp)⟩
  have hown := hm.sound.not_comesTo_foreign hbuiltins goal.1
  have hindifferent := hm.sound.indifferent hbuiltins (hnames "!" (by simp)) (hnames "->" (by simp))
    m'.program goal.1
  have hresult : first (Builtin.run (solve 8)) 64 goal.1 m = .ok true _ :=
    ok_after (hfound db (by rw [hdb]; rfl))
  have hhalts : ∀ m₁, first (Builtin.run (solve 8)) 64 goal.1 m ≠ .error .outOfFuel m₁ := by
    intro m₁ hm₁
    rw [hresult] at hm₁
    cases hm₁
  obtain ⟨hforward, -⟩ := hm.search_wrapped hm' rfl hwraps hgoal.new.lt hctx hctx hown hindifferent
    (solve 8) 64
  obtain ⟨o, enough, hshows, hmore⟩ := hforward hhalts
  rw [hresult] at hshows
  exact ⟨m, m', goal.1, _, o, enough, hm, hm', rfl, hwraps, hdiffer, hresult, hshows, hmore⟩

/-- A cut in a goal that comes up in a disjunction cuts off the rest of the disjunction, but not if the
goal is called. -/
theorem search_cut_through :
    let m := after (compileText 8 ⟨0⟩ "p(G) :- ( G ; true ). q(G) :- ( call(G) ; true )." [])
      (build [] [] true)
    let goal : String → Ref × Store := fun name =>
      m.store.build (.compound name [.compound "," [.atom "!", .atom "fail"]])
    (solve 64 (goal "p").1).run' { m with store := (goal "p").2 } = some false ∧
      (solve 64 (goal "q").1).run' { m with store := (goal "q").2 } = some true := by
  decide +kernel

end Machine

end Clausal
