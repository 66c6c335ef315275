import Clausal.Proofs.Search.Answering
import Clausal.Proofs.Search.Vocabulary

/-! # Searches refine the reference

What a machine shows of a search is whether it succeeds, with which bindings of the goal's variables,
and which error it ends with.  On a machine of a session, for a goal that is not taken from stored
clauses, that is what the reference search for the goal begins with (`Session.search_refines`): if the
search halts then the reference comes to an outcome, and if the reference comes to an outcome then the
search halts and shows it.
-/

namespace Clausal

open Store

namespace Tree

variable {V : Type} {N : String → Prop} {t : Tree V}

theorem over_conjuncts (h : t.Over N) : ∀ u ∈ t.conjuncts, u.Over N := by
  fun_induction conjuncts t with
  | case1 left right ihl ihr =>
    obtain ⟨-, hargs⟩ := over_compound.mp h
    intro u hu
    rcases List.mem_append.mp hu with hu | hu
    · exact ihl (hargs left (by simp)) u hu
    · exact ihr (hargs right (by simp)) u hu
  | case2 => exact List.forall_mem_singleton.mpr h

theorem over_asCall (h : t.Over N) (hcall : N "call") : t.asCall.Over N := by
  cases t with
  | var v => exact over_compound.mpr ⟨hcall, List.forall_mem_singleton.mpr (over_var v)⟩
  | literal l => exact h
  | compound name args => exact h

/-- The rule that a tree stands for mentions no other names, except that of `call/1`. -/
theorem over_rule (h : t.Over N) (hcall : N "call") : t.rule.head.Over N ∧ ∀ g ∈ t.rule.goals, g.Over N := by
  by_cases hrule : ∃ head body, t = .compound ":-" [head, body]
  · obtain ⟨head, body, rfl⟩ := hrule
    obtain ⟨-, hargs⟩ := over_compound.mp h
    refine ⟨hargs head (by simp), fun g hg => ?_⟩
    obtain ⟨u, hu, rfl⟩ := List.mem_map.mp hg
    exact over_asCall (over_conjuncts (hargs body (by simp)) u hu) hcall
  · rw [rule_of_ne fun head body heq => hrule ⟨head, body, heq⟩]
    exact ⟨h, nofun⟩

end Tree

namespace Store

variable {s : Store} {t : Ref} {N : String → Prop}

/-- The names in a cell. -/
def cellNames : Cell → List String
  | .literal (.atom name) => [name]
  | .compound name _ => [name]
  | _ => []

/-- The names in the cells of a store. -/
def names (s : Store) : List String := s.cells.toList.flatMap cellNames

theorem mem_names {c : Cell} {name : String} (h : s.cell? t = some c) (hname : name ∈ cellNames c) :
    name ∈ s.names :=
  List.mem_flatMap.mpr ⟨c, Array.mem_toList_iff.mpr (Array.mem_of_getElem? h), hname⟩

/-- What stands for a term mentions names of the store. -/
theorem Acyclic.over_resolve (hs : s.Acyclic) (h : ∀ name ∈ s.names, N name) (t : Ref) :
    (s.resolve t).Over N := by
  induction t using hs.induction with
  | h t ih =>
    rcases hc : s.cell? t with _ | ⟨l | ⟨name, args⟩ | ⟨name, _ | u⟩⟩
    · rw [resolve_of_none hc]
      exact Tree.over_var t
    · rw [resolve_of_literal hc]
      cases l with
      | atom name => exact Tree.over_atom.mpr (h name (mem_names hc List.mem_cons_self))
      | small n | big n | float x => exact Tree.over_number nofun
    · rw [hs.resolve_of_compound hc]
      refine Tree.over_compound.mpr ⟨h name (mem_names hc List.mem_cons_self), fun u hu => ?_⟩
      obtain ⟨a, ha, rfl⟩ := List.mem_map.mp hu
      exact ih a (.arg hc ha)
    · rw [resolve_of_free ⟨name, hc⟩]
      exact Tree.over_var t
    · rw [hs.resolve_of_bound hc]
      exact ih u (.binding hc)

/-- Undoing brings in no names. -/
theorem names_undoTo (s : Store) (k : Nat) : ∀ name ∈ (s.undoTo k).names, name ∈ s.names := by
  intro name hname
  obtain ⟨c, hc, hname⟩ := List.mem_flatMap.mp hname
  obtain ⟨i, hi⟩ := Array.mem_iff_getElem?.mp (Array.mem_toList_iff.mp hc)
  have hcell : (s.undoTo k).cell? ⟨i⟩ = some c := hi
  rw [cell?_undoTo] at hcell
  split at hcell
  · obtain ⟨c', hc', rfl⟩ := Option.map_eq_some_iff.mp hcell
    refine mem_names hc' ?_
    cases c' <;> exact hname
  · exact mem_names hcell hname

end Store

namespace Machine

open Reference Search

variable {m : Machine} {t : Ref} {s : Store} {o o' : Outcome}
  {run : Builtin → List Ref → MachineM Bool}

/-- The goal at `t` as the reference sees it: its free variables are those of the query. -/
def query (s : Store) (t : Ref) : Tree Var := (s.resolve t).bind fun v => .var ⟨0, v⟩

/-- The result of a search for the goal at `t`, which began in the store `s`, shows the outcome. -/
inductive Shows (s : Store) (t : Ref) : EStateM.Result Stop Machine Bool → Outcome → Prop
  /-- The variables of the goal are bound as in the answer, up to the names of new variables. -/
  | answer {m' σ} (h : Tree.Variants ((s.resolve t).vars.map fun v => (m'.store.resolve v, σ ⟨0, v⟩))) :
    Shows s t (.ok true m') (.answer σ)
  /-- The goal has failed. -/
  | failure {m'} : Shows s t (.ok false m') .failure
  /-- The goal that cannot be called has been reported. -/
  | refusal {m' r e} (h : r.Reported e) : Shows s t (.error (.error e) m') (.refusal r)

/-- The goal and its variables, with the trees that they stand for in the query. -/
def queried (s : Store) (t : Ref) : Family :=
  (t, query s t) :: (s.resolve t).vars.map fun v => (v, .var ⟨0, v⟩)

/-- **At the beginning terms and trees agree.** -/
theorem agrees_queried (h : m.Intact m.store ∅ [t]) (ht : t.index < m.store.size) :
    Agrees m m.store 0 (queried m.store t) := by
  have hs := h.sound.wellFormed
  have hreach : ∀ v ∈ (m.store.resolve t).vars, m.store.Reaches t v := fun v hv =>
    hs.acyclic.reaches_of_mem_vars hv
  have hrefs : ∀ r ∈ (queried m.store t).refs, m.store.Reaches t r := by
    intro r hr
    rcases List.mem_cons.mp hr with rfl | hr
    · exact .refl
    · obtain ⟨p, hp, rfl⟩ := List.mem_map.mp hr
      obtain ⟨v, hv, rfl⟩ := List.mem_map.mp hp
      exact hreach v hv
  refine ⟨?_, ?_, ?_, fun v => .var ⟨0, v⟩, fun x => .var x.ref, ?_⟩
  · exact h.evolve (h.sound.evolves_parts (List.forall_mem_singleton.mpr ht)
      fun r hr => ⟨t, List.mem_singleton_self t, hrefs r hr⟩)
  · exact fun p hp => hs.lt_of_reaches ht (hrefs p.1 (Family.mem_refs hp))
  · intro p hp x hx
    rcases List.mem_cons.mp hp with rfl | hp
    · obtain ⟨v, -, hx⟩ := Tree.mem_vars_bind.mp hx
      rw [Tree.vars_of_var, List.mem_singleton] at hx
      exact hx ▸ Nat.le_refl 0
    · obtain ⟨v, hv, rfl⟩ := List.mem_map.mp hp
      rw [Tree.vars_of_var, List.mem_singleton] at hx
      exact hx ▸ Nat.le_refl 0
  · intro q hq
    obtain ⟨p, hp, rfl⟩ := List.mem_map.mp hq
    rcases List.mem_cons.mp hp with rfl | hp
    · refine ⟨rfl, ?_⟩
      show (query m.store t).bind _ = _
      rw [query, Tree.bind_bind]
      exact (Tree.bind_congr fun v _ => Tree.bind_of_var _ _).trans (Tree.bind_var _)
    · obtain ⟨v, hv, rfl⟩ := List.mem_map.mp hp
      have hfree : m.store.resolve v = .var v := resolve_of_free (hs.free_of_mem_vars ht hv)
      exact ⟨by rw [hfree, Tree.bind_of_var], (Tree.bind_of_var _ _).trans hfree.symm⟩

/-! ## The vocabulary of a machine -/

/-- The names that a program and the goals on a machine are made of. -/
def Mentions (m : Machine) (name : String) : Prop := name = "call" ∨ name ∈ m.store.names

theorem Sound.query_over (hm : m.Sound) (t : Ref) : (query m.store t).Over m.Mentions :=
  (hm.wellFormed.acyclic.over_resolve (fun _ => .inr) t).bind fun _ => Tree.over_var _

section

variable (hm : m.Sound) (h : ∀ pi b, m.database.find? pi = some (.builtin b) →
  (b = .unify ∧ pi.arity = 2) ∨ (pi.name ≠ "call" ∧ pi.name ∉ m.store.names))
include hm h

/-- The program is over the names that the machine mentions. -/
theorem Sound.program_over : m.program.Over m.Mentions := by
  refine ⟨fun pi hpi hforeign => ?_, fun pi rules hrules r hr => ?_⟩
  · unfold program at hforeign
    split at hforeign
    · cases hforeign
    · rename_i b hfind
      split at hforeign
      · cases hforeign
      · rename_i hb
        obtain ⟨hcall, hmem⟩ := (h pi b hfind).resolve_left hb
        exact hpi.elim hcall hmem
    · cases hforeign
  · unfold program at hrules
    split at hrules
    · cases hrules
    · split at hrules <;> cases hrules
    · cases hrules
      obtain ⟨c, -, rfl⟩ := List.mem_map.mp hr
      refine Tree.over_rule ((hm.wellFormed.undoTo 0).acyclic.over_resolve
        (fun name hname => .inr (names_undoTo m.store 0 name hname)) c.raw) (.inl rfl)

/-- **If no term mentions the name of a built-in predicate other than equality, none is called.** -/
theorem Sound.not_comesTo_foreign (t : Ref) (pi : Indicator) :
    ¬ ComesTo m.program (query m.store t) (.foreign pi) :=
  Reference.not_comesTo_foreign (hm.program_over h) (hm.query_over t) pi

end

/-! ## The search -/

/-- What a search comes to, and after how many steps. -/
theorem outcome_of_unifies (hrun : Unifies run) (h : m.Intact m.store ∅ [t])
    (ht : t.index < m.store.size) (hctx : m.cancelled.contains m.context = false) {depth : Nat}
    (ho : (prove m.program depth 0 (query m.store t)).outcome? = some o)
    (hforeign : ∀ pi, o ≠ .foreign pi) :
    ∃ j, (∀ fuel < j, ∃ m', first run fuel t m = .error .outOfFuel m') ∧
      ∀ fuel, j ≤ fuel → Shows m.store t (first run fuel t m) o := by
  have hagrees := agrees_queried h ht
  let p : Search.Place := ⟨m.store, [], [], 0, queried m.store t⟩
  have hanswered := answered_prove hrun h.sound hctx depth p 0 t _ ⟨trivial, Nat.le_refl 0⟩ hagrees
    List.mem_cons_self
  -- With as many steps as it takes to come to a mode, the search goes on from there.
  have hlong : ∀ {j s' M}, Leads m run j m.store (.running ⟨[.goal t 0], []⟩) s' M →
      ∀ fuel, j ≤ fuel → ∃ rest taken, first run fuel t m =
        M.exec run rest taken { m with store := s' } := by
    intro j s' M hleads fuel hle
    obtain ⟨rest, rfl⟩ := Nat.exists_eq_add_of_le hle
    exact ⟨rest, _, hleads.long rest 0⟩
  have hfailure : ∀ {choices : Choices}, choices = [] →
      (∃ j s', Leads m run j m.store (.running ⟨[.goal t 0], []⟩) s'
        (.turning choices) ∧ Later m.store s') →
      ∃ j, (∀ fuel < j, ∃ m', first run fuel t m = .error .outOfFuel m') ∧
        ∀ fuel, j ≤ fuel → Shows m.store t (first run fuel t m) .failure := by
    rintro choices rfl ⟨j, s', hleads, -⟩
    refine ⟨j, fun fuel hlt => hleads.short fuel 0 hlt, fun fuel hle => ?_⟩
    obtain ⟨rest, taken, hfirst⟩ := hlong hleads fuel hle
    rw [hfirst]
    exact .failure
  rcases hprove : prove m.program depth 0 (query m.store t) with ⟨_ | ⟨answer, later⟩, ending⟩
  · rw [hprove] at hanswered ho
    cases ending with
    | exhausted =>
      cases ho
      exact hfailure rfl hanswered
    | cut =>
      cases ho
      exact hfailure rfl hanswered
    | refused r =>
      cases ho
      obtain ⟨j, e, hrefuses, hreported⟩ := hanswered
      refine ⟨j, fun fuel hlt => hrefuses.short fuel 0 hlt, fun fuel hle => ?_⟩
      obtain ⟨rest, rfl⟩ := Nat.exists_eq_add_of_le hle
      obtain ⟨m', hm'⟩ := hrefuses.long rest 0
      have hfirst : first run (j + rest) t m = .error (.error e) m' := hm'
      rw [hfirst]
      exact .refusal hreported
    | foreign pi =>
      cases ho
      exact absurd rfl (hforeign pi)
    | unfinished => cases ho
  · rw [hprove] at hanswered ho
    cases ho
    obtain ⟨j, s', choices, harrives, -⟩ := hanswered
    refine ⟨j, fun fuel hlt => harrives.leads.short fuel 0 hlt, fun fuel hle => ?_⟩
    obtain ⟨rest, taken, hfirst⟩ := hlong harrives.leads fuel hle
    have hdone : (Mode.running ⟨[], choices⟩).exec run rest taken
        { m with store := s' } = .ok true { m with store := s' } := by
      rw [exec_running]
      cases rest <;> rfl
    rw [hfirst]
    show Shows m.store t ((Mode.running ⟨[], choices⟩).exec _ _ _ _) _
    rw [hdone]
    refine .answer (harrives.agrees.variants.subset fun q hq => ?_)
    obtain ⟨v, hv, rfl⟩ := List.mem_map.mp hq
    refine List.mem_map.mpr ⟨(v, answer.2 ⟨0, v⟩), ?_, rfl⟩
    have hmem := Family.mem_bind (F := queried m.store t) (p := (v, .var ⟨0, v⟩))
      (List.mem_cons_of_mem _ (List.mem_map_of_mem hv)) answer.2
    rwa [Tree.bind_of_var] at hmem

/-- While the reference has not come to an outcome, the search does not halt. -/
theorem unfinished_of_unifies (hrun : Unifies run) (h : m.Intact m.store ∅ [t])
    (ht : t.index < m.store.size) (hctx : m.cancelled.contains m.context = false) {depth fuel : Nat}
    (ho : (prove m.program depth 0 (query m.store t)).outcome? = none) (hfuel : fuel ≤ depth) :
    ∃ m', first run fuel t m = .error .outOfFuel m' := by
  have hanswered := answered_prove hrun h.sound hctx depth ⟨m.store, [], [], 0, queried m.store t⟩ 0 t _
    ⟨trivial, Nat.le_refl 0⟩ (agrees_queried h ht) List.mem_cons_self
  rcases hprove : prove m.program depth 0 (query m.store t) with ⟨_ | ⟨answer, later⟩, ending⟩
  · rw [hprove] at hanswered ho
    cases ending with
    | unfinished => exact hanswered fuel 0 hfuel
    | exhausted | cut | refused | foreign => cases ho
  · rw [hprove] at ho
    cases ho

theorem first_of_outcome (h : m.Intact m.store ∅ [t]) (ht : t.index < m.store.size)
    (hctx : m.cancelled.contains m.context = false) (solve : Ref → MachineM Bool) {depth : Nat}
    (ho : (prove m.program depth 0 (query m.store t)).outcome? = some o)
    (hforeign : ∀ pi, o ≠ .foreign pi) :
    ∃ j, (∀ fuel < j, ∃ m', first (Builtin.run solve) fuel t m = .error .outOfFuel m') ∧
      ∀ fuel, j ≤ fuel → Shows m.store t (first (Builtin.run solve) fuel t m) o :=
  outcome_of_unifies (unifies_run solve) h ht hctx ho hforeign

theorem first_of_unfinished (h : m.Intact m.store ∅ [t]) (ht : t.index < m.store.size)
    (hctx : m.cancelled.contains m.context = false) (solve : Ref → MachineM Bool) {depth fuel : Nat}
    (ho : (prove m.program depth 0 (query m.store t)).outcome? = none) (hfuel : fuel ≤ depth) :
    ∃ m', first (Builtin.run solve) fuel t m = .error .outOfFuel m' :=
  unfinished_of_unifies (unifies_run solve) h ht hctx ho hfuel

/-- **Proof search refines the reference.**  Take a goal that is not taken from stored clauses, on a
machine of a session under a context that is not cancelled, and suppose that apart from control
constructs, predicates with clauses and equality nothing is called before the first answer.

If the search halts, then the reference comes to exactly one outcome, and the search shows it: it has
succeeded with the bindings of the first answer, or failed, or ended with the error for the goal that
the reference refuses.  And if the reference comes to an outcome, then the search halts with enough
fuel, and shows it. -/
theorem Session.search_refines (h : Session m) (hctx : m.cancelled.contains m.context = false)
    (ht : m.Fresh [t]) (hown : ∀ pi, ¬ ComesTo m.program (query m.store t) (.foreign pi))
    (solve : Ref → MachineM Bool) :
    (∀ fuel, (∀ m', first (Builtin.run solve) fuel t m ≠ .error .outOfFuel m') →
      ∃! o, ComesTo m.program (query m.store t) o ∧
        Shows m.store t (first (Builtin.run solve) fuel t m) o) ∧
    (∀ o, ComesTo m.program (query m.store t) o → ∃ enough, ∀ fuel, enough ≤ fuel →
      Shows m.store t (first (Builtin.run solve) fuel t m) o) := by
  have hlt : t.index < m.store.size := (ht t (List.mem_singleton_self t)).1
  have hintact : m.Intact m.store ∅ [t] := ⟨h.sound.1, .refl _, ht.clear h.sound.2⟩
  have houtcome : ∀ {o}, ComesTo m.program (query m.store t) o → ∀ pi, o ≠ .foreign pi := by
    rintro o ho pi rfl
    exact hown pi ho
  refine ⟨fun fuel hhalts => ?_, fun o ho => ?_⟩
  · rcases ho : (prove m.program fuel 0 (query m.store t)).outcome? with _ | o
    · obtain ⟨m', hm'⟩ := first_of_unfinished hintact hlt hctx solve ho (Nat.le_refl fuel)
      exact absurd hm' (hhalts m')
    · have hcomes : ComesTo m.program (query m.store t) o := ⟨fuel, ho⟩
      obtain ⟨j, hshort, hlong⟩ := first_of_outcome hintact hlt hctx solve ho (houtcome hcomes)
      refine ⟨o, ⟨hcomes, hlong fuel (Nat.le_of_not_lt fun hltj => ?_)⟩,
        fun o' ho' => ho'.1.unique hcomes⟩
      obtain ⟨m', hm'⟩ := hshort fuel hltj
      exact hhalts m' hm'
  · have hforeign := houtcome ho
    obtain ⟨depth, hdepth⟩ := ho
    obtain ⟨j, -, hlong⟩ := first_of_outcome hintact hlt hctx solve hdepth hforeign
    exact ⟨j, hlong⟩

/-- A goal of new terms is not taken from stored clauses. -/
theorem Session.fresh_of_allocates (h : Session m) {r : Ref × Store} (hr : Allocates m.store s r) :
    Fresh { m with store := r.2 } [r.1] := by
  have hdetached := hr.detached
  refine List.forall_mem_singleton.mpr ⟨hdetached.lt, fun pi c hc v hv hreach => ?_⟩
  obtain ⟨name, hcell⟩ := (h.sound.2 pi c hc v hv nofun).1
  exact Nat.not_lt.mpr (hdetached.le v hreach) (index_lt_of_cell? hcell)

/-- The first answer to `q(X)` is `X = b`, after a negation and a cut. -/
theorem search_refines_negation : ∃ m t m' σ, Session m ∧ m.Fresh [t] ∧ (m.store.resolve t).vars ≠ [] ∧
    first (Builtin.run (solve 8)) 64 t m = .ok true m' ∧
    ComesTo m.program (query m.store t) (.answer σ) ∧
    Tree.Variants ((m.store.resolve t).vars.map fun v => (m'.store.resolve v, σ ⟨0, v⟩)) := by
  let m₀ := after (compileText 8 ⟨0⟩ "p(a). p(b). q(X) :- p(X), \\+ X = a, !." []) (build [] [] true)
  let v := m₀.store.var none
  let goal := v.2.apply "q" [v.1]
  let m := { m₀ with store := goal.2 }
  have hm₀ : Session m₀ := .compile (.build [] [] true) 8 ⟨0⟩ _ (List.forall_mem_nil _)
  have hv : Allocates m₀.store m₀.store v := (Adds.refl hm₀.sound.1.wellFormed).var none
  have hgoal : Allocates m₀.store v.2 goal := hv.adds.apply "q" (List.forall_mem_singleton.mpr hv.new)
  have hm : Session m := hm₀.allocate hgoal.adds
  have hfresh : m.Fresh [goal.1] := hm₀.fresh_of_allocates hgoal
  have hctx : m.cancelled.contains m.context = false := by decide +kernel
  have hbuiltins : ∀ e ∈ m.database.entries, ∀ b ∈ e.2.builtin?,
      b = .unify ∧ e.1.arity = 2 ∨ e.1.name ≠ "call" ∧ e.1.name ∉ m.store.names := by decide +kernel
  have hresult : first (Builtin.run (solve 8)) 64 goal.1 m = .ok true _ := ok_after (by decide +kernel)
  have hvars : m.store.resolve goal.1 = .compound "q" [.var v.1] := by
    have hfree : goal.2.Free v.1 := (grows_apply v.2 "q" [v.1]).free_of_nil ⟨none, by decide +kernel⟩
    rw [Models.apply hgoal.adds.wellFormed.acyclic.models_resolve, List.map_singleton,
      resolve_of_free hfree]
    rfl
  clear_value m
  have hown := hm.sound.1.not_comesTo_foreign (t := goal.1) fun pi b hfind =>
    hbuiltins _ (Database.mem_of_find? hfind) b rfl
  obtain ⟨hhalts, -⟩ := hm.search_refines hctx hfresh hown (solve 8)
  have hends : ∀ m₁, first (Builtin.run (solve 8)) 64 goal.1 m ≠ .error .outOfFuel m₁ := by
    intro m₁ hm₁
    cases hresult.symm.trans hm₁
  obtain ⟨o, ⟨ho, hshows⟩, -⟩ := hhalts 64 hends
  rw [hresult] at hshows
  obtain ⟨hvariants⟩ := hshows
  refine ⟨m, goal.1, _, _, hm, hfresh, ?_, hresult, ho, hvariants⟩
  rw [hvars, Tree.vars_compound]
  simp

end Machine

end Clausal
