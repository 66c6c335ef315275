import Clausal.Proofs.Machine.Reached
import Clausal.Proofs.Store.Traversals

/-! # One operation at a time

What a machine offers to its callers, and what its own searches and loads are made of, are operations
that each take the store as they find it (`Machine.Operates`): terms are put in and read, copied and
unified, clauses are entered, bindings are undone to any mark, and goals, built-in predicates and loads
are run to whatever they come to.  They may come in any order and with any terms of the store; a goal
may share variables with stored clauses, and a mark may be older than the bindings that are undone.

Two facts about one operation carry over to any number of them.  It keeps the machine sound, so in
every machine that comes about (`Machine.Operated`) all places that are mentioned have cells and no path
is a cycle (`Operated.traversable`).  And either it lets the store grow or it undoes to a mark
(`Store.Turns`), so while the trail stays as long as it was at some moment, undoing to the mark of that
moment gives its cells back (`Operated.restores`).

Machines between the steps of a search or a load count as well, however deep these are nested, and a
step of a search is itself a sequence of operations (`proceeds_step`).
-/

namespace Clausal

open Relation

namespace Store

variable {s s' s'' : Store} {t u v : Ref} {vs : List Ref} {c : Cell}

/-! ## Adding cells -/

/-- There are only new cells, which may mention old ones, and the store is as it should be. -/
structure Enlarges (s s' : Store) : Prop where
  /-- There are only new cells. -/
  grows : Grows s s' []
  /-- The store is well formed. -/
  wellFormed : s'.WellFormed
  /-- The trail lists the bound variables. -/
  trailed : s.Trailed → s'.Trailed

theorem Enlarges.refl (hs : s.WellFormed) : Enlarges s s := ⟨Grows.refl s, hs, id⟩

theorem Enlarges.trans (h : Enlarges s s') (h' : Enlarges s' s'') : Enlarges s s'' where
  grows := h.grows.trans h'.grows
  wellFormed := h'.wellFormed
  trailed ht := h'.trailed (h.trailed ht)

theorem Adds.enlarges (h : Adds s s') : Enlarges s s' := ⟨h.grows, h.wellFormed, h.trailed⟩

theorem CopiesApart.enlarges {r : Ref × Store} (h : CopiesApart s r) : Enlarges s r.2 :=
  ⟨h.grows, h.wellFormed, h.trailed⟩

theorem WellFormed.enlarges_apply (hs : s.WellFormed) (name : String) {args : List Ref}
    (hargs : ∀ a ∈ args, a.index < s.size) : Enlarges s (s.apply name args).2 :=
  ⟨grows_apply s name args, hs.apply name hargs, fun ht => ht.apply name args⟩

theorem WellFormed.enlarges_partialList (hs : s.WellFormed) {items : List Ref} {tail : Ref}
    (hitems : ∀ a ∈ items, a.index < s.size) (htail : tail.index < s.size) :
    Enlarges s (s.partialList items tail).2 ∧
      (s.partialList items tail).1.index < (s.partialList items tail).2.size := by
  induction items with
  | nil => exact ⟨.refl hs, htail⟩
  | cons head items ih =>
    rw [List.forall_mem_cons] at hitems
    obtain ⟨hrest, hlt⟩ := ih hitems.2
    have hcell : ∀ a ∈ [head, (s.partialList items tail).1],
        a.index < (s.partialList items tail).2.size := by
      rw [List.forall_mem_cons]
      exact ⟨Nat.lt_of_lt_of_le hitems.1 hrest.grows.size_le, List.forall_mem_singleton.mpr hlt⟩
    exact ⟨hrest.trans (hrest.wellFormed.enlarges_apply "." hcell),
      apply_lt (s.partialList items tail).2 "." [head, (s.partialList items tail).1]⟩

theorem WellFormed.enlarges_list (hs : s.WellFormed) {items : List Ref}
    (hitems : ∀ a ∈ items, a.index < s.size) : Enlarges s (s.list items).2 := by
  have hnil := (Adds.refl hs).atom "[]"
  have hitems' : ∀ a ∈ items, a.index < (s.atom "[]").2.size := fun a ha =>
    Nat.lt_of_lt_of_le (hitems a ha) hnil.size_le
  exact hnil.adds.enlarges.trans
    (hnil.adds.wellFormed.enlarges_partialList hitems' hnil.new.lt).1

/-! ## Growing and turning back -/

/-- The store has grown, or bindings were undone to a mark. -/
def Turns (s s' : Store) : Prop := (∃ vs, Grows s s' vs) ∨ ∃ k, s' = s.undoTo k

/-- Undoing the later store to the mark of the earlier one gives the earlier one back, with the cells
that came later still there. -/
structure Restores (s s' : Store) : Prop where
  /-- No cell is given back. -/
  size : s.size ≤ (s'.undoTo s.mark).size ∧ (s'.undoTo s.mark).size = s'.size
  /-- The cells that there were have exactly the contents that they had. -/
  kept : ∀ t, t.index < s.size → (s'.undoTo s.mark).cell? t = s.cell? t
  /-- The trail is what it was. -/
  trail : (s'.undoTo s.mark).trail = s.trail
  /-- The cells that came later are as they were made, with no binding. -/
  later : ∀ t, s.size ≤ t.index → (s'.undoTo s.mark).cell? t = (s'.cell? t).map unbound

theorem Grows.restores_of_trailed (h : Grows s s' vs) (hs : s.Trailed) (hs' : s'.Trailed) : Restores s s' := by
  have hundone := h.undoTo_mark hs'
  refine ⟨⟨hundone.size_le, size_undoTo _ _⟩, fun t ht => hundone.kept ht List.not_mem_nil, ?_,
    fun t ht => ?_⟩
  · rw [← Array.toList_inj, hundone.trail, List.append_nil]
  · rw [cell?_undoTo]
    split
    · rfl
    · rename_i hmem
      have hdrop : s'.trail.toList.drop s.mark = vs := by
        rw [h.trail, mark, ← Array.length_toList, List.drop_left]
      -- A later cell that is bound is on the trail, and not on the part that was there before.
      have hfree : ¬ s'.Bound t := fun hb => by
        rcases List.mem_append.mp (h.trail ▸ (hs'.bound_iff t).mp hb) with hold | hnew
        · exact absurd ((hs.bound_iff t).mpr hold).index_lt (Nat.not_lt.mpr ht)
        · exact hmem (hdrop ▸ hnew)
      rcases hc : s'.cell? t with _ | ⟨l | ⟨name, args⟩ | ⟨name, _ | u⟩⟩
      case some.var.some => exact absurd ⟨name, u, hc⟩ hfree
      all_goals rfl

/-- What grew since a mark, and turned back without going behind it, has grown since the mark. -/
theorem Grows.turn (h : Grows s s' vs) (hs' : s'.Trailed) (hturn : Turns s' s'')
    (hmark : s.mark ≤ s''.mark) : ∃ ws, Grows s s'' ws := by
  rcases hturn with ⟨ws, hgrows⟩ | ⟨k, rfl⟩
  · exact ⟨_, h.trans hgrows⟩
  · have hk : s.mark ≤ k := by
      have htrail := congrArg List.length (trail_undoTo s' k)
      rw [List.length_take] at htrail
      exact (hmark.trans_eq htrail).trans (Nat.min_le_left _ _)
    exact ⟨_, h.undoTo hs' hk⟩

end Store

namespace Machine

variable {m m' m₁ m₂ : Machine}

open Store

/-! ## Operations -/

/-- One operation on a machine. -/
inductive Operates (m : Machine) : Machine → Prop
  /-- Sources, contexts and the like are changed; clauses are dropped, or added that were compiled from
  terms with no bindings in force. -/
  | adjust {m' : Machine} (hs : m'.store = m.store)
    (hclauses : ∀ pi c, m'.database.Holds pi c → m.database.Holds pi c ∨
      c.pi = pi ∧ ∃ n t, m.store.Detached n t ∧ Clause.compile m.store t = .ok c) : Operates m m'
  /-- A constant is added. -/
  | literal {l : Literal} (hl : l.Canonical) : Operates m { m with store := (m.store.literal l).2 }
  /-- A variable is added. -/
  | var (name : Option String) : Operates m { m with store := (m.store.var name).2 }
  /-- A name is applied to terms of the store. -/
  | apply (name : String) {args : List Ref} (hargs : ∀ a ∈ args, a.index < m.store.size) :
    Operates m { m with store := (m.store.apply name args).2 }
  /-- A list of terms of the store is added. -/
  | list {items : List Ref} (hitems : ∀ a ∈ items, a.index < m.store.size) :
    Operates m { m with store := (m.store.list items).2 }
  /-- A list that ends in a term of the store is added. -/
  | partialList {items : List Ref} {tail : Ref} (hitems : ∀ a ∈ items, a.index < m.store.size)
    (htail : tail.index < m.store.size) :
    Operates m { m with store := (m.store.partialList items tail).2 }
  /-- A term from outside is added. -/
  | build {x : Term} (hx : x.WellMade) : Operates m { m with store := (m.store.build x).2 }
  /-- A term is copied. -/
  | copy {t : Ref} (ht : t.index < m.store.size) : Operates m { m with store := (m.store.copy t).2 }
  /-- The next term of a text is read, or an error is met. -/
  | read {reader : TermReader} (hreader : reader.Sound) (ops : OperatorTable) :
    Operates m { m with store := (reader.next? ops m.store).2.2 }
  /-- Two terms are unified, as far as they can be. -/
  | unify {t u : Ref} (ht : t.index < m.store.size) (hu : u.index < m.store.size) :
    Operates m { m with store := (m.store.unify t u).2 }
  /-- A clause is entered, as far as its head matches. -/
  | enter {c : Clause} {goal : Ref} (hc : c.InRange m.store) (ht : goal.index < m.store.size) :
    Operates m { m with store := (c.enter goal m.store).2 }
  /-- Bindings are undone to any mark. -/
  | undo (k : Nat) : Operates m { m with store := m.store.undoTo k }
  /-- A built-in predicate is run. -/
  | run (fuel : Nat) (b : Builtin) {args : List Ref} (hargs : ∀ a ∈ args, a.index < m.store.size) :
    Operates m (after (Builtin.run (solve fuel) b args) m)
  /-- A text is compiled. -/
  | compile (fuel : Nat) (c : Context) (text : String) {args : List Term}
    (hargs : ∀ x ∈ args, x.WellMade) : Operates m (after (compileText fuel c text args) m)
  /-- Files are consulted. -/
  | consult (fuel : Nat) (c : Context) {files : Term} (hfiles : files.WellMade) :
    Operates m (after (consultFiles fuel c files) m)
  /-- A predicate is called. -/
  | call (fuel : Nat) (pi : Indicator) {args : List Ref} (hargs : ∀ a ∈ args, a.index < m.store.size) :
    Operates m (after (Machine.call fuel pi args) m)
  /-- A goal is proved. -/
  | solve (fuel : Nat) {goal : Ref} (hgoal : goal.index < m.store.size) :
    Operates m (after (Machine.solve fuel goal) m)

theorem Sound.enlarge (h : m.Sound) {s : Store} (hs : m.store.Enlarges s) :
    { m with store := s }.Sound :=
  h.of_persists hs.wellFormed (hs.trailed h.trailed) (hs.grows.persists h.trailed)

theorem Evolving.after {α : Type} {action : MachineM α} {R : List Ref} {refs : α → List Ref}
    (h : Evolving m R action refs) : Evolves m (Machine.after action m) R [] := by
  unfold Machine.after
  rcases haction : action m with ⟨a, m'⟩ | ⟨e, m'⟩
  · rw [Evolving, haction] at h
    exact h.subset (List.nil_subset _)
  · rw [Evolving, haction] at h
    exact h

theorem Settling.after {α : Type} {action : MachineM α} {P : α → Machine → Prop} {n : Nat}
    (h : Settling n m action P) : Settles n m (Machine.after action m) := by
  unfold Machine.after
  rcases haction : action m with ⟨a, m'⟩ | ⟨e, m'⟩
  · rw [Settling, haction] at h
    exact h.1
  · rw [Settling, haction] at h
    exact h

/-- **One operation** keeps a machine sound, and lets its store grow or turns it back. -/
theorem Operates.effect (h : Operates m m') (hm : m.Sound) : m'.Sound ∧ m.store.Turns m'.store := by
  have henlarge : ∀ {s : Store}, m.store.Enlarges s →
      { m with store := s }.Sound ∧ m.store.Turns s := fun hs =>
    ⟨hm.enlarge hs, .inl ⟨[], hs.grows⟩⟩
  have hevolve : ∀ {m' R L}, Evolves m m' R L → m'.Sound ∧ m.store.Turns m'.store := fun h =>
    ⟨h.sound, .inl h.grows⟩
  have hsettle : ∀ {n m'}, Settles n m m' → m'.Sound ∧ m.store.Turns m'.store := fun h =>
    ⟨h.sound, .inl ⟨[], h.grows⟩⟩
  have hadds := Adds.refl hm.wellFormed
  cases h with
  | adjust hs hclauses =>
    refine ⟨⟨hs ▸ hm.wellFormed, hs ▸ hm.trailed, fun pi c hc => ?_, fun pi c hc => ?_⟩,
      .inl ⟨[], hs ▸ Grows.refl _⟩⟩
    · rw [hs]
      rcases hclauses pi c hc with hold | ⟨-, n, t, ht, hcompile⟩
      · exact hm.faithful pi c hold
      · exact (Clause.faithful_of_compile hm.wellFormed hm.trailed ht hcompile).1
    · rcases hclauses pi c hc with hold | ⟨heq, -⟩
      · exact hm.filed pi c hold
      · exact heq
  | literal hl => exact henlarge (hadds.literal hl).adds.enlarges
  | var name => exact henlarge (hadds.var name).adds.enlarges
  | apply name hargs => exact henlarge (hm.wellFormed.enlarges_apply name hargs)
  | list hitems => exact henlarge (hm.wellFormed.enlarges_list hitems)
  | partialList hitems htail => exact henlarge (hm.wellFormed.enlarges_partialList hitems htail).1
  | build hx => exact henlarge (hadds.build hx).adds.enlarges
  | copy ht => exact henlarge (copiesApart_copy hm.wellFormed ht).enlarges
  | read hreader ops => exact henlarge (TermReader.next?_reads hreader hm.wellFormed ops rfl).1.enlarges
  | unify ht hu => exact hevolve (hm.evolves_unify ht hu)
  | enter hc ht => exact hevolve (hm.evolves_enter hc ht)
  | undo k =>
    exact ⟨hm.of_persists (hm.wellFormed.undoTo k) (hm.trailed.undoTo k) (persists_undoTo _ k),
      .inr ⟨k, rfl⟩⟩
  | run fuel b hargs => exact hevolve (evolving_run (proper_solve fuel) hm b hargs).after
  | compile fuel c text hargs =>
    exact hsettle (settling_compile (proper_solve fuel) hm (Nat.zero_le _) c text hargs).after
  | consult fuel c hfiles => exact hsettle (settling_consultFiles hm fuel c hfiles).after
  | call fuel pi hargs => exact hevolve (evolving_callWith (proper_solve fuel) hm pi hargs).after
  | solve fuel hgoal => exact hevolve (Evolving.after (proper_solve fuel hm hgoal))

/-! ## Machines that come about -/

/-- What a machine is after any operations, or at some moment while one of them runs. -/
inductive Operated : Machine → Prop
  /-- A new machine. -/
  | build (operators : List (String × Nat × Specifier)) (builtins : List (Indicator × Builtin))
    (defaults : Bool) : Operated (Machine.build operators builtins defaults)
  /-- After one more operation. -/
  | operate {m m' : Machine} (h : Operated m) (hop : Operates m m') : Operated m'
  /-- While an operation runs. -/
  | within {m : Machine} (h : Operated m) {a₀ a : Activity} (hbegin : Begun m a₀)
    (hmoves : ReflTransGen (Moves Set.univ) a₀ a) : Operated a.machine

theorem Operated.sound (h : m.Operated) : m.Sound := by
  induction h with
  | build operators builtins defaults => exact (Reached.build operators builtins defaults).sound
  | operate h hop ih => exact (hop.effect ih).1
  | within h hbegin hmoves ih =>
    have hsafe : ∀ {a}, ReflTransGen (Moves Set.univ) _ a → a.Safe _ Set.univ := fun hmoves => by
      induction hmoves with
      | refl => exact ih.safe hbegin
      | tail _ hmove ih => exact ih.moves hmove
    exact (hsafe hmoves).intact.sound

/-- **In every machine that comes about, all places that are mentioned have cells, no path is a cycle,
and so every traversal ends.** -/
theorem Operated.traversable (h : m.Operated) :
    (∀ t u, m.store.Points t u → u.index < m.store.size) ∧ m.store.Acyclic ∧
      m.store.Traversable :=
  ⟨fun _ _ hp => h.sound.wellFormed.closed hp, h.sound.wellFormed.acyclic,
    h.sound.wellFormed.traversals_end⟩

/-- A variable is bound to a compound that holds another one, and then the other one is not bound to a
compound that holds the first. -/
theorem operated_bound_traversable :
    let m₁ := { build [] [] true with store := (({} : Store).var none).2 }
    let m₂ := { m₁ with store := (m₁.store.var none).2 }
    let m₃ := { m₂ with store := (m₂.store.apply "f" [⟨0⟩]).2 }
    let m₄ := { m₃ with store := (m₃.store.unify ⟨1⟩ ⟨2⟩).2 }
    let m₅ := { m₄ with store := (m₄.store.apply "g" [⟨1⟩]).2 }
    let m₆ := { m₅ with store := (m₅.store.unify ⟨0⟩ ⟨3⟩).2 }
    m₆.store.cell? ⟨1⟩ = some (.var none (some ⟨2⟩)) ∧ m₆.store.cell? ⟨0⟩ = some (.var none none) ∧
      (∀ t u, m₆.store.Points t u → u.index < m₆.store.size) ∧ m₆.store.Acyclic ∧
        m₆.store.Traversable := by
  intro m₁ m₂ m₃ m₄ m₅ m₆
  have h₁ : m₁.Operated := .operate (.build [] [] true) (.var none)
  have h₂ : m₂.Operated := .operate h₁ (.var none)
  have h₃ : m₃.Operated := .operate h₂ (.apply "f" (by decide))
  have h₄ : m₄.Operated := .operate h₃ (.unify (by decide) (by decide))
  have h₅ : m₅.Operated := .operate h₄ (.apply "g" (by decide))
  have h₆ : m₆.Operated := .operate h₅ (.unify (by decide) (by decide))
  exact ⟨by decide, by decide, h₆.traversable⟩

/-! ## Undoing to a mark -/

/-- One operation after which the trail is not shorter than a mark. -/
def OperatesAbove (mark : Nat) (m m' : Machine) : Prop := Operates m m' ∧ mark ≤ m'.store.mark

theorem grows_of_operatesAbove (h : m.Sound)
    (hops : ReflTransGen (OperatesAbove m.store.mark) m m') :
    m'.Sound ∧ ∃ vs, Grows m.store m'.store vs := by
  induction hops with
  | refl => exact ⟨h, [], Grows.refl _⟩
  | tail _ hop ih =>
    obtain ⟨hsound, vs, hgrows⟩ := ih
    obtain ⟨hsound', hturn⟩ := hop.1.effect hsound
    exact ⟨hsound', hgrows.turn hsound.trailed hturn hop.2⟩

/-- **In every machine that comes about, a variable is bound exactly if it is on the trail, where it is
once; and undoing to a mark below which the trail never fell gives back what there was.** -/
theorem Operated.restores (h : m.Operated) :
    (∀ v, (m.store.Bound v ↔ v ∈ m.store.trail.toList) ∧
      (v ∈ m.store.trail.toList → m.store.trail.toList.count v = 1)) ∧
    ∀ m', ReflTransGen (OperatesAbove m.store.mark) m m' → m.store.Restores m'.store := by
  have htrailed := h.sound.trailed
  refine ⟨fun v => ⟨htrailed.bound_iff v, List.count_eq_one_of_mem htrailed.nodup⟩, fun m' hops => ?_⟩
  obtain ⟨hsound', vs, hgrows⟩ := grows_of_operatesAbove h.sound hops
  exact hgrows.restores_of_trailed htrailed hsound'.trailed

/-- A variable is bound before the mark and one after it, and a unification fails that has bound a
third. -/
theorem operated_bound_restores :
    let m₁ := { build [] [] true with store := (({} : Store).var none).2 }
    let m₂ := { m₁ with store := (m₁.store.var none).2 }
    let m₃ := { m₂ with store := (m₂.store.unify ⟨0⟩ ⟨1⟩).2 }
    let m₄ := { m₃ with store := (m₃.store.var none).2 }
    let m₅ := { m₄ with store := (m₄.store.apply "f" [⟨2⟩, ⟨0⟩]).2 }
    let m₆ := { m₅ with store := (m₅.store.apply "f" [⟨0⟩, ⟨3⟩]).2 }
    let m₇ := { m₆ with store := (m₆.store.unify ⟨3⟩ ⟨4⟩).2 }
    (m₆.store.unify ⟨3⟩ ⟨4⟩).1 = false ∧ m₃.store.trail = #[⟨1⟩] ∧ m₇.store.trail = #[⟨1⟩, ⟨2⟩] ∧
      ((∀ v, (m₃.store.Bound v ↔ v ∈ m₃.store.trail.toList) ∧
        (v ∈ m₃.store.trail.toList → m₃.store.trail.toList.count v = 1)) ∧
        m₃.store.Restores m₇.store) := by
  intro m₁ m₂ m₃ m₄ m₅ m₆ m₇
  have h₁ : m₁.Operated := .operate (.build [] [] true) (.var none)
  have h₂ : m₂.Operated := .operate h₁ (.var none)
  have h₃ : m₃.Operated := .operate h₂ (.unify (by decide) (by decide))
  have h₅ : ReflTransGen (OperatesAbove m₃.store.mark) m₃ m₅ :=
    (ReflTransGen.single ⟨.var none, by decide⟩).tail ⟨.apply "f" (by decide), by decide⟩
  have h₇ : ReflTransGen (OperatesAbove m₃.store.mark) m₃ m₇ :=
    (h₅.tail ⟨.apply "f" (by decide), by decide⟩).tail
      ⟨.unify (by decide) (by decide), by decide⟩
  exact ⟨by decide, by decide, by decide, h₃.restores.1, h₃.restores.2 m₇ h₇⟩

/-! ## The operations that a search is made of -/

theorem Operates.sequence (h : m.Sound) (hops : ReflTransGen Operates m m') :
    m'.Sound ∧ m.store.size ≤ m'.store.size := by
  induction hops with
  | refl => exact ⟨h, Nat.le_refl _⟩
  | tail _ hop ih =>
    obtain ⟨hsound, hturn⟩ := hop.effect ih.1
    refine ⟨hsound, ih.2.trans ?_⟩
    rcases hturn with ⟨vs, hgrows⟩ | ⟨k, heq⟩
    · exact hgrows.size_le
    · rw [heq, size_undoTo]

/-- Whatever the action comes to, what it did to the machine is a sequence of operations. -/
abbrev Proceeds {α : Type} (m : Machine) (action : MachineM α) : Prop :=
  Ends (action m) (fun _ m' => ReflTransGen Operates m m') fun m' => ReflTransGen Operates m m'

theorem Proceeds.bind {α β : Type} {action : MachineM α} {f : α → MachineM β}
    (h : Proceeds m action) (hf : ∀ a m', ReflTransGen Operates m m' → Proceeds m' (f a)) :
    Proceeds m (action >>= f) :=
  Ends.bind h fun a m' hm' =>
    (hf a m' hm').imp (fun _ _ hm'' => hm'.trans hm'') fun _ hm'' => hm'.trans hm''

/-- An action that is one operation, whatever it comes to. -/
theorem Operates.proceeds {α : Type} {action : MachineM α} (h : Operates m (after action m)) :
    Proceeds m action := by
  unfold after at h
  rw [Proceeds]
  rcases haction : action m with ⟨a, m'⟩ | ⟨e, m'⟩
  · rw [haction] at h
    exact .single h
  · rw [haction] at h
    exact .single h

open Search

variable {t : Ref} {goals : List Frame} {choices : Choices}

theorem proceeds_tryClauses (h : m.Sound) (ht : t.index < m.store.size) {cs : List Clause}
    (hcs : ∀ c ∈ cs, c.InRange m.store) : Proceeds m (tryClauses t goals choices cs) := by
  induction cs generalizing m with
  | nil => exact .refl
  | cons c rest ih =>
    rw [List.forall_mem_cons] at hcs
    rw [tryClauses]
    refine Ends.bind (Q := fun _ m' => m' = m) rfl fun mark m' heq => ?_
    subst heq
    refine Proceeds.bind (.single (.enter hcs.1 ht)) fun body m₁ hm₁ => ?_
    cases body with
    | some body => exact .refl
    | none =>
      have hundo : Proceeds m₁ (changeStore (·.undoTo mark)) := .single (.undo mark)
      refine hundo.bind fun _ m₂ hm₂ => ?_
      obtain ⟨hsound₁, hsize₁⟩ := Operates.sequence h hm₁
      obtain ⟨hsound₂, hsize₂⟩ := Operates.sequence hsound₁ hm₂
      have hsize := hsize₁.trans hsize₂
      exact ih hsound₂ (Nat.lt_of_lt_of_le ht hsize) fun c' hc' => (hcs.2 c' hc').mono hsize

/-- What a choice point holds on to is in the store. -/
def InStore (s : Store) (point : ChoicePoint) : Prop :=
  (∀ r ∈ point.refs, r.index < s.size) ∧ ∀ c ∈ point.clauses, c.InRange s

theorem InStore.mono {s s' : Store} {point : ChoicePoint} (h : InStore s point)
    (hle : s.size ≤ s'.size) : InStore s' point :=
  ⟨fun r hr => Nat.lt_of_lt_of_le (h.1 r hr) hle, fun c hc => (h.2 c hc).mono hle⟩

theorem proceeds_backtrack (h : m.Sound) (hchoices : ∀ point ∈ choices, InStore m.store point) :
    Proceeds m (backtrack choices) := by
  induction choices generalizing m with
  | nil => exact .refl
  | cons point choices ih =>
    rw [List.forall_mem_cons] at hchoices
    rw [backtrack]
    have hundo : Proceeds m (changeStore (·.undoTo point.mark)) := .single (.undo point.mark)
    refine hundo.bind fun _ m₁ hm₁ => ?_
    obtain ⟨hsound₁, hsize₁⟩ := Operates.sequence h hm₁
    have hpoint := hchoices.1.mono hsize₁
    obtain ⟨below, mark, alternative⟩ := point
    cases alternative with
    | resume goals => exact .refl
    | clauses goal rest goals =>
      refine (proceeds_tryClauses hsound₁ (hpoint.1 goal List.mem_cons_self) hpoint.2).bind
        fun r m₂ hm₂ => ?_
      cases r with
      | some S => exact .refl
      | none =>
        obtain ⟨hsound₂, hsize₂⟩ := Operates.sequence hsound₁ hm₂
        exact ih hsound₂ fun p hp => (hchoices.2 p hp).mono (hsize₁.trans hsize₂)

theorem proceeds_withArgs (h : m.Sound) {extra : List Ref} (ht : t.index < m.store.size)
    (hextra : ∀ a ∈ extra, a.index < m.store.size) : Proceeds m (withArgs t extra) := by
  unfold withArgs
  refine Ends.bind (Q := fun r m' => m' = m ∧ r = m.store.deref t) ⟨rfl, rfl⟩ fun r m' hm' => ?_
  obtain ⟨rfl, rfl⟩ := hm'
  by_cases hempty : extra.isEmpty = true
  · rw [if_pos hempty]
    exact .refl
  · rw [if_neg hempty]
    refine Ends.bind (Q := fun r m => m = m' ∧ r = m'.store.view (m'.store.deref t)) ⟨rfl, rfl⟩
      fun r m hm => ?_
    obtain ⟨rfl, hr⟩ := hm
    split
    · exact .refl
    · rename_i name
      exact .single (.apply name hextra)
    · rename_i name args
      refine .single (.apply name fun a ha => ?_)
      rcases List.mem_append.mp ha with ha | ha
      · exact h.wellFormed.args_lt (m.store.deref t) a (by rw [Store.args, ← hr]; exact ha)
      · exact hextra a ha
    · exact .refl

theorem proceeds_callProcedure (fuel : Nat) (h : m.Sound) (pi : Indicator) {args : List Ref}
    (ht : t.index < m.store.size) (hargs : ∀ a ∈ args, a.index < m.store.size) :
    Proceeds m (callProcedure (Builtin.run (Machine.solve fuel)) pi t args goals choices) := by
  unfold callProcedure
  refine Ends.bind (Q := fun m₁ m' => m' = m ∧ m₁ = m) ⟨rfl, rfl⟩ fun m₁ m' hm' => ?_
  obtain ⟨rfl, rfl⟩ := hm'
  rcases hp : m₁.database.find? pi with _ | ⟨b | p⟩
  · exact .refl
  · exact (Operates.run fuel b hargs).proceeds.bind fun found m' _ => .refl
  · exact proceeds_tryClauses h ht (inRange_of_find? h hp)

theorem proceeds_proveGoal (fuel : Nat) (h : m.Sound) (barrier : Nat) (ht : t.index < m.store.size) :
    Proceeds m (proveGoal (Builtin.run (Machine.solve fuel)) t barrier goals choices) := by
  have hs := h.wellFormed.acyclic
  unfold proveGoal
  refine Ends.bind (Q := fun r m' => m' = m ∧ r = m.store.deref t) ⟨rfl, rfl⟩ fun r m' hm' => ?_
  obtain ⟨rfl, rfl⟩ := hm'
  refine Ends.bind ((ends_callee hs _).imp (fun _ _ => id) fun m' hm' => hm' ▸ .refl) fun r m hm => ?_
  obtain ⟨rfl, hargs⟩ := hm
  refine Ends.bind (Q := fun control m' => m' = m ∧ control = Control.of m.store r.1 r.2)
    ⟨rfl, rfl⟩ fun control m' hm' => ?_
  obtain ⟨rfl, rfl⟩ := hm'
  have hderef := h.wellFormed.deref_lt ht
  have hrefs : ∀ u ∈ (Control.of m'.store r.1 r.2).refs, u.index < m'.store.size := fun u hu => by
    obtain ⟨a, ha, hr⟩ := Control.reaches_of hs _ hu
    exact h.wellFormed.lt_of_reaches hderef ((hargs a ha).trans hr)
  generalize Control.of m'.store r.1 r.2 = control at hrefs
  cases control with
  | call goal extra =>
    rw [Control.refs, List.forall_mem_cons] at hrefs
    exact (proceeds_withArgs h hrefs.1 hrefs.2).bind fun g m' _ => .refl
  | procedure pi args => exact proceeds_callProcedure fuel h pi hderef hrefs
  | _ => exact .refl

/-- **A step of a search is a sequence of operations**: it enters clauses, undoes to marks, applies names
and runs built-in predicates. -/
theorem proceeds_step (fuel : Nat) (h : m.Sound) {frame : Frame}
    (hframe : ∀ r ∈ frame.refs, r.index < m.store.size)
    (hchoices : ∀ point ∈ choices, InStore m.store point) :
    Proceeds m (step (Builtin.run (Machine.solve fuel)) frame goals choices) := by
  have hprove : Proceeds m (prove (Builtin.run (Machine.solve fuel)) frame goals choices) := by
    cases frame with
    | goal t barrier => exact proceeds_proveGoal fuel h barrier (hframe t List.mem_cons_self)
    | cutTo height => exact .refl
    | fail => exact .refl
  unfold step
  refine hprove.bind fun r m' hm' => ?_
  obtain ⟨hsound, hsize⟩ := Operates.sequence h hm'
  cases r with
  | some S => exact .refl
  | none => exact proceeds_backtrack hsound fun p hp => (hchoices p hp).mono hsize

end Machine

end Clausal
