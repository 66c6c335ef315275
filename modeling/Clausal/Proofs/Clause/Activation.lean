import Clausal.Search
import Clausal.Proofs.Clause.Reading
import Clausal.Proofs.Store.Copying
import Clausal.Proofs.Store.Unification

/-! # What entering a clause does to the store

Whether or not its head matches, entering a clause only grows the store, and it leaves alone every
free variable that the goal does not reach: such a variable stays free, nothing comes to reach it,
and the goals of the body do not (`enters_enter`).  This is what keeps the variables of stored
clauses from being bound by a search that never had hold of them.

Nothing is assumed of the clause but that the terms of its table have cells.  That its instructions
are well formed, and what they mean, is the subject of `Clausal.Proofs.Clause.Resolution`.
-/

namespace Clausal.Clause

open Store

variable {c : Clause} {act act' act'' : Activation} {s s' : Store} {t u v : Ref}

/-- The terms of the table have cells. -/
def InRange (c : Clause) (s : Store) : Prop := TermsInRange s c.table

theorem InRange.mono (h : c.InRange s) (hle : s.size ≤ s'.size) : c.InRange s' :=
  fun u hu => Nat.lt_of_lt_of_le (h u hu) hle

theorem InRange.term?_lt (h : c.InRange s) {n : Nat} (hn : c.term? n = some u) :
    u.index < s.size := by
  rw [term?] at hn
  split at hn
  · cases hn
    exact h u (List.mem_of_getElem? ‹_›)
  · cases hn

namespace Activation

/-- The store is well formed and what stands for variables has cells. -/
structure Good (act : Activation) : Prop where
  /-- The store is well formed. -/
  wellFormed : act.store.WellFormed
  /-- What stands for the clause's variables has cells. -/
  inRange : act.fresh.InRange act.store
  /-- The fresh variables have cells. -/
  frame : ∀ x ∈ act.frame, x.index < act.store.size

/-- A free variable that nothing that stands for a variable of the clause reaches. -/
structure Clear (act : Activation) (v : Ref) : Prop where
  /-- The variable is free. -/
  free : act.store.Free v
  /-- What stands for the clause's variables does not reach it. -/
  fresh : ∀ w x, act.fresh.lookup w = some x → ¬ act.store.Reaches x v
  /-- The fresh variables do not reach it. -/
  frame : ∀ x ∈ act.frame, ¬ act.store.Reaches x v

/-- What every part of entering a clause does. -/
structure Advances (act act' : Activation) : Prop where
  /-- The store has grown. -/
  grows : ∃ vs, Grows act.store act'.store vs
  /-- All is well formed. -/
  good : act'.Good
  /-- The trail lists the bound variables. -/
  trailed : act.store.Trailed → act'.store.Trailed
  /-- The fresh variables are the same. -/
  frame : act'.frame = act.frame
  /-- What stands for a variable of the clause stays. -/
  kept : ∀ v x, act.fresh.lookup v = some x → act'.fresh.lookup v = some x

theorem Advances.refl (h : act.Good) : act.Advances act where
  grows := ⟨[], Grows.refl _⟩
  good := h
  trailed := id
  frame := rfl
  kept _ _ := id

theorem Advances.trans (h : act.Advances act') (h' : act'.Advances act'') :
    act.Advances act'' where
  grows := by
    obtain ⟨vs, hgrows⟩ := h.grows
    obtain ⟨ws, hgrows'⟩ := h'.grows
    exact ⟨vs ++ ws, hgrows.trans hgrows'⟩
  good := h'.good
  trailed ht := h'.trailed (h.trailed ht)
  frame := h'.frame.trans h.frame
  kept v x hx := h'.kept v x (h.kept v x hx)

theorem Advances.size_le (h : act.Advances act') : act.store.size ≤ act'.store.size := by
  obtain ⟨vs, hgrows⟩ := h.grows
  exact hgrows.size_le

/-- Storing an operation on the store alone. -/
theorem advances_store (h : act.Good) {vs : List Ref} (hgrows : Grows act.store s' vs)
    (hs : s'.WellFormed) (ht : act.store.Trailed → s'.Trailed) :
    act.Advances { act with store := s' } where
  grows := ⟨vs, hgrows⟩
  good := ⟨hs, fun v x hx => Nat.lt_of_lt_of_le (h.inRange v x hx) hgrows.size_le,
    fun x hx => Nat.lt_of_lt_of_le (h.frame x hx) hgrows.size_le⟩
  trailed := ht
  frame := rfl
  kept _ _ := id

/-- Variables that an operation on the store spares stay clear. -/
theorem Clear.of_spares (h : act.Clear v) (hg : act.Good) (hs : Spares act.store s' v)
    (hf : s'.Free v) : Clear { act with store := s' } v where
  free := hf
  fresh w x hx hr := h.fresh w x hx (hs x (hg.inRange w x hx) hr)
  frame x hx hr := h.frame x hx (hs x (hg.frame x hx) hr)

end Activation

open Activation

/-! ## Operands -/

/-- What making an operand does. -/
structure Yields (act : Activation) (r : Option Ref × Activation) : Prop where
  /-- It is a part of entering the clause. -/
  advances : act.Advances r.2
  /-- Nothing is bound. -/
  grows : Grows act.store r.2.store []
  /-- The operand has a cell. -/
  lt : ∀ t, r.1 = some t → t.index < r.2.store.size
  /-- The operand reaches no variable that is clear. -/
  clear : ∀ v, act.Clear v → r.2.Clear v ∧ ∀ t, r.1 = some t → ¬ r.2.store.Reaches t v

theorem yields_none (h : act.Good) : Yields act (none, act) where
  advances := .refl h
  grows := Grows.refl _
  lt _ ht := by cases ht
  clear _ hv := ⟨hv, nofun⟩

theorem yields_operand (h : act.Good) (hc : c.InRange act.store) (i : Instruction) :
    Yields act (c.operand act i) := by
  rcases i with n | n | _ | n | _
  case const =>
    rcases hterm : c.term? n with _ | template
    · simp only [operand, hterm]
      exact yields_none h
    · have hcopy := copies_copyWith h.wellFormed h.inRange (hc.term?_lt hterm)
      obtain ⟨frame, s, fresh⟩ := act
      simp only [operand, hterm]
      rcases heq : s.copyWith fresh template with ⟨t, s', fresh'⟩
      rw [heq] at hcopy
      refine ⟨⟨⟨[], hcopy.grows⟩, ⟨hcopy.wellFormed, hcopy.inRange h.inRange, fun x hx => ?_⟩,
        hcopy.trailed, rfl, hcopy.kept⟩, hcopy.grows, fun u hu => ?_, fun v hv => ?_⟩
      · exact Nat.lt_of_lt_of_le (h.frame x hx) hcopy.grows.size_le
      · cases hu
        exact hcopy.lt t (List.mem_singleton_self t)
      · -- What stands for a variable is what stood for it, or a variable that is new.
        have hfresh : ∀ w x, fresh'.lookup w = some x → ¬ s'.Reaches x v := by
          intro w x hx hr
          rcases hcopy.added w x hx with hx | ⟨hle, hfree⟩
          · exact hv.fresh w x hx
              (hcopy.grows.reaches_of_reaches h.wellFormed (h.inRange w x hx) hr)
          · obtain ⟨name, hcell⟩ := hv.free
            have hlt := index_lt_of_cell? hcell
            rw [eq_of_reaches (fun _ => not_points_of_free hfree) hr] at hlt
            exact absurd hlt (Nat.not_lt.mpr hle)
        have hfree := hcopy.grows.free_of_nil hv.free
        refine ⟨⟨hfree, hfresh, fun x hx hr => ?_⟩, fun u hu hr => ?_⟩
        · exact hv.frame x hx (hcopy.grows.reaches_of_reaches h.wellFormed (h.frame x hx) hr)
        · cases hu
          obtain ⟨w, x, -, hx, hr⟩ := hcopy.exists_reaches hfree hr
          exact hfresh w x hx hr
  case var =>
    refine ⟨.refl h, Grows.refl _, fun t ht => ?_, fun v hv => ⟨hv, fun t ht => ?_⟩⟩
    · exact h.frame t (List.mem_of_getElem? ht)
    · exact hv.frame t (List.mem_of_getElem? ht)
  all_goals exact yields_none h

/-! ## The head -/

/-- What matching the head with arguments does. -/
structure Matches (act : Activation) (args : List Ref) (r : Option (List Instruction) × Activation) :
    Prop where
  /-- It is a part of entering the clause. -/
  advances : act.Advances r.2
  /-- Variables that the arguments do not reach stay clear, and out of reach. -/
  clear : ∀ v, act.Clear v → (∀ a ∈ args, ¬ act.store.Reaches a v) →
    r.2.Clear v ∧ Spares act.store r.2.store v

theorem matches_refl (h : act.Good) (args : List Ref) (o : Option (List Instruction)) :
    Matches act args (o, act) where
  advances := .refl h
  clear v hv _ := ⟨hv, Spares.refl _ v⟩

theorem matchHead_operand {i : Instruction} (hexit : i ≠ .exit) (henter : i ≠ .enter)
    (c : Clause) (act : Activation) (code : List Instruction) (arg : Ref) (args : List Ref) :
    c.matchHead act (i :: code) (arg :: args) =
      match c.operand act i with
      | (some t, act) =>
        match act.store.unify arg t with
        | (true, s) => c.matchHead { act with store := s } code args
        | (false, s) => (none, { act with store := s })
      | (none, act) => (none, act) := by
  rcases hoperand : c.operand act i with ⟨_ | t, act'⟩
  · cases i with
    | exit => exact absurd rfl hexit
    | enter => exact absurd rfl henter
    | const | var | call => simp only [matchHead, hoperand]
  · rcases hunify : act'.store.unify arg t with ⟨_ | _, s⟩
    all_goals
      cases i with
      | exit => exact absurd rfl hexit
      | enter => exact absurd rfl henter
      | const | var | call => simp only [matchHead, hoperand, hunify]

/-- A variable that no term of the pairs reaches is not bound by unifying them. -/
theorem free_of_unifies {eqs : List (Ref × Ref)} {r : Bool × Store} (h : Unifies s eqs r)
    (hf : s.Free v) (hv : Avoid s eqs v) : r.2.Free v := by
  obtain ⟨vs, hgrows, hvs⟩ := h.grows
  obtain ⟨name, hc⟩ := hf
  exact ⟨name, by rw [hgrows.kept (index_lt_of_cell? hc) fun hmem => hvs v hmem hv, hc]⟩

/-- Making an operand and unifying it with an argument. -/
theorem Yields.unifies {r : Option Ref × Activation} (hg : act.Good) (h : Yields act r)
    (ht : r.1 = some t) {ru : Bool × Store} (hu : Unifies r.2.store [(u, t)] ru)
    (hlt : u.index < act.store.size) :
    act.Advances { r.2 with store := ru.2 } ∧
      ∀ v, act.Clear v → ¬ act.store.Reaches u v →
        Clear { r.2 with store := ru.2 } v ∧ Spares act.store ru.2 v := by
  refine ⟨?_, fun v hv hreach => ?_⟩
  · obtain ⟨vs, hgrows, -⟩ := hu.grows
    exact h.advances.trans (advances_store h.advances.good hgrows hu.wellFormed hu.trailed)
  · obtain ⟨hclear, hout⟩ := h.clear v hv
    have havoid : Avoid r.2.store [(u, t)] v := by
      simp only [Avoid, List.forall_mem_singleton]
      exact ⟨fun hr => hreach (h.grows.reaches_of_reaches hg.wellFormed hlt hr), hout t ht⟩
    have hspares : Spares r.2.store ru.2 v := fun w _ hr => hu.spares v havoid w hr
    refine ⟨hclear.of_spares h.advances.good hspares (free_of_unifies hu hclear.free havoid), ?_⟩
    exact (h.grows.spares hg.wellFormed v).trans hspares h.grows.size_le

theorem matches_matchHead (h : act.Good) (hc : c.InRange act.store) (args : List Ref)
    (hargs : ∀ a ∈ args, a.index < act.store.size) (code : List Instruction) :
    Matches act args (c.matchHead act code args) := by
  induction code generalizing act args with
  | nil =>
    rw [matchHead]
    · exact matches_refl h args none
    all_goals nofun
  | cons i code ih =>
    by_cases hexit : i = .exit
    · subst hexit
      exact matches_refl h args _
    by_cases henter : i = .enter
    · subst henter
      exact matches_refl h args _
    rcases args with _ | ⟨arg, args⟩
    · have hnone : c.matchHead act (i :: code) [] = (none, act) := by
        cases i <;> first | rfl | contradiction
      rw [hnone]
      exact matches_refl h [] none
    rw [List.forall_mem_cons] at hargs
    have hyields := yields_operand h hc i
    rw [matchHead_operand hexit henter]
    rcases hop : c.operand act i with ⟨_ | t, act₁⟩
    · rw [hop] at hyields
      refine ⟨hyields.advances, fun v hv _ => ⟨(hyields.clear v hv).1, ?_⟩⟩
      exact hyields.grows.spares h.wellFormed v
    · rw [hop] at hyields
      have harg := Nat.lt_of_lt_of_le hargs.1 hyields.grows.size_le
      have hu := unifies_unify hyields.advances.good.wellFormed harg (hyields.lt t rfl)
      obtain ⟨hadv, hclear⟩ := hyields.unifies h rfl hu hargs.1
      dsimp only
      rcases heq : act₁.store.unify arg t with ⟨ok, s⟩
      rw [heq] at hadv hclear
      cases ok with
      | false =>
        refine ⟨hadv, fun v hv hreach => hclear v hv (hreach arg List.mem_cons_self)⟩
      | true =>
        have hrest := ih hadv.good (hc.mono hadv.size_le) args fun a ha =>
          Nat.lt_of_lt_of_le (hargs.2 a ha) hadv.size_le
        refine ⟨hadv.trans hrest.advances, fun v hv hreach => ?_⟩
        obtain ⟨hv', hspares⟩ := hclear v hv (hreach arg List.mem_cons_self)
        have hout : ∀ a ∈ args, ¬ s.Reaches a v := fun a ha hr =>
          hreach a (List.mem_cons_of_mem _ ha) (hspares a (hargs.2 a ha) hr)
        obtain ⟨hv'', hspares'⟩ := hrest.clear v hv' hout
        exact ⟨hv'', hspares.trans hspares' hadv.size_le⟩

/-! ## The body -/

/-- What building the goals of the body does, where `ts` was pushed and built before. -/
structure Builds (act : Activation) (ts : List Ref) (r : Option (List Ref) × Activation) : Prop where
  /-- It is a part of entering the clause. -/
  advances : act.Advances r.2
  /-- Nothing is bound. -/
  grows : Grows act.store r.2.store []
  /-- The goals have cells. -/
  lt : ∀ goals, r.1 = some goals → ∀ g ∈ goals, g.index < r.2.store.size
  /-- The goals reach no variable that is clear. -/
  clear : ∀ v, act.Clear v → (∀ t ∈ ts, ¬ act.store.Reaches t v) →
    r.2.Clear v ∧ ∀ goals, r.1 = some goals → ∀ g ∈ goals, ¬ r.2.store.Reaches g v

theorem builds_none (h : act.Good) (ts : List Ref) : Builds act ts (none, act) where
  advances := .refl h
  grows := Grows.refl _
  lt _ hg := by cases hg
  clear _ hv _ := ⟨hv, nofun⟩

theorem buildBody_operand {i : Instruction} (hexit : i ≠ .exit) (hcall : ∀ n, i ≠ .call n)
    (c : Clause) (act : Activation) (pushed goals : List Ref) (code : List Instruction) :
    c.buildBody act pushed goals (i :: code) =
      match c.operand act i with
      | (some t, act) => c.buildBody act (t :: pushed) goals code
      | (none, act) => (none, act) := by
  rcases hoperand : c.operand act i with ⟨_ | t, act'⟩
  all_goals
    cases i with
    | exit => exact absurd rfl hexit
    | call n => exact absurd rfl (hcall n)
    | const | var | enter => simp only [buildBody, hoperand]

theorem buildBody_call {n : Nat} {pi : Indicator} (hpi : c.procedure? n = some pi)
    (act : Activation) (pushed goals : List Ref) (code : List Instruction) :
    c.buildBody act pushed goals (.call n :: code) =
      c.buildBody { act with store := (act.store.apply pi.name pushed.reverse).2 } []
        ((act.store.apply pi.name pushed.reverse).1 :: goals) code := by
  simp only [buildBody, hpi]

theorem builds_buildBody (h : act.Good) (hc : c.InRange act.store) (pushed goals : List Ref)
    (hlt : ∀ t ∈ pushed ++ goals, t.index < act.store.size) (code : List Instruction) :
    Builds act (pushed ++ goals) (c.buildBody act pushed goals code) := by
  induction code generalizing act pushed goals with
  | nil => exact builds_none h _
  | cons i code ih =>
    by_cases hexit : i = .exit
    · subst hexit
      refine ⟨.refl h, Grows.refl _, fun gs hgs g hg => ?_, fun v hv hout => ⟨hv, ?_⟩⟩
      · cases hgs
        exact hlt g (List.mem_append_right _ (List.mem_reverse.mp hg))
      · intro gs hgs g hg
        cases hgs
        exact hout g (List.mem_append_right _ (List.mem_reverse.mp hg))
    by_cases hcall : ∃ n, i = .call n
    · obtain ⟨n, rfl⟩ := hcall
      rcases hpi : c.procedure? n with _ | pi
      · have hnone : c.buildBody act pushed goals (.call n :: code) = (none, act) := by
          simp only [buildBody, hpi]
        exact hnone ▸ builds_none h _
      · rw [buildBody_call hpi]
        have hgrows := grows_apply act.store pi.name pushed.reverse
        have hpushed : ∀ t ∈ pushed.reverse, t.index < act.store.size := fun t ht =>
          hlt t (List.mem_append_left _ (List.mem_reverse.mp ht))
        have hadv := advances_store h hgrows (h.wellFormed.apply pi.name hpushed)
          fun ht => ht.apply pi.name pushed.reverse
        have hrest := ih hadv.good (hc.mono hgrows.size_le) []
          ((act.store.apply pi.name pushed.reverse).1 :: goals) (by
            rw [List.nil_append, List.forall_mem_cons]
            exact ⟨apply_lt _ _ _, fun g hg =>
              Nat.lt_of_lt_of_le (hlt g (List.mem_append_right _ hg)) hgrows.size_le⟩)
        refine ⟨hadv.trans hrest.advances, hgrows.trans hrest.grows, hrest.lt, fun v hv hout => ?_⟩
        obtain ⟨name, hcell⟩ := hv.free
        have hvlt := index_lt_of_cell? hcell
        have hclear := hv.of_spares h (hgrows.spares h.wellFormed v) (hgrows.free_of_nil hv.free)
        refine hrest.clear v hclear ?_
        rw [List.nil_append, List.forall_mem_cons]
        refine ⟨fun hr => ?_, fun g hg hr => ?_⟩
        · obtain ⟨t, ht, hr⟩ := h.wellFormed.reaches_of_apply hpushed hvlt hr
          exact hout t (List.mem_append_left _ (List.mem_reverse.mp ht)) hr
        · have hmem := List.mem_append_right pushed hg
          exact hout g hmem (hgrows.reaches_of_reaches h.wellFormed (hlt g hmem) hr)
    · have hyields := yields_operand h hc i
      rw [buildBody_operand hexit fun n hn => hcall ⟨n, hn⟩]
      rcases hop : c.operand act i with ⟨_ | t, act₁⟩
      · rw [hop] at hyields
        exact ⟨hyields.advances, hyields.grows, nofun, fun v hv _ => ⟨(hyields.clear v hv).1, nofun⟩⟩
      · rw [hop] at hyields
        have hrest := ih hyields.advances.good (hc.mono hyields.grows.size_le)
          (t :: pushed) goals (by
            rw [List.cons_append, List.forall_mem_cons]
            exact ⟨hyields.lt t rfl, fun u hu =>
              Nat.lt_of_lt_of_le (hlt u hu) hyields.grows.size_le⟩)
        refine ⟨hyields.advances.trans hrest.advances, hyields.grows.trans hrest.grows, hrest.lt,
          fun v hv hout => ?_⟩
        obtain ⟨hv', ht⟩ := hyields.clear v hv
        refine hrest.clear v hv' ?_
        rw [List.cons_append, List.forall_mem_cons]
        exact ⟨ht t rfl, fun u hu hr =>
          hout u hu (hyields.grows.reaches_of_reaches h.wellFormed (hlt u hu) hr)⟩

/-! ## Entering -/

/-- The fresh variables for a number of slots are the next cells. -/
structure Frames (s : Store) (vars : List Ref) (r : List Ref × Store) : Prop where
  /-- There are only new cells. -/
  grows : Grows s r.2 []
  /-- The store is well formed. -/
  wellFormed : r.2.WellFormed
  /-- The trail lists the bound variables. -/
  trailed : s.Trailed → r.2.Trailed
  /-- There is one cell for each slot. -/
  frame : r.1 = (List.range' s.size vars.length).map Ref.mk
  /-- The cells are free variables. -/
  free : ∀ x ∈ r.1, r.2.Free x

theorem frames_freshFrame (hs : s.WellFormed) (vars : List Ref) :
    Frames s vars (freshFrame s vars) := by
  induction vars generalizing s with
  | nil => exact ⟨Grows.refl s, hs, id, rfl, by simp [freshFrame]⟩
  | cons v vars ih =>
    have hgrows := grows_push s (.var none none)
    have hrest := ih (hs.push trivial (c := .var none none) (by simp [Cell.mentions]))
    have hsize : (s.push (.var none none)).2.size = s.size + 1 := size_push s _
    refine ⟨hgrows.trans hrest.grows, hrest.wellFormed,
      fun ht => hrest.trailed (ht.push (by simp)), ?_, ?_⟩
    · have hframe := hrest.frame
      rw [hsize] at hframe
      rw [List.length_cons, List.range'_succ, List.map_cons, ← hframe]
      rfl
    · intro x hx
      rcases List.mem_cons.mp hx with rfl | hx
      · exact hrest.grows.free_of_nil ⟨none, cell?_push_self s _⟩
      · exact hrest.free x hx

theorem Frames.size_le {vars : List Ref} {r : List Ref × Store} (h : Frames s vars r) {x : Ref}
    (hx : x ∈ r.1) : s.size ≤ x.index := by
  rw [h.frame, List.mem_map] at hx
  obtain ⟨i, hi, rfl⟩ := hx
  exact (List.mem_range'_1.mp hi).1

theorem mem_of_lookup_zip {xs ys : List Ref} {x y : Ref} (h : (xs.zip ys).lookup x = some y) :
    y ∈ ys := by
  obtain ⟨l, r, heq, -⟩ := List.lookup_eq_some_iff.mp h
  have hmem : (x, y) ∈ xs.zip ys := heq ▸ List.mem_append_right _ List.mem_cons_self
  exact (List.of_mem_zip hmem).2

/-- The activation with which entering a clause begins. -/
def begin (c : Clause) (s : Store) : Activation :=
  let r := freshFrame s c.vars
  { frame := r.1, store := r.2, fresh := c.vars.zip r.1 }

theorem grows_begin (hs : s.WellFormed) (c : Clause) : Grows s (c.begin s).store [] :=
  (frames_freshFrame hs c.vars).grows

theorem good_begin (hs : s.WellFormed) (c : Clause) : (c.begin s).Good := by
  have hframes := frames_freshFrame hs c.vars
  have hlt : ∀ x ∈ (freshFrame s c.vars).1, x.index < (freshFrame s c.vars).2.size := by
    intro x hx
    obtain ⟨name, hcell⟩ := hframes.free x hx
    exact index_lt_of_cell? hcell
  exact ⟨hframes.wellFormed, fun v x hx => hlt x (mem_of_lookup_zip hx), hlt⟩

theorem clear_begin (hs : s.WellFormed) (hv : s.Free v) : (c.begin s).Clear v := by
  have hframes := frames_freshFrame hs c.vars
  have hout : ∀ x ∈ (freshFrame s c.vars).1, ¬ (freshFrame s c.vars).2.Reaches x v := by
    intro x hx hr
    obtain ⟨name, hcell⟩ := hv
    have hlt := index_lt_of_cell? hcell
    have hle := hframes.size_le hx
    rw [eq_of_reaches (fun _ => not_points_of_free (hframes.free x hx)) hr] at hlt
    omega
  exact ⟨hframes.grows.free_of_nil hv, fun w x hx => hout x (mem_of_lookup_zip hx), hout⟩

/-- What entering a clause does. -/
structure Enters (s : Store) (goal : Ref) (r : Option (List Ref) × Store) : Prop where
  /-- The store has grown. -/
  grows : ∃ vs, Grows s r.2 vs
  /-- The store is well formed. -/
  wellFormed : r.2.WellFormed
  /-- The trail lists the bound variables. -/
  trailed : s.Trailed → r.2.Trailed
  /-- The goals have cells. -/
  lt : ∀ goals, r.1 = some goals → ∀ g ∈ goals, g.index < r.2.size
  /-- A free variable that the goal does not reach stays free and out of reach. -/
  spares : ∀ v, s.Free v → ¬ s.Reaches goal v → r.2.Free v ∧ Spares s r.2 v ∧
    ∀ goals, r.1 = some goals → ∀ g ∈ goals, ¬ r.2.Reaches g v

theorem enter_eq (c : Clause) (goal : Ref) (s : Store) :
    c.enter goal s =
      match c.matchHead (c.begin s) c.code ((c.begin s).store.args goal) with
      | (some code, act) => ((c.buildBody act [] [] code).1, (c.buildBody act [] [] code).2.store)
      | (none, act) => (none, act.store) := rfl

theorem enters_enter (hs : s.WellFormed) (hc : c.InRange s) (hgoal : t.index < s.size) :
    Enters s t (c.enter t s) := by
  have hframes := frames_freshFrame hs c.vars
  have hgood := good_begin hs c
  have hgrows := grows_begin hs c
  have hmatch := matches_matchHead hgood (hc.mono hgrows.size_le)
    _ (hgood.wellFormed.args_lt t) c.code
  have hargs : ∀ v, ¬ s.Reaches t v → ∀ a ∈ (c.begin s).store.args t,
      ¬ (c.begin s).store.Reaches a v := fun v hv a ha hr =>
    hv (hgrows.reaches_of_reaches hs hgoal
      ((hgood.wellFormed.acyclic.reaches_of_mem_args ha).trans hr))
  rw [enter_eq]
  rcases heq : c.matchHead (c.begin s) c.code ((c.begin s).store.args t) with ⟨_ | code, act⟩
  · rw [heq] at hmatch
    obtain ⟨vs, hgrows'⟩ := hmatch.advances.grows
    refine ⟨⟨vs, hgrows.trans hgrows'⟩, hmatch.advances.good.wellFormed,
      fun ht => hmatch.advances.trailed (hframes.trailed ht), nofun, fun v hf hv => ?_⟩
    obtain ⟨hclear, hspares⟩ := hmatch.clear v (clear_begin hs hf) (hargs v hv)
    exact ⟨hclear.free, (hgrows.spares hs v).trans hspares hgrows.size_le, nofun⟩
  · rw [heq] at hmatch
    have hbuild := builds_buildBody hmatch.advances.good
      (hc.mono (hgrows.size_le.trans hmatch.advances.size_le)) [] []
      nofun code
    obtain ⟨vs, hgrows'⟩ := hmatch.advances.grows
    refine ⟨⟨vs, ?_⟩, hbuild.advances.good.wellFormed,
      fun ht => hbuild.advances.trailed (hmatch.advances.trailed (hframes.trailed ht)),
      hbuild.lt, fun v hf hv => ?_⟩
    · have hall := (hgrows.trans hgrows').trans hbuild.grows
      rwa [List.nil_append, List.append_nil] at hall
    · obtain ⟨hclear, hspares⟩ := hmatch.clear v (clear_begin hs hf) (hargs v hv)
      obtain ⟨hclear', hout⟩ := hbuild.clear v hclear nofun
      refine ⟨hclear'.free, ?_, hout⟩
      exact ((hgrows.spares hs v).trans hspares hgrows.size_le).trans
        (hbuild.grows.spares hmatch.advances.good.wellFormed v)
        (hgrows.size_le.trans hmatch.advances.size_le)

end Clausal.Clause
