import Clausal.Directive
import Clausal.Proofs.Store.Resolve
import Mathlib.Data.List.Nodup

/-! # The variables and the conjuncts of a term

The variables of a term are those of its tree, each once and in the order of their first occurrence
(`Acyclic.freeVars_eq`).  `addVars` is the operation behind this: it adds variables to a list one by
one unless they are there.  A clause numbers its variables with the same operation, so that adding
the variables of a part at once or one by one makes no difference (`addVars_addVars`).

The operands of nested conjunctions are what a conjunction flattens to (`Conjuncts`), whichever way
it is nested.
-/

namespace Clausal.Store

variable {s : Store} {t u v : Ref} {vars vs ws : List Ref}

/-! ## Adding variables -/

/-- The list with a variable at its end, unless it has it. -/
def addVar (vars : List Ref) (v : Ref) : List Ref :=
  if vars.contains v then vars else vars ++ [v]

/-- The list with further variables, each once. -/
def addVars (vars vs : List Ref) : List Ref := vs.foldl addVar vars

@[simp] theorem addVars_nil (vars : List Ref) : addVars vars [] = vars := rfl

theorem addVars_cons (vars : List Ref) (v : Ref) (vs : List Ref) :
    addVars vars (v :: vs) = addVars (addVar vars v) vs := rfl

theorem addVars_append (vars vs ws : List Ref) :
    addVars vars (vs ++ ws) = addVars (addVars vars vs) ws := by
  rw [addVars, List.foldl_append]
  rfl

theorem addVar_of_mem (h : v ∈ vars) : addVar vars v = vars := by
  simp [addVar, h]

theorem addVar_of_not_mem (h : v ∉ vars) : addVar vars v = vars ++ [v] := by
  simp [addVar, h]

theorem mem_addVar : u ∈ addVar vars v ↔ u ∈ vars ∨ u = v := by
  by_cases h : v ∈ vars
  · rw [addVar_of_mem h]
    exact ⟨.inl, fun hu => hu.elim id fun heq => heq ▸ h⟩
  · rw [addVar_of_not_mem h, List.mem_append, List.mem_singleton]

theorem mem_addVars : u ∈ addVars vars vs ↔ u ∈ vars ∨ u ∈ vs := by
  induction vs generalizing vars with
  | nil => simp
  | cons v vs ih =>
    rw [addVars_cons, ih, mem_addVar, List.mem_cons, or_assoc]

theorem prefix_addVar (vars : List Ref) (v : Ref) : vars <+: addVar vars v := by
  by_cases h : v ∈ vars
  · rw [addVar_of_mem h]
  · rw [addVar_of_not_mem h]
    exact List.prefix_append _ _

theorem prefix_addVars (vars vs : List Ref) : vars <+: addVars vars vs := by
  induction vs generalizing vars with
  | nil => exact List.prefix_rfl
  | cons v vs ih => exact (prefix_addVar vars v).trans (ih (addVar vars v))

theorem nodup_addVars (h : vars.Nodup) (vs : List Ref) : (addVars vars vs).Nodup := by
  induction vs generalizing vars with
  | nil => exact h
  | cons v vs ih =>
    refine ih ?_
    by_cases hv : v ∈ vars
    · rwa [addVar_of_mem hv]
    · rw [addVar_of_not_mem hv]
      exact h.append (List.nodup_singleton v) (by simpa using hv)

/-- Variables that were collected first can be added in one go. -/
theorem addVars_addVars (vars ws vs : List Ref) :
    addVars vars (addVars ws vs) = addVars (addVars vars ws) vs := by
  induction vs generalizing ws with
  | nil => rfl
  | cons v vs ih =>
    have hstep : addVars vars (addVar ws v) = addVar (addVars vars ws) v := by
      by_cases h : v ∈ ws
      · rw [addVar_of_mem h, addVar_of_mem (mem_addVars.mpr (.inr h))]
      · rw [addVar_of_not_mem h, addVars_append]
        rfl
    rw [addVars_cons, addVars_cons, ih, hstep]

/-! ## The variables of a term -/

theorem foldl_addVars {f : List Ref → Ref → List Ref} {g : Ref → List Ref} {ts : List Ref}
    (h : ∀ t ∈ ts, ∀ vars, f vars t = addVars vars (g t)) (vars : List Ref) :
    ts.foldl f vars = addVars vars (ts.flatMap g) := by
  induction ts generalizing vars with
  | nil => rfl
  | cons t ts ih =>
    rw [List.foldl_cons, h t List.mem_cons_self, ih fun t ht => h t (List.mem_cons_of_mem _ ht),
      List.flatMap_cons, addVars_append]

theorem Acyclic.freeVarsFrom_eq (hs : s.Acyclic) {n : Nat} (hn : s.rank t < n) (vars : List Ref) :
    s.freeVarsFrom n vars t = addVars vars (s.resolve t).vars := by
  induction n generalizing t vars with
  | zero => omega
  | succ n ih =>
    rcases hview : s.view t with v | l | ⟨name, args⟩
    · rw [freeVarsFrom, hview, hs.resolve_of_view_var hview, Tree.vars_of_var]
      rfl
    · rw [freeVarsFrom, hview, hs.resolve_of_view_literal hview, Tree.vars_literal]
      rfl
    · have hargs : ∀ u ∈ args, ∀ vars,
          s.freeVarsFrom n vars u = addVars vars (s.resolve u).vars := by
        intro u hu vars
        have hlt := hs.rank_lt_of_view hview hu
        exact ih (by omega) vars
      rw [freeVarsFrom, hview, hs.resolve_of_view_compound hview, Tree.vars_compound,
        List.flatMap_map]
      exact foldl_addVars hargs vars

/-- **The variables of a term are those of its tree**, each once. -/
theorem Acyclic.freeVars_eq (hs : s.Acyclic) (t : Ref) :
    s.freeVars t = addVars [] (s.resolve t).vars :=
  hs.freeVarsFrom_eq (Nat.lt_succ_of_le (s.rank_le_size t)) []

/-! ## The conjuncts of a term -/

/-- A term flattened over conjunctions, from left to right. -/
inductive Conjuncts (s : Store) : Ref → List Ref → Prop
  /-- The conjuncts of both operands. -/
  | both {t left right : Ref} {ls rs : List Ref}
    (view : s.view t = .compound "," [left, right]) (left : Conjuncts s left ls)
    (right : Conjuncts s right rs) : Conjuncts s t (ls ++ rs)
  /-- Any other term is one conjunct. -/
  | one {t : Ref} (view : ∀ left right, s.view t ≠ .compound "," [left, right]) :
    Conjuncts s t [t]

theorem operandsFrom_of_ne (h : ∀ left right, s.view t ≠ .compound "," [left, right]) (n : Nat) :
    s.operandsFrom "," n t = [s.deref t] := by
  cases n with
  | zero => rfl
  | succ n =>
    rw [operandsFrom]
    split
    · split
      · rename_i hname
        subst hname
        exact absurd ‹_› (h _ _)
      · rfl
    · rfl

theorem Acyclic.conjuncts_operandsFrom (hs : s.Acyclic) {n : Nat} (hn : s.rank t < n) :
    ∃ goals, Conjuncts s t goals ∧ s.operandsFrom "," n t = goals.map s.deref := by
  induction n generalizing t with
  | zero => omega
  | succ n ih =>
    by_cases hview : ∃ left right, s.view t = .compound "," [left, right]
    · obtain ⟨left, right, hview⟩ := hview
      have hleft := hs.rank_lt_of_view hview List.mem_cons_self
      have hright := hs.rank_lt_of_view hview (List.mem_cons_of_mem _ List.mem_cons_self)
      obtain ⟨ls, hls, heqls⟩ := ih (t := left) (by omega)
      obtain ⟨rs, hrs, heqrs⟩ := ih (t := right) (by omega)
      refine ⟨ls ++ rs, .both hview hls hrs, ?_⟩
      simp only [operandsFrom, hview, ite_true, heqls, heqrs, List.map_append]
    · simp only [not_exists] at hview
      exact ⟨[t], .one hview, operandsFrom_of_ne hview _⟩

/-- **The operands of nested conjunctions are the conjuncts.** -/
theorem Acyclic.conjuncts_operands (hs : s.Acyclic) (t : Ref) :
    ∃ goals, Conjuncts s t goals ∧ s.operands "," t = goals.map s.deref :=
  hs.conjuncts_operandsFrom (Nat.lt_succ_of_le (s.rank_le_size t))

theorem Conjuncts.unique (h : Conjuncts s t vs) (h' : Conjuncts s t ws) : vs = ws := by
  induction h generalizing ws with
  | both view _ _ ihl ihr =>
    cases h' with
    | both view' hl hr =>
      rw [view] at view'
      cases view'
      rw [ihl hl, ihr hr]
    | one view' => exact absurd view (view' _ _)
  | one view =>
    cases h' with
    | both view' _ _ => exact absurd view' (view _ _)
    | one _ => rfl

/-- Conjuncts are parts of the term. -/
theorem Conjuncts.reaches (h : Conjuncts s t vs) (hs : s.Acyclic) (hu : u ∈ vs) :
    s.Reaches t u := by
  induction h with
  | @both t left right ls rs view _ _ ihl ihr =>
    have hpart : ∀ w ∈ [left, right], s.Reaches t w := fun w hw =>
      (hs.reaches_deref t).tail (.arg (cell?_deref_of_view_compound view) hw)
    rcases List.mem_append.mp hu with hu | hu
    · exact (hpart left (by simp)).trans (ihl hu)
    · exact (hpart right (by simp)).trans (ihr hu)
  | one _ =>
    rw [List.mem_singleton.mp hu]

/-- The variables of a term are those of its conjuncts. -/
theorem Conjuncts.vars_eq (h : Conjuncts s t vs) (hs : s.Acyclic) :
    (s.resolve t).vars = vs.flatMap fun g => (s.resolve g).vars := by
  induction h with
  | both view _ _ ihl ihr =>
    rw [hs.resolve_of_view_compound view, List.flatMap_append, ← ihl, ← ihr]
    simp
  | one _ => simp

/-! ## The items of a list -/

/-- Items are parts of the list. -/
theorem Acyclic.reaches_of_mem_listShape (hs : s.Acyclic) (h : u ∈ (s.listShape t).1) :
    s.Reaches t u := by
  have hfrom : ∀ n t, u ∈ (s.listFrom n t).1 → s.Reaches t u := by
    intro n
    induction n with
    | zero => exact fun t h => by cases h
    | succ n ih =>
      intro t h
      rw [listFrom] at h
      split at h
      · rename_i head tail hview
        have hpart : ∀ w ∈ [head, tail], s.Reaches t w := fun w hw =>
          (hs.reaches_deref t).tail (.arg (cell?_deref_of_view_compound hview) hw)
        rcases List.mem_cons.mp h with rfl | h
        · exact hpart u (by simp)
        · exact (hpart tail (by simp)).trans (ih tail h)
      all_goals cases h
  exact hfrom _ t h

end Clausal.Store
