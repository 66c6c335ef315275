import Clausal.Proofs.Search.Outcome

/-! # Goals over a vocabulary

If neither a goal nor the rules of a program mention the name of a predicate, in any place, then the
predicate is not called: unifying and applying to further arguments bring in no names
(`prove_over`).  So a goal over control constructs, predicates with rules and equality never comes to
another built-in predicate (`not_comesTo_foreign`).
-/

namespace Clausal

namespace Tree

variable {V W : Type} {N : String → Prop} {t : Tree V}

/-- The names of constants and compounds. -/
def names : Tree V → List String
  | var _ => []
  | literal (.atom name) => [name]
  | literal _ => []
  | compound name args => name :: args.flatMap fun t => t.names

/-- The names in the tree are all of the kind. -/
def Over (N : String → Prop) (t : Tree V) : Prop := ∀ name ∈ t.names, N name

theorem over_var (v : V) : (var v).Over N := by
  rw [Over, names]
  exact nofun

theorem over_atom {name : String} : (literal (.atom name) : Tree V).Over N ↔ N name := by
  rw [Over, names]
  exact List.forall_mem_singleton

/-- A constant that is no atom mentions no names. -/
theorem over_number {l : Literal} (h : ∀ name, l ≠ .atom name) : (literal l : Tree V).Over N := by
  cases l with
  | atom name => exact absurd rfl (h name)
  | small n | big n | float x =>
    rw [Over, names]
    · exact nofun
    · exact nofun

theorem over_compound {name : String} {args : List (Tree V)} :
    (compound name args).Over N ↔ N name ∧ ∀ t ∈ args, t.Over N := by
  rw [Over, names, List.forall_mem_cons]
  simp only [List.mem_flatMap, forall_exists_index, and_imp, Over]
  exact and_congr_right fun _ => ⟨fun h t ht name hname => h name t ht hname,
    fun h name t ht hname => h t ht name hname⟩

theorem over_apply {name : String} {args : List (Tree V)} (hname : N name)
    (hargs : ∀ t ∈ args, t.Over N) : (apply name args).Over N := by
  unfold apply
  split
  · exact over_atom.mpr hname
  · exact over_compound.mpr ⟨hname, hargs⟩

theorem Over.bind (h : t.Over N) {f : V → Tree W} (hf : ∀ v, (f v).Over N) : (t.bind f).Over N := by
  induction t with
  | var v =>
    rw [bind_of_var]
    exact hf v
  | literal l =>
    rw [bind_literal]
    cases l with
    | atom name => exact over_atom.mpr (over_atom.mp h)
    | small n | big n | float x => exact over_number nofun
  | compound name args ih =>
    rw [bind_compound]
    obtain ⟨hname, hargs⟩ := over_compound.mp h
    refine over_compound.mpr ⟨hname, fun u hu => ?_⟩
    obtain ⟨t, ht, rfl⟩ := List.mem_map.mp hu
    exact ih t ht (hargs t ht)

end Tree

namespace Equations

open Clausal.Tree

variable {V : Type} [DecidableEq V] {N : String → Prop} {t : Tree V} {eqs : Equations V}

theorem over_replace (ht : t.Over N) (v u : V) : (replace v t u).Over N := by
  unfold replace
  split
  · exact ht
  · exact over_var u

/-- **Unifying brings in no names.** -/
theorem over_solve {f : V → Tree V} (h : ∀ e ∈ eqs, e.1.Over N ∧ e.2.Over N)
    (hf : solve eqs = some f) (v : V) : (f v).Over N := by
  fun_induction solve eqs generalizing f v with
  | case1 =>
    cases hf
    exact over_var v
  | case2 a b eqs u t ho hmem hvar ih =>
    rw [List.forall_mem_cons] at h
    exact ih h.2 hf v
  | case4 a b eqs u t ho hmem ih =>
    rw [List.forall_mem_cons] at h
    have ht : t.Over N := by
      rcases oriented?_eq_some ho with ⟨rfl, rfl⟩ | ⟨rfl, rfl⟩
      · exact h.1.2
      · exact h.1.1
    obtain ⟨g, hg, rfl⟩ := Option.map_eq_some_iff.mp hf
    refine (over_replace ht u v).bind fun w => ih (fun e he => ?_) hg w
    obtain ⟨e', he', rfl⟩ := List.mem_map.mp he
    exact ⟨(h.2 e' he').1.bind (over_replace ht u), (h.2 e' he').2.bind (over_replace ht u)⟩
  | case5 eqs l ho ih =>
    rw [List.forall_mem_cons] at h
    exact ih h.2 hf v
  | case7 eqs n xs n' ys ho hsame ih =>
    rw [List.forall_mem_cons] at h
    obtain ⟨⟨hleft, hright⟩, h⟩ := h
    refine ih (fun e he => ?_) hf v
    rcases List.mem_append.mp he with he | he
    · obtain ⟨hx, hy⟩ := List.of_mem_zip he
      exact ⟨(over_compound.mp hleft).2 _ hx, (over_compound.mp hright).2 _ hy⟩
    · exact h e he
  | case3 | case6 | case8 | case9 => cases hf

end Equations

namespace Reference

open Search

variable {N : String → Prop} {P : Program} {a b : Answers} {σ : Bindings} {depth uses : Nat}
  {prove : Nat → Tree Var → Answers} {goal : Tree Var} {name : String} {args : List (Tree Var)}

/-! ## Sequences of answers -/

/-- Variables are bound to trees over the vocabulary, and nothing else is called. -/
structure Answers.Over (N : String → Prop) (a : Answers) : Prop where
  /-- The bindings. -/
  found : ∀ answer ∈ a.found, ∀ x, (answer.2 x).Over N
  /-- The end. -/
  ending : ∀ pi, a.ending ≠ .foreign pi

namespace Answers

theorem over_nil {ending : Ending} (h : ∀ pi, ending ≠ .foreign pi) : Over N ⟨[], ending⟩ :=
  ⟨nofun, h⟩

theorem over_singleton {ending : Ending} (hσ : ∀ x, (σ x).Over N) (h : ∀ pi, ending ≠ .foreign pi) :
    Over N ⟨[(uses, σ)], ending⟩ :=
  ⟨List.forall_mem_singleton.mpr hσ, h⟩

theorem over_none : Over N none := over_nil nofun

theorem over_one (uses : Nat) : Over N (one uses) := over_singleton Tree.over_var nofun

theorem Over.append (ha : Over N a) (hb : Over N b) : Over N (a.append b) := by
  obtain ⟨found, ending⟩ := a
  cases ending with
  | exhausted =>
    exact ⟨fun answer h => (List.mem_append.mp h).elim (ha.found answer) (hb.found answer), hb.ending⟩
  | cut | refused | foreign | unfinished => exact ha

theorem Over.after (h : Over N a) (hσ : ∀ x, (σ x).Over N) : Over N (a.after σ) where
  found answer hanswer := by
    obtain ⟨answer, hmem, rfl⟩ := List.mem_map.mp hanswer
    exact fun x => (hσ x).bind (h.found answer hmem)
  ending := h.ending

theorem Over.bind (ha : Over N a) {f : Nat → Bindings → Answers}
    (hf : ∀ uses σ, (∀ x, (σ x).Over N) → Over N (f uses σ)) : Over N (a.bind f) := by
  obtain ⟨found, ending⟩ := a
  induction found with
  | nil => exact over_nil ha.ending
  | cons answer later ih =>
    obtain ⟨hanswer, hlater⟩ := List.forall_mem_cons.mp ha.found
    exact ((hf _ _ hanswer).after hanswer).append (ih ⟨hlater, ha.ending⟩)

theorem Over.confined (h : Over N a) : Over N a.confined := by
  obtain ⟨found, ending⟩ := a
  cases ending with
  | cut => exact ⟨h.found, nofun⟩
  | exhausted | refused | foreign | unfinished => exact h

theorem Over.first (h : Over N a) : Over N a.first := by
  obtain ⟨_ | ⟨answer, later⟩, ending⟩ := a
  · exact h
  · exact over_singleton (h.found answer List.mem_cons_self) nofun

end Answers

/-! ## The reference search -/

/-- The rules of the program are over the vocabulary, and predicates whose names are in it are not
built in, apart from equality. -/
structure Program.Over (P : Program) (N : String → Prop) : Prop where
  /-- The predicates that can be called. -/
  known : ∀ pi : Indicator, N pi.name → P pi ≠ .foreign
  /-- The rules. -/
  rules : ∀ pi rules, P pi = .rules rules → ∀ r ∈ rules, r.head.Over N ∧ ∀ g ∈ r.goals, g.Over N

theorem over_callee (h : goal.Over N) (hcallee : callee goal = .ok (name, args)) :
    N name ∧ ∀ t ∈ args, t.Over N := by
  cases goal with
  | var v => cases hcallee
  | literal l =>
    cases l with
    | atom name =>
      cases hcallee
      exact ⟨Tree.over_atom.mp h, nofun⟩
    | small n | big n | float x => cases hcallee
  | compound name args =>
    cases hcallee
    exact Tree.over_compound.mp h

theorem over_withArgs {extra : List (Tree Var)} {goal' : Tree Var} (h : goal.Over N)
    (hextra : ∀ t ∈ extra, t.Over N) (hwith : withArgs goal extra = .ok goal') : goal'.Over N := by
  unfold withArgs at hwith
  split at hwith
  · cases hwith
    exact h
  · rcases hcallee : callee goal with e | ⟨name, args⟩
    · rw [hcallee] at hwith
      cases hwith
    · rw [hcallee] at hwith
      cases hwith
      obtain ⟨hname, hargs⟩ := over_callee h hcallee
      exact Tree.over_apply hname fun t ht => (List.mem_append.mp ht).elim (hargs t) (hextra t)

section Step

variable (hP : P.Over N) (h : ∀ uses goal, goal.Over N → (prove uses goal).Over N)

include h

theorem over_proveAll {goals : List (Tree Var)} (hgoals : ∀ g ∈ goals, g.Over N)
    (hσ : ∀ x, (σ x).Over N) : (proveAll prove σ uses goals).Over N := by
  induction goals generalizing σ uses with
  | nil => exact Answers.over_one uses
  | cons goal goals ih =>
    obtain ⟨hgoal, hgoals⟩ := List.forall_mem_cons.mp hgoals
    exact (h _ _ (hgoal.bind hσ)).bind fun uses τ hτ => ih hgoals fun x => (hσ x).bind hτ

theorem over_tryRules {rules : List (Rule Ref)} (hgoal : goal.Over N)
    (hrules : ∀ r ∈ rules, r.head.Over N ∧ ∀ g ∈ r.goals, g.Over N) :
    (tryRules prove uses goal rules).Over N := by
  induction rules with
  | nil => exact Answers.over_none
  | cons rule rules ih =>
    obtain ⟨⟨hhead, hgoals⟩, hrules⟩ := List.forall_mem_cons.mp hrules
    simp only [tryRules]
    split
    · rename_i σ hsolve
      have hσ := Equations.over_solve
        (List.forall_mem_singleton.mpr ⟨hgoal, hhead.bind fun v => Tree.over_var _⟩) hsolve
      refine Answers.Over.append (Answers.Over.after (over_proveAll h (fun g hg => ?_) hσ) hσ) (ih hrules)
      obtain ⟨g', hg', rfl⟩ := List.mem_map.mp hg
      exact (hgoals g' hg').bind fun v => Tree.over_var _
    · exact ih hrules

include hP

theorem over_callProcedure {pi : Indicator} (hpi : N pi.name) (hgoal : goal.Over N)
    (hargs : ∀ t ∈ args, t.Over N) : (callProcedure P prove uses goal pi args).Over N := by
  unfold callProcedure
  rcases hmeaning : P pi with _ | _ | _ | rules
  · exact Answers.over_nil nofun
  · rcases args with _ | ⟨l, _ | ⟨r, _ | ⟨t, args⟩⟩⟩
    · exact Answers.over_none
    · exact Answers.over_none
    · dsimp only
      split
      · rename_i σ hsolve
        refine Answers.over_singleton (Equations.over_solve ?_ hsolve) nofun
        exact List.forall_mem_singleton.mpr ⟨hargs l (by simp), hargs r (by simp)⟩
      · exact Answers.over_none
    · exact Answers.over_none
  · exact absurd hmeaning (hP.known pi hpi)
  · exact (over_tryRules h hgoal (hP.rules pi rules hmeaning)).confined

theorem over_proveControl (hgoal : goal.Over N) (hname : N name) (hargs : ∀ t ∈ args, t.Over N) :
    (proveControl P prove uses goal (control name args)).Over N := by
  have hprocedure : ∀ {us : List (Tree Var)}, us = args →
      (proveControl P prove uses goal (.procedure ⟨name, us.length⟩ us)).Over N := by
    rintro us rfl
    exact over_callProcedure hP h hname hgoal hargs
  unfold control
  split
  case h_1 => exact Answers.over_one uses
  case h_2 | h_3 => exact Answers.over_none
  case h_4 => exact Answers.over_singleton Tree.over_var (by rintro pi ⟨⟩)
  case h_5 left right =>
    exact (h _ _ (hargs left (by simp))).bind fun uses σ hσ => h uses _ ((hargs right (by simp)).bind hσ)
  case h_6 left right =>
    split
    · rename_i condition consequence
      obtain ⟨-, hparts⟩ := Tree.over_compound.mp (hargs _ List.mem_cons_self)
      simp only [proveControl]
      split
      · exact h _ _ (hargs right (by simp))
      · exact (h _ _ (hparts condition (by simp))).confined.first.bind
          fun uses σ hσ => h uses _ ((hparts consequence (by simp)).bind hσ)
    · exact (h _ _ (hargs left (by simp))).append (h _ _ (hargs right (by simp)))
  case h_7 condition consequence =>
    exact (h _ _ (hargs condition (by simp))).confined.first.bind
      fun uses σ hσ => h uses _ ((hargs consequence (by simp)).bind hσ)
  case h_8 goal =>
    have hconfined := (h uses goal (hargs goal (by simp))).confined
    simp only [proveControl]
    split
    · exact Answers.over_one uses
    · rename_i ending _ hnone
      rw [hnone] at hconfined
      exact hconfined
    · exact Answers.over_none
  case h_9 goal extra =>
    split
    · simp only [proveControl]
      split
      · rename_i hwith
        exact (h _ _ (over_withArgs (hargs goal (by simp))
          (fun t ht => hargs t (List.mem_cons_of_mem _ ht)) hwith)).confined
      · exact Answers.over_nil (by rintro pi ⟨⟩)
    · exact hprocedure rfl
  case h_10 => exact hprocedure rfl

end Step

/-- **The reference search stays within the vocabulary.** -/
theorem prove_over (hP : P.Over N) (hgoal : goal.Over N) : (Reference.prove P depth uses goal).Over N := by
  induction depth generalizing uses goal with
  | zero => exact Answers.over_nil (by rintro pi ⟨⟩)
  | succ depth ih =>
    rw [Reference.prove]
    rcases hcallee : callee goal with e | ⟨name, args⟩
    · exact Answers.over_nil (by rintro pi ⟨⟩)
    · obtain ⟨hname, hargs⟩ := over_callee hgoal hcallee
      exact over_proveControl hP (fun uses goal hgoal => ih hgoal) hgoal hname hargs

/-- **A goal over a vocabulary does not come to other built-in predicates.** -/
theorem not_comesTo_foreign (hP : P.Over N) (hgoal : goal.Over N) (pi : Indicator) :
    ¬ ComesTo P goal (.foreign pi) := by
  rintro ⟨depth, h⟩
  have hover : (Reference.prove P depth 0 goal).Over N := prove_over hP hgoal
  rcases hprove : Reference.prove P depth 0 goal with ⟨_ | ⟨answer, later⟩, ending⟩
  · rw [hprove] at h hover
    cases ending with
    | foreign pi => exact hover.ending pi rfl
    | exhausted | cut | refused | unfinished => cases h
  · rw [hprove] at h
    cases h

end Reference

end Clausal
