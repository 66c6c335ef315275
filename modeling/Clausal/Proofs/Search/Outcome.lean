import Clausal.Proofs.Search.Reference

/-! # What a goal comes to

The reference search is cut off at a depth.  With more depth its sequence of answers goes on where it
was cut off, and is otherwise the same (`prove_approximates`).  So it does not depend on the depth
what the sequence begins with: an answer, or the end without one (`ComesTo.unique`).
-/

namespace Clausal.Reference

open Search

namespace Answers

variable {a a' b b' : Answers} {f f' : Nat → Bindings → Answers} {σ : Bindings}

/-- The second sequence is the first one, or goes on where the first one was cut off. -/
inductive Approximates (a b : Answers) : Prop
  /-- It is the same. -/
  | same (h : a = b)
  /-- The first one was cut off. -/
  | cutOff (hending : a.ending = .unfinished) (hfound : a.found <+: b.found)

theorem Approximates.refl (a : Answers) : Approximates a a := .same rfl

theorem append_of_ne (h : a.ending ≠ .exhausted) (b : Answers) : a.append b = a := by
  obtain ⟨found, ending⟩ := a
  cases ending with
  | exhausted => exact absurd rfl h
  | cut | refused | foreign | unfinished => rfl

theorem prefix_append (a b : Answers) : a.found <+: (a.append b).found := by
  obtain ⟨found, ending⟩ := a
  cases ending with
  | exhausted => exact List.prefix_append _ _
  | cut | refused | foreign | unfinished => exact List.prefix_rfl

theorem Approximates.append (ha : Approximates a a') (hb : Approximates b b') :
    Approximates (a.append b) (a'.append b') := by
  rcases ha with rfl | ⟨hending, hfound⟩
  · obtain ⟨found, ending⟩ := a
    cases ending with
    | exhausted =>
      rcases hb with rfl | ⟨hending, hfound⟩
      · exact .refl _
      · exact .cutOff hending (List.prefix_append_right_inj _ |>.mpr hfound)
    | cut | refused | foreign | unfinished => exact .refl _
  · rw [append_of_ne (by rw [hending]; exact nofun)]
    exact .cutOff hending (hfound.trans (prefix_append a' b'))

theorem Approximates.after (h : Approximates a b) (σ : Bindings) :
    Approximates (a.after σ) (b.after σ) := by
  rcases h with rfl | ⟨hending, hfound⟩
  · exact .refl _
  · exact .cutOff hending (hfound.map _)

theorem Approximates.found_le (h : Approximates a b) : a.found <+: b.found := by
  rcases h with rfl | ⟨-, hfound⟩
  · exact List.prefix_rfl
  · exact hfound

theorem Approximates.trans {c : Answers} (h : Approximates a b) (h' : Approximates b c) :
    Approximates a c := by
  rcases h with rfl | ⟨hending, hfound⟩
  · exact h'
  · exact .cutOff hending (hfound.trans h'.found_le)

theorem Approximates.bind (h : Approximates a b)
    (hf : ∀ answer ∈ a.found, Approximates (f answer.1 answer.2) (f' answer.1 answer.2)) :
    Approximates (a.bind f) (b.bind f') := by
  rcases h with rfl | ⟨hending, hfound⟩
  · obtain ⟨found, ending⟩ := a
    induction found with
    | nil => exact .refl _
    | cons answer later ih =>
      rw [List.forall_mem_cons] at hf
      exact (hf.1.after _).append (ih hf.2)
  · obtain ⟨found, ending⟩ := a
    obtain ⟨found', ending'⟩ := b
    obtain ⟨rest, rfl⟩ := hfound
    induction found with
    | nil => exact .cutOff hending List.nil_prefix
    | cons answer later ih =>
      rw [List.forall_mem_cons] at hf
      exact (hf.1.after _).append (ih hf.2 hending)

theorem found_confined (a : Answers) : a.confined.found = a.found := by
  obtain ⟨found, ending⟩ := a
  cases ending <;> rfl

theorem Approximates.confined (h : Approximates a b) : Approximates a.confined b.confined := by
  rcases h with rfl | ⟨hending, hfound⟩
  · exact .refl _
  · obtain ⟨found, ending⟩ := a
    subst hending
    exact .cutOff rfl (by rw [found_confined b]; exact hfound)

theorem Approximates.first (h : Approximates a b) : Approximates a.first b.first := by
  rcases h with rfl | ⟨hending, hfound⟩
  · exact .refl _
  · obtain ⟨_ | ⟨answer, found⟩, ending⟩ := a
    · exact .cutOff hending List.nil_prefix
    · obtain ⟨found', ending'⟩ := b
      obtain ⟨rest, rfl⟩ := hfound
      exact .refl _

/-- What comes of a condition: what the consequence comes to under its first answer, or else the
alternative. -/
def orElse (a b : Answers) (f : Nat → Bindings → Answers) : Answers :=
  match a with
  | ⟨[], .exhausted⟩ => b
  | answers => answers.first.bind f

/-- What comes of a negation: an answer if there is none, and the other way round. -/
def negated (a : Answers) (uses : Nat) : Answers :=
  match a with
  | ⟨[], .exhausted⟩ => .one uses
  | ⟨[], ending⟩ => ⟨[], ending⟩
  | _ => .none

theorem Approximates.orElse (ha : Approximates a a') (hb : Approximates b b')
    (hf : ∀ answer ∈ a.first.found, Approximates (f answer.1 answer.2) (f' answer.1 answer.2)) :
    Approximates (a.orElse b f) (a'.orElse b' f') := by
  have hfirst : Approximates (a.first.bind f) (a'.first.bind f') := ha.first.bind hf
  rcases ha with rfl | ⟨hending, hfound⟩
  · obtain ⟨_ | ⟨answer, later⟩, ending⟩ := a
    · cases ending with
      | exhausted => exact hb
      | cut | refused | foreign | unfinished => exact hfirst
    · cases ending <;> exact hfirst
  · obtain ⟨_ | ⟨answer, later⟩, ending⟩ := a
    · subst hending
      exact .cutOff rfl List.nil_prefix
    · obtain ⟨found', ending'⟩ := a'
      obtain ⟨rest, rfl⟩ := hfound
      subst hending
      cases ending' <;> exact hfirst

theorem Approximates.negated (h : Approximates a a') (uses : Nat) :
    Approximates (a.negated uses) (a'.negated uses) := by
  rcases h with rfl | ⟨hending, hfound⟩
  · exact .refl _
  · obtain ⟨_ | ⟨answer, later⟩, ending⟩ := a
    · subst hending
      exact .cutOff rfl List.nil_prefix
    · obtain ⟨found', ending'⟩ := a'
      obtain ⟨rest, rfl⟩ := hfound
      subst hending
      cases ending' <;> exact .refl _

end Answers

/-! ## Depth -/

section Depth

open Answers

variable {P : Program} {prove prove' : Nat → Tree Var → Answers} {uses : Nat} {goal : Tree Var}

variable (h : ∀ uses goal, Approximates (prove uses goal) (prove' uses goal))

include h

theorem proveAll_approximates (σ : Bindings) (uses : Nat) (goals : List (Tree Var)) :
    Approximates (proveAll prove σ uses goals) (proveAll prove' σ uses goals) := by
  induction goals generalizing σ uses with
  | nil => exact .refl _
  | cons goal goals ih => exact (h _ _).bind fun answer _ => ih _ _

theorem tryRules_approximates (uses : Nat) (goal : Tree Var) (rules : List (Rule Ref)) :
    Approximates (tryRules prove uses goal rules) (tryRules prove' uses goal rules) := by
  induction rules with
  | nil => exact .refl _
  | cons rule rules ih =>
    simp only [tryRules]
    split
    · exact ((proveAll_approximates h _ _ _).after _).append ih
    · exact ih

theorem callProcedure_approximates (uses : Nat) (goal : Tree Var) (pi : Indicator)
    (args : List (Tree Var)) : Approximates (callProcedure P prove uses goal pi args)
      (callProcedure P prove' uses goal pi args) := by
  unfold callProcedure
  cases P pi with
  | rules rules => exact (tryRules_approximates h uses goal rules).confined
  | unknown | equality | foreign => exact .refl _

theorem proveControl_approximates (uses : Nat) (goal : Tree Var) (control : Control (Tree Var)) :
    Approximates (proveControl P prove uses goal control)
      (proveControl P prove' uses goal control) := by
  cases control with
  | succeed | fail | cut => exact .refl _
  | both left right =>
    rw [proveControl, proveControl]
    refine (h uses left).bind ?_
    exact fun answer _ => h answer.1 (right.bind answer.2)
  | either left right => exact (h _ _).append (h _ _)
  | ifThen condition consequence =>
    rw [proveControl, proveControl]
    refine (h uses condition).confined.first.bind ?_
    exact fun answer _ => h answer.1 (consequence.bind answer.2)
  | ifThenElse condition consequence otherwise =>
    refine (h uses condition).confined.orElse (h uses otherwise) ?_
    exact fun answer _ => h answer.1 (consequence.bind answer.2)
  | not goal => exact (h uses goal).confined.negated uses
  | call goal extra =>
    simp only [proveControl]
    split
    · exact (h _ _).confined
    · exact .refl _
  | procedure pi args => exact callProcedure_approximates h uses goal pi args

omit h

/-- **With more depth the answers go on where they were cut off.** -/
theorem prove_approximates {depth depth' : Nat} (hle : depth ≤ depth') (uses : Nat)
    (goal : Tree Var) : Approximates (Reference.prove P depth uses goal)
      (Reference.prove P depth' uses goal) := by
  induction depth generalizing depth' uses goal with
  | zero => exact .cutOff rfl List.nil_prefix
  | succ depth ih =>
    obtain ⟨depth', rfl⟩ := Nat.exists_eq_add_one_of_ne_zero (Nat.ne_zero_of_lt hle)
    simp only [Reference.prove]
    split
    · exact proveControl_approximates (fun _ _ => ih (Nat.le_of_succ_le_succ hle) _ _) _ _ _
    · exact .refl _

end Depth

/-! ## Outcomes -/

/-- What a sequence of answers begins with. -/
inductive Outcome where
  /-- An answer. -/
  | answer (σ : Bindings)
  /-- The end: there is no answer. -/
  | failure
  /-- A goal that cannot be called. -/
  | refusal (r : Refusal)
  /-- A call of a built-in predicate that is not described here. -/
  | foreign (pi : Indicator)

/-- What the sequence begins with, unless it was cut off before. -/
def Answers.outcome? (a : Answers) : Option Outcome :=
  match a.found, a.ending with
  | answer :: _, _ => some (.answer answer.2)
  | [], .exhausted => some .failure
  | [], .cut => some .failure
  | [], .refused r => some (.refusal r)
  | [], .foreign pi => some (.foreign pi)
  | [], .unfinished => .none

/-- The answers to the goal begin with the outcome. -/
def ComesTo (P : Program) (goal : Tree Var) (o : Outcome) : Prop :=
  ∃ depth, (prove P depth 0 goal).outcome? = some o

variable {P : Program} {goal : Tree Var} {o o' : Outcome} {a b : Answers}

theorem Answers.Approximates.outcome? (h : Approximates a b) (ho : a.outcome? = some o) :
    b.outcome? = some o := by
  rcases h with rfl | ⟨hending, hfound⟩
  · exact ho
  · obtain ⟨_ | ⟨answer, later⟩, ending⟩ := a
    · subst hending
      cases ho
    · obtain ⟨found', ending'⟩ := b
      obtain ⟨rest, rfl⟩ := hfound
      exact ho

/-- **A goal comes to one outcome at most.** -/
theorem ComesTo.unique (h : ComesTo P goal o) (h' : ComesTo P goal o') : o = o' := by
  obtain ⟨depth, ho⟩ := h
  obtain ⟨depth', ho'⟩ := h'
  have hmax := (prove_approximates (Nat.le_max_left depth depth') 0 goal).outcome? ho
  have hmax' := (prove_approximates (Nat.le_max_right depth depth') 0 goal).outcome? ho'
  exact Option.some.inj (hmax.symm.trans hmax')

end Clausal.Reference
