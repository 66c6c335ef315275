import Clausal.Proofs.Search.Outcome

/-! # What follows from a program

Without cuts, conditions, negation and further calls, the clauses of a program are a logic program over
finite trees: a goal follows from it if it can be derived by instances of its rules (`Entailed`).  What
follows is closed under substitution, so an open goal follows exactly if it does with its variables as
constants.

For goals of this fragment (`Positive`) the reference search decides what follows, where it comes to an
end.  Each answer makes the goal a consequence (`entailed_of_found`).  And where the sequence of answers
is exhausted, every consequence among the instances of the goal is an instance of an answer
(`covers_of_exhausted`): a substitution under which the goal follows factors through the bindings of
some answer.  Rules are renamed apart by the number of their use, and the substitution is extended to
the variables of a use by what the derivation has in their place.
-/

namespace Clausal.Reference

open Search

variable {V W : Type} {P : Program} {pi : Indicator} {name : String} {args : List (Tree V)}

/-! ## Logic programs -/

/-- The predicate is a control construct, whatever clauses there are for it. -/
def Constructs (pi : Indicator) : Prop :=
  (pi.name, pi.arity) ∈ [("true", 0), ("fail", 0), ("false", 0), ("!", 0), (",", 2), (";", 2),
    ("->", 2), ("\\+", 1)] ∨ pi.name = "call" ∧ 1 ≤ pi.arity ∧ pi.arity ≤ 8

instance (pi : Indicator) : Decidable (Constructs pi) := inferInstanceAs (Decidable (_ ∨ _))

/-- The goal follows from the program, which is read as a logic program over finite trees. -/
inductive Entailed (P : Program) {V : Type} : Tree V → Prop
  /-- Truth. -/
  | truth : Entailed P (.literal (.atom "true"))
  /-- Both of two goals. -/
  | both {left right : Tree V} (hleft : Entailed P left) (hright : Entailed P right) :
    Entailed P (.compound "," [left, right])
  /-- The first of two goals. -/
  | left {left : Tree V} (hleft : Entailed P left) (right : Tree V) :
    Entailed P (.compound ";" [left, right])
  /-- The second of two goals. -/
  | right (left : Tree V) {right : Tree V} (hright : Entailed P right) :
    Entailed P (.compound ";" [left, right])
  /-- That a tree is the same as itself. -/
  | equality {name : String} (hpi : ¬ Constructs ⟨name, 2⟩) (hP : P ⟨name, 2⟩ = .equality) (t : Tree V) :
    Entailed P (.compound name [t, t])
  /-- An instance of a rule. -/
  | rule {pi : Indicator} {rules : List (Rule Ref)} {rule : Rule Ref} (hpi : ¬ Constructs pi)
    (hP : P pi = .rules rules) (hrule : rule ∈ rules) (f : Ref → Tree V)
    (hgoals : ∀ goal ∈ rule.goals, Entailed P (goal.bind f)) : Entailed P (rule.head.bind f)

/-- The goal is made of truth, failure, conjunction, disjunction, equations and predicates that are not
built in. -/
inductive Positive (P : Program) {V : Type} : Tree V → Prop
  /-- Truth. -/
  | truth : Positive P (.literal (.atom "true"))
  /-- Failure. -/
  | failure {name : String} (h : name = "fail" ∨ name = "false") : Positive P (.literal (.atom name))
  /-- Both of two goals. -/
  | both {left right : Tree V} (hleft : Positive P left) (hright : Positive P right) :
    Positive P (.compound "," [left, right])
  /-- Either of two goals. -/
  | either {left right : Tree V} (hleft : Positive P left) (hright : Positive P right) :
    Positive P (.compound ";" [left, right])
  /-- An equation, or a predicate that the program defines. -/
  | call {name : String} {args : List (Tree V)} (hpi : ¬ Constructs ⟨name, args.length⟩)
    (hP : P ⟨name, args.length⟩ ≠ .foreign) : Positive P (.apply name args)

/-- A program of facts and rules whose bodies are such goals. -/
structure Program.Definite (P : Program) : Prop where
  /-- Rules belong to the predicate that they are for. -/
  head : ∀ pi rules, P pi = .rules rules → ∀ rule ∈ rules,
    rule.head = .apply pi.name rule.head.args ∧ rule.head.args.length = pi.arity
  /-- The goals of their bodies. -/
  goals : ∀ pi rules, P pi = .rules rules → ∀ rule ∈ rules, ∀ goal ∈ rule.goals, Positive P goal

/-- What follows with variables in it follows with anything in their place. -/
theorem Entailed.bind {t : Tree V} (h : Entailed P t) (σ : V → Tree W) : Entailed P (t.bind σ) := by
  induction h with
  | truth =>
    rw [Tree.bind_literal]
    exact .truth
  | both _ _ ihl ihr =>
    rw [Tree.bind_compound]
    exact .both ihl ihr
  | left _ right ih =>
    rw [Tree.bind_compound]
    exact .left ih _
  | right left _ ih =>
    rw [Tree.bind_compound]
    exact .right _ ih
  | equality hpi hP t =>
    rw [Tree.bind_compound]
    exact .equality hpi hP _
  | rule hpi hP hrule f _ ih =>
    rw [Tree.bind_bind]
    refine .rule hpi hP hrule _ fun goal hgoal => ?_
    rw [← Tree.bind_bind]
    exact ih goal hgoal

theorem Positive.bind {t : Tree V} (h : Positive P t) (σ : V → Tree W) : Positive P (t.bind σ) := by
  induction h with
  | truth =>
    rw [Tree.bind_literal]
    exact .truth
  | failure h =>
    rw [Tree.bind_literal]
    exact .failure h
  | both _ _ ihl ihr =>
    rw [Tree.bind_compound]
    exact .both ihl ihr
  | either _ _ ihl ihr =>
    rw [Tree.bind_compound]
    exact .either ihl ihr
  | call hpi hP =>
    rw [Tree.bind_apply]
    exact .call (by rwa [List.length_map]) (by rwa [List.length_map])

/-- A goal of the fragment is no condition. -/
theorem Positive.ne_ifThen {t : Tree V} (h : Positive P t) (condition consequence : Tree V) :
    t ≠ .compound "->" [condition, consequence] := by
  rintro rfl
  generalize heq : Tree.compound "->" [condition, consequence] = t at h
  cases h with
  | truth | failure => cases heq
  | both => simp at heq
  | either => simp at heq
  | @call name args hpi hP =>
    rcases args with _ | ⟨a, as⟩
    · cases heq
    · cases heq
      exact hpi (.inl (by simp))

/-! ## What the goals ask for -/

theorem control_of_not_constructs (h : ¬ Constructs ⟨name, args.length⟩) :
    control name args = .procedure ⟨name, args.length⟩ args := by
  unfold control
  split
  case h_9 goal extra =>
    split
    · rename_i hlt
      exact absurd (.inr ⟨rfl, by simp, by simp; omega⟩) h
    · rfl
  case h_10 => rfl
  all_goals exact absurd (.inl (by simp)) h

variable {depth uses : Nat} {goal left right : Tree Var} {as : List (Tree Var)}

theorem callee_apply (name : String) (as : List (Tree Var)) :
    callee (.apply name as) = .ok (name, as) := by
  cases as <;> rfl

theorem prove_both : prove P (depth + 1) uses (.compound "," [left, right]) =
    (prove P depth uses left).bind fun uses σ => prove P depth uses (right.bind σ) := rfl

theorem prove_either_of_ne (h : ∀ condition consequence, left ≠ .compound "->" [condition, consequence]) :
    prove P (depth + 1) uses (.compound ";" [left, right]) =
      (prove P depth uses left).append (prove P depth uses right) := by
  have hcontrol : control ";" [left, right] = .either left right := by
    unfold control
    split
    all_goals simp_all
  rw [prove]
  simp only [callee, hcontrol, proveControl]

theorem prove_either (h : Positive P left) : prove P (depth + 1) uses (.compound ";" [left, right]) =
    (prove P depth uses left).append (prove P depth uses right) :=
  prove_either_of_ne h.ne_ifThen

theorem prove_call (h : ¬ Constructs ⟨name, as.length⟩) : prove P (depth + 1) uses (.apply name as) =
    callProcedure P (prove P depth) uses (.apply name as) ⟨name, as.length⟩ as := by
  rw [prove, callee_apply]
  simp only [control_of_not_constructs h, proveControl]

theorem tryRules_eq {prove : Nat → Tree Var → Answers} (rule : Rule Ref) (rules : List (Rule Ref)) :
    tryRules prove uses goal (rule :: rules) =
      match Equations.solve [(goal, (renamed (uses + 1) rule).head)] with
      | some σ => ((proveAll prove σ (uses + 1) (renamed (uses + 1) rule).goals).after σ).append
          (tryRules prove uses goal rules)
      | none => tryRules prove uses goal rules := rfl

/-! ## Sequences of answers -/

/-- The sequence does not end with a cut or at a built-in predicate. -/
def Ending.Plain : Ending → Prop
  | .cut | .foreign _ => False
  | .exhausted | .refused _ | .unfinished => True

/-- A tree with its variables renamed. -/
theorem bind_use (use : Nat) (σ : Var → Tree W) (t : Tree Ref) :
    (t.bind fun v => .var ⟨use, v⟩).bind σ = t.bind fun v => σ ⟨use, v⟩ := by
  rw [Tree.bind_bind]
  exact Tree.bind_congr fun v _ => Tree.bind_of_var _ _

theorem bind_andThen (σ τ : Bindings) (t : Tree Var) :
    t.bind (σ.andThen τ) = (t.bind σ).bind τ :=
  (Tree.bind_bind σ τ t).symm

namespace Answers

variable {a b : Answers} {f : Nat → Bindings → Answers} {σ : Bindings} {answer : Nat × Bindings}

theorem mem_append_found (h : answer ∈ (a.append b).found) : answer ∈ a.found ∨ answer ∈ b.found := by
  by_cases ha : a.ending = .exhausted
  · rw [append, ha] at h
    exact List.mem_append.mp h
  · rw [append_of_ne ha] at h
    exact .inl h

/-- Where two sequences are exhausted, each of them was. -/
theorem append_exhausted (h : (a.append b).ending = .exhausted) :
    a.ending = .exhausted ∧ b.ending = .exhausted ∧ (a.append b).found = a.found ++ b.found := by
  by_cases ha : a.ending = .exhausted
  · rw [append, ha] at h ⊢
    exact ⟨rfl, h, rfl⟩
  · rw [append_of_ne ha] at h
    exact absurd h ha

theorem append_plain (ha : a.ending.Plain) (hb : b.ending.Plain) : (a.append b).ending.Plain := by
  by_cases hexhausted : a.ending = .exhausted
  · rw [append, hexhausted]
    exact hb
  · rwa [append_of_ne hexhausted]

theorem mem_bind_found (h : answer ∈ (a.bind f).found) : ∃ first ∈ a.found,
    ∃ next ∈ (f first.1 first.2).found, answer = (next.1, first.2.andThen next.2) := by
  obtain ⟨found, ending⟩ := a
  induction found with
  | nil => cases h
  | cons first later ih =>
    rcases mem_append_found h with h | h
    · obtain ⟨next, hnext, rfl⟩ := List.mem_map.mp h
      exact ⟨first, List.mem_cons_self, next, hnext, rfl⟩
    · obtain ⟨first', hfirst', hnext⟩ := ih h
      exact ⟨first', List.mem_cons_of_mem _ hfirst', hnext⟩

/-- Where what comes of the answers is exhausted, each part of it was, and is there. -/
theorem bind_exhausted (h : (a.bind f).ending = .exhausted) :
    a.ending = .exhausted ∧ ∀ first ∈ a.found, (f first.1 first.2).ending = .exhausted ∧
      ∀ next ∈ (f first.1 first.2).found, (next.1, first.2.andThen next.2) ∈ (a.bind f).found := by
  obtain ⟨found, ending⟩ := a
  induction found with
  | nil => exact ⟨h, nofun⟩
  | cons first later ih =>
    obtain ⟨hfirst, hlater, hfound⟩ := append_exhausted h
    obtain ⟨hending, hall⟩ := ih hlater
    refine ⟨hending, List.forall_mem_cons.mpr ⟨⟨hfirst, fun next hnext => ?_⟩, fun first' hmem => ?_⟩⟩
    · exact hfound ▸ List.mem_append_left _ (List.mem_map_of_mem hnext)
    · obtain ⟨hexhausted, hnext⟩ := hall first' hmem
      exact ⟨hexhausted, fun next h => hfound ▸ List.mem_append_right _ (hnext next h)⟩

theorem bind_plain (ha : a.ending.Plain) (hf : ∀ first ∈ a.found, (f first.1 first.2).ending.Plain) :
    (a.bind f).ending.Plain := by
  obtain ⟨found, ending⟩ := a
  induction found with
  | nil => exact ha
  | cons first later ih =>
    rw [List.forall_mem_cons] at hf
    exact append_plain hf.1 (ih ha hf.2)

/-- Where nothing is cut, there is nothing to confine. -/
theorem confined_of_plain (h : a.ending.Plain) : a.confined = a := by
  obtain ⟨found, ending⟩ := a
  cases ending with
  | cut => exact h.elim
  | exhausted | refused | foreign | unfinished => rfl

end Answers

/-! ## Answers are consequences -/

section Sound

variable {prove : Nat → Tree Var → Answers} {σ : Bindings}

variable (h : ∀ uses goal, Positive P goal → ∀ answer ∈ (prove uses goal).found,
  Entailed P (goal.bind answer.2))

include h

theorem entailed_of_proveAll {goals : List (Tree Var)} (hgoals : ∀ goal ∈ goals, Positive P goal) :
    ∀ answer ∈ (proveAll prove σ uses goals).found, ∀ goal ∈ goals,
      Entailed P ((goal.bind σ).bind answer.2) := by
  induction goals generalizing σ uses with
  | nil => exact fun _ _ => nofun
  | cons goal goals ih =>
    rw [List.forall_mem_cons] at hgoals
    intro answer hanswer
    obtain ⟨first, hfirst, next, hnext, rfl⟩ := Answers.mem_bind_found hanswer
    rw [List.forall_mem_cons]
    refine ⟨?_, fun goal' hgoal' => ?_⟩
    · rw [bind_andThen]
      exact (h _ _ (hgoals.1.bind σ) first hfirst).bind next.2
    · have hrest := ih hgoals.2 next hnext goal' hgoal'
      rw [bind_andThen] at hrest ⊢
      exact hrest

theorem entailed_of_tryRules (hP : P.Definite) (hpi : ¬ Constructs pi) {all rules : List (Rule Ref)}
    (hall : P pi = .rules all) (hrules : ∀ rule ∈ rules, rule ∈ all) :
    ∀ answer ∈ (tryRules prove uses goal rules).found, Entailed P (goal.bind answer.2) := by
  induction rules with
  | nil => exact nofun
  | cons rule rules ih =>
    rw [List.forall_mem_cons] at hrules
    intro answer hanswer
    simp only [tryRules] at hanswer
    split at hanswer
    · rename_i σ hσ
      rcases Answers.mem_append_found hanswer with hanswer | hanswer
      · obtain ⟨next, hnext, rfl⟩ := List.mem_map.mp hanswer
        have hpositive : ∀ g ∈ (renamed (uses + 1) rule).goals, Positive P g := fun g hg => by
          obtain ⟨g', hg', rfl⟩ := List.mem_map.mp hg
          exact (hP.goals pi all hall rule hrules.1 g' hg').bind _
        have hbody := entailed_of_proveAll h hpositive next hnext
        have hhead : goal.bind σ = (renamed (uses + 1) rule).head.bind σ :=
          (Equations.principal_of_solve hσ).solved _ (List.mem_singleton_self _)
        have hrule := Entailed.rule hpi hall hrules.1 (fun v => (σ ⟨uses + 1, v⟩).bind next.2)
          fun g hg => by
            have hgoal := hbody _ (List.mem_map_of_mem hg)
            rwa [bind_use, Tree.bind_bind] at hgoal
        show Entailed P (goal.bind (Bindings.andThen σ next.2))
        rw [bind_andThen, hhead, renamed, Rule.bind, bind_use, Tree.bind_bind]
        exact hrule
      · exact ih hrules.2 answer hanswer
    · exact ih hrules.2 answer hanswer

theorem entailed_of_callProcedure (hP : P.Definite) (hpi : ¬ Constructs ⟨name, as.length⟩) :
    ∀ answer ∈ (callProcedure P prove uses (.apply name as) ⟨name, as.length⟩ as).found,
      Entailed P ((Tree.apply name as).bind answer.2) := by
  unfold callProcedure
  rcases hmeaning : P ⟨name, as.length⟩ with _ | _ | _ | rules
  · exact nofun
  · rcases as with _ | ⟨l, _ | ⟨r, _ | ⟨t, as⟩⟩⟩
    case cons.cons.nil =>
      dsimp only
      split
      · rename_i σ hσ
        rintro _ hanswer
        obtain rfl := List.mem_singleton.mp hanswer
        have hsame : l.bind σ = r.bind σ :=
          (Equations.principal_of_solve hσ).solved _ (List.mem_singleton_self _)
        rw [Tree.bind_apply, List.map_cons, List.map_singleton, hsame]
        exact .equality hpi hmeaning _
      · exact nofun
    all_goals exact nofun
  · exact nofun
  · rw [Answers.found_confined]
    exact entailed_of_tryRules h hP hpi hmeaning fun _ => id

end Sound

/-- **What the reference search finds follows from the program.** -/
theorem entailed_of_found (hP : P.Definite) (hgoal : Positive P goal) :
    ∀ answer ∈ (prove P depth uses goal).found, Entailed P (goal.bind answer.2) := by
  induction depth generalizing uses goal with
  | zero => exact nofun
  | succ depth ih =>
    cases hgoal with
    | truth =>
      intro answer _
      rw [Tree.bind_literal]
      exact .truth
    | failure h => rcases h with rfl | rfl <;> exact nofun
    | both hleft hright =>
      rw [prove_both]
      intro answer hanswer
      obtain ⟨first, hfirst, next, hnext, rfl⟩ := Answers.mem_bind_found hanswer
      have hboth := Entailed.both ((ih hleft first hfirst).bind next.2)
        (ih (hright.bind first.2) next hnext)
      rw [bind_andThen, Tree.bind_compound, Tree.bind_compound]
      exact hboth
    | either hleft hright =>
      rw [prove_either hleft]
      intro answer hanswer
      rw [Tree.bind_compound]
      rcases Answers.mem_append_found hanswer with hanswer | hanswer
      · exact .left (ih hleft answer hanswer) _
      · exact .right _ (ih hright answer hanswer)
    | call hpi _ =>
      rw [prove_call hpi]
      exact entailed_of_callProcedure (fun uses goal => ih) hP hpi

/-! ## Goals of the fragment -/

section Plain

variable {prove : Nat → Tree Var → Answers} {σ : Bindings}
  (h : ∀ uses goal, Positive P goal → (prove uses goal).ending.Plain)

include h

theorem proveAll_plain {goals : List (Tree Var)} (hgoals : ∀ goal ∈ goals, Positive P goal) :
    (proveAll prove σ uses goals).ending.Plain := by
  induction goals generalizing σ uses with
  | nil => exact trivial
  | cons goal goals ih =>
    rw [List.forall_mem_cons] at hgoals
    exact Answers.bind_plain (h _ _ (hgoals.1.bind σ)) fun _ _ => ih hgoals.2

theorem tryRules_plain {rules : List (Rule Ref)}
    (hrules : ∀ rule ∈ rules, ∀ g ∈ rule.goals, Positive P g) :
    (tryRules prove uses goal rules).ending.Plain := by
  induction rules with
  | nil => exact trivial
  | cons rule rules ih =>
    rw [List.forall_mem_cons] at hrules
    simp only [tryRules]
    split
    · refine Answers.append_plain (proveAll_plain h fun g hg => ?_) (ih hrules.2)
      obtain ⟨g', hg', rfl⟩ := List.mem_map.mp hg
      exact (hrules.1 g' hg').bind _
    · exact ih hrules.2

theorem callProcedure_plain (hP : P.Definite) (hforeign : P pi ≠ .foreign) :
    (callProcedure P prove uses goal pi as).ending.Plain := by
  unfold callProcedure
  split
  · exact trivial
  · exact absurd ‹_› hforeign
  · rename_i rules hmeaning
    have hplain : (tryRules prove uses goal rules).ending.Plain :=
      tryRules_plain h (hP.goals pi rules hmeaning)
    rwa [Answers.confined_of_plain hplain]
  · split
    · split <;> exact trivial
    · exact trivial

end Plain

/-- Goals of the fragment run into no cut and into no built-in predicate. -/
theorem prove_plain (hP : P.Definite) (hgoal : Positive P goal) :
    (prove P depth uses goal).ending.Plain := by
  induction depth generalizing uses goal with
  | zero => exact trivial
  | succ depth ih =>
    cases hgoal with
    | truth => exact trivial
    | failure h => rcases h with rfl | rfl <;> exact trivial
    | both hleft hright =>
      rw [prove_both]
      exact Answers.bind_plain (ih hleft) fun first _ => ih (hright.bind first.2)
    | either hleft hright =>
      rw [prove_either hleft]
      exact Answers.append_plain (ih hleft) (ih hright)
    | call hpi hforeign =>
      rw [prove_call hpi]
      exact callProcedure_plain (fun _ _ => ih) hP hforeign

/-! ## Consequences are instances of answers -/

/-- A substitution of the variables of the uses so far comes about from the bindings of an answer by a
substitution of the variables of the uses up to the answer. -/
structure Factors (uses : Nat) (θ : Var → Tree W) (answer : Nat × Bindings) (δ : Var → Tree W) :
    Prop where
  /-- Uses are numbered on. -/
  le : uses ≤ answer.1
  /-- What variables are bound to is over the variables of the uses up to the answer. -/
  vars : ∀ x, x.use ≤ uses → ∀ y ∈ (answer.2 x).vars, y.use ≤ answer.1
  /-- The substitutions agree. -/
  eq : ∀ x, x.use ≤ uses → (answer.2 x).bind δ = θ x

/-- The variables of the tree are those of the uses so far. -/
def UpTo (uses : Nat) (t : Tree Var) : Prop := ∀ x ∈ t.vars, x.use ≤ uses

theorem upTo_pair (h : UpTo uses (.compound name [left, right])) :
    UpTo uses left ∧ UpTo uses right := by
  simpa [UpTo, or_imp, forall_and] using h

namespace Factors

variable {θ δ δ' : Var → Tree W} {answer next : Nat × Bindings} {t : Tree Var}

theorem upTo (h : Factors uses θ answer δ) (ht : UpTo uses t) : UpTo answer.1 (t.bind answer.2) := by
  intro y hy
  obtain ⟨x, hx, hy⟩ := Tree.mem_vars_bind.mp hy
  exact h.vars x (ht x hx) y hy

theorem bind_eq (h : Factors uses θ answer δ) (ht : UpTo uses t) :
    (t.bind answer.2).bind δ = t.bind θ := by
  rw [Tree.bind_bind]
  exact Tree.bind_congr fun x hx => h.eq x (ht x hx)

theorem trans (h : Factors uses θ answer δ) (h' : Factors answer.1 δ next δ') :
    Factors uses θ (next.1, answer.2.andThen next.2) δ' where
  le := h.le.trans h'.le
  vars x hx y hy := by
    obtain ⟨z, hz, hy⟩ := Tree.mem_vars_bind.mp hy
    exact h'.vars z (h.vars x hx z hz) y hy
  eq x hx := by
    show ((answer.2 x).bind next.2).bind δ' = θ x
    rw [h'.bind_eq (h.vars x hx), h.eq x hx]

end Factors

/-! ## What a goal follows by -/

theorem apply_eq_apply {name' : String} {args' : List (Tree V)}
    (h : Tree.apply name args = .apply name' args') : name = name' ∧ args = args' := by
  rcases args with _ | ⟨x, xs⟩ <;> rcases args' with _ | ⟨y, ys⟩ <;> simp_all [Tree.apply]

/-- An instance of the head of a rule. -/
theorem Program.Definite.head_bind (hP : P.Definite) {rules : List (Rule Ref)} (hrules : P pi = .rules rules)
    {rule : Rule Ref} (hrule : rule ∈ rules) (f : Ref → Tree V) :
    ∃ as, rule.head.bind f = .apply pi.name as ∧ as.length = pi.arity := by
  obtain ⟨hhead, hlength⟩ := hP.head pi rules hrules rule hrule
  refine ⟨rule.head.args.map (Tree.bind f), ?_, (List.length_map _).trans hlength⟩
  rw [hhead, Tree.bind_apply, Tree.args_apply]

/-- A predicate follows by the equality of its arguments or by a rule. -/
theorem Entailed.of_call (hP : P.Definite) (hpi : ¬ Constructs ⟨name, args.length⟩)
    (h : Entailed P (Tree.apply name args)) :
    (P ⟨name, args.length⟩ = .equality ∧ ∃ t, args = [t, t]) ∨
      ∃ rules, P ⟨name, args.length⟩ = .rules rules ∧ ∃ rule ∈ rules, ∃ f : Ref → Tree V,
        rule.head.bind f = .apply name args ∧ ∀ goal ∈ rule.goals, Entailed P (goal.bind f) := by
  generalize heq : Tree.apply name args = t at h
  cases h with
  | truth =>
    obtain ⟨rfl, rfl⟩ := apply_eq_apply (heq.trans (show _ = Tree.apply "true" [] from rfl))
    exact absurd (.inl (by simp)) hpi
  | both =>
    obtain ⟨rfl, rfl⟩ := apply_eq_apply (heq.trans (show _ = Tree.apply "," [_, _] from rfl))
    exact absurd (.inl (by simp)) hpi
  | left | right =>
    obtain ⟨rfl, rfl⟩ := apply_eq_apply (heq.trans (show _ = Tree.apply ";" [_, _] from rfl))
    exact absurd (.inl (by simp)) hpi
  | @equality name' hpi' hmeaning t =>
    obtain ⟨rfl, rfl⟩ := apply_eq_apply (heq.trans (show _ = Tree.apply name' [t, t] from rfl))
    exact .inl ⟨hmeaning, t, rfl⟩
  | @rule pi' rules rule hpi' hmeaning hrule f hgoals =>
    obtain ⟨as, has, hlength⟩ := hP.head_bind hmeaning hrule f
    obtain ⟨rfl, rfl⟩ := apply_eq_apply (heq.trans has)
    have hsame : (⟨pi'.name, args.length⟩ : Indicator) = pi' := by rw [hlength]
    exact .inr ⟨rules, hsame ▸ hmeaning, rule, hrule, f, rfl, hgoals⟩

/-- No control construct follows by equality or by a rule. -/
theorem Entailed.of_construct (hP : P.Definite) (name : String) (args : List (Tree V))
    (hpi : Constructs ⟨name, args.length⟩) (h : Entailed P (Tree.apply name args)) :
    Tree.apply name args = .literal (.atom "true") ∨
      (∃ left right, Tree.apply name args = .compound "," [left, right] ∧ Entailed P left ∧
        Entailed P right) ∨
      ∃ left right, Tree.apply name args = .compound ";" [left, right] ∧
        (Entailed P left ∨ Entailed P right) := by
  generalize heq : Tree.apply name args = t at h
  cases h with
  | truth => exact .inl rfl
  | both hleft hright => exact .inr (.inl ⟨_, _, rfl, hleft, hright⟩)
  | left hleft right => exact .inr (.inr ⟨_, _, rfl, .inl hleft⟩)
  | right left hright => exact .inr (.inr ⟨_, _, rfl, .inr hright⟩)
  | @equality name' hpi' hmeaning t =>
    obtain ⟨rfl, rfl⟩ := apply_eq_apply (heq.trans (show _ = Tree.apply name' [t, t] from rfl))
    exact absurd hpi hpi'
  | @rule pi' rules rule hpi' hmeaning hrule f hgoals =>
    obtain ⟨as, has, hlength⟩ := hP.head_bind hmeaning hrule f
    obtain ⟨rfl, rfl⟩ := apply_eq_apply (heq.trans has)
    rw [hlength] at hpi
    exact absurd hpi hpi'

theorem Entailed.of_both {left right : Tree V} (hP : P.Definite)
    (h : Entailed P (Tree.compound "," [left, right])) : Entailed P left ∧ Entailed P right := by
  rcases Entailed.of_construct hP "," [left, right] (.inl (by simp)) h with
    heq | ⟨l, r, heq, hboth⟩ | ⟨l, r, heq, -⟩
  · cases heq
  · cases heq
    exact hboth
  · simp [Tree.apply] at heq

theorem Entailed.of_either {left right : Tree V} (hP : P.Definite)
    (h : Entailed P (Tree.compound ";" [left, right])) : Entailed P left ∨ Entailed P right := by
  rcases Entailed.of_construct hP ";" [left, right] (.inl (by simp)) h with
    heq | ⟨l, r, heq, -⟩ | ⟨l, r, heq, heither⟩
  · cases heq
  · simp [Tree.apply] at heq
  · cases heq
    exact heither

theorem not_entailed_failure (hP : P.Definite) {name : String} (hname : name = "fail" ∨ name = "false") :
    ¬ Entailed P (Tree.literal (.atom name) : Tree V) := by
  intro h
  have hpi : Constructs ⟨name, ([] : List (Tree V)).length⟩ := by
    rcases hname with rfl | rfl <;> exact .inl (by simp)
  rcases Entailed.of_construct hP name [] hpi h with
    heq | ⟨l, r, heq, -⟩ | ⟨l, r, heq, -⟩
  · rcases hname with rfl | rfl <;> simp [Tree.apply] at heq
  · cases heq
  · cases heq

/-! ## The coverage of answers -/

/-- Every substitution under which the goal follows factors through an answer. -/
def Covers (P : Program) (uses : Nat) (goal : Tree Var) (A : Answers) : Prop :=
  ∀ {W : Type} (θ : Var → Tree W), Entailed P (goal.bind θ) →
    ∃ answer ∈ A.found, ∃ δ, Factors uses θ answer δ

theorem factors_one (uses : Nat) (θ : Var → Tree W) : Factors uses θ (uses, .var) θ where
  le := Nat.le_refl _
  vars x hx y hy := by
    obtain rfl := List.mem_singleton.mp (Tree.vars_of_var x ▸ hy)
    exact hx
  eq x _ := Tree.bind_of_var θ x

/-- The bindings of a most general unifier of trees over the variables of the uses so far. -/
theorem factors_of_solve {σ : Var → Tree Var} {eqs : Equations Var} (hσ : Equations.solve eqs = some σ)
    (heqs : ∀ x ∈ Equations.vars eqs, x.use ≤ uses) {θ : Var → Tree W} (hθ : Equations.Solved θ eqs) :
    Factors uses θ (uses, σ) θ where
  le := Nat.le_refl _
  vars x hx y hy := by
    have hprincipal := Equations.principal_of_solve hσ
    by_cases hmem : x ∈ Equations.vars eqs
    · exact heqs y (hprincipal.inside x hmem y hy)
    · have hy : y ∈ (σ x).vars := hy
      rw [hprincipal.outside x hmem] at hy
      obtain rfl := List.mem_singleton.mp (Tree.vars_of_var x ▸ hy)
      exact hx
  eq x _ := (Equations.principal_of_solve hσ).general θ hθ x

section Complete

variable {prove : Nat → Tree Var → Answers} {σ : Bindings}
  (h : ∀ uses goal, Positive P goal → UpTo uses goal → (prove uses goal).ending = .exhausted →
    Covers P uses goal (prove uses goal))

include h

theorem covers_proveAll {goals : List (Tree Var)} (hgoals : ∀ goal ∈ goals, Positive P goal)
    (hupTo : ∀ goal ∈ goals, UpTo uses (goal.bind σ)) {δ : Var → Tree W}
    (hentailed : ∀ goal ∈ goals, Entailed P ((goal.bind σ).bind δ))
    (hexhausted : (proveAll prove σ uses goals).ending = .exhausted) :
    ∃ answer ∈ (proveAll prove σ uses goals).found, ∃ δ', Factors uses δ answer δ' := by
  induction goals generalizing σ uses δ with
  | nil => exact ⟨_, List.mem_singleton_self _, δ, factors_one uses δ⟩
  | cons goal goals ih =>
    rw [List.forall_mem_cons] at hgoals hupTo hentailed
    obtain ⟨hfirst, hnext⟩ := Answers.bind_exhausted hexhausted
    obtain ⟨first, hmem, δ₁, hfactors⟩ :=
      h _ _ (hgoals.1.bind σ) hupTo.1 hfirst δ hentailed.1
    obtain ⟨hending, hfound⟩ := hnext first hmem
    obtain ⟨next, hmem', δ₂, hfactors'⟩ := ih (σ := σ.andThen first.2) (δ := δ₁) hgoals.2
      (fun g hg => by
        rw [bind_andThen]
        exact hfactors.upTo (hupTo.2 g hg))
      (fun g hg => by
        rw [bind_andThen, hfactors.bind_eq (hupTo.2 g hg)]
        exact hentailed.2 g hg) hending
    exact ⟨_, hfound next hmem', δ₂, hfactors.trans hfactors'⟩

/-- A rule that the goal follows by is tried, with its variables renamed, and its body is covered. -/
theorem covers_rule {rule : Rule Ref} (hrule : ∀ g ∈ rule.goals, Positive P g) (hupTo : UpTo uses goal)
    {θ : Var → Tree W} {f : Ref → Tree W} (hhead : rule.head.bind f = goal.bind θ)
    (hentailed : ∀ g ∈ rule.goals, Entailed P (g.bind f)) :
    ∃ σ, Equations.solve [(goal, (renamed (uses + 1) rule).head)] = some σ ∧
      ((proveAll prove σ (uses + 1) (renamed (uses + 1) rule).goals).ending = .exhausted →
        ∃ next ∈ (proveAll prove σ (uses + 1) (renamed (uses + 1) rule).goals).found, ∃ δ,
          Factors uses θ (next.1, Bindings.andThen σ next.2) δ) := by
  -- The variables of the new use stand for what the derivation has in their place.
  let θ' : Var → Tree W := fun x => if x.use = uses + 1 then f x.ref else θ x
  have hold : ∀ x : Var, x.use ≤ uses → θ' x = θ x := fun x hx => if_neg (by omega)
  have hnew : ∀ t : Tree Ref, (t.bind fun v => .var ⟨uses + 1, v⟩).bind θ' = t.bind f := fun t => by
    rw [bind_use]
    exact Tree.bind_congr fun v _ => if_pos rfl
  have hgoal : goal.bind θ' = goal.bind θ := Tree.bind_congr fun x hx => hold x (hupTo x hx)
  have hsolved : Equations.Solved θ' [(goal, (renamed (uses + 1) rule).head)] :=
    List.forall_mem_singleton.mpr (hgoal.trans (hhead.symm.trans (hnew rule.head).symm))
  rcases hσ : Equations.solve [(goal, (renamed (uses + 1) rule).head)] with _ | σ
  · exact absurd hsolved (Equations.not_solved_of_solve hσ θ')
  have huse : ∀ t : Tree Ref, UpTo (uses + 1) (t.bind fun v => .var ⟨uses + 1, v⟩) := by
    intro t x hx
    obtain ⟨v, -, hx⟩ := Tree.mem_vars_bind.mp hx
    obtain rfl := List.mem_singleton.mp (Tree.vars_of_var _ ▸ hx)
    exact Nat.le_refl _
  have hvars : ∀ x ∈ Equations.vars [(goal, (renamed (uses + 1) rule).head)], x.use ≤ uses + 1 := by
    intro x hx
    simp only [Equations.vars_cons, List.mem_append] at hx
    rcases hx with (hx | hx) | hx
    · exact Nat.le_succ_of_le (hupTo x hx)
    · exact huse rule.head x hx
    · cases hx
  have hfactors := factors_of_solve hσ hvars hsolved
  refine ⟨σ, rfl, fun hexhausted => ?_⟩
  obtain ⟨next, hmem, δ, hfactors'⟩ : ∃ next ∈
      (proveAll prove σ (uses + 1) (renamed (uses + 1) rule).goals).found, ∃ δ,
      Factors (uses + 1) θ' next δ :=
    covers_proveAll h
      (List.forall_mem_map.mpr fun g hg => (hrule g hg).bind _)
      (List.forall_mem_map.mpr fun g _ => hfactors.upTo (huse g))
      (List.forall_mem_map.mpr fun g hg => by
        rw [hfactors.bind_eq (huse g), hnew]
        exact hentailed g hg) hexhausted
  have hall := hfactors.trans hfactors'
  exact ⟨next, hmem, δ, (Nat.le_succ uses).trans hall.le,
    fun x hx => hall.vars x (Nat.le_succ_of_le hx),
    fun x hx => (hall.eq x (Nat.le_succ_of_le hx)).trans (hold x hx)⟩

theorem covers_tryRules {rules : List (Rule Ref)}
    (hrules : ∀ rule ∈ rules, ∀ g ∈ rule.goals, Positive P g) (hupTo : UpTo uses goal)
    {θ : Var → Tree W} {rule : Rule Ref} (hrule : rule ∈ rules) {f : Ref → Tree W}
    (hhead : rule.head.bind f = goal.bind θ) (hentailed : ∀ g ∈ rule.goals, Entailed P (g.bind f))
    (hexhausted : (tryRules prove uses goal rules).ending = .exhausted) :
    ∃ answer ∈ (tryRules prove uses goal rules).found, ∃ δ, Factors uses θ answer δ := by
  induction rules with
  | nil => cases hrule
  | cons tried rules ih =>
    rw [List.forall_mem_cons] at hrules
    rw [tryRules_eq] at hexhausted ⊢
    rcases List.mem_cons.mp hrule with rfl | hrule
    · obtain ⟨σ, hσ, hcovers⟩ := covers_rule h hrules.1 hupTo hhead hentailed
      rw [hσ] at hexhausted ⊢
      obtain ⟨hbody, -, hfound⟩ := Answers.append_exhausted hexhausted
      obtain ⟨next, hnext, hfactors⟩ := hcovers hbody
      exact ⟨_, hfound ▸ List.mem_append_left _ (List.mem_map_of_mem hnext), hfactors⟩
    · rcases hσ : Equations.solve [(goal, (renamed (uses + 1) tried).head)] with _ | σ
      · rw [hσ] at hexhausted
        exact ih hrules.2 hrule hexhausted
      · rw [hσ] at hexhausted
        obtain ⟨-, hlater, hfound⟩ := Answers.append_exhausted hexhausted
        obtain ⟨answer, hmem, hfactors⟩ := ih hrules.2 hrule hlater
        exact ⟨answer, hfound ▸ List.mem_append_right _ hmem, hfactors⟩

theorem covers_callProcedure (hplain : ∀ uses goal, Positive P goal → (prove uses goal).ending.Plain)
    (hP : P.Definite) (hpi : ¬ Constructs ⟨name, as.length⟩)
    (hupTo : UpTo uses (.apply name as))
    (hexhausted : (callProcedure P prove uses (.apply name as) ⟨name, as.length⟩ as).ending =
      .exhausted) :
    Covers P uses (.apply name as)
      (callProcedure P prove uses (.apply name as) ⟨name, as.length⟩ as) := by
  intro W θ hentailed
  have hlength : (as.map (Tree.bind θ)).length = as.length := List.length_map _
  rw [Tree.bind_apply] at hentailed
  rcases Entailed.of_call hP (by rwa [hlength]) hentailed with
    ⟨hmeaning, t, hargs⟩ | ⟨rules, hmeaning, rule, hrule, f, hhead, hgoals⟩
  · rw [hlength] at hmeaning
    rcases as with _ | ⟨l, _ | ⟨r, _ | ⟨_, _⟩⟩⟩
    case cons.cons.nil =>
      obtain ⟨hl, hr, -⟩ : l.bind θ = t ∧ r.bind θ = t ∧ True := by simpa using hargs
      have hsolved : Equations.Solved θ [(l, r)] := List.forall_mem_singleton.mpr (hl.trans hr.symm)
      simp only [callProcedure, hmeaning]
      rcases hσ : Equations.solve [(l, r)] with _ | σ
      · exact absurd hsolved (Equations.not_solved_of_solve hσ θ)
      · refine ⟨(uses, σ), List.mem_singleton_self _, θ, factors_of_solve hσ (fun x hx => ?_) hsolved⟩
        obtain ⟨hleft, hright⟩ := upTo_pair hupTo
        simp only [Equations.vars_cons, List.mem_append] at hx
        rcases hx with (hx | hx) | hx
        · exact hleft x hx
        · exact hright x hx
        · cases hx
    all_goals simp at hargs
  · rw [hlength] at hmeaning
    have hrules : (tryRules prove uses (.apply name as) rules).ending.Plain :=
      tryRules_plain hplain (hP.goals _ rules hmeaning)
    simp only [callProcedure, hmeaning] at hexhausted ⊢
    rw [Answers.confined_of_plain hrules] at hexhausted ⊢
    exact covers_tryRules h (hP.goals _ rules hmeaning) hupTo hrule
      (hhead.trans (Tree.bind_apply ..).symm) hgoals hexhausted

end Complete

/-- **What follows from the program is an instance of an answer**, where the answers are exhausted. -/
theorem covers_of_exhausted (hP : P.Definite) (hgoal : Positive P goal) (hupTo : UpTo uses goal)
    (hexhausted : (prove P depth uses goal).ending = .exhausted) :
    Covers P uses goal (prove P depth uses goal) := by
  induction depth generalizing uses goal with
  | zero => cases hexhausted
  | succ depth ih =>
    cases hgoal with
    | truth => exact fun θ _ => ⟨_, List.mem_singleton_self _, θ, factors_one uses θ⟩
    | failure hname =>
      intro W θ hentailed
      rw [Tree.bind_literal] at hentailed
      exact absurd hentailed (not_entailed_failure hP hname)
    | @both left right hleft hright =>
      obtain ⟨hupToLeft, hupToRight⟩ := upTo_pair hupTo
      rw [prove_both] at hexhausted ⊢
      obtain ⟨hfirst, hnext⟩ := Answers.bind_exhausted hexhausted
      intro W θ hentailed
      rw [Tree.bind_compound] at hentailed
      obtain ⟨hl, hr⟩ := Entailed.of_both hP hentailed
      obtain ⟨first, hmem, δ, hfactors⟩ := ih hleft hupToLeft hfirst θ hl
      obtain ⟨hending, hfound⟩ := hnext first hmem
      obtain ⟨next, hmem', δ', hfactors'⟩ := ih (hright.bind first.2) (hfactors.upTo hupToRight) hending δ
        (by rwa [hfactors.bind_eq hupToRight])
      exact ⟨_, hfound next hmem', δ', hfactors.trans hfactors'⟩
    | @either left right hleft hright =>
      obtain ⟨hupToLeft, hupToRight⟩ := upTo_pair hupTo
      rw [prove_either hleft] at hexhausted ⊢
      obtain ⟨hfirst, hsecond, hfound⟩ := Answers.append_exhausted hexhausted
      intro W θ hentailed
      rw [Tree.bind_compound] at hentailed
      rcases Entailed.of_either hP hentailed with hl | hr
      · obtain ⟨answer, hmem, hfactors⟩ :=
          ih hleft hupToLeft hfirst θ hl
        exact ⟨answer, hfound ▸ List.mem_append_left _ hmem, hfactors⟩
      · obtain ⟨answer, hmem, hfactors⟩ :=
          ih hright hupToRight hsecond θ hr
        exact ⟨answer, hfound ▸ List.mem_append_right _ hmem, hfactors⟩
    | call hpi _ =>
      rw [prove_call hpi] at hexhausted ⊢
      exact covers_callProcedure (fun uses goal => ih) (fun _ _ => prove_plain hP) hP hpi hupTo
        hexhausted

end Clausal.Reference
