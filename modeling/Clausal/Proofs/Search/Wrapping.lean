import Clausal.Proofs.Search.Consequence
import Clausal.Proofs.Search.Vocabulary

/-! # Goals that are called through `call/1`

Cuts of a goal that is called through `call/1` are local to the call.  So a goal among those that a
control construct is made of may be called through `call/1` without making a difference to the answers,
if it does not cut when it is proved (`comesTo_wrapped`); in a condition or under a negation it may be
called in any case.  Only to the left of a disjunction the goal must not turn out to be an implication,
which would be a condition there.

The program with the calls is compared with the one without them.  A call takes one step of depth more
than the goal itself, so the answers of the second program at some depth lie between those of the first
one at the same depth and at twice the depth (`Answers.Between`).
-/

namespace Clausal

namespace Tree

variable {V W : Type}

/-- The goal, called through `call/1`. -/
def called (t : Tree V) : Tree V := .compound "call" [t]

/-- The second goal is the first one in which some of the goals that it is made of are called through
`call/1`, as far as they are of the given kind. -/
inductive Wraps (K : Tree V → Prop) : Tree V → Tree V → Prop
  /-- No goal is. -/
  | same (t : Tree V) : Wraps K t t
  /-- The goal itself is. -/
  | called {t : Tree V} (h : K t) : Wraps K t t.called
  /-- In a conjunction. -/
  | both {left left' right right' : Tree V} (hleft : Wraps K left left') (hright : Wraps K right right') :
    Wraps K (.compound "," [left, right]) (.compound "," [left', right'])
  /-- In a disjunction. -/
  | either {left left' right right' : Tree V} (hleft : Wraps K left left') (hright : Wraps K right right') :
    Wraps K (.compound ";" [left, right]) (.compound ";" [left', right'])
  /-- In an implication. -/
  | ifThen {left left' right right' : Tree V} (hleft : Wraps K left left') (hright : Wraps K right right') :
    Wraps K (.compound "->" [left, right]) (.compound "->" [left', right'])
  /-- Under a negation. -/
  | not {goal goal' : Tree V} (h : Wraps K goal goal') :
    Wraps K (.compound "\\+" [goal]) (.compound "\\+" [goal'])

/-- The tree is a variable. -/
def IsVariable (t : Tree V) : Prop := ∃ v, t = .var v

variable {K : Tree V → Prop} {K' : Tree W → Prop} {t t' : Tree V}

theorem ne_called (t : Tree V) : t ≠ t.called := by
  intro heq
  have hsize := congrArg size heq
  rw [called, size_compound, List.map_singleton, List.sum_singleton] at hsize
  omega

theorem Wraps.bind (h : Wraps K t t') (f : V → Tree W) (hK : ∀ t, K t → K' (t.bind f)) :
    Wraps K' (t.bind f) (t'.bind f) := by
  induction h with
  | same t => exact .same _
  | @called t h =>
    rw [Tree.called, bind_compound]
    exact .called (hK t h)
  | both _ _ ihl ihr =>
    rw [bind_compound, bind_compound]
    exact .both ihl ihr
  | either _ _ ihl ihr =>
    rw [bind_compound, bind_compound]
    exact .either ihl ihr
  | ifThen _ _ ihl ihr =>
    rw [bind_compound, bind_compound]
    exact .ifThen ihl ihr
  | not _ ih =>
    rw [bind_compound, bind_compound]
    exact .not ih

theorem Wraps.imp {K' : Tree V → Prop} (h : Wraps K t t') (hK : ∀ t, K t → K' t) : Wraps K' t t' := by
  have hbind := h.bind Tree.var fun t ht => (bind_var t).symm ▸ hK t ht
  rwa [bind_var, bind_var] at hbind

/-- Goals that have the same construct, or call the same predicate, are made of goals that are the same
but for calls. -/
theorem Wraps.args {name name' : String} {args args' : List (Tree V)}
    (h : Wraps K (.compound name args) (.compound name' args')) (hname : name' ≠ "call") :
    name' = name ∧ List.Forall₂ (Wraps K) args args' := by
  generalize ht : Tree.compound name args = t at h
  generalize ht' : Tree.compound name' args' = t' at h
  cases h with
  | same =>
    obtain ⟨rfl, rfl⟩ := compound.inj (ht.trans ht'.symm)
    exact ⟨rfl, List.forall₂_same.mpr fun u _ => .same u⟩
  | called => exact absurd (compound.inj ht').1 hname
  | both hleft hright | either hleft hright | ifThen hleft hright =>
    obtain ⟨rfl, rfl⟩ := compound.inj ht
    obtain ⟨rfl, rfl⟩ := compound.inj ht'
    exact ⟨rfl, .cons hleft (.cons hright .nil)⟩
  | not h =>
    obtain ⟨rfl, rfl⟩ := compound.inj ht
    obtain ⟨rfl, rfl⟩ := compound.inj ht'
    exact ⟨rfl, .cons h .nil⟩

theorem Wraps.pair {name : String} {left left' right right' : Tree V}
    (h : Wraps K (.compound name [left, right]) (.compound name [left', right']))
    (hname : name ≠ "call") : Wraps K left left' ∧ Wraps K right right' := by
  obtain ⟨-, hargs⟩ := h.args hname
  rw [List.forall₂_cons, List.forall₂_cons] at hargs
  exact ⟨hargs.1, hargs.2.1⟩

/-- A goal is an implication if it is one without the calls, unless the goal itself is called. -/
theorem Wraps.implication_iff (h : Wraps K t t') (hne : t' ≠ t.called) :
    (∃ condition goal, t' = .compound "->" [condition, goal]) ↔
      ∃ condition goal, t = .compound "->" [condition, goal] := by
  have hother : ∀ {name : String} {args : List (Tree V)}, name ≠ "->" →
      ¬ ∃ condition goal, Tree.compound name args = .compound "->" [condition, goal] := by
    rintro name args hname ⟨condition, goal, heq⟩
    exact hname (compound.inj heq).1
  cases h with
  | same => exact Iff.rfl
  | called => exact absurd rfl hne
  | both | either => exact iff_of_false (hother (by decide)) (hother (by decide))
  | ifThen => exact iff_of_true ⟨_, _, rfl⟩ ⟨_, _, rfl⟩
  | not => exact iff_of_false (hother (by decide)) (hother (by decide))

/-- **A variable that is a conjunct is called through `call/1` anyway**; variables deeper in a body are
not. -/
theorem Wraps.conjuncts (h : Wraps IsVariable t t') :
    List.Forall₂ (Wraps IsVariable) (t.conjuncts.map asCall) (t'.conjuncts.map asCall) := by
  have hone : ∀ {name : String} {args args' : List (Tree V)}, name ≠ "," →
      Wraps IsVariable (.compound name args) (.compound name args') →
      List.Forall₂ (Wraps IsVariable) ((Tree.compound name args).conjuncts.map asCall)
        ((Tree.compound name args').conjuncts.map asCall) := by
    intro name args args' hname h
    have hne : ∀ (args : List (Tree V)) left right, Tree.compound name args ≠ .compound "," [left, right] := by
      intro args left right heq
      exact hname (compound.inj heq).1
    rw [conjuncts_of_ne (hne args), conjuncts_of_ne (hne args')]
    exact .cons h .nil
  induction h with
  | same t => exact List.forall₂_same.mpr fun u _ => .same u
  | called h =>
    obtain ⟨v, rfl⟩ := h
    have hvar : (Tree.var v).conjuncts = [.var v] := conjuncts_of_ne (by intro left right heq; cases heq)
    have hcall : (Tree.var v).called.conjuncts = [(Tree.var v).called] :=
      conjuncts_of_ne (by intro left right heq; exact absurd (compound.inj heq).1 (by decide))
    rw [hvar, hcall]
    exact .cons (.same _) .nil
  | both _ _ ihl ihr =>
    rw [conjuncts_both, conjuncts_both, List.map_append, List.map_append]
    exact List.rel_append ihl ihr
  | either hl hr _ _ => exact hone (by decide) (.either hl hr)
  | ifThen hl hr _ _ => exact hone (by decide) (.ifThen hl hr)
  | not h _ => exact hone (by decide) (.not h)

end Tree

/-- The second rule is the first one with some of the goals in its body called through `call/1`. -/
structure Rule.Wraps {V : Type} (r r' : Rule V) : Prop where
  /-- The head. -/
  head : r'.head = r.head
  /-- The goals, from left to right. -/
  goals : List.Forall₂ (Tree.Wraps fun _ => True) r.goals r'.goals

namespace Reference

open Search Answers

/-- The second program has the same to say, but that in the bodies of rules some goals are called
through `call/1`. -/
inductive Meaning.Wraps : Meaning → Meaning → Prop
  /-- The same. -/
  | same (meaning : Meaning) : Wraps meaning meaning
  /-- Rules, in their order. -/
  | rules {rules rules' : List (Rule Ref)} (h : List.Forall₂ Rule.Wraps rules rules') :
    Wraps (.rules rules) (.rules rules')

/-- A goal that a construct proves to its first answer, so that cuts of it are local, in two constructs. -/
inductive Confines : Tree Var → Tree Var → Tree Var → Tree Var → Prop
  /-- A condition. -/
  | condition (goal goal' consequence consequence' : Tree Var) :
    Confines (.compound "->" [goal, consequence]) (.compound "->" [goal', consequence']) goal goal'
  /-- A negated goal. -/
  | negated (goal goal' : Tree Var) : Confines (.compound "\\+" [goal]) (.compound "\\+" [goal']) goal goal'

/-- Goals, to be proved one after the other, that come up in the search for the query with the first
program, and the goals in their places with the second one.  The number is that of the last use of a
clause before. -/
inductive Meets (P P' : Program) (query : Tree Var) : Nat → List (Tree Var) → List (Tree Var) → Prop
  /-- The query. -/
  | query : Meets P P' query 0 [query] [query]
  /-- The first of several goals. -/
  | first {uses : Nat} {goal goal' : Tree Var} {goals goals' : List (Tree Var)}
    (h : Meets P P' query uses (goal :: goals) (goal' :: goals')) : Meets P P' query uses [goal] [goal']
  /-- The others, under an answer to the first one. -/
  | later {uses depth : Nat} {goal goal' : Tree Var} {goals goals' : List (Tree Var)}
    {answer : Nat × Bindings} (h : Meets P P' query uses (goal :: goals) (goal' :: goals'))
    (hanswer : answer ∈ (prove P depth uses goal).found) :
    Meets P P' query answer.1 (goals.map (Tree.bind answer.2)) (goals'.map (Tree.bind answer.2))
  /-- A goal that is called with the second program only. -/
  | called {uses : Nat} {goal : Tree Var} (h : Meets P P' query uses [goal] [goal.called]) :
    Meets P P' query uses [goal] [goal]
  /-- The goals of a conjunction. -/
  | both {uses : Nat} {left left' right right' : Tree Var}
    (h : Meets P P' query uses [.compound "," [left, right]] [.compound "," [left', right']]) :
    Meets P P' query uses [left, right] [left', right']
  /-- The first goal of a disjunction. -/
  | left {uses : Nat} {left left' right right' : Tree Var}
    (h : Meets P P' query uses [.compound ";" [left, right]] [.compound ";" [left', right']]) :
    Meets P P' query uses [left] [left']
  /-- The second goal of a disjunction. -/
  | right {uses : Nat} {left left' right right' : Tree Var}
    (h : Meets P P' query uses [.compound ";" [left, right]] [.compound ";" [left', right']]) :
    Meets P P' query uses [right] [right']
  /-- A condition or a negated goal. -/
  | confined {uses : Nat} {construct construct' goal goal' : Tree Var}
    (h : Meets P P' query uses [construct] [construct'])
    (hgoal : Confines construct construct' goal goal') (hne : goal' ≠ goal.called) :
    Meets P P' query uses [goal] [goal']
  /-- A condition or a negated goal that is called with the second program only. -/
  | confinedCall {uses : Nat} {construct construct' goal : Tree Var}
    (h : Meets P P' query uses [construct] [construct'])
    (hgoal : Confines construct construct' goal goal.called) : Meets P P' query uses [goal] [goal]
  /-- What is proved under the first answer to a condition. -/
  | consequence {uses depth : Nat} {condition condition' goal goal' : Tree Var} {answer : Nat × Bindings}
    (h : Meets P P' query uses [.compound "->" [condition, goal]] [.compound "->" [condition', goal']])
    (hanswer : (prove P depth uses condition).found.head? = some answer) :
    Meets P P' query answer.1 [goal.bind answer.2] [goal'.bind answer.2]
  /-- A goal that is called with both. -/
  | call {uses : Nat} {goal goal' : Tree Var} {extra : List (Tree Var)}
    (h : Meets P P' query uses [.compound "call" (goal :: extra)] [.compound "call" (goal :: extra)])
    (hgoal : withArgs goal extra = .ok goal') : Meets P P' query uses [goal'] [goal']
  /-- The body of a rule for the goal. -/
  | rule {uses : Nat} {goal : Tree Var} {name : String} {args : List (Tree Var)}
    {rules rules' : List (Rule Ref)} {rule rule' : Rule Ref} {σ : Bindings}
    (h : Meets P P' query uses [goal] [goal]) (hgoal : callee goal = .ok (name, args))
    (hrules : P ⟨name, args.length⟩ = .rules rules) (hrules' : P' ⟨name, args.length⟩ = .rules rules')
    (hmem : (rule, rule') ∈ rules.zip rules')
    (hσ : Equations.solve [(goal, (renamed (uses + 1) rule).head)] = some σ) :
    Meets P P' query (uses + 1) ((renamed (uses + 1) rule).goals.map (Tree.bind σ))
      ((renamed (uses + 1) rule').goals.map (Tree.bind σ))

/-- Calling goals makes no difference in the search for the query. -/
structure Indifferent (P P' : Program) (query : Tree Var) : Prop where
  /-- A goal that is called with the second program only does not cut, unless it is a condition or a
  negated goal. -/
  cut : ∀ uses goal, Meets P P' query uses [goal] [goal.called] →
    ∀ depth, (prove P depth uses goal).ending ≠ .cut
  /-- To the left of a disjunction it is no implication. -/
  implication : ∀ uses goal right right', Meets P P' query uses [.compound ";" [goal, right]]
      [.compound ";" [goal.called, right']] → ∀ condition consequence,
    goal ≠ .compound "->" [condition, consequence]

theorem Meaning.Wraps.forall₂ {rules rules' : List (Rule Ref)}
    (h : Meaning.Wraps (.rules rules) (.rules rules')) : List.Forall₂ Rule.Wraps rules rules' := by
  cases h with
  | same => exact List.forall₂_same.mpr fun r _ => ⟨rfl, List.forall₂_same.mpr fun t _ => .same t⟩
  | rules h => exact h

variable {P P' : Program} {query goal goal' : Tree Var} {goals goals' : List (Tree Var)} {uses : Nat}

/-- **Goals that come up are the same, but for calls.** -/
theorem Meets.wraps (hP : ∀ pi, (P pi).Wraps (P' pi)) (h : Meets P P' query uses goals goals') :
    List.Forall₂ (Tree.Wraps fun _ => True) goals goals' := by
  have hbind : ∀ {goals goals' : List (Tree Var)} (σ : Bindings),
      List.Forall₂ (Tree.Wraps fun _ => True) goals goals' →
      List.Forall₂ (Tree.Wraps fun _ => True) (goals.map (Tree.bind σ)) (goals'.map (Tree.bind σ)) := by
    intro goals goals' σ h
    rw [List.forall₂_map_left_iff, List.forall₂_map_right_iff]
    exact h.imp fun t t' ht => ht.bind σ fun _ _ => trivial
  induction h with
  | query => exact .cons (.same _) .nil
  | first _ ih => exact .cons (List.forall₂_cons.mp ih).1 .nil
  | later _ _ ih => exact hbind _ (List.forall₂_cons.mp ih).2
  | called | confinedCall | call => exact .cons (.same _) .nil
  | both _ ih =>
    obtain ⟨hleft, hright⟩ := (List.forall₂_cons.mp ih).1.pair (by decide)
    exact .cons hleft (.cons hright .nil)
  | left _ ih => exact .cons ((List.forall₂_cons.mp ih).1.pair (by decide)).1 .nil
  | right _ ih => exact .cons ((List.forall₂_cons.mp ih).1.pair (by decide)).2 .nil
  | confined _ hgoal _ ih =>
    have hconstruct := (List.forall₂_cons.mp ih).1
    cases hgoal with
    | condition => exact .cons (hconstruct.pair (by decide)).1 .nil
    | negated => exact (hconstruct.args (by decide)).2
  | @consequence _ _ _ _ goal goal' answer _ _ ih =>
    have hgoal := ((List.forall₂_cons.mp ih).1.pair (by decide)).2
    exact hbind answer.2 (.cons hgoal .nil)
  | @rule _ _ name args rules rules' rule rule' σ _ _ hrules hrules' hmem _ _ =>
    have hmeaning := hP ⟨name, args.length⟩
    rw [hrules, hrules'] at hmeaning
    have hrule := (List.forall₂_iff_zip.mp hmeaning.forall₂).2 hmem
    refine hbind σ ?_
    rw [renamed, renamed, Rule.bind, Rule.bind, List.forall₂_map_left_iff, List.forall₂_map_right_iff]
    exact hrule.goals.imp fun t t' ht => ht.bind _ fun _ _ => trivial

/-! ## Depth -/

/-- The answers go on where the first sequence was cut off, and the second one goes on where they were
cut off. -/
structure Answers.Between (lower a upper : Answers) : Prop where
  /-- The first sequence. -/
  below : Approximates lower a
  /-- The second sequence. -/
  above : Approximates a upper

namespace Answers.Between

variable {lower a upper lower' a' upper' : Answers} {f f' f'' : Nat → Bindings → Answers}

theorem refl (a : Answers) : Between a a a := ⟨.refl a, .refl a⟩

theorem append (h : Between lower a upper) (h' : Between lower' a' upper') :
    Between (lower.append lower') (a.append a') (upper.append upper') :=
  ⟨h.below.append h'.below, h.above.append h'.above⟩

theorem after (h : Between lower a upper) (σ : Bindings) :
    Between (lower.after σ) (a.after σ) (upper.after σ) :=
  ⟨h.below.after σ, h.above.after σ⟩

theorem confined (h : Between lower a upper) : Between lower.confined a.confined upper.confined :=
  ⟨h.below.confined, h.above.confined⟩

theorem first (h : Between lower a upper) : Between lower.first a.first upper.first :=
  ⟨h.below.first, h.above.first⟩

theorem bind (h : Between lower a upper) (hf : ∀ answer ∈ a.found,
      Between (f answer.1 answer.2) (f' answer.1 answer.2) (f'' answer.1 answer.2)) :
    Between (lower.bind f) (a.bind f') (upper.bind f'') :=
  ⟨h.below.bind fun answer hanswer => (hf answer (h.below.found_le.subset hanswer)).below,
    h.above.bind fun answer hanswer => (hf answer hanswer).above⟩

theorem orElse (h : Between lower a upper) (h' : Between lower' a' upper')
    (hf : ∀ answer ∈ a.first.found,
      Between (f answer.1 answer.2) (f' answer.1 answer.2) (f'' answer.1 answer.2)) :
    Between (lower.orElse lower' f) (a.orElse a' f') (upper.orElse upper' f'') :=
  ⟨h.below.orElse h'.below fun answer hanswer =>
      (hf answer (h.first.below.found_le.subset hanswer)).below,
    h.above.orElse h'.above fun answer hanswer => (hf answer hanswer).above⟩

theorem negated (h : Between lower a upper) (uses : Nat) :
    Between (lower.negated uses) (a.negated uses) (upper.negated uses) :=
  ⟨h.below.negated uses, h.above.negated uses⟩

end Answers.Between

/-- Answers that do not end with a cut are the same when cuts of them are local. -/
theorem Answers.confined_of_ne {a : Answers} (h : a.ending ≠ .cut) : a.confined = a := by
  obtain ⟨found, ending⟩ := a
  cases ending with
  | cut => exact absurd rfl h
  | exhausted | refused | foreign | unfinished => rfl

theorem Answers.confined_confined (a : Answers) : a.confined.confined = a.confined := by
  obtain ⟨found, ending⟩ := a
  cases ending <;> rfl

theorem Answers.head?_of_mem_first {a : Answers} {answer : Nat × Bindings}
    (h : answer ∈ a.confined.first.found) : a.found.head? = some answer := by
  rw [← found_confined]
  generalize a.confined = b at h
  obtain ⟨_ | ⟨answer', later⟩, ending⟩ := b
  · cases h
  · rw [List.mem_singleton.mp h]
    rfl

theorem prove_called (P : Program) (depth uses : Nat) (goal : Tree Var) :
    prove P (depth + 1) uses goal.called = (prove P depth uses goal).confined := rfl

theorem eq_compound_of_callee {name : String} {arg : Tree Var} {args : List (Tree Var)}
    (h : callee goal = .ok (name, arg :: args)) : goal = .compound name (arg :: args) := by
  cases goal with
  | var v => cases h
  | literal l => cases l <;> cases h
  | compound name' args' =>
    cases h
    rfl

theorem prove_of_callee {name : String} {args : List (Tree Var)} (h : callee goal = .ok (name, args))
    (P : Program) (depth uses : Nat) : prove P (depth + 1) uses goal =
      proveControl P (prove P depth) uses goal (control name args) := by
  rw [prove, h]

theorem prove_ifThen (P : Program) (depth uses : Nat) (condition goal : Tree Var) :
    prove P (depth + 1) uses (.compound "->" [condition, goal]) =
      (prove P depth uses condition).confined.first.bind
        fun uses σ => prove P depth uses (goal.bind σ) := rfl

theorem prove_ifThenElse (P : Program) (depth uses : Nat) (condition goal otherwise : Tree Var) :
    prove P (depth + 1) uses (.compound ";" [.compound "->" [condition, goal], otherwise]) =
      (prove P depth uses condition).confined.orElse (prove P depth uses otherwise)
        fun uses σ => prove P depth uses (goal.bind σ) := rfl

theorem prove_not (P : Program) (depth uses : Nat) (goal : Tree Var) :
    prove P (depth + 1) uses (.compound "\\+" [goal]) =
      (prove P depth uses goal).confined.negated uses := rfl

section

variable (hP : ∀ pi, (P pi).Wraps (P' pi)) (hindifferent : Indifferent P P' query) {depth : Nat}
  (ih : ∀ uses goal goal', Meets P P' query uses [goal] [goal'] → goal' ≠ goal.called →
    Between (prove P' depth uses goal') (prove P depth uses goal)
      (prove P' (2 * depth - 1) uses goal'))
include ih

/-- A goal that is called with the second program only. -/
theorem between_called (h : Meets P P' query uses [goal] [goal]) :
    Between (prove P' depth uses goal.called) (prove P depth uses goal).confined
      (prove P' (2 * depth) uses goal.called) := by
  have hgoal := (ih uses goal goal h goal.ne_called).confined
  cases depth with
  | zero => exact .refl _
  | succ depth =>
    have hdouble : 2 * (depth + 1) = 2 * (depth + 1) - 1 + 1 := by omega
    rw [hdouble, prove_called, prove_called]
    have hmore := (prove_approximates (P := P') (Nat.le_succ depth) uses goal).confined
    exact ⟨hmore.trans hgoal.below, hgoal.above⟩

include hindifferent

theorem between_of_meets (h : Meets P P' query uses [goal] [goal']) :
    Between (prove P' depth uses goal') (prove P depth uses goal) (prove P' (2 * depth) uses goal') := by
  by_cases hne : goal' = goal.called
  · subst hne
    have hcalled := between_called ih h.called
    rwa [confined_of_ne (hindifferent.cut uses goal h depth)] at hcalled
  · have hgoal := ih uses goal goal' h hne
    exact ⟨hgoal.below, hgoal.above.trans (prove_approximates (Nat.sub_le _ _) uses goal')⟩

/-- Cuts of the goal are local, so it may cut. -/
theorem between_confined {construct construct' : Tree Var}
    (h : Meets P P' query uses [construct] [construct'])
    (hgoal : Confines construct construct' goal goal') :
    Between (prove P' depth uses goal').confined (prove P depth uses goal).confined
      (prove P' (2 * depth) uses goal').confined := by
  by_cases hne : goal' = goal.called
  · subst hne
    have hcalled := (between_called ih (h.confinedCall hgoal)).confined
    rwa [confined_confined] at hcalled
  · exact (between_of_meets hindifferent ih (h.confined hgoal hne)).confined

theorem between_proveAll {σ : Bindings}
    (h : Meets P P' query uses (goals.map (Tree.bind σ)) (goals'.map (Tree.bind σ)))
    (hlength : goals.length = goals'.length) :
    Between (proveAll (prove P' depth) σ uses goals') (proveAll (prove P depth) σ uses goals)
      (proveAll (prove P' (2 * depth)) σ uses goals') := by
  induction goals generalizing goals' σ uses with
  | nil =>
    obtain rfl := List.length_eq_zero_iff.mp hlength.symm
    exact .refl _
  | cons goal goals ihgoals =>
    obtain ⟨goal', goals', rfl⟩ := List.exists_cons_of_length_eq_add_one hlength.symm
    rw [proveAll, proveAll, proveAll]
    refine (between_of_meets hindifferent ih h.first).bind ?_
    intro answer hanswer
    have hmap : ∀ goals : List (Tree Var), (goals.map (Tree.bind σ)).map (Tree.bind answer.2) =
        goals.map (Tree.bind (σ.andThen answer.2)) := by
      intro goals
      rw [List.map_map]
      exact List.map_congr_left fun t _ => (bind_andThen σ answer.2 t).symm
    have hlater := h.later hanswer
    rw [hmap, hmap] at hlater
    exact ihgoals hlater (Nat.succ.inj hlength)

theorem between_tryRules {rules rules' : List (Rule Ref)} (hrules : List.Forall₂ Rule.Wraps rules rules')
    (h : ∀ rule rule' σ, (rule, rule') ∈ rules.zip rules' →
      Equations.solve [(goal, (renamed (uses + 1) rule).head)] = some σ →
      Meets P P' query (uses + 1) ((renamed (uses + 1) rule).goals.map (Tree.bind σ))
        ((renamed (uses + 1) rule').goals.map (Tree.bind σ))) :
    Between (tryRules (prove P' depth) uses goal rules') (tryRules (prove P depth) uses goal rules)
      (tryRules (prove P' (2 * depth)) uses goal rules') := by
  induction hrules with
  | nil => exact .refl _
  | @cons rule rule' rules rules' hrule _ ihrules =>
    have hrest := ihrules fun r r' σ hmem => h r r' σ (List.mem_cons_of_mem _ hmem)
    have hhead : (renamed (uses + 1) rule').head = (renamed (uses + 1) rule).head := by
      rw [renamed, renamed, Rule.bind, Rule.bind, hrule.head]
    have hlength : (renamed (uses + 1) rule).goals.length = (renamed (uses + 1) rule').goals.length := by
      rw [renamed, renamed, Rule.bind, Rule.bind, List.length_map, List.length_map]
      exact hrule.goals.length_eq
    rw [tryRules_eq, tryRules_eq, tryRules_eq, hhead]
    rcases hσ : Equations.solve [(goal, (renamed (uses + 1) rule).head)] with _ | σ
    · exact hrest
    · have hbody := h rule rule' σ List.mem_cons_self hσ
      exact ((between_proveAll hindifferent ih hbody hlength).after σ).append hrest

theorem between_both {left left' right right' : Tree Var}
    (h : Meets P P' query uses [.compound "," [left, right]] [.compound "," [left', right']]) :
    Between (prove P' (depth + 1) uses (.compound "," [left', right']))
      (prove P (depth + 1) uses (.compound "," [left, right]))
      (prove P' (2 * depth + 1) uses (.compound "," [left', right'])) := by
  rw [prove_both, prove_both, prove_both]
  refine (between_of_meets hindifferent ih h.both.first).bind ?_
  intro answer hanswer
  exact between_of_meets hindifferent ih (h.both.later hanswer)

theorem between_ifThen {condition condition' goal goal' : Tree Var}
    (h : Meets P P' query uses [.compound "->" [condition, goal]] [.compound "->" [condition', goal']]) :
    Between (prove P' (depth + 1) uses (.compound "->" [condition', goal']))
      (prove P (depth + 1) uses (.compound "->" [condition, goal]))
      (prove P' (2 * depth + 1) uses (.compound "->" [condition', goal'])) := by
  rw [prove_ifThen, prove_ifThen, prove_ifThen]
  refine (between_confined hindifferent ih h (.condition _ _ _ _)).first.bind ?_
  intro answer hanswer
  exact between_of_meets hindifferent ih (h.consequence (head?_of_mem_first hanswer))

theorem between_not (h : Meets P P' query uses [.compound "\\+" [goal]] [.compound "\\+" [goal']]) :
    Between (prove P' (depth + 1) uses (.compound "\\+" [goal']))
      (prove P (depth + 1) uses (.compound "\\+" [goal]))
      (prove P' (2 * depth + 1) uses (.compound "\\+" [goal'])) := by
  rw [prove_not, prove_not, prove_not]
  exact (between_confined hindifferent ih h (.negated _ _)).negated uses

include hP

theorem between_either {left left' right right' : Tree Var}
    (h : Meets P P' query uses [.compound ";" [left, right]] [.compound ";" [left', right']]) :
    Between (prove P' (depth + 1) uses (.compound ";" [left', right']))
      (prove P (depth + 1) uses (.compound ";" [left, right]))
      (prove P' (2 * depth + 1) uses (.compound ";" [left', right'])) := by
  have hright := between_of_meets hindifferent ih h.right
  have hwraps := (List.forall₂_cons.mp (h.left.wraps hP)).1
  by_cases hcondition : ∃ condition goal, left = .compound "->" [condition, goal]
  · obtain ⟨condition, goal, rfl⟩ := hcondition
    have hne : left' ≠ (Tree.compound "->" [condition, goal]).called := by
      rintro rfl
      exact hindifferent.implication _ _ _ _ h _ _ rfl
    obtain ⟨condition', goal', rfl⟩ := (hwraps.implication_iff hne).mpr ⟨_, _, rfl⟩
    rw [prove_ifThenElse, prove_ifThenElse, prove_ifThenElse]
    refine (between_confined hindifferent ih h.left (.condition _ _ _ _)).orElse hright ?_
    intro answer hanswer
    exact between_of_meets hindifferent ih (h.left.consequence (head?_of_mem_first hanswer))
  · have hleft : ∀ condition goal, left ≠ .compound "->" [condition, goal] := by
      intro condition goal heq
      exact hcondition ⟨condition, goal, heq⟩
    have hleft' : ∀ condition goal, left' ≠ .compound "->" [condition, goal] := by
      rintro condition goal rfl
      have hne : Tree.compound "->" [condition, goal] ≠ left.called := by
        intro heq
        exact absurd (Tree.compound.inj heq).1 (by decide)
      exact hcondition ((hwraps.implication_iff hne).mp ⟨_, _, rfl⟩)
    rw [prove_either_of_ne hleft, prove_either_of_ne hleft', prove_either_of_ne hleft']
    exact (between_of_meets hindifferent ih h.left).append hright

theorem between_callProcedure {name : String} {args : List (Tree Var)}
    (h : Meets P P' query uses [goal] [goal]) (hgoal : callee goal = .ok (name, args)) :
    Between (callProcedure P' (prove P' depth) uses goal ⟨name, args.length⟩ args)
      (callProcedure P (prove P depth) uses goal ⟨name, args.length⟩ args)
      (callProcedure P' (prove P' (2 * depth)) uses goal ⟨name, args.length⟩ args) := by
  have hmeaning := hP ⟨name, args.length⟩
  unfold callProcedure
  rcases hrules : P ⟨name, args.length⟩ with _ | _ | _ | rules <;>
    rcases hrules' : P' ⟨name, args.length⟩ with _ | _ | _ | rules' <;>
    rw [hrules, hrules'] at hmeaning
  case rules.rules =>
    refine (between_tryRules hindifferent ih hmeaning.forall₂ ?_).confined
    intro rule rule' σ hmem hσ
    exact h.rule hgoal hrules hrules' hmem hσ
  all_goals first | exact .refl _ | cases hmeaning

/-- A goal in which nothing is called. -/
theorem between_same (h : Meets P P' query uses [goal] [goal]) :
    Between (prove P' (depth + 1) uses goal) (prove P (depth + 1) uses goal)
      (prove P' (2 * depth + 1) uses goal) := by
  rcases hcallee : callee goal with e | ⟨name, args⟩
  · rw [prove, prove, prove, hcallee]
    exact .refl _
  generalize hcontrol : control name args = c
  have hprove := prove_of_callee hcallee
  rw [hcontrol] at hprove
  unfold control at hcontrol
  split at hcontrol
  case h_1 | h_2 | h_3 | h_4 =>
    subst hcontrol
    rw [hprove, hprove, hprove]
    exact .refl _
  case h_5 =>
    obtain rfl := eq_compound_of_callee hcallee
    exact between_both hindifferent ih h
  case h_6 =>
    obtain rfl := eq_compound_of_callee hcallee
    exact between_either hP hindifferent ih h
  case h_7 =>
    obtain rfl := eq_compound_of_callee hcallee
    exact between_ifThen hindifferent ih h
  case h_8 =>
    obtain rfl := eq_compound_of_callee hcallee
    exact between_not hindifferent ih h
  case h_9 goal' extra =>
    obtain rfl := eq_compound_of_callee hcallee
    rw [hprove, hprove, hprove]
    split at hcontrol
    · subst hcontrol
      simp only [proveControl]
      rcases hargs : withArgs goal' extra with e | goal''
      · exact .refl _
      · exact (between_of_meets hindifferent ih (h.call hargs)).confined
    · subst hcontrol
      exact between_callProcedure hP hindifferent ih h hcallee
  case h_10 =>
    subst hcontrol
    rw [hprove, hprove, hprove]
    exact between_callProcedure hP hindifferent ih h hcallee

omit ih

/-- **The answers with the calls lie around those without them.** -/
theorem between_prove (h : Meets P P' query uses [goal] [goal']) (hne : goal' ≠ goal.called) :
    Between (prove P' depth uses goal') (prove P depth uses goal) (prove P' (2 * depth - 1) uses goal') := by
  induction depth generalizing uses goal goal' with
  | zero => exact .refl _
  | succ depth ih =>
    have hprove : ∀ uses goal goal', Meets P P' query uses [goal] [goal'] → goal' ≠ goal.called →
        Between (prove P' depth uses goal') (prove P depth uses goal)
          (prove P' (2 * depth - 1) uses goal') := fun uses goal goal' => ih
    have hdouble : 2 * (depth + 1) - 1 = 2 * depth + 1 := by omega
    have hwraps := (List.forall₂_cons.mp (h.wraps hP)).1
    rw [hdouble]
    cases hwraps with
    | same => exact between_same hP hindifferent hprove h
    | called => exact absurd rfl hne
    | both => exact between_both hindifferent hprove h
    | either => exact between_either hP hindifferent hprove h
    | ifThen => exact between_ifThen hindifferent hprove h
    | not => exact between_not hindifferent hprove h

/-- **The outcome is the same** whether or not goals are called through `call/1`, if calling them makes
no difference where they come up. -/
theorem comesTo_wrapped {o : Outcome} : ComesTo P' query o ↔ ComesTo P query o := by
  constructor
  · rintro ⟨depth, ho⟩
    exact ⟨depth, (between_prove hP hindifferent .query query.ne_called).below.outcome? ho⟩
  · rintro ⟨depth, ho⟩
    exact ⟨2 * depth - 1, (between_prove hP hindifferent .query query.ne_called).above.outcome? ho⟩

end

/-! ## Programs without cuts -/

namespace Answers

variable {a b : Answers} {f : Nat → Bindings → Answers}

theorem confined_plain (h : ∀ pi, a.ending ≠ .foreign pi) : a.confined.ending.Plain := by
  obtain ⟨found, ending⟩ := a
  cases ending with
  | foreign pi => exact absurd rfl (h pi)
  | exhausted | cut | refused | unfinished => trivial

theorem first_plain (h : a.ending.Plain) : a.first.ending.Plain := by
  obtain ⟨_ | ⟨answer, later⟩, ending⟩ := a
  · exact h
  · trivial

theorem orElse_plain (ha : a.ending.Plain) (hb : b.ending.Plain)
    (hf : ∀ answer ∈ a.first.found, (f answer.1 answer.2).ending.Plain) :
    (a.orElse b f).ending.Plain := by
  have hfirst := bind_plain (first_plain ha) hf
  obtain ⟨_ | ⟨answer, later⟩, ending⟩ := a
  · cases ending with
    | exhausted => exact hb
    | cut | refused | foreign | unfinished => exact hfirst
  · cases ending <;> exact hfirst

theorem negated_plain (ha : a.ending.Plain) (uses : Nat) : (a.negated uses).ending.Plain := by
  obtain ⟨_ | ⟨answer, later⟩, ending⟩ := a
  · cases ending <;> trivial
  · trivial

end Answers

section

variable {N : String → Prop} (hP : P.Over N) (hcut : ¬ N "!")
include hP

theorem callProcedure_plain_of_over {depth : Nat} {pi : Indicator} {args : List (Tree Var)}
    (hgoal : goal.Over N) (hpi : N pi.name) :
    (callProcedure P (prove P depth) uses goal pi args).ending.Plain := by
  unfold callProcedure
  rcases hmeaning : P pi with _ | _ | _ | rules
  · trivial
  · dsimp only
    split
    · split <;> trivial
    · trivial
  · exact absurd hmeaning (hP.known pi hpi)
  · have hover : ∀ uses goal, goal.Over N → (prove P depth uses goal).Over N := fun _ _ => prove_over hP
    exact confined_plain (over_tryRules hover hgoal (hP.rules pi rules hmeaning)).ending

include hcut

/-- **Where the cut is not mentioned, nothing cuts.** -/
theorem prove_plain_of_over {depth : Nat} (hgoal : goal.Over N) :
    (prove P depth uses goal).ending.Plain := by
  induction depth generalizing uses goal with
  | zero => trivial
  | succ depth ih =>
    have hover : ∀ {uses goal}, goal.Over N → (prove P depth uses goal).Over N := fun hgoal =>
      prove_over hP hgoal
    have hconfined : ∀ {uses goal}, goal.Over N → (prove P depth uses goal).confined.ending.Plain :=
      fun hgoal => confined_plain (hover hgoal).ending
    have hnext : ∀ {uses : Nat} {goal next : Tree Var}, goal.Over N → next.Over N →
        ∀ answer ∈ (prove P depth uses goal).confined.first.found,
          (prove P depth answer.1 (next.bind answer.2)).ending.Plain := by
      intro uses goal next hgoal hnext answer hanswer
      exact ih (hnext.bind ((hover hgoal).confined.first.found answer hanswer))
    rcases hcallee : callee goal with e | ⟨name, args⟩
    · rw [prove, hcallee]
      trivial
    obtain ⟨hname, hargs⟩ := over_callee hgoal hcallee
    generalize hcontrol : control name args = c
    have hprove := prove_of_callee hcallee P depth uses
    rw [hcontrol] at hprove
    rw [hprove]
    unfold control at hcontrol
    split at hcontrol
    case h_1 | h_2 | h_3 =>
      subst hcontrol
      trivial
    case h_4 => exact absurd hname hcut
    case h_5 left right =>
      subst hcontrol
      have hleft := hargs left (by simp)
      refine bind_plain (ih hleft) ?_
      intro answer hanswer
      exact ih ((hargs right (by simp)).bind ((hover hleft).found answer hanswer))
    case h_6 left right =>
      split at hcontrol
      · subst hcontrol
        rename_i condition consequence
        obtain ⟨-, hparts⟩ := Tree.over_compound.mp (hargs _ List.mem_cons_self)
        have hcondition := hparts condition (by simp)
        exact orElse_plain (hconfined hcondition) (ih (hargs right (by simp)))
          (hnext hcondition (hparts consequence (by simp)))
      · subst hcontrol
        exact append_plain (ih (hargs left (by simp))) (ih (hargs right (by simp)))
    case h_7 condition consequence =>
      subst hcontrol
      have hcondition := hargs condition (by simp)
      exact bind_plain (first_plain (hconfined hcondition))
        (hnext hcondition (hargs consequence (by simp)))
    case h_8 negated =>
      subst hcontrol
      exact negated_plain (hconfined (hargs negated (by simp))) uses
    case h_9 called extra =>
      split at hcontrol
      · subst hcontrol
        simp only [proveControl]
        rcases hwith : withArgs called extra with e | goal'
        · trivial
        · exact hconfined (over_withArgs (hargs called (by simp))
            (fun t ht => hargs t (List.mem_cons_of_mem _ ht)) hwith)
      · subst hcontrol
        exact callProcedure_plain_of_over hP hgoal hname
    case h_10 =>
      subst hcontrol
      exact callProcedure_plain_of_over hP hgoal hname

omit hcut

/-- Goals that come up are over the vocabulary. -/
theorem Meets.over (hquery : query.Over N) (h : Meets P P' query uses goals goals') :
    ∀ g ∈ goals, g.Over N := by
  induction h with
  | query => exact List.forall_mem_singleton.mpr hquery
  | first _ ih => exact List.forall_mem_singleton.mpr (ih _ List.mem_cons_self)
  | @later uses depth goal goal' goals goals' answer _ hanswer ih =>
    have hσ := (prove_over hP (ih goal List.mem_cons_self)).found answer hanswer
    intro g hg
    obtain ⟨g', hg', rfl⟩ := List.mem_map.mp hg
    exact (ih g' (List.mem_cons_of_mem _ hg')).bind hσ
  | called _ ih => exact ih
  | both _ ih => exact (Tree.over_compound.mp (ih _ List.mem_cons_self)).2
  | left _ ih | right _ ih =>
    have hargs := (Tree.over_compound.mp (ih _ List.mem_cons_self)).2
    exact List.forall_mem_singleton.mpr (hargs _ (by simp))
  | confined _ hgoal _ ih | confinedCall _ hgoal ih =>
    have hconstruct := ih _ List.mem_cons_self
    cases hgoal <;>
      exact List.forall_mem_singleton.mpr ((Tree.over_compound.mp hconstruct).2 _ List.mem_cons_self)
  | @consequence uses depth condition condition' goal goal' answer _ hanswer ih =>
    have hargs := (Tree.over_compound.mp (ih _ List.mem_cons_self)).2
    have hσ := (prove_over hP (hargs condition (by simp))).found answer (List.mem_of_head? hanswer)
    exact List.forall_mem_singleton.mpr ((hargs goal (by simp)).bind hσ)
  | @call uses goal goal' extra _ hgoal ih =>
    have hargs := (Tree.over_compound.mp (ih _ List.mem_cons_self)).2
    exact List.forall_mem_singleton.mpr (over_withArgs (hargs goal (by simp))
      (fun t ht => hargs t (List.mem_cons_of_mem _ ht)) hgoal)
  | @rule uses goal name args rules rules' rule rule' σ _ _ hrules _ hmem hσ ih =>
    obtain ⟨hhead, hgoals⟩ := hP.rules _ rules hrules rule (List.of_mem_zip hmem).1
    have hbindings := Equations.over_solve (List.forall_mem_singleton.mpr
      ⟨ih goal (List.mem_singleton_self goal), hhead.bind fun v => Tree.over_var _⟩) hσ
    intro g hg
    obtain ⟨renamed, hrenamed, rfl⟩ := List.mem_map.mp hg
    obtain ⟨original, horiginal, rfl⟩ := List.mem_map.mp hrenamed
    exact ((hgoals original horiginal).bind fun v => Tree.over_var _).bind hbindings

include hcut

/-- **Where neither the cut nor an implication is mentioned, calling goals makes no difference.** -/
theorem indifferent_of_over (hquery : query.Over N) (harrow : ¬ N "->") : Indifferent P P' query where
  cut uses goal h depth := by
    have hgoal := h.over hP hquery goal (List.mem_singleton_self goal)
    have hplain : (prove P depth uses goal).ending.Plain := prove_plain_of_over hP hcut hgoal
    intro hending
    rw [hending] at hplain
    exact hplain
  implication uses goal right right' h condition consequence := by
    rintro rfl
    have hover := h.over hP hquery _ (List.mem_singleton_self _)
    have hleft := (Tree.over_compound.mp hover).2 _ List.mem_cons_self
    exact harrow (Tree.over_compound.mp hleft).1

end

end Reference

end Clausal
