import Clausal.Proofs.Tree.Basic

/-! # Rules as trees

A clause says of a tree what its head is and which goals its body has: the conjuncts of the body, from
left to right, however they are nested, where a variable is called through `call/1` (`Tree.rule`).
A fact is a rule without goals.
-/

namespace Clausal

variable {V W : Type}

namespace Tree

/-- A tree as it is called: a variable is called through `call/1`. -/
def asCall : Tree V → Tree V
  | .var v => .compound "call" [.var v]
  | t => t

/-- The conjuncts of nested conjunctions, from left to right. -/
def conjuncts : Tree V → List (Tree V)
  | .compound "," [left, right] => left.conjuncts ++ right.conjuncts
  | t => [t]

/-- The subtrees of a compound; any other tree has none. -/
def args : Tree V → List (Tree V)
  | .compound _ args => args
  | _ => []

theorem conjuncts_both (left right : Tree V) :
    (compound "," [left, right]).conjuncts = left.conjuncts ++ right.conjuncts := by
  rw [conjuncts]

theorem conjuncts_of_ne {t : Tree V} (h : ∀ left right, t ≠ .compound "," [left, right]) :
    t.conjuncts = [t] := by
  unfold conjuncts
  split
  · exact absurd rfl (h _ _)
  · rfl

theorem args_apply (name : String) (ts : List (Tree V)) : (apply name ts).args = ts := by
  cases ts <;> simp [apply, args]

theorem vars_apply (name : String) (ts : List (Tree V)) :
    (apply name ts).vars = ts.flatMap vars := by
  cases ts <;> simp [apply]

theorem vars_asCall (t : Tree V) : t.asCall.vars = t.vars := by
  cases t <;> simp [asCall]

theorem apply_inj {name : String} {xs ys : List (Tree V)} :
    apply name xs = apply name ys ↔ xs = ys := by
  rcases xs with _ | ⟨x, xs⟩ <;> rcases ys with _ | ⟨y, ys⟩ <;> simp [apply]

end Tree

/-- A head and the goals of a body. -/
structure Rule (V : Type) where
  /-- The head. -/
  head : Tree V
  /-- The goals, from left to right. -/
  goals : List (Tree V)

namespace Tree

/-- The rule that a tree stands for. -/
def rule : Tree V → Rule V
  | .compound ":-" [head, body] => ⟨head, body.conjuncts.map asCall⟩
  | t => ⟨t, []⟩

theorem rule_of_ne {t : Tree V} (h : ∀ head body, t ≠ .compound ":-" [head, body]) :
    t.rule = ⟨t, []⟩ := by
  unfold rule
  split
  · exact absurd rfl (h _ _)
  · rfl

end Tree

/-- The rule with every variable replaced. -/
def Rule.bind (f : V → Tree W) (r : Rule V) : Rule W where
  head := r.head.bind f
  goals := r.goals.map (Tree.bind f)

end Clausal
