import Clausal.TermWriter
import Mathlib.Tactic.SplitIfs

/-! # The pieces of a term

How a compound is written depends on its name, the number of its arguments and the operators
(`TermWriter.Shaped`).  Here are the pieces that it is written with in each of the forms, as an operand and
after the items of a list.
-/

namespace Clausal

/-! ## Constants -/

namespace Literal

theorem isNumber_ofInt (n : Int) : (ofInt n).isNumber := by
  rw [ofInt]
  split <;> rfl

theorem ofInt_ne_atom (n : Int) (name : String) : ofInt n ≠ .atom name := by
  intro h
  have hnumber := isNumber_ofInt n
  rw [h] at hnumber
  cases hnumber

theorem neg_ofInt (n : Int) : (ofInt n).neg = ofInt (-n) := by
  by_cases hn : (-smallLimit ≤ n && n < smallLimit) = true
  · have hsmall : ofInt n = small (.ofInt n) := if_pos hn
    rw [hsmall, neg]
    rw [Bool.and_eq_true, decide_eq_true_iff, decide_eq_true_iff, smallLimit] at hn
    rw [Int64.toInt_ofInt_of_le (by omega) (by omega)]
  · have hbig : ofInt n = big n := if_neg hn
    rw [hbig, neg]

/-- Whether the constant is a number with a minus. -/
def isNegative : Literal → Bool
  | .atom _ => false
  | .small n => n.toInt < 0
  | .big n => n < 0
  | .float x => x.isNegative

theorem isNegative_ofInt (n : Int) : (ofInt n).isNegative = decide (n < 0) := by
  by_cases hn : (-smallLimit ≤ n && n < smallLimit) = true
  · have hsmall : ofInt n = small (.ofInt n) := if_pos hn
    rw [Bool.and_eq_true, decide_eq_true_iff, decide_eq_true_iff, smallLimit] at hn
    rw [hsmall, isNegative, Int64.toInt_ofInt_of_le (by omega) (by omega)]
  · have hbig : ofInt n = big n := if_neg hn
    rw [hbig, isNegative]

end Literal

/-! ## Compounds -/

namespace TermWriter

variable {w : TermWriter} {op : Operator} {limit : Nat} {name : String} {x y : Term} {xs : List Term}

theorem literal_ofInt (w : TermWriter) (limit : Nat) (n : Int) :
    w.literal limit (.ofInt n) = [.token (toString n)] := by
  by_cases hn : (-Literal.smallLimit ≤ n && n < Literal.smallLimit) = true
  · have hsmall : Literal.ofInt n = .small (.ofInt n) := if_pos hn
    rw [Bool.and_eq_true, decide_eq_true_iff, decide_eq_true_iff, Literal.smallLimit] at hn
    rw [hsmall, literal, Int64.toInt_ofInt_of_le (by omega) (by omega)]
  · have hbig : Literal.ofInt n = .big n := if_neg hn
    rw [hbig, literal]

/-- Which compounds are written in which form. -/
inductive Shaped (w : TermWriter) : String → List Term → Form → Prop
  /-- A cell of a list. -/
  | cell (x y : Term) : Shaped w "." [x, y] .cell
  /-- A term in braces. -/
  | curly (x : Term) : Shaped w "\x7b\x7d" [x] .curly
  /-- An operator between its operands. -/
  | between {name : String} {op : Operator} (hop : w.ops.find? name .between = some op) (x y : Term) :
    Shaped w name [x, y] (.between op)
  /-- An operator before its operand. -/
  | before {name : String} {op : Operator} (hop : w.ops.find? name .before = some op) (x : Term) :
    Shaped w name [x] (.before op)
  /-- An operator after its operand. -/
  | after {name : String} {op : Operator} (hop : w.ops.find? name .after = some op) (x : Term) :
    Shaped w name [x] (.after op)
  /-- A name with arguments. -/
  | call (name : String) (xs : List Term) : Shaped w name xs .call

theorem shaped_form (w : TermWriter) (name : String) (xs : List Term) :
    w.Shaped name xs (w.form name xs) := by
  rcases xs with _ | ⟨x, _ | ⟨y, _ | ⟨z, xs⟩⟩⟩
  · exact .call name []
  · unfold form
    dsimp only
    split
    · rename_i hname
      subst hname
      exact .curly x
    · cases hbefore : w.ops.find? name .before with
      | some op =>
        dsimp only
        split_ifs
        · cases hafter : w.ops.find? name .after with
          | some op => exact .after hafter x
          | none => exact .call name [x]
        · exact .before hbefore x
      | none =>
        cases hafter : w.ops.find? name .after with
        | some op => exact .after hafter x
        | none => exact .call name [x]
  · unfold form
    dsimp only
    split
    · rename_i hname
      subst hname
      exact .cell x y
    · cases hop : w.ops.find? name .between with
      | some op => exact .between hop x y
      | none => exact .call name [x, y]
  · exact .call name _

theorem argPieces_call (w : TermWriter) (index : Nat) (xs : List Term) :
    w.argPieces .call index xs = xs.map (w.pieces (.operand 999)) := by
  induction xs generalizing index with
  | nil => rw [argPieces, List.map_nil]
  | cons x xs ih => rw [argPieces, ih, List.map_cons, Form.place]

theorem pieces_cell (hform : w.form name [x, y] = .cell) (limit : Nat) :
    w.pieces (.operand limit) (.compound name [x, y]) =
      .plain "[" :: (w.pieces (.operand 999) x ++ (w.pieces .tail y ++ [.plain "]"])) := by
  rw [pieces, hform, argPieces, argPieces, argPieces, assemble, Form.place, Form.place,
    List.flatten_cons, List.flatten_singleton, List.cons_append, List.append_assoc]
  exact Nat.one_ne_zero

theorem pieces_tail_cell (hform : w.form name [x, y] = .cell) :
    w.pieces .tail (.compound name [x, y]) =
      .plain "," :: (w.pieces (.operand 999) x ++ w.pieces .tail y) := by
  rw [pieces, hform, argPieces, argPieces, argPieces, assemble, Form.place, Form.place,
    List.flatten_cons, List.flatten_singleton]
  exact Nat.one_ne_zero

theorem pieces_curly (hform : w.form name [x] = .curly) (limit : Nat) :
    w.pieces (.operand limit) (.compound name [x]) =
      .plain "\x7b" :: (w.pieces (.operand 1200) x ++ [.plain "\x7d"]) := by
  rw [pieces, hform, argPieces, argPieces, assemble, Form.place, List.flatten_singleton]
  rfl

theorem pieces_call (hform : w.form name xs = .call) (limit : Nat) :
    w.pieces (.operand limit) (.compound name xs) = .token (w.name name) :: .plain "(" ::
      (((xs.map (w.pieces (.operand 999))).intersperse [.plain ","]).flatten ++ [.plain ")"]) := by
  rw [pieces, hform, argPieces_call, assemble]
  rfl

/-- What is no cell of a list is written after a bar where the list goes on. -/
theorem pieces_tail (hform : w.form name xs ≠ .cell) : w.pieces .tail (.compound name xs) =
    .plain "|" :: w.pieces (.operand 999) (.compound name xs) := by
  rw [pieces, pieces]
  generalize w.form name xs = form at hform
  cases form with
  | cell => exact absurd rfl hform
  | _ => rfl

theorem pieces_tail_literal {l : Literal} (hl : l ≠ .atom "[]") :
    w.pieces .tail (.literal l) = .plain "|" :: w.pieces (.operand 999) (.literal l) := by
  rw [pieces, pieces, decide_eq_false hl, Bool.and_false, Bool.and_false]
  rfl

/-- Where a list goes on, no word comes first. -/
theorem head?_pieces_tail (w : TermWriter) (x : Term) :
    ∀ p ∈ (w.pieces .tail x).head?, ∃ text, p = .plain text := by
  intro p hp
  cases x with
  | var v =>
    rw [pieces] at hp
    cases hp
    exact ⟨_, rfl⟩
  | literal l =>
    by_cases hl : l = .atom "[]"
    · subst hl
      rw [pieces] at hp
      cases hp
    · rw [pieces_tail_literal hl] at hp
      cases hp
      exact ⟨_, rfl⟩
  | compound name xs =>
    by_cases hform : w.form name xs = .cell
    · rw [pieces, hform] at hp
      cases hp
      exact ⟨_, rfl⟩
    · rw [pieces_tail hform] at hp
      cases hp
      exact ⟨_, rfl⟩

theorem pieces_between (hform : w.form name [x, y] = .between op) (limit : Nat) :
    w.pieces (.operand limit) (.compound name [x, y]) = bracketed (limit < op.priority)
      (w.pieces (.operand op.leftMax) x ++ w.separator name op :: w.pieces (.operand op.rightMax) y) := by
  rw [pieces, hform, argPieces, argPieces, argPieces, assemble, Form.place, Form.place,
    List.intersperse_cons_cons, List.intersperse_singleton, List.flatten_cons, List.flatten_cons,
    List.flatten_singleton, List.singleton_append]
  · rfl
  · exact Nat.one_ne_zero

theorem pieces_before (hform : w.form name [x] = .before op) (limit : Nat) :
    w.pieces (.operand limit) (.compound name [x]) = bracketed (limit < op.priority)
      (.token (w.name name) :: .plain " " :: w.pieces (.operand op.rightMax) x) := by
  rw [pieces, hform, argPieces, argPieces, assemble, Form.place, List.flatten_singleton]
  rfl

end TermWriter

end Clausal
