import Clausal.Literal
import Mathlib.Algebra.Order.BigOperators.Group.List
import Mathlib.Algebra.Order.Ring.Nat

/-! # Finite trees

The terms of a store denote finite trees: a variable, a constant, or a name over subtrees.  The type
of the variables is a parameter, because the same tree shape serves three purposes: the places of a
store are the variables of what its terms stand for (`Store.resolve`), the variables of a clause are
renamed into others, and the reference search counts the uses of a clause in the variables it makes.

A substitution is a function from variables to trees (`bind`).  Two constants are the same tree
exactly when `Literal.same` says so: trees hold one literal of each class (`Literal.canon`), so that
the two zeros, and all floats that are not numbers, are one constant each.
-/

namespace Clausal

/-! ## Constants up to identity -/

namespace Binary64

/-- The double that stands for all that are `same` as `x`. -/
def canon (x : Binary64) : Binary64 :=
  if x.isNaN then ⟨0x7FF8000000000000⟩ else if x.magnitude = 0 then ⟨0⟩ else x

theorem rank_eq_of_isNaN {x : Binary64} (h : x.isNaN = true) : x.rank = infinityMagnitude + 1 := by
  simp [rank, h]

theorem rank_le_of_not_isNaN {x : Binary64} (h : ¬ x.isNaN = true) :
    x.rank ≤ infinityMagnitude := by
  have hm : x.magnitude ≤ infinityMagnitude := by simpa [isNaN] using h
  simp only [rank, h, Bool.false_eq_true, ite_false]
  split <;> omega

/-- The bits are the sign and the magnitude. -/
theorem bits_eq (x : Binary64) :
    x.bits.toNat = (if x.isNegative then signBit else 0) + x.magnitude := by
  have hlt : x.bits.toNat < 2 * signBit := x.bits.toNat_lt
  simp only [isNegative, magnitude, decide_eq_true_eq]
  split
  · rw [Nat.mod_eq_sub_mod ‹_›, Nat.mod_eq_of_lt (by omega)]
    omega
  · rw [Nat.mod_eq_of_lt (by omega)]
    omega

/-- A number other than zero has its place in the order to itself. -/
theorem eq_of_rank_eq {x y : Binary64} (hx : ¬ x.isNaN = true) (hy : ¬ y.isNaN = true)
    (hzero : x.magnitude ≠ 0) (h : x.rank = y.rank) : x = y := by
  have hbits : x.bits.toNat = y.bits.toNat := by
    rw [bits_eq x, bits_eq y]
    -- Of two numbers other than zero with unlike signs, one is placed below zero and one above.
    cases hsx : x.isNegative <;> cases hsy : y.isNegative <;>
      simp only [rank, hx, hy, hsx, hsy, Bool.false_eq_true, ite_true, ite_false] at h ⊢ <;> omega
  obtain ⟨a⟩ := x
  obtain ⟨b⟩ := y
  exact congrArg _ (UInt64.toNat_inj.mp hbits)

theorem rank_eq_zero_iff {x : Binary64} (hx : ¬ x.isNaN = true) :
    x.rank = 0 ↔ x.magnitude = 0 := by
  simp only [rank, hx, Bool.false_eq_true, ite_false]
  split <;> omega

theorem same_iff_canon (x y : Binary64) : x.same y = true ↔ x.canon = y.canon := by
  have hquiet : (⟨0x7FF8000000000000⟩ : Binary64).isNaN = true := by decide
  have hnull : (⟨0⟩ : Binary64).isNaN = false ∧ (⟨0⟩ : Binary64).magnitude = 0 := by decide
  simp only [same, decide_eq_true_eq]
  by_cases hx : x.isNaN = true <;> by_cases hy : y.isNaN = true
  · simp [canon, hx, hy, rank_eq_of_isNaN]
  · have hle := rank_le_of_not_isNaN hy
    have hne : x.rank ≠ y.rank := by rw [rank_eq_of_isNaN hx]; omega
    simp only [canon, hx, hy, ite_true, Bool.false_eq_true, ite_false, hne, false_iff]
    split
    · intro h; rw [h] at hquiet; simp_all
    · intro h; rw [h] at hquiet; exact hy hquiet
  · have hle := rank_le_of_not_isNaN hx
    have hne : x.rank ≠ y.rank := by rw [rank_eq_of_isNaN hy]; omega
    simp only [canon, hx, hy, ite_true, Bool.false_eq_true, ite_false, hne, false_iff]
    split
    · intro h; rw [← h] at hquiet; simp_all
    · intro h; rw [← h] at hquiet; exact hx hquiet
  · by_cases hzero : x.magnitude = 0 <;> by_cases hzero' : y.magnitude = 0
    · simp [canon, hx, hy, hzero, hzero', (rank_eq_zero_iff hx).mpr hzero,
        (rank_eq_zero_iff hy).mpr hzero']
    · have hne : x.rank ≠ y.rank := fun h =>
        hzero' ((rank_eq_zero_iff hy).mp (h ▸ (rank_eq_zero_iff hx).mpr hzero))
      simp only [canon, hx, hy, hzero, hzero', ite_true, Bool.false_eq_true, ite_false, hne,
        false_iff]
      intro h
      exact hzero' (h ▸ hnull.2)
    · have hne : x.rank ≠ y.rank := fun h =>
        hzero ((rank_eq_zero_iff hx).mp (h ▸ (rank_eq_zero_iff hy).mpr hzero'))
      simp only [canon, hx, hy, hzero, hzero', ite_true, Bool.false_eq_true, ite_false, hne,
        false_iff]
      intro h
      exact hzero (h ▸ hnull.2)
    · simp only [canon, hx, hy, hzero, hzero', Bool.false_eq_true, ite_false]
      exact ⟨eq_of_rank_eq hx hy hzero, fun h => h ▸ rfl⟩

end Binary64

namespace Literal

/-- The constant that stands for all that are `same` as `l`. -/
def canon : Literal → Literal
  | float x => float x.canon
  | l => l

theorem same_iff_canon (l m : Literal) : l.same m = true ↔ l.canon = m.canon := by
  cases l <;> cases m <;> simp [same, canon, Binary64.same_iff_canon]

@[simp] theorem canon_atom (name : String) : (atom name).canon = atom name := rfl

/-- Whether an integer is in the representation that its size calls for. -/
def Canonical : Literal → Prop
  | big n => n < -smallLimit ∨ smallLimit ≤ n
  | _ => True

theorem ofInt_canonical (n : Int) : (ofInt n).Canonical := by
  simp only [ofInt]
  split
  · trivial
  · simp only [Canonical]
    simp_all
    omega

end Literal

/-! ## Trees and substitutions -/

/-- A finite tree over variables `V`. -/
inductive Tree (V : Type) where
  /-- A variable. -/
  | var (v : V)
  /-- A constant. -/
  | literal (l : Literal)
  /-- A name over one or more subtrees. -/
  | compound (name : String) (args : List (Tree V))

namespace Tree

variable {U V W : Type}

@[elab_as_elim, induction_eliminator]
theorem induct {motive : Tree V → Prop} (var : ∀ v, motive (.var v))
    (literal : ∀ l, motive (.literal l))
    (compound : ∀ name args, (∀ t ∈ args, motive t) → motive (.compound name args)) :
    ∀ t, motive t
  | .var v => var v
  | .literal l => literal l
  | .compound name args => compound name args fun t _ => induct var literal compound t

/-- The tree with every variable replaced. -/
def bind (f : V → Tree W) : Tree V → Tree W
  | var v => f v
  | literal l => literal l
  | compound name args => compound name (args.map fun t => t.bind f)

/-- The variables, from left to right, as often as they occur. -/
def vars : Tree V → List V
  | var v => [v]
  | literal _ => []
  | compound _ args => args.flatMap fun t => t.vars

/-- The number of variables, constants and names. -/
def size : Tree V → Nat
  | var _ | literal _ => 1
  | compound _ args => 1 + (args.map fun t => t.size).sum

/-- Whether the tree is a variable. -/
def isVar : Tree V → Bool
  | var _ => true
  | _ => false

/-- A name over subtrees, which is the name itself if there are none. -/
def apply (name : String) (args : List (Tree V)) : Tree V :=
  if args = [] then literal (.atom name) else compound name args

@[simp] theorem bind_of_var (f : V → Tree W) (v : V) : (var v).bind f = f v := by
  rw [bind]

@[simp] theorem bind_literal (f : V → Tree W) (l : Literal) :
    (literal l : Tree V).bind f = literal l := by
  rw [bind]

@[simp] theorem bind_compound (f : V → Tree W) (name : String) (args : List (Tree V)) :
    (compound name args).bind f = compound name (args.map (bind f)) := by
  rw [bind]

@[simp] theorem vars_of_var (v : V) : (var v).vars = [v] := by
  rw [vars]

@[simp] theorem vars_literal (l : Literal) : (literal l : Tree V).vars = [] := by
  rw [vars]

@[simp] theorem vars_compound (name : String) (args : List (Tree V)) :
    (compound name args).vars = args.flatMap vars := by
  rw [vars]

@[simp] theorem size_of_var (v : V) : (var v).size = 1 := by
  rw [size]

@[simp] theorem size_literal (l : Literal) : (literal l : Tree V).size = 1 := by
  rw [size]

@[simp] theorem size_compound (name : String) (args : List (Tree V)) :
    (compound name args).size = 1 + (args.map size).sum := by
  rw [size]

theorem size_pos (t : Tree V) : 0 < t.size := by
  cases t <;> simp

theorem size_le_sum {args : List (Tree V)} {t : Tree V} (h : t ∈ args) :
    t.size ≤ (args.map size).sum :=
  List.le_sum_of_mem (List.mem_map_of_mem h)

theorem bind_apply (f : V → Tree W) (name : String) (args : List (Tree V)) :
    (apply name args).bind f = apply name (args.map (bind f)) := by
  cases args <;> simp [apply]

theorem bind_var (t : Tree V) : t.bind var = t := by
  induction t with
  | var v => simp
  | literal l => simp
  | compound name args ih =>
    rw [bind_compound, List.map_congr_left ih, List.map_id']

theorem bind_bind (f : U → Tree V) (g : V → Tree W) (t : Tree U) :
    (t.bind f).bind g = t.bind fun v => (f v).bind g := by
  induction t with
  | var v => simp
  | literal l => simp
  | compound name args ih =>
    rw [bind_compound, bind_compound, bind_compound, List.map_map]
    exact congrArg _ (List.map_congr_left ih)

theorem bind_congr {f g : V → Tree W} {t : Tree V} (h : ∀ v ∈ t.vars, f v = g v) :
    t.bind f = t.bind g := by
  induction t with
  | var v => simpa using h
  | literal l => simp
  | compound name args ih =>
    rw [bind_compound, bind_compound]
    refine congrArg _ (List.map_congr_left fun t ht => ih t ht fun v hv => h v ?_)
    rw [vars_compound]
    exact List.mem_flatMap.mpr ⟨t, ht, hv⟩

/-- Trees become equal under a substitution only by agreeing on every variable. -/
theorem eq_of_bind_eq {f g : V → Tree W} {t : Tree V} (h : t.bind f = t.bind g) {v : V}
    (hv : v ∈ t.vars) : f v = g v := by
  induction t with
  | var u =>
    rw [vars_of_var, List.mem_singleton] at hv
    subst hv
    simpa using h
  | literal l => simp at hv
  | compound name args ih =>
    rw [bind_compound, bind_compound] at h
    rw [vars_compound] at hv
    obtain ⟨t, ht, hvt⟩ := List.mem_flatMap.mp hv
    have hmap := (compound.inj h).2
    exact ih t ht (List.map_inj_left.mp hmap t ht) hvt

theorem mem_vars_bind {f : V → Tree W} {t : Tree V} {w : W} :
    w ∈ (t.bind f).vars ↔ ∃ v ∈ t.vars, w ∈ (f v).vars := by
  induction t with
  | var v => simp
  | literal l => simp
  | compound name args ih =>
    rw [bind_compound, vars_compound, vars_compound]
    simp only [List.mem_flatMap, List.mem_map]
    constructor
    · rintro ⟨_, ⟨t, ht, rfl⟩, hw⟩
      obtain ⟨v, hv, hwv⟩ := (ih t ht).mp hw
      exact ⟨v, ⟨t, ht, hv⟩, hwv⟩
    · rintro ⟨v, ⟨t, ht, hv⟩, hwv⟩
      exact ⟨_, ⟨t, ht, rfl⟩, (ih t ht).mpr ⟨v, hv, hwv⟩⟩

/-- The variables of a renamed tree. -/
theorem mem_vars_rename {f : V → W} {t : Tree V} {w : W} :
    w ∈ (t.bind fun v => .var (f v)).vars ↔ ∃ v ∈ t.vars, w = f v := by
  simp only [mem_vars_bind, vars_of_var, List.mem_singleton]

/-- What a variable is replaced by is part of what the tree becomes. -/
theorem size_le_size_bind {f : V → Tree W} {t : Tree V} {v : V} (h : v ∈ t.vars) :
    (f v).size ≤ (t.bind f).size := by
  induction t with
  | var u =>
    rw [vars_of_var, List.mem_singleton] at h
    simp [h]
  | literal l => simp at h
  | compound name args ih =>
    rw [vars_compound] at h
    obtain ⟨t, ht, hv⟩ := List.mem_flatMap.mp h
    have hle := ih t ht hv
    have hsum := size_le_sum (List.mem_map_of_mem (f := bind f) ht)
    rw [bind_compound, size_compound]
    omega

/-- **The occurs check is right**: no substitution makes a variable equal to a larger tree that
contains it. -/
theorem ne_bind_of_mem_vars {f : V → Tree W} {t : Tree V} {v : V} (h : v ∈ t.vars)
    (hne : t ≠ var v) : f v ≠ t.bind f := by
  intro heq
  cases t with
  | var u =>
    rw [vars_of_var, List.mem_singleton] at h
    exact hne (h ▸ rfl)
  | literal l => simp at h
  | compound name args =>
    rw [vars_compound] at h
    obtain ⟨t, ht, hv⟩ := List.mem_flatMap.mp h
    have hle := size_le_size_bind (f := f) hv
    have hsum := size_le_sum (List.mem_map_of_mem (f := bind f) ht)
    have hsize := congrArg size heq
    rw [bind_compound, size_compound] at hsize
    omega

end Tree

end Clausal
