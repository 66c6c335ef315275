import Clausal.Proofs.Store.Order
import Clausal.Proofs.Store.Building
import Mathlib.Data.String.Basic

/-! # The standard order

The standard order of terms, said of trees: a tree stands before another (`Tree.Precedes`) because it is
of an earlier kind, or an older variable, a smaller number, an earlier name, a compound with fewer
arguments or with an earlier name, or because the first argument in which it differs stands before the
other's.  In an acyclic store the comparison of two places decides this for the trees that the places
denote, and it is a total order of them (`Acyclic.compare_standard`).

The comparison is transitive in any store and however few levels it looks at, so this needs no property
of the trees: constants are compared by what kind they are, their value and their name, in this order
(`Literal.compare_eq_lex`), and compounds likewise.
-/

namespace Clausal

/-! ## Constants -/

namespace Binary64

/-- The double that stands for `x` has the same place in the order. -/
theorem rank_canon (x : Binary64) : x.canon.rank = x.rank := by
  have hquiet : (⟨0x7FF8000000000000⟩ : Binary64).isNaN = true := by decide
  have hnull : (⟨0⟩ : Binary64).rank = 0 := by decide
  unfold canon
  by_cases hnan : x.isNaN = true
  · rw [if_pos hnan, rank_eq_of_isNaN hquiet, rank_eq_of_isNaN hnan]
  · rw [if_neg hnan]
    by_cases hzero : x.magnitude = 0
    · rw [if_pos hzero, hnull, (rank_eq_zero_iff hnan).mpr hzero]
    · rw [if_neg hzero]

end Binary64

namespace Literal

/-- The value of an integer. -/
def int? : Literal → Option Int
  | small n => some n.toInt
  | big n => some n
  | _ => none

/-- The number that a constant is compared by with others of its kind. -/
def value : Literal → Int
  | float x => x.rank
  | small n => n.toInt
  | big n => n
  | atom _ => 0

/-- The text that a constant is compared by with others of its kind. -/
def text : Literal → String
  | atom name => name
  | _ => ""

theorem of_int? {l : Literal} {i : Int} (h : l.int? = some i) : l.kindRank = 2 ∧ l.value = i := by
  cases l with
  | atom name => cases h
  | small n => exact ⟨rfl, Option.some.inj h⟩
  | big n => exact ⟨rfl, Option.some.inj h⟩
  | float x => cases h

theorem compare_eq_lex (l m : Literal) : l.compare m =
    (Ord.compare l.kindRank m.kindRank).then
      ((Ord.compare l.value m.value).then (Ord.compare l.text m.text)) := by
  cases l <;> cases m
  case atom.atom | small.small | small.big | big.small | big.big | float.float =>
    simp [compare, Binary64.compare, kindRank, value, text]
  all_goals rfl

instance : Std.TransCmp Literal.compare := by
  have h : Std.TransCmp (compareLex (compareOn kindRank)
    (compareLex (compareOn value) (compareOn text))) := inferInstance
  rwa [show Literal.compare = _ from funext₂ compare_eq_lex]

end Literal

/-! ## Trees -/

namespace Tree

/-- The kinds of trees in their order: variables, floats, integers, names and compounds. -/
def kind {V : Type} : Tree V → Nat
  | var _ => 0
  | literal (.float _) => 1
  | literal (.small _) => 2
  | literal (.big _) => 2
  | literal (.atom _) => 3
  | compound _ _ => 4

/-- The first tree stands before the second one. -/
inductive Precedes : Tree Ref → Tree Ref → Prop
  /-- Trees of different kinds. -/
  | kind {t u : Tree Ref} (h : t.kind < u.kind) : Precedes t u
  /-- Variables, by age. -/
  | age {v w : Ref} (h : v.index < w.index) : Precedes (.var v) (.var w)
  /-- Floats, by value. -/
  | float {x y : Binary64} (h : x.rank < y.rank) : Precedes (.literal (.float x)) (.literal (.float y))
  /-- Integers, by value. -/
  | integer {l m : Literal} {i j : Int} (hl : l.int? = some i) (hm : m.int? = some j) (h : i < j) :
    Precedes (.literal l) (.literal m)
  /-- Names, alphabetically. -/
  | name {a b : String} (h : a < b) : Precedes (.literal (.atom a)) (.literal (.atom b))
  /-- Compounds, by the number of arguments. -/
  | arity {f g : String} {ts us : List (Tree Ref)} (h : ts.length < us.length) :
    Precedes (.compound f ts) (.compound g us)
  /-- Compounds with the same number of arguments, by the name. -/
  | functor {f g : String} {ts us : List (Tree Ref)} (hlen : ts.length = us.length) (h : f < g) :
    Precedes (.compound f ts) (.compound g us)
  /-- Compounds of the same name, by the first argument in which they differ. -/
  | argument {f : String} {t u : Tree Ref} (shared : List (Tree Ref)) {ts us : List (Tree Ref)}
    (hlen : ts.length = us.length) (h : Precedes t u) :
    Precedes (.compound f (shared ++ t :: ts)) (.compound f (shared ++ u :: us))

/-- Some argument stands before the other's, and those before it are shared. -/
def ArgumentsPrecede (ts us : List (Tree Ref)) : Prop :=
  ∃ shared t u ts' us', ts = shared ++ t :: ts' ∧ us = shared ++ u :: us' ∧
    ts'.length = us'.length ∧ Precedes t u

variable {t u : Tree Ref} {ts us : List (Tree Ref)}

theorem kind_literal (l : Literal) : (literal l : Tree Ref).kind = l.kindRank := by
  cases l <;> rfl

/-- A constant stands between the variables and the compounds. -/
theorem kind_literal_bounds (l : Literal) :
    0 < (literal l : Tree Ref).kind ∧ (literal l : Tree Ref).kind < 4 := by
  cases l <;> simp [kind]

theorem Precedes.kind_le (h : Precedes t u) : t.kind ≤ u.kind := by
  cases h with
  | kind h => exact Nat.le_of_lt h
  | integer hl hm _ =>
    rw [kind_literal, kind_literal, (Literal.of_int? hl).1, (Literal.of_int? hm).1]
  | age _ | float _ | name _ | arity _ | functor _ _ | argument _ _ _ => exact Nat.le_refl _

theorem precedes_var_iff {v w : Ref} : Precedes (.var v) (.var w) ↔ v.index < w.index := by
  constructor
  · intro h
    cases h with
    | kind h => exact absurd h (Nat.lt_irrefl _)
    | age h => exact h
  · exact .age

/-- Constants stand in the order of their kinds, values and names. -/
theorem precedes_literal_iff {l m : Literal} : Precedes (.literal l) (.literal m) ↔
    l.kindRank < m.kindRank ∨ l.kindRank = m.kindRank ∧
      (l.value < m.value ∨ l.value = m.value ∧ l.text < m.text) := by
  constructor
  · intro h
    cases h with
    | kind h => exact .inl (by rwa [kind_literal, kind_literal] at h)
    | float h => exact .inr ⟨rfl, .inl h⟩
    | integer hl hm h =>
      obtain ⟨hrank, hvalue⟩ := Literal.of_int? hl
      obtain ⟨hrank', hvalue'⟩ := Literal.of_int? hm
      exact .inr ⟨hrank.trans hrank'.symm, .inl (by rwa [hvalue, hvalue'])⟩
    | name h => exact .inr ⟨rfl, .inr ⟨rfl, h⟩⟩
  · rintro (h | ⟨hrank, h⟩)
    · exact .kind (by rwa [kind_literal, kind_literal])
    · cases l <;> cases m
      case atom.atom => exact .name (h.resolve_left (Int.lt_irrefl _)).2
      case float.float => exact .float (h.resolve_right fun h => String.lt_irrefl _ h.2)
      case small.small | small.big | big.small | big.big =>
        exact .integer rfl rfl (h.resolve_right fun h => String.lt_irrefl _ h.2)
      all_goals cases hrank

theorem precedes_compound_iff {f g : String} : Precedes (.compound f ts) (.compound g us) ↔
    ts.length < us.length ∨ ts.length = us.length ∧ (f < g ∨ f = g ∧ ArgumentsPrecede ts us) := by
  constructor
  · intro h
    cases h with
    | kind h => exact absurd h (Nat.lt_irrefl _)
    | arity h => exact .inl h
    | functor hlen h => exact .inr ⟨hlen, .inl h⟩
    | argument shared hlen h =>
      exact .inr ⟨by simp [hlen], .inr ⟨rfl, shared, _, _, _, _, rfl, rfl, hlen, h⟩⟩
  · rintro (h | ⟨hlen, h | ⟨rfl, shared, t, u, ts', us', rfl, rfl, hlen', h⟩⟩)
    · exact .arity h
    · exact .functor hlen h
    · exact .argument shared hlen' h

theorem not_argumentsPrecede_nil : ¬ ArgumentsPrecede [] us := by
  rintro ⟨shared, t, u, ts', us', hts, -⟩
  exact absurd hts.symm (List.append_ne_nil_of_right_ne_nil shared (List.cons_ne_nil t ts'))

theorem argumentsPrecede_cons_iff (hlen : ts.length = us.length) :
    ArgumentsPrecede (t :: ts) (u :: us) ↔ Precedes t u ∨ t = u ∧ ArgumentsPrecede ts us := by
  constructor
  · rintro ⟨_ | ⟨x, shared⟩, t', u', ts', us', hts, hus, hlen', h⟩
    · cases hts
      cases hus
      exact .inl h
    · cases hts
      cases hus
      exact .inr ⟨rfl, shared, t', u', ts', us', rfl, rfl, hlen', h⟩
  · rintro (h | ⟨rfl, shared, t', u', ts', us', rfl, rfl, hlen', h⟩)
    · exact ⟨[], t, u, ts, us, rfl, rfl, hlen, h⟩
    · exact ⟨t :: shared, t', u', ts', us', rfl, rfl, hlen', h⟩

end Tree

theorem Literal.compare_lt_iff {l m : Literal} :
    l.compare m = .lt ↔ Tree.Precedes (.literal l.canon) (.literal m.canon) := by
  have hcanon : ∀ k : Literal, k.canon.kindRank = k.kindRank ∧ k.canon.value = k.value ∧
      k.canon.text = k.text := by
    rintro (name | n | n | x)
    case float => exact ⟨rfl, x.rank_canon, rfl⟩
    all_goals exact ⟨rfl, rfl, rfl⟩
  obtain ⟨hrank, hvalue, htext⟩ := hcanon l
  obtain ⟨hrank', hvalue', htext'⟩ := hcanon m
  rw [Tree.precedes_literal_iff, compare_eq_lex, hrank, hvalue, htext, hrank', hvalue', htext']
  simp only [Ordering.then_eq_lt, compare_lt_iff_lt, compare_eq_iff_eq]

/-! ## Transitivity -/

namespace View

/-- How two terms compare, by a comparison of their arguments. -/
def compareBy (cmp : Ref → Ref → Ordering) : View → View → Ordering
  | var v, var w => Ord.compare v.index w.index
  | var _, _ => .lt
  | _, var _ => .gt
  | literal l, literal m => l.compare m
  | literal _, compound _ _ => .lt
  | compound _ _, literal _ => .gt
  | compound f xs, compound g ys =>
    (Ord.compare xs.length ys.length).then ((Ord.compare f g).then (xs.compareLex cmp ys))

variable {cmp : Ref → Ref → Ordering}

/-- Compounds are compared by the number of arguments, the name and the arguments. -/
theorem transCmp_compound (cmp : Ref → Ref → Ordering) [Std.TransCmp cmp] :
    Std.TransCmp (compareLex (compareOn fun t : String × List Ref => t.2.length)
      (compareLex (compareOn Prod.fst) fun t u => t.2.compareLex cmp u.2)) := by
  have hargs : Std.TransCmp fun t u : String × List Ref => t.2.compareLex cmp u.2 :=
    { eq_swap := Std.OrientedCmp.eq_swap, isLE_trans := Std.TransCmp.isLE_trans }
  infer_instance

instance [Std.TransCmp cmp] : Std.TransCmp (compareBy cmp) where
  eq_swap {x y} := by
    cases x <;> cases y
    case var.var => exact Std.OrientedOrd.eq_swap
    case literal.literal => exact Literal.compare_swap _ _
    case compound.compound f xs g ys => exact @(transCmp_compound cmp).eq_swap (f, xs) (g, ys)
    all_goals rfl
  isLE_trans {x y z} hxy hyz := by
    cases x <;> cases y <;> cases z
    case var.var.var => exact Std.TransOrd.isLE_trans hxy hyz
    case literal.literal.literal => exact @Std.TransCmp.isLE_trans _ Literal.compare _ _ _ _ hxy hyz
    case compound.compound.compound f xs g ys h zs =>
      exact @(transCmp_compound cmp).isLE_trans (f, xs) (g, ys) (h, zs) hxy hyz
    all_goals
      first
      | rfl
      | exact absurd hxy Bool.false_ne_true
      | exact absurd hyz Bool.false_ne_true

end View

namespace Store

open Clausal.Tree

variable {s : Store} {a b : Ref} {xs ys : List Ref}

/-- That terms are the same at once when they are at one place makes no difference. -/
theorem compareFrom_succ (s : Store) (n : Nat) [Std.TransCmp (s.compareFrom n)] (a b : Ref) :
    s.compareFrom (n + 1) a b =
      (s.view (s.deref a)).compareBy (s.compareFrom n) (s.view (s.deref b)) := by
  rw [compareFrom]
  by_cases h : s.deref a = s.deref b
  · have hself : (s.view (s.deref b)).compareBy (s.compareFrom n) (s.view (s.deref b)) = .eq :=
      Std.ReflCmp.compare_self
    rw [if_pos h, h, hself]
  · rw [if_neg h]
    rcases s.view (s.deref a) with v | l | ⟨f, xs⟩ <;>
      rcases s.view (s.deref b) with w | m | ⟨g, ys⟩ <;> rfl

instance (n : Nat) : Std.TransCmp (s.compareFrom n) := by
  induction n with
  | zero => exact { eq_swap := rfl, isLE_trans := fun _ _ => rfl }
  | succ n ih =>
    refine { eq_swap := s.compareFrom_swap _ _ _, isLE_trans := fun {a b c} hab hbc => ?_ }
    rw [compareFrom_succ] at *
    exact Std.TransCmp.isLE_trans hab hbc

/-! ## The order of trees -/

theorem compareLex_lt_iff {cmp : Ref → Ref → Ordering} {f : Ref → Tree Ref}
    (hlen : xs.length = ys.length) (heq : ∀ x ∈ xs, ∀ y ∈ ys, cmp x y = .eq ↔ f x = f y)
    (hlt : ∀ x ∈ xs, ∀ y ∈ ys, cmp x y = .lt ↔ Precedes (f x) (f y)) :
    xs.compareLex cmp ys = .lt ↔ ArgumentsPrecede (xs.map f) (ys.map f) := by
  induction xs generalizing ys with
  | nil =>
    obtain rfl := List.eq_nil_of_length_eq_zero hlen.symm
    exact iff_of_false (nomatch ·) not_argumentsPrecede_nil
  | cons x xs ih =>
    obtain ⟨y, ys, rfl⟩ := List.exists_cons_of_length_eq_add_one hlen.symm
    have hlen' : xs.length = ys.length := Nat.succ.inj hlen
    rw [List.map_cons, List.map_cons, argumentsPrecede_cons_iff (by simpa using hlen'),
      List.compareLex_cons_cons, Ordering.then_eq_lt,
      hlt x List.mem_cons_self y List.mem_cons_self, heq x List.mem_cons_self y List.mem_cons_self,
      ih hlen' (fun x hx y hy => heq x (List.mem_cons_of_mem _ hx) y (List.mem_cons_of_mem _ hy))
        fun x hx y hy => hlt x (List.mem_cons_of_mem _ hx) y (List.mem_cons_of_mem _ hy)]

theorem Acyclic.compareFrom_lt_iff (hs : s.Acyclic) (hcan : s.Canonical) {n : Nat}
    (hn : s.rank a < n) : s.compareFrom n a b = .lt ↔ Precedes (s.resolve a) (s.resolve b) := by
  induction n generalizing a b with
  | zero => omega
  | succ n ih =>
    rw [compareFrom_succ, hs.view_deref, hs.view_deref]
    rcases ha : s.view a with v | l | ⟨f, xs⟩ <;> rcases hb : s.view b with w | m | ⟨g, ys⟩
    case var.var =>
      rw [hs.resolve_of_view_var ha, hs.resolve_of_view_var hb, precedes_var_iff]
      exact compare_lt_iff_lt
    case literal.literal =>
      rw [hs.resolve_of_view_literal ha, hs.resolve_of_view_literal hb]
      exact Literal.compare_lt_iff
    case compound.compound =>
      have hrank : ∀ x ∈ xs, s.rank x < n := fun x hx =>
        Nat.lt_of_lt_of_le (hs.rank_lt_of_view ha hx) (Nat.le_of_lt_succ hn)
      rw [hs.resolve_of_view_compound ha, hs.resolve_of_view_compound hb, precedes_compound_iff,
        View.compareBy, Ordering.then_eq_lt, Ordering.then_eq_lt, compare_lt_iff_lt,
        compare_lt_iff_lt, compare_eq_iff_eq, compare_eq_iff_eq, List.length_map, List.length_map]
      refine or_congr_right (and_congr_right fun hlen => or_congr_right (and_congr_right fun _ => ?_))
      exact compareLex_lt_iff hlen (fun x hx y _ => hs.compareFrom_eq_iff hcan (hrank x hx))
        fun x hx y _ => ih (hrank x hx)
    case var.literal =>
      rw [hs.resolve_of_view_var ha, hs.resolve_of_view_literal hb]
      exact iff_of_true rfl (.kind (kind_literal_bounds m.canon).1)
    case var.compound =>
      rw [hs.resolve_of_view_var ha, hs.resolve_of_view_compound hb]
      exact iff_of_true rfl (.kind (Nat.succ_pos 3))
    case literal.compound =>
      rw [hs.resolve_of_view_literal ha, hs.resolve_of_view_compound hb]
      exact iff_of_true rfl (.kind (kind_literal_bounds l.canon).2)
    case literal.var =>
      rw [hs.resolve_of_view_literal ha, hs.resolve_of_view_var hb]
      exact iff_of_false nofun fun h => absurd h.kind_le (kind_literal_bounds l.canon).1.not_ge
    case compound.var =>
      rw [hs.resolve_of_view_compound ha, hs.resolve_of_view_var hb]
      exact iff_of_false nofun fun h => absurd h.kind_le (Nat.succ_pos 3).not_ge
    case compound.literal =>
      rw [hs.resolve_of_view_compound ha, hs.resolve_of_view_literal hb]
      exact iff_of_false nofun fun h => absurd h.kind_le (kind_literal_bounds m.canon).2.not_ge

theorem Acyclic.compare_lt_iff (hs : s.Acyclic) (hcan : s.Canonical) :
    s.compare a b = .lt ↔ Precedes (s.resolve a) (s.resolve b) :=
  hs.compareFrom_lt_iff hcan (Nat.lt_succ_of_le (s.rank_le_size a))

/-- **The comparison is the standard order of the trees that places denote.** -/
theorem Acyclic.compare_standard (hs : s.Acyclic) (hcan : s.Canonical) :
    (∀ a b, s.compare b a = (s.compare a b).swap) ∧
    (∀ a b c, (s.compare a b).isLE → (s.compare b c).isLE → (s.compare a c).isLE) ∧
    (∀ a b, s.compare a b = .eq ↔ s.resolve a = s.resolve b) ∧
    ∀ a b, s.compare a b = .lt ↔ Precedes (s.resolve a) (s.resolve b) := by
  refine ⟨s.compareFrom_swap _, fun a b c hab hbc => ?_, fun a b => hs.compare_eq_iff hcan,
    fun a b => hs.compare_lt_iff hcan⟩
  exact @Std.TransCmp.isLE_trans _ (s.compareFrom _) _ _ _ _ hab hbc

/-- The arguments of `p(X, Y, 1.5, 2, f(X))`, of which `Y` is bound to an integer of more than 64
bits. -/
theorem compare_standard_arguments :
    let x : Term := .var ⟨0, none⟩
    let built := ({} : Store).build (.compound "p" [x, .var ⟨1, none⟩,
      .literal (.float ⟨0x3FF8000000000000⟩), .literal (.small 2), .literal (.big (2 ^ 64)),
      .compound "f" [x]])
    let s := built.2.bind ⟨1⟩ ⟨4⟩
    s.Acyclic ∧ s.Canonical ∧ s.args built.1 = [⟨0⟩, ⟨1⟩, ⟨2⟩, ⟨3⟩, ⟨4⟩, ⟨5⟩] ∧
      Precedes (s.resolve ⟨0⟩) (s.resolve ⟨2⟩) ∧ Precedes (s.resolve ⟨2⟩) (s.resolve ⟨3⟩) ∧
      Precedes (s.resolve ⟨3⟩) (s.resolve ⟨1⟩) ∧ s.resolve ⟨1⟩ = s.resolve ⟨4⟩ ∧
      Precedes (s.resolve ⟨1⟩) (s.resolve ⟨5⟩) := by
  intro x built s
  have hf : (Term.compound "f" [x]).WellMade :=
    .compound (List.cons_ne_nil _ _) (List.forall_mem_singleton.mpr (.var _))
  have hbuilt : built.2.WellFormed := by
    refine ((Adds.refl wellFormed_empty).build (.compound (List.cons_ne_nil _ _) ?_)).adds.wellFormed
    simp only [List.forall_mem_cons]
    exact ⟨.var _, .var _, .literal trivial, .literal trivial, .literal (.inr (by decide)), hf, nofun⟩
  have hcell : built.2.cell? ⟨4⟩ = some (.literal (.big (2 ^ 64))) := by decide +kernel
  have hnot : ¬ built.2.Reaches ⟨4⟩ ⟨1⟩ := fun hr =>
    absurd (eq_of_reaches (fun _ => not_points_of_literal hcell) hr) (by decide)
  have hs : s.WellFormed := hbuilt.bind ⟨none, by decide +kernel⟩ (by decide +kernel) hnot
  obtain ⟨-, -, heq, hlt⟩ := hs.acyclic.compare_standard hs.canonical
  exact ⟨hs.acyclic, hs.canonical, by decide +kernel, (hlt _ _).mp (by decide +kernel),
    (hlt _ _).mp (by decide +kernel), (hlt _ _).mp (by decide +kernel), (heq _ _).mp (by decide +kernel),
    (hlt _ _).mp (by decide +kernel)⟩

end Store

end Clausal
