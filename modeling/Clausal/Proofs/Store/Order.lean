import Clausal.Store.Order
import Clausal.Proofs.Store.Growth
import Mathlib.Order.Compare

/-! # Identity of terms

The standard order does not depend on which of two terms comes first (`compare_swap`), so being the
same is a reflexive and symmetric relation on the places of any store (`same_refl`, `same_comm`).  In
an acyclic store two places are the same exactly if they denote the same tree (`Acyclic.same_iff`).
That integers are in the representation of their size is needed for this: the order compares integers
by value.
-/

namespace Clausal

namespace Literal

theorem compare_swap (l m : Literal) : m.compare l = (l.compare m).swap := by
  cases l <;> cases m <;> simp only [compare, Binary64.compare] <;> exact Std.OrientedCmp.eq_swap

/-- Constants in canonical representation are at the same place of the order exactly if they are
the same. -/
theorem compare_eq_iff {l m : Literal} (hl : l.Canonical) (hm : m.Canonical) :
    l.compare m = .eq ↔ l.canon = m.canon := by
  rw [← same_iff_canon]
  cases l with
  | atom a => cases m <;> simp [compare, same, kindRank]
  | small n =>
    have hlow := n.le_toInt
    have hhigh := n.toInt_lt
    cases m with
    | atom b => simp [compare, same, kindRank]
    | small k => simp [compare, same, Int64.toInt_inj]
    | big k =>
      simp only [compare, same, compare_eq_iff_eq]
      simp only [Canonical, smallLimit] at hm
      simp
      omega
    | float y => simp [compare, same, kindRank]
  | big n =>
    cases m with
    | atom b => simp [compare, same, kindRank]
    | small k =>
      have hlow := k.le_toInt
      have hhigh := k.toInt_lt
      simp only [compare, same, compare_eq_iff_eq]
      simp only [Canonical, smallLimit] at hl
      simp
      omega
    | big k => simp [compare, same]
    | float y => simp [compare, same, kindRank]
  | float x => cases m <;> simp [compare, same, kindRank, Binary64.compare, Binary64.same]

end Literal

namespace Store

variable {s : Store} {a b : Ref}

/-! ## The order and which of the terms comes first -/

theorem compareLex_swap {cmp : Ref → Ref → Ordering} (h : ∀ a b, cmp b a = (cmp a b).swap) :
    ∀ xs ys : List Ref, ys.compareLex cmp xs = (xs.compareLex cmp ys).swap
  | [], [] => rfl
  | [], _ :: _ => rfl
  | _ :: _, [] => rfl
  | x :: xs, y :: ys => by
    rw [List.compareLex_cons_cons, List.compareLex_cons_cons, Ordering.swap_then, h x y,
      compareLex_swap h xs ys]

theorem compareFrom_swap (s : Store) (n : Nat) (a b : Ref) :
    s.compareFrom n b a = (s.compareFrom n a b).swap := by
  induction n generalizing a b with
  | zero => rfl
  | succ n ih =>
    simp only [compareFrom]
    by_cases heq : s.deref a = s.deref b
    · rw [if_pos heq, if_pos heq.symm]
      rfl
    · rw [if_neg heq, if_neg fun h => heq h.symm]
      rcases s.view (s.deref a) with v | l | ⟨f, xs⟩ <;>
        rcases s.view (s.deref b) with w | m | ⟨g, ys⟩
      case var.var => exact Std.OrientedOrd.eq_swap
      case literal.literal => exact Literal.compare_swap l m
      case compound.compound =>
        have hlen : Ord.compare ys.length xs.length = (Ord.compare xs.length ys.length).swap :=
          Std.OrientedOrd.eq_swap
        have hname : Ord.compare g f = (Ord.compare f g).swap := Std.OrientedOrd.eq_swap
        simp only [Ordering.swap_then, hlen, hname, compareLex_swap ih xs ys]
      all_goals rfl

theorem same_comm (s : Store) (a b : Ref) : s.same a b = s.same b a := by
  rw [same, same, compare, compare, compareFrom_swap]
  cases s.compareFrom (s.size + 1) b a <;> rfl

theorem same_refl (s : Store) (a : Ref) : s.same a a = true := by
  rw [same, compare, compareFrom, if_pos rfl]
  rfl

/-! ## Identity and trees -/

theorem compareLex_eq_iff {cmp : Ref → Ref → Ordering} {f : Ref → Tree Ref} {xs ys : List Ref}
    (hlen : xs.length = ys.length) (h : ∀ x ∈ xs, ∀ y ∈ ys, cmp x y = .eq ↔ f x = f y) :
    xs.compareLex cmp ys = .eq ↔ xs.map f = ys.map f := by
  induction xs generalizing ys with
  | nil =>
    obtain rfl := List.eq_nil_of_length_eq_zero hlen.symm
    exact iff_of_true rfl rfl
  | cons x xs ih =>
    obtain ⟨y, ys, rfl⟩ := List.exists_cons_of_length_eq_add_one hlen.symm
    rw [List.compareLex_cons_cons, Ordering.then_eq_eq, List.map_cons, List.map_cons,
      List.cons.injEq, h x List.mem_cons_self y List.mem_cons_self,
      ih (Nat.succ.inj hlen) fun x hx y hy => h x (List.mem_cons_of_mem _ hx) y (List.mem_cons_of_mem _ hy)]

/-- Integers are in the representation of their size. -/
def Canonical (s : Store) : Prop := ∀ t l, s.cell? t = some (.literal l) → l.Canonical

theorem WellFormed.canonical (hs : s.WellFormed) : s.Canonical := fun _ _ hc => hs.made hc

theorem Acyclic.compareFrom_eq_iff (hs : s.Acyclic) (hcan : s.Canonical) {n : Nat}
    (hn : s.rank a < n) : s.compareFrom n a b = .eq ↔ s.resolve a = s.resolve b := by
  induction n generalizing a b with
  | zero => omega
  | succ n ih =>
    rw [compareFrom, ← hs.resolve_deref a, ← hs.resolve_deref b]
    by_cases heq : s.deref a = s.deref b
    · simp [heq]
    · simp only [heq, ite_false]
      rw [hs.view_deref, hs.view_deref, hs.resolve_deref, hs.resolve_deref]
      rcases ha : s.view a with v | l | ⟨f, xs⟩ <;> rcases hb : s.view b with w | m | ⟨g, ys⟩
      case var.var =>
        have hne : v.index ≠ w.index := by
          rw [deref_of_view_var ha, deref_of_view_var hb] at heq
          exact fun h => heq (congrArg Ref.mk h)
        rw [hs.resolve_of_view_var ha, hs.resolve_of_view_var hb]
        simp only [compare_eq_iff_eq, hne, false_iff, Tree.var.injEq]
        exact fun h => hne (congrArg Ref.index h)
      case literal.literal =>
        rw [hs.resolve_of_view_literal ha, hs.resolve_of_view_literal hb, Tree.literal.injEq]
        exact Literal.compare_eq_iff (hcan _ _ (cell?_deref_of_view_literal ha))
          (hcan _ _ (cell?_deref_of_view_literal hb))
      case compound.compound =>
        rw [hs.resolve_of_view_compound ha, hs.resolve_of_view_compound hb,
          Tree.compound.injEq, Ordering.then_eq_eq, Ordering.then_eq_eq, Std.compare_eq_iff_eq,
          Std.compare_eq_iff_eq]
        have hargs : xs.length = ys.length →
            (xs.compareLex (s.compareFrom n) ys = .eq ↔ xs.map s.resolve = ys.map s.resolve) := by
          refine fun hlen => compareLex_eq_iff hlen fun x hx y _ => ih ?_
          exact Nat.lt_of_lt_of_le (hs.rank_lt_of_view ha hx) (Nat.le_of_lt_succ hn)
        constructor
        · rintro ⟨hlen, hname, hlex⟩
          exact ⟨hname, (hargs hlen).mp hlex⟩
        · rintro ⟨hname, hmap⟩
          have hlen : xs.length = ys.length := by simpa using congrArg List.length hmap
          exact ⟨hlen, hname, (hargs hlen).mpr hmap⟩
      case var.literal => simp [hs.resolve_of_view_var ha, hs.resolve_of_view_literal hb]
      case var.compound => simp [hs.resolve_of_view_var ha, hs.resolve_of_view_compound hb]
      case literal.var => simp [hs.resolve_of_view_literal ha, hs.resolve_of_view_var hb]
      case literal.compound => simp [hs.resolve_of_view_literal ha, hs.resolve_of_view_compound hb]
      case compound.var => simp [hs.resolve_of_view_compound ha, hs.resolve_of_view_var hb]
      case compound.literal => simp [hs.resolve_of_view_compound ha, hs.resolve_of_view_literal hb]

theorem Acyclic.compare_eq_iff (hs : s.Acyclic) (hcan : s.Canonical) :
    s.compare a b = .eq ↔ s.resolve a = s.resolve b :=
  hs.compareFrom_eq_iff hcan (Nat.lt_succ_of_le (s.rank_le_size a))

/-- **Two places are the same exactly if they denote the same tree.** -/
theorem Acyclic.same_iff (hs : s.Acyclic) (hcan : s.Canonical) :
    s.same a b = true ↔ s.resolve a = s.resolve b := by
  rw [same, beq_iff_eq, hs.compare_eq_iff hcan]

theorem WellFormed.same_iff (hs : s.WellFormed) : s.same a b = true ↔ s.resolve a = s.resolve b :=
  hs.acyclic.same_iff hs.canonical

end Store

end Clausal
