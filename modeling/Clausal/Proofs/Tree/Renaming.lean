import Clausal.Store.Basic
import Clausal.Term
import Clausal.Proofs.Tree.Renamed

/-! # Renamed terms

Variants are recognised in one pass over both terms, which pairs the numbers of variables by the places
where they were first met.  The pass goes through if and only if the pairs of numbers that stand in the
same places match one to one (`OneToOne`), that is, if a correspondence of the numbers turns the one term
into the other (`Term.isVariant_iff`).  So a term whose variables are replaced by others, different ones
by different ones, is a variant of it (`Term.isVariant_rename`).
-/

namespace Clausal.Term

/-- Proves what holds of a term if it holds of its arguments. -/
@[elab_as_elim]
theorem induct {motive : Term → Prop} (literal : ∀ l, motive (.literal l))
    (compound : ∀ name args, (∀ t ∈ args, motive t) → motive (.compound name args))
    (var : ∀ v, motive (.var v)) : ∀ t, motive t
  | .literal l => literal l
  | .compound name args => compound name args fun t _ => induct literal compound var t
  | .var v => var v

/-- The term with every variable replaced by another one. -/
def rename (f : TermVar → TermVar) : Term → Term
  | literal l => literal l
  | compound name args => compound name (args.map fun t => t.rename f)
  | var v => var (f v)

/-- The variables, from left to right, as often as they occur. -/
def vars : Term → List TermVar
  | literal _ => []
  | compound _ args => args.flatMap fun t => t.vars
  | var v => [v]

@[simp] theorem rename_literal (f : TermVar → TermVar) (l : Literal) :
    (literal l).rename f = literal l := by
  rw [rename]

@[simp] theorem rename_compound (f : TermVar → TermVar) (name : String) (args : List Term) :
    (compound name args).rename f = compound name (args.map (rename f)) := by
  rw [rename]

@[simp] theorem rename_var (f : TermVar → TermVar) (v : TermVar) : (var v).rename f = var (f v) := by
  rw [rename]

@[simp] theorem vars_literal (l : Literal) : (literal l).vars = [] := by
  rw [vars]

@[simp] theorem vars_compound (name : String) (args : List Term) :
    (compound name args).vars = args.flatMap vars := by
  rw [vars]

@[simp] theorem vars_var (v : TermVar) : (var v).vars = [v] := by
  rw [vars]

/-! ## Terms as trees -/

/-- The tree of a term, whose variables are told apart by their numbers. -/
def tree : Term → Tree Ref
  | literal l => .literal l.canon
  | compound name args => .compound name (args.map fun t => t.tree)
  | var v => .var ⟨v.id⟩

/-- The tree of a term, whose variables are told apart by their numbers and names. -/
def named : Term → Tree TermVar
  | literal l => .literal l.canon
  | compound name args => .compound name (args.map fun t => t.named)
  | var v => .var v

@[simp] theorem named_literal (l : Literal) : (literal l).named = .literal l.canon := by
  rw [named]

@[simp] theorem named_compound (name : String) (args : List Term) :
    (compound name args).named = .compound name (args.map named) := by
  rw [named]

@[simp] theorem named_var (v : TermVar) : (var v).named = .var v := by
  rw [named]

@[simp] theorem vars_named (x : Term) : x.named.vars = x.vars := by
  induction x using induct with
  | literal l => simp
  | compound name args ih =>
    rw [named_compound, Tree.vars_compound, vars_compound, List.flatMap_map]
    exact List.flatMap_congr ih
  | var v => simp

/-- The tree of a renamed term. -/
theorem named_rename (f : TermVar → TermVar) (x : Term) :
    (x.rename f).named = x.named.bind fun v => .var (f v) := by
  induction x using induct with
  | literal l => simp
  | compound name args ih =>
    rw [rename_compound, named_compound, named_compound, Tree.bind_compound, List.map_map, List.map_map]
    exact congrArg _ (List.map_congr_left ih)
  | var v => simp

/-- The numbers alone tell less than numbers and names. -/
theorem tree_eq (x : Term) : x.tree = x.named.bind fun v => .var ⟨v.id⟩ := by
  induction x using induct with
  | literal l => rw [tree, named_literal, Tree.bind_literal]
  | compound name args ih =>
    rw [tree, named_compound, Tree.bind_compound, List.map_map]
    exact congrArg _ (List.map_congr_left ih)
  | var v => rw [tree, named_var, Tree.bind_of_var]

theorem vars_tree (x : Term) : x.tree.vars = x.vars.map fun v => ⟨v.id⟩ := by
  rw [tree_eq, Tree.vars_bind_var, vars_named]

theorem shape_tree (x : Term) : x.tree.shape = x.named.shape := by
  rw [tree_eq, Tree.shape_bind_var]

/-! ## Pairing numbers -/

variable {left right : List Nat} {ps : List (TermVar × TermVar)} {x y : Term}

/-- Numbers that were met on two sides, those in the same places being paired. -/
structure Paired (left right : List Nat) : Prop where
  /-- As many were met on both sides. -/
  length_eq : left.length = right.length
  /-- No number is in two pairs. -/
  oneToOne : OneToOne (left.zip right)

theorem Paired.nil : Paired [] [] := ⟨rfl, nofun⟩

/-- Two numbers are a pair that was met, or both are new, or one of them is in another pair. -/
theorem Paired.pairIds_cases (h : Paired left right) (x y : Nat) :
    (pairIds left right x y = some (left, right) ∧ (x, y) ∈ left.zip right) ∨
    (pairIds left right x y = some (left ++ [x], right ++ [y]) ∧ x ∉ left ∧ y ∉ right) ∨
    (pairIds left right x y = none ∧ ∃ p ∈ left.zip right, ¬ (p.1 = x ↔ p.2 = y)) := by
  -- What stands in one place of the two lists is a pair.
  have hpair : ∀ i (hi : i < left.length) (hi' : i < right.length),
      (left[i], right[i]) ∈ left.zip right := by
    intro i hi hi'
    rw [← List.getElem_zip (h := by simp [hi, hi'])]
    exact List.getElem_mem _
  rw [pairIds]
  rcases hx : left.idxOf? x with _ | i <;> rcases hy : right.idxOf? y with _ | j
  · rw [List.idxOf?_eq_none_iff] at hx hy
    exact .inr (.inl ⟨rfl, hx, hy⟩)
  · rw [List.idxOf?_eq_none_iff] at hx
    obtain ⟨hj, rfl, -⟩ := List.idxOf?_eq_some_iff.mp hy
    have hmem := hpair j (h.length_eq ▸ hj) hj
    refine .inr (.inr ⟨if_neg nofun, _, hmem, fun hiff => hx ?_⟩)
    exact hiff.mpr rfl ▸ (List.of_mem_zip hmem).1
  · rw [List.idxOf?_eq_none_iff] at hy
    obtain ⟨hi, rfl, -⟩ := List.idxOf?_eq_some_iff.mp hx
    have hmem := hpair i hi (h.length_eq ▸ hi)
    refine .inr (.inr ⟨if_neg nofun, _, hmem, fun hiff => hy ?_⟩)
    exact hiff.mp rfl ▸ (List.of_mem_zip hmem).2
  · obtain ⟨hi, rfl, hfirst⟩ := List.idxOf?_eq_some_iff.mp hx
    obtain ⟨hj, rfl, hfirst'⟩ := List.idxOf?_eq_some_iff.mp hy
    have hi' : i < right.length := h.length_eq ▸ hi
    rcases lt_trichotomy i j with hij | rfl | hij
    · refine .inr (.inr ⟨if_neg (by simp; omega), _, hpair i hi hi', fun hiff => ?_⟩)
      exact hfirst' i hij (hiff.mp rfl)
    · exact .inl ⟨if_pos rfl, hpair i hi hi'⟩
    · have hj' : j < left.length := h.length_eq ▸ hj
      refine .inr (.inr ⟨if_neg (by simp; omega), _, hpair j hj' hj, fun hiff => ?_⟩)
      exact hfirst j hij (hiff.mpr rfl)

/-- Goes through pairs of variables. -/
def pairAll (ids : List Nat × List Nat) (ps : List (TermVar × TermVar)) :
    Option (List Nat × List Nat) :=
  ps.foldlM (fun ids p => pairIds ids.1 ids.2 p.1.id p.2.id) ids

theorem pairAll_append (ids : List Nat × List Nat) (ps qs : List (TermVar × TermVar)) :
    pairAll ids (ps ++ qs) = (pairAll ids ps).bind fun ids => pairAll ids qs :=
  List.foldlM_append

/-- **The pass goes through if and only if the numbers match one to one.** -/
theorem Paired.isSome_pairAll (h : Paired left right) :
    (pairAll (left, right) ps).isSome = true ↔
      OneToOne (left.zip right ++ ps.map fun p => (p.1.id, p.2.id)) := by
  induction ps generalizing left right with
  | nil =>
    rw [List.map_nil, List.append_nil]
    exact iff_of_true rfl h.oneToOne
  | cons p ps ih =>
    have hstep : pairAll (left, right) (p :: ps) =
        (pairIds left right p.1.id p.2.id).bind fun ids => pairAll ids ps := List.foldlM_cons
    rw [hstep, List.map_cons]
    obtain ⟨heq, hmem⟩ | ⟨heq, hleft, hright⟩ | ⟨heq, q, hq, hnot⟩ := h.pairIds_cases p.1.id p.2.id
    · rw [heq, Option.bind_some, ih h]
      refine OneToOne.congr fun q => ?_
      simp only [List.mem_append, List.mem_cons]
      constructor
      · exact fun hq => hq.imp_right .inr
      · rintro (hq | rfl | hq)
        · exact .inl hq
        · exact .inl hmem
        · exact .inr hq
    · have hzip : (left ++ [p.1.id]).zip (right ++ [p.2.id]) = left.zip right ++ [(p.1.id, p.2.id)] :=
        List.zip_append h.length_eq
      have hnew : Paired (left ++ [p.1.id]) (right ++ [p.2.id]) := by
        refine ⟨by simp [h.length_eq], ?_⟩
        have hapart : ∀ q ∈ left.zip right, q.1 = p.1.id ↔ q.2 = p.2.id := by
          intro q hq
          obtain ⟨h₁, h₂⟩ := List.of_mem_zip hq
          exact iff_of_false (fun heq => hleft (heq ▸ h₁)) fun heq => hright (heq ▸ h₂)
        rw [hzip]
        intro q hq r hr
        rw [List.mem_append, List.mem_singleton] at hq hr
        obtain hq | rfl := hq <;> obtain hr | rfl := hr
        · exact h.oneToOne q hq r hr
        · exact hapart q hq
        · exact eq_comm.trans ((hapart r hr).trans eq_comm)
        · exact iff_of_true rfl rfl
      rw [heq, Option.bind_some, ih hnew, hzip, List.append_assoc, List.singleton_append]
    · rw [heq, Option.bind_none]
      refine iff_of_false nofun fun hone => hnot ?_
      exact hone q (List.mem_append_left _ hq) _
        (List.mem_append_right _ (List.mem_cons_self ..))

/-! ## Variants -/

theorem variantArgs_eq_some_iff {xs ys : List Term} {ids : List Nat × List Nat}
    (hone : ∀ x ∈ xs, ∀ y left right ids, variantOf left right x y = some ids ↔
      x.named.shape = y.named.shape ∧ pairAll (left, right) (x.vars.zip y.vars) = some ids) :
    variantArgs left right xs ys = some ids ↔
      xs.map (·.named.shape) = ys.map (·.named.shape) ∧
        pairAll (left, right) ((xs.flatMap vars).zip (ys.flatMap vars)) = some ids := by
  induction xs generalizing ys left right with
  | nil =>
    cases ys with
    | nil => simp [variantArgs, pairAll]
    | cons y ys => simp [variantArgs]
  | cons x xs ih =>
    cases ys with
    | nil => simp [variantArgs]
    | cons y ys =>
      rw [List.forall_mem_cons] at hone
      have hargs : variantArgs left right (x :: xs) (y :: ys) =
          (variantOf left right x y).bind fun ids => variantArgs ids.1 ids.2 xs ys := by
        rw [variantArgs]
        cases variantOf left right x y <;> rfl
      rw [hargs, Option.bind_eq_some_iff, List.map_cons, List.map_cons, List.cons.injEq]
      constructor
      · rintro ⟨⟨left', right'⟩, hx, hxs⟩
        obtain ⟨hshape, hpairs⟩ := (hone.1 y left right _).mp hx
        obtain ⟨hshapes, hrest⟩ := (ih hone.2).mp hxs
        have hlength : x.vars.length = y.vars.length := by
          rw [← vars_named x, ← vars_named y]
          exact Tree.length_vars_of_shape_eq hshape
        refine ⟨⟨hshape, hshapes⟩, ?_⟩
        rw [List.flatMap_cons, List.flatMap_cons, List.zip_append hlength, pairAll_append, hpairs]
        exact hrest
      · rintro ⟨⟨hshape, hshapes⟩, hpairs⟩
        have hlength : x.vars.length = y.vars.length := by
          rw [← vars_named x, ← vars_named y]
          exact Tree.length_vars_of_shape_eq hshape
        rw [List.flatMap_cons, List.flatMap_cons, List.zip_append hlength, pairAll_append,
          Option.bind_eq_some_iff] at hpairs
        obtain ⟨⟨left', right'⟩, hfirst, hrest⟩ := hpairs
        exact ⟨_, (hone.1 y left right _).mpr ⟨hshape, hfirst⟩, (ih hone.2).mpr ⟨hshapes, hrest⟩⟩

/-- The pass compares the shapes of the terms and goes through their variables. -/
theorem variantOf_eq_some_iff (x y : Term) (left right : List Nat) (ids : List Nat × List Nat) :
    variantOf left right x y = some ids ↔
      x.named.shape = y.named.shape ∧ pairAll (left, right) (x.vars.zip y.vars) = some ids := by
  induction x using induct generalizing y left right ids with
  | literal l =>
    cases y with
    | literal m =>
      by_cases hsame : l.same m = true
      · have hcanon := (Literal.same_iff_canon l m).mp hsame
        simp [variantOf, Tree.shape, pairAll, hsame, hcanon]
      · have hcanon : l.canon ≠ m.canon := fun h => hsame ((Literal.same_iff_canon l m).mpr h)
        simp [variantOf, Tree.shape, hsame, hcanon]
    | compound name args => simp [variantOf, Tree.shape]
    | var w => simp [variantOf, Tree.shape]
  | compound name args ih =>
    cases y with
    | literal m => simp [variantOf, Tree.shape]
    | compound name' args' =>
      rw [variantOf, named_compound, named_compound, Tree.shape_compound, Tree.shape_compound,
        Tree.compound.injEq, vars_compound, vars_compound, List.map_map, List.map_map]
      by_cases hname : name = name'
      · rw [if_pos hname, variantArgs_eq_some_iff ih]
        exact and_congr_left fun _ => (and_iff_right hname).symm
      · rw [if_neg hname]
        exact iff_of_false (Option.some_ne_none ids).symm fun h => hname h.1.1
    | var w => simp [variantOf, Tree.shape]
  | var v =>
    cases y with
    | literal m => simp [variantOf, Tree.shape]
    | compound name args => simp [variantOf, Tree.shape]
    | var w => simp [variantOf, Tree.shape, pairAll]

/-- **Variants are terms that a one-to-one correspondence of the numbers of their variables turns into
one another.** -/
theorem isVariant_iff : x.isVariant y = true ↔ Tree.Renamed x.tree y.tree := by
  have hsome : x.isVariant y = true ↔
      x.named.shape = y.named.shape ∧ (pairAll ([], []) (x.vars.zip y.vars)).isSome = true := by
    rw [isVariant, Option.isSome_iff_exists, Option.isSome_iff_exists, ← exists_and_left]
    exact exists_congr fun ids => variantOf_eq_some_iff x y [] [] ids
  rw [hsome, Paired.nil.isSome_pairAll, Tree.renamed_iff, shape_tree, shape_tree, vars_tree, vars_tree,
    List.zip_map, List.zip_nil_left, List.nil_append]
  simp only [OneToOne, List.forall_mem_map, Prod.map, Ref.mk.injEq]

/-- The renaming keeps the numbers of the variables apart. -/
def KeepsApart (f : TermVar → TermVar) (vs : List TermVar) : Prop :=
  ∀ v ∈ vs, ∀ w ∈ vs, (f v).id = (f w).id ↔ v.id = w.id

/-- A renamed term is a variant exactly if the renaming keeps the numbers of its variables apart. -/
theorem isVariant_rename_iff {f : TermVar → TermVar} :
    (x.rename f).isVariant x = true ↔ KeepsApart f x.vars := by
  rw [isVariant_iff, Tree.renamed_iff, shape_tree, shape_tree, vars_tree, vars_tree, ← vars_named,
    named_rename, Tree.shape_bind_var, Tree.vars_bind_var, vars_named, List.map_map, List.zip_map']
  simp only [true_and, OneToOne, List.forall_mem_map, Function.comp_apply, Ref.mk.injEq]
  exact Iff.rfl

/-- **A renamed term is a variant**, if the renaming keeps its variables apart. -/
theorem isVariant_rename {f : TermVar → TermVar} (hf : KeepsApart f x.vars) :
    (x.rename f).isVariant x = true :=
  isVariant_rename_iff.mpr hf

end Clausal.Term
