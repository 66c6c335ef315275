import Clausal.Proofs.Store.Settled

/-! # What two terms have in common

Two readings of a text, of which only the second replaces placeholders, make terms that are the same but for
their variables and the terms in place of the placeholders.  What they have in common is a tree with gaps,
numbered from left to right (`Term.Substitution`).

While the terms are being read, each operand of the first reading has a counterpart of the second, and an
outline of both, whose leaves are pairs of variables and gaps (`Outline`).  Put next to each other, the
outlines of all operands have their gaps in order and their variables apart, and this stays so when operands
are put together (`Shared.apply`, `Shared.partialList`), when variables are read (`Shared.newName`,
`Shared.lookup`) and when a placeholder is replaced (`Shared.fillGap`).
-/

namespace Clausal

open List (Forall₂)

namespace Tree

variable {V W : Type}

/-- The term that comes of a tree when a term is put for each variable. -/
def fill (f : V → Term) : Tree V → Term
  | var v => f v
  | literal l => .literal l
  | compound name args => .compound name (args.map fun x => x.fill f)

@[simp] theorem fill_of_var (f : V → Term) (v : V) : (var v).fill f = f v := by
  rw [fill]

@[simp] theorem fill_literal (f : V → Term) (l : Literal) : (literal l : Tree V).fill f = .literal l := by
  rw [fill]

@[simp] theorem fill_compound (f : V → Term) (name : String) (args : List (Tree V)) :
    (compound name args).fill f = .compound name (args.map (fill f)) := by
  rw [fill]

theorem fill_bind_var (f : W → Term) (g : V → W) (x : Tree V) :
    (x.bind fun v => .var (g v)).fill f = x.fill fun v => f (g v) := by
  induction x with
  | var v => simp
  | literal l => simp
  | compound name args ih =>
    rw [bind_compound, fill_compound, fill_compound, List.map_map]
    exact congrArg _ (List.map_congr_left ih)

theorem fill_congr {f g : V → Term} {x : Tree V} (h : ∀ v ∈ x.vars, f v = g v) : x.fill f = x.fill g := by
  induction x with
  | var v => simpa using h
  | literal l => simp
  | compound name args ih =>
    rw [fill_compound, fill_compound]
    refine congrArg _ (List.map_congr_left fun x hx => ih x hx fun v hv => h v ?_)
    rw [vars_compound]
    exact List.mem_flatMap.mpr ⟨x, hx, hv⟩

theorem mem_vars_fill {f : V → Term} {x : Tree V} {v : V} {w : TermVar} (hv : v ∈ x.vars)
    (hw : w ∈ (f v).vars) : w ∈ (x.fill f).vars := by
  induction x with
  | var u =>
    rw [vars_of_var, List.mem_singleton] at hv
    rwa [fill_of_var, ← hv]
  | literal l => simp at hv
  | compound name args ih =>
    rw [vars_compound] at hv
    obtain ⟨x, hx, hv⟩ := List.mem_flatMap.mp hv
    rw [fill_compound, Term.vars_compound, List.flatMap_map]
    exact List.mem_flatMap.mpr ⟨x, hx, ih x hx hv⟩

/-- The list of the items that ends in `tail`. -/
def partialList (items : List (Tree V)) (tail : Tree V) : Tree V :=
  items.foldr (fun head tail => compound "." [head, tail]) tail

theorem fill_partialList (f : V → Term) (items : List (Tree V)) (tail : Tree V) :
    (partialList items tail).fill f = .partialList (items.map (fill f)) (tail.fill f) := by
  induction items with
  | nil => rfl
  | cons x xs ih =>
    show (compound "." [x, partialList xs tail]).fill f = _
    rw [fill_compound, List.map_cons, List.map_cons, List.map_nil, ih]
    rfl

theorem vars_partialList (items : List (Tree V)) (tail : Tree V) :
    (partialList items tail).vars = items.flatMap vars ++ tail.vars := by
  induction items with
  | nil => rfl
  | cons x xs ih =>
    show (compound "." [x, partialList xs tail]).vars = _
    rw [vars_compound, List.flatMap_cons, List.flatMap_singleton, ih, List.flatMap_cons,
      List.append_assoc]

end Tree

theorem Term.vars_rename (f : TermVar → TermVar) (x : Term) : (x.rename f).vars = x.vars.map f := by
  induction x using Term.induct with
  | literal l => simp
  | compound name args ih =>
    rw [rename_compound, vars_compound, vars_compound, List.flatMap_map, List.map_flatMap]
    exact List.flatMap_congr ih
  | var v => simp

theorem Term.rename_congr {f g : TermVar → TermVar} {x : Term} (h : ∀ v ∈ x.vars, f v = g v) :
    x.rename f = x.rename g := by
  induction x using Term.induct with
  | literal l => simp
  | compound name args ih =>
    rw [rename_compound, rename_compound]
    refine congrArg _ (List.map_congr_left fun x hx => ih x hx fun v hv => h v ?_)
    rw [vars_compound]
    exact List.mem_flatMap.mpr ⟨x, hx, hv⟩
  | var v => simpa using h

/-! ## Substitutions -/

/-- The variables of a tree with gaps, and those of the arguments for its gaps, a copy for each gap. -/
def Tree.copies (args : List Term) (o : Tree (TermVar ⊕ Nat)) : List (Option Nat × TermVar) :=
  o.vars.flatMap fun
    | .inl v => [(none, v)]
    | .inr i => (args.getD i default).vars.map fun v => (some i, v)

/-- The terms have the tree `o` in common.  In its gaps, which are numbered from left to right, the first
term has the name `?`, and the second one has the first `k` arguments.  The variables of the second are
`rename none v` where the first has `v`, and `rename (some i) v` for the variable `v` of the argument in gap
`i`; all of these are different and have the names of what they are for. -/
structure Term.Substitution (args : List Term) (k : Nat) (o : Tree (TermVar ⊕ Nat))
    (rename : Option Nat → TermVar → TermVar) (x y : Term) : Prop where
  /-- The gaps. -/
  gaps : o.vars.filterMap Sum.getRight? = List.range k
  /-- The first term. -/
  first : x = o.fill fun
    | .inl v => .var v
    | .inr _ => .atom "?"
  /-- The second term. -/
  second : y = o.fill fun
    | .inl v => .var (rename none v)
    | .inr i => (args.getD i default).rename (rename (some i))
  /-- Names are kept. -/
  name : ∀ p ∈ o.copies args, (rename p.1 p.2).name = p.2.name
  /-- Different variables have different numbers. -/
  injective : ∀ p ∈ o.copies args, ∀ q ∈ o.copies args,
    (rename p.1 p.2).id = (rename q.1 q.2).id → p = q

/-- The second term is the first one with the first `k` arguments in place of placeholders, from left to
right, up to the choice of variables: each argument comes with variables of its own. -/
def Term.Substituted (args : List Term) (k : Nat) (x y : Term) : Prop :=
  ∃ o rename, Term.Substitution args k o rename x y

/-! ## Outlines -/

/-- A leaf of an outline. -/
inductive Leaf where
  /-- A variable of the first term and one of the second. -/
  | var (v v' : TermVar)
  /-- A placeholder, which is replaced by the argument of the number, with its variables renamed. -/
  | gap (i : Nat) (f : TermVar → TermVar)

/-- What a term and its counterpart have in common. -/
abbrev Outline := Tree Leaf

namespace Leaf

variable (args : List Term)

/-- The number of a gap. -/
def gap? : Leaf → Option Nat
  | var _ _ => none
  | gap i _ => some i

/-- The variables of the second term that come of the leaf, and what they are for. -/
def renamings : Leaf → List ((Option Nat × TermVar) × TermVar)
  | var v v' => [((none, v), v')]
  | gap i f => (args.getD i default).vars.map fun w => ((some i, w), f w)

/-- What the leaf is in the first term. -/
def first : Leaf → Term
  | var v _ => .var v
  | gap _ _ => .atom "?"

/-- What the leaf is in the second term. -/
def second : Leaf → Term
  | var _ v' => .var v'
  | gap i f => (args.getD i default).rename f

theorem mem_vars_second {leaf : Leaf} {p : (Option Nat × TermVar) × TermVar}
    (hp : p ∈ leaf.renamings args) : p.2 ∈ (leaf.second args).vars := by
  cases leaf with
  | var v v' =>
    rw [renamings, List.mem_singleton] at hp
    rw [hp, second, Term.vars_var]
    exact List.mem_singleton_self _
  | gap i f =>
    obtain ⟨w, hw, rfl⟩ := List.mem_map.mp hp
    rw [second, Term.vars_rename]
    exact List.mem_map_of_mem hw

end Leaf

/-- The leaves of outlines of which the last comes first. -/
def leaves (os : List Outline) : List Leaf := os.reverse.flatMap Tree.vars

theorem leaves_cons (o : Outline) (os : List Outline) : leaves (o :: os) = leaves os ++ o.vars := by
  rw [leaves, List.reverse_cons, List.flatMap_append, List.flatMap_singleton, leaves]

theorem leaves_append (os os' : List Outline) : leaves (os ++ os') = leaves os' ++ leaves os := by
  rw [leaves, List.reverse_append, List.flatMap_append, leaves, leaves]

/-- The variables that come of the leaves are different ones for what is different, and have the names of
what they are for. -/
structure LeavesApart (args : List Term) (ls : List Leaf) : Prop where
  /-- Names are kept. -/
  name : ∀ p ∈ ls.flatMap (Leaf.renamings args), p.2.name = p.1.2.name
  /-- Numbers tell apart what they are for. -/
  iff : ∀ p ∈ ls.flatMap (Leaf.renamings args), ∀ q ∈ ls.flatMap (Leaf.renamings args),
    p.1 = q.1 ↔ p.2.id = q.2.id

namespace LeavesApart

variable {args : List Term} {ls ls' : List Leaf} {leaf : Leaf}

theorem nil (args : List Term) : LeavesApart args [] := ⟨nofun, nofun⟩

/-- It does not matter in which order the leaves come and how often. -/
theorem mono (h : LeavesApart args ls) (hmem : ∀ leaf ∈ ls', leaf ∈ ls) : LeavesApart args ls' := by
  have hall : ∀ p ∈ ls'.flatMap (Leaf.renamings args), p ∈ ls.flatMap (Leaf.renamings args) := by
    intro p hp
    obtain ⟨leaf, hleaf, hp⟩ := List.mem_flatMap.mp hp
    exact List.mem_flatMap.mpr ⟨leaf, hmem leaf hleaf, hp⟩
  exact ⟨fun p hp => h.name p (hall p hp), fun p hp q hq => h.iff p (hall p hp) q (hall q hq)⟩

/-- One more leaf, which has nothing to do with the others. -/
theorem cons (h : LeavesApart args ls) (hleaf : LeavesApart args [leaf])
    (hnew : ∀ p ∈ ls.flatMap (Leaf.renamings args), ∀ q ∈ leaf.renamings args,
      p.1 ≠ q.1 ∧ p.2.id ≠ q.2.id) : LeavesApart args (leaf :: ls) := by
  have hself : [leaf].flatMap (Leaf.renamings args) = leaf.renamings args := List.flatMap_singleton _ _
  have hname := hleaf.name
  have hiff := hleaf.iff
  rw [hself] at hname hiff
  constructor
  · intro p hp
    rw [List.flatMap_cons, List.mem_append] at hp
    exact hp.elim (hname p) (h.name p)
  · intro p hp q hq
    rw [List.flatMap_cons, List.mem_append] at hp hq
    rcases hp with hp | hp <;> rcases hq with hq | hq
    · exact hiff p hp q hq
    · obtain ⟨hkey, hid⟩ := hnew q hq p hp
      exact iff_of_false hkey.symm hid.symm
    · obtain ⟨hkey, hid⟩ := hnew p hp q hq
      exact iff_of_false hkey hid
    · exact h.iff p hp q hq

end LeavesApart

/-! ## Operands and their counterparts -/

/-- The two entries are for variables of one name. -/
structure SameName (s s' : Store) (e e' : String × Ref) : Prop where
  /-- The name. -/
  name : e'.1 = e.1
  /-- The variable of the first term. -/
  first : s.Settled e.2 (.var ⟨e.2.index, some e.1⟩)
  /-- The variable of the second term. -/
  second : s'.Settled e'.2 (.var ⟨e'.2.index, some e.1⟩)

theorem SameName.grow {s s' s₁ s₁' : Store} {e e' : String × Ref} (h : SameName s s' e e')
    (hgrows : s.Grows s₁ []) (hgrows' : s'.Grows s₁' []) : SameName s₁ s₁' e e' :=
  ⟨h.name, h.first.grow hgrows, h.second.grow hgrows'⟩

/-- The variables of two entries as a leaf. -/
def nameLeaf (p : (String × Ref) × (String × Ref)) : Leaf :=
  .var ⟨p.1.2.index, some p.1.1⟩ ⟨p.2.2.index, some p.1.1⟩

/-- The operands `ts` in the first store have the counterparts `ts'` in the second one and the outlines
`os`, the last coming first in all three.  The gaps in them are for the first `k` arguments. -/
structure Common (args : List Term) (k : Nat) (s s' : Store) (names names' : List (String × Ref))
    (ts ts' : List Ref) (os : List Outline) : Prop where
  /-- The operands. -/
  first : Forall₂ (fun t (o : Outline) => s.Settled t (o.fill Leaf.first)) ts os
  /-- Their counterparts. -/
  second : Forall₂ (fun t (o : Outline) => s'.Settled t (o.fill (Leaf.second args))) ts' os
  /-- The variables by name. -/
  named : Forall₂ (SameName s s') names names'
  /-- The gaps are in order. -/
  gaps : (leaves os).filterMap Leaf.gap? = List.range k
  /-- All variables are apart. -/
  apart : LeavesApart args ((names.zip names').map nameLeaf ++ leaves os)

namespace Common

variable {args : List Term} {k : Nat} {s s' : Store} {names names' : List (String × Ref)}
  {ts ts' us us' : List Ref} {os : List Outline}

/-- What is matched with an element of the second list. -/
theorem exists_of_forall₂ {α β : Type} {R : α → β → Prop} {xs : List α} {ys : List β}
    (h : Forall₂ R xs ys) {y : β} (hy : y ∈ ys) : ∃ x, R x y := by
  induction h with
  | nil => cases hy
  | cons hxy _ ih =>
    rcases List.mem_cons.mp hy with rfl | hy
    · exact ⟨_, hxy⟩
    · exact ih hy

/-- All variables are in the stores, and all gaps are for arguments that were taken. -/
theorem lt (h : Common args k s s' names names' ts ts' os) {p : (Option Nat × TermVar) × TermVar}
    (hp : p ∈ ((names.zip names').map nameLeaf ++ leaves os).flatMap (Leaf.renamings args)) :
    p.2.id < s'.size ∧ (p.1.1 = none → p.1.2.id < s.size) ∧ ∀ i ∈ p.1.1, i < k := by
  obtain ⟨leaf, hleaf, hp⟩ := List.mem_flatMap.mp hp
  rw [List.mem_append] at hleaf
  rcases hleaf with hleaf | hleaf
  · obtain ⟨q, hq, rfl⟩ := List.mem_map.mp hleaf
    have hsame := (List.forall₂_iff_zip.mp h.named).2 hq
    rw [nameLeaf, Leaf.renamings, List.mem_singleton] at hp
    subst hp
    exact ⟨hsame.second.lt, fun _ => hsame.first.lt, nofun⟩
  · rw [leaves, List.mem_flatMap] at hleaf
    obtain ⟨o, ho, hmem⟩ := hleaf
    rw [List.mem_reverse] at ho
    obtain ⟨t, ht⟩ := exists_of_forall₂ h.first ho
    obtain ⟨t', ht'⟩ := exists_of_forall₂ h.second ho
    refine ⟨ht'.id_lt _ (Tree.mem_vars_fill hmem (Leaf.mem_vars_second args hp)), ?_⟩
    cases leaf with
    | var v v' =>
      rw [Leaf.renamings, List.mem_singleton] at hp
      subst hp
      refine ⟨fun _ => ht.id_lt _ (Tree.mem_vars_fill hmem ?_), nofun⟩
      rw [Leaf.first, Term.vars_var]
      exact List.mem_singleton_self v
    | gap i f =>
      obtain ⟨w, -, rfl⟩ := List.mem_map.mp hp
      refine ⟨nofun, ?_⟩
      rintro j hj
      obtain rfl : i = j := Option.some.inj hj
      have hgap : i ∈ (leaves os).filterMap Leaf.gap? :=
        List.mem_filterMap.mpr ⟨_, List.mem_flatMap.mpr ⟨o, List.mem_reverse.mpr ho, hmem⟩, rfl⟩
      rw [h.gaps] at hgap
      exact List.mem_range.mp hgap

/-- An operand is made of the last ones, in both stores. -/
theorem combine {r r' : Ref × Store} (us us' : List Ref)
    (h : Common args k s s' names names' (us ++ ts) (us' ++ ts') os) (hlength : us'.length = us.length)
    (hmake : ∀ ou : List Outline, Forall₂ (fun t (o : Outline) => s.Settled t (o.fill Leaf.first)) us ou →
      Forall₂ (fun t (o : Outline) => s'.Settled t (o.fill (Leaf.second args))) us' ou →
        ∃ o : Outline, s.Settles r (o.fill Leaf.first) ∧ s'.Settles r' (o.fill (Leaf.second args)) ∧
          o.vars = leaves ou) :
    ∃ os, Common args k r.2 r'.2 names names' (r.1 :: ts) (r'.1 :: ts') os := by
  have hsplit : ∀ {R : Ref → Outline → Prop} {us ts : List Ref}, Forall₂ R (us ++ ts) os →
      Forall₂ R us (os.take us.length) ∧ Forall₂ R ts (os.drop us.length) := by
    intro R us ts hall
    have htake := List.forall₂_take us.length hall
    have hdrop := List.forall₂_drop us.length hall
    rw [List.take_left] at htake
    rw [List.drop_left] at hdrop
    exact ⟨htake, hdrop⟩
  obtain ⟨hus, hts⟩ := hsplit h.first
  obtain ⟨hus', hts'⟩ := hsplit h.second
  rw [hlength] at hus' hts'
  obtain ⟨o, hmade, hmade', hvars⟩ := hmake _ hus hus'
  have hleaves : leaves (o :: os.drop us.length) = leaves os := by
    rw [leaves_cons, hvars, ← leaves_append, List.take_append_drop]
  refine ⟨o :: os.drop us.length, ?_, ?_, ?_, ?_, ?_⟩
  · exact .cons hmade.settled (hts.imp fun _ _ ht => ht.grow hmade.grows)
  · exact .cons hmade'.settled (hts'.imp fun _ _ ht => ht.grow hmade'.grows)
  · exact h.named.imp fun _ _ he => he.grow hmade.grows hmade'.grows
  · rw [hleaves]
    exact h.gaps
  · rw [hleaves]
    exact h.apart

/-- An operand is added that is a leaf, which has nothing to do with the others. -/
theorem add {r r' : Ref × Store} (h : Common args k s s' names names' ts ts' os) (leaf : Leaf)
    (hmade : s.Settles r leaf.first) (hmade' : s'.Settles r' (leaf.second args)) {k' : Nat}
    (hgaps : List.range k' = List.range k ++ leaf.gap?.toList) (hleaf : LeavesApart args [leaf])
    (hnew : ∀ q ∈ leaf.renamings args, s'.size ≤ q.2.id ∧ (q.1.1 = none → s.size ≤ q.1.2.id) ∧
      ∀ i ∈ q.1.1, k ≤ i) :
    Common args k' r.2 r'.2 names names' (r.1 :: ts) (r'.1 :: ts') (.var leaf :: os) := by
  have hleaves : leaves (.var leaf :: os) = leaves os ++ [leaf] := by
    rw [leaves_cons, Tree.vars_of_var]
  refine ⟨?_, ?_, ?_, ?_, ?_⟩
  · refine .cons ?_ (h.first.imp fun _ _ ht => ht.grow hmade.grows)
    rw [Tree.fill_of_var]
    exact hmade.settled
  · refine .cons ?_ (h.second.imp fun _ _ ht => ht.grow hmade'.grows)
    rw [Tree.fill_of_var]
    exact hmade'.settled
  · exact h.named.imp fun _ _ he => he.grow hmade.grows hmade'.grows
  · rw [hleaves, List.filterMap_append, h.gaps, hgaps]
    cases leaf <;> rfl
  · refine (h.apart.cons hleaf ?_).mono ?_
    · intro p hp q hq
      obtain ⟨hlt, hvar, hgap⟩ := h.lt hp
      obtain ⟨hle, hvar', hgap'⟩ := hnew q hq
      refine ⟨?_, (Nat.lt_of_lt_of_le hlt hle).ne⟩
      intro heq
      rw [heq] at hvar hgap
      rcases hkey : q.1.1 with _ | i
      · exact absurd (hvar hkey) (Nat.not_lt.mpr (hvar' hkey))
      · exact absurd (hgap i hkey) (Nat.not_lt.mpr (hgap' i hkey))
    · intro l hl
      rw [hleaves, ← List.append_assoc, List.mem_append, List.mem_singleton] at hl
      exact List.mem_cons.mpr hl.symm

end Common

/-- Operands and counterparts that have outlines, whatever these are. -/
def Shared (args : List Term) (k : Nat) (s s' : Store) (names names' : List (String × Ref))
    (ts ts' : List Ref) : Prop :=
  ∃ os, Common args k s s' names names' ts ts' os

namespace Shared

variable {args : List Term} {k : Nat} {s s' : Store} {names names' : List (String × Ref)}
  {ts ts' us us' : List Ref} {t t' : Ref}

theorem literal (h : Shared args k s s' names names' ts ts') (l : Literal) :
    Shared args k (s.literal l).2 (s'.literal l).2 names names' ((s.literal l).1 :: ts)
      ((s'.literal l).1 :: ts') := by
  obtain ⟨os, h⟩ := h
  refine Common.combine [] [] h rfl fun ou hou _ => ⟨.literal l, ?_⟩
  cases hou
  rw [Tree.fill_literal, Tree.fill_literal, Tree.vars_literal]
  exact ⟨s.settles_literal l, s'.settles_literal l, rfl⟩

theorem literalList (h : Shared args k s s' names names' ts ts') (ls : List Literal) :
    Shared args k ((s.literals ls).2.list (s.literals ls).1).2
      ((s'.literals ls).2.list (s'.literals ls).1).2 names names'
      (((s.literals ls).2.list (s.literals ls).1).1 :: ts)
      (((s'.literals ls).2.list (s'.literals ls).1).1 :: ts') := by
  obtain ⟨os, h⟩ := h
  refine Common.combine [] [] h rfl fun ou hou _ =>
    ⟨.partialList (ls.map .literal) (.literal (.atom "[]")), ?_⟩
  cases hou
  have hfill : ∀ f : Leaf → Term, (Tree.partialList (ls.map .literal) (.literal (.atom "[]"))).fill f =
      .list (ls.map .literal) := by
    intro f
    rw [Tree.fill_partialList, Tree.fill_literal, List.map_map]
    exact congrArg (Term.partialList · _) (List.map_congr_left fun l _ => Tree.fill_literal f l)
  rw [hfill, hfill]
  refine ⟨s.settles_literalList ls, s'.settles_literalList ls, ?_⟩
  rw [Tree.vars_partialList, Tree.vars_literal, List.append_nil, List.flatMap_map]
  exact List.flatMap_eq_nil_iff.mpr fun l _ => Tree.vars_literal l

theorem apply (h : Shared args k s s' names names' (us ++ ts) (us' ++ ts'))
    (hlength : us'.length = us.length) (hne : us ≠ []) (name : String) :
    Shared args k (s.apply name us.reverse).2 (s'.apply name us'.reverse).2 names names'
      ((s.apply name us.reverse).1 :: ts) ((s'.apply name us'.reverse).1 :: ts') := by
  obtain ⟨os, h⟩ := h
  have hne' : us' ≠ [] := by
    rintro rfl
    exact hne (List.length_eq_zero_iff.mp hlength.symm)
  refine Common.combine us us' h hlength fun ou hou hou' => ⟨.compound name ou.reverse, ?_⟩
  rw [Tree.fill_compound, Tree.fill_compound, Tree.vars_compound]
  refine ⟨Store.settles_apply name ?_ (List.reverse_ne_nil_iff.mpr hne),
    Store.settles_apply name ?_ (List.reverse_ne_nil_iff.mpr hne'), rfl⟩
  · exact List.forall₂_map_right_iff.mpr (List.rel_reverse hou)
  · exact List.forall₂_map_right_iff.mpr (List.rel_reverse hou')

theorem partialList (h : Shared args k s s' names names' (t :: us ++ ts) (t' :: us' ++ ts'))
    (hlength : us'.length = us.length) :
    Shared args k (s.partialList us.reverse t).2 (s'.partialList us'.reverse t').2 names names'
      ((s.partialList us.reverse t).1 :: ts) ((s'.partialList us'.reverse t').1 :: ts') := by
  obtain ⟨os, h⟩ := h
  refine Common.combine (t :: us) (t' :: us') h (congrArg Nat.succ hlength) fun ou hou hou' => ?_
  cases hou with
  | @cons _ o _ ou ho hou =>
  cases hou' with
  | cons ho' hou' =>
  refine ⟨.partialList ou.reverse o, ?_⟩
  rw [Tree.fill_partialList, Tree.fill_partialList, Tree.vars_partialList, leaves_cons]
  refine ⟨Store.settles_partialList ?_ ho, Store.settles_partialList ?_ ho', rfl⟩
  · exact List.forall₂_map_right_iff.mpr (List.rel_reverse hou)
  · exact List.forall₂_map_right_iff.mpr (List.rel_reverse hou')

theorem list (h : Shared args k s s' names names' (us ++ ts) (us' ++ ts'))
    (hlength : us'.length = us.length) :
    Shared args k (s.list us.reverse).2 (s'.list us'.reverse).2 names names'
      ((s.list us.reverse).1 :: ts) ((s'.list us'.reverse).1 :: ts') := by
  have hnil := h.literal (.atom "[]")
  exact hnil.partialList hlength

/-! ## Variables -/

/-- A leaf for two variables of one name. -/
theorem apart_var {v v' : TermVar} (h : v'.name = v.name) : LeavesApart args [.var v v'] := by
  have hself : [Leaf.var v v'].flatMap (Leaf.renamings args) = [((none, v), v')] := rfl
  constructor
  · rw [hself, List.forall_mem_singleton]
    exact h
  · rw [hself]
    intro p hp q hq
    rw [List.mem_singleton.mp hp, List.mem_singleton.mp hq]
    exact iff_of_true rfl rfl

/-- A variable that is new in both stores. -/
theorem exists_newVar {os : List Outline} (h : Common args k s s' names names' ts ts' os)
    (name : Option String) : Common args k (s.var name).2 (s'.var name).2 names names'
      ((s.var name).1 :: ts) ((s'.var name).1 :: ts') (.var (.var ⟨s.size, name⟩ ⟨s'.size, name⟩) :: os) := by
  refine h.add (.var ⟨s.size, name⟩ ⟨s'.size, name⟩) (s.settles_var name) (s'.settles_var name)
    (List.append_nil _).symm (apart_var rfl) ?_
  rw [Leaf.renamings, List.forall_mem_singleton]
  exact ⟨Nat.le_refl _, fun _ => Nat.le_refl _, nofun⟩

theorem newVar (h : Shared args k s s' names names' ts ts') (name : Option String) :
    Shared args k (s.var name).2 (s'.var name).2 names names' ((s.var name).1 :: ts)
      ((s'.var name).1 :: ts') :=
  h.elim fun _ h => ⟨_, exists_newVar h name⟩

/-- A variable that has a name is known by it from then on. -/
theorem newName (h : Shared args k s s' names names' ts ts') (name : String) :
    Shared args k (s.var (some name)).2 (s'.var (some name)).2 ((name, (s.var (some name)).1) :: names)
      ((name, (s'.var (some name)).1) :: names') ((s.var (some name)).1 :: ts)
      ((s'.var (some name)).1 :: ts') := by
  obtain ⟨os, h⟩ := h
  have hnew := exists_newVar h (some name)
  have hsame : SameName (s.var (some name)).2 (s'.var (some name)).2 (name, (s.var (some name)).1)
      (name, (s'.var (some name)).1) :=
    ⟨rfl, (s.settles_var (some name)).settled, (s'.settles_var (some name)).settled⟩
  refine ⟨_, hnew.first, hnew.second, .cons hsame hnew.named, hnew.gaps, hnew.apart.mono ?_⟩
  intro leaf hleaf
  rw [List.zip_cons_cons, List.map_cons, List.cons_append, List.mem_cons] at hleaf
  rcases hleaf with rfl | hleaf
  · rw [leaves_cons, Tree.vars_of_var]
    exact List.mem_append_right _ (List.mem_append_right _ (List.mem_singleton_self _))
  · exact hleaf

/-- A name is known in both readings or in neither. -/
theorem lookup (h : Shared args k s s' names names' ts ts') (name : String) :
    (names.lookup name = none ∧ names'.lookup name = none) ∨ ∃ t t', names.lookup name = some t ∧
      names'.lookup name = some t' ∧ Shared args k s s' names names' (t :: ts) (t' :: ts') := by
  obtain ⟨os, h⟩ := h
  have hlookup : (names.lookup name = none ∧ names'.lookup name = none) ∨ ∃ t t',
      ((name, t), (name, t')) ∈ names.zip names' ∧ names.lookup name = some t ∧
        names'.lookup name = some t' := by
    have hnamed := h.named
    clear h
    induction hnamed with
    | nil => exact .inl ⟨rfl, rfl⟩
    | @cons e e' names names' hsame _ ih =>
      obtain ⟨n, t⟩ := e
      obtain ⟨n', t'⟩ := e'
      obtain rfl : n' = n := hsame.name
      rw [List.lookup_cons, List.lookup_cons, List.zip_cons_cons]
      cases heq : name == n' with
      | true =>
        obtain rfl := eq_of_beq heq
        exact .inr ⟨t, t', List.mem_cons_self, rfl, rfl⟩
      | false =>
        refine ih.imp id ?_
        rintro ⟨t, t', hmem, hrest⟩
        exact ⟨t, t', List.mem_cons_of_mem _ hmem, hrest⟩
  refine hlookup.imp id ?_
  rintro ⟨t, t', hmem, ht, ht'⟩
  have hsame := (List.forall₂_iff_zip.mp h.named).2 hmem
  have hleaves : leaves (.var (nameLeaf ((name, t), (name, t'))) :: os) =
      leaves os ++ [nameLeaf ((name, t), (name, t'))] := by
    rw [leaves_cons, Tree.vars_of_var]
  refine ⟨t, t', ht, ht', .var (nameLeaf ((name, t), (name, t'))) :: os, ?_, ?_, h.named, ?_, ?_⟩
  · refine .cons ?_ h.first
    rw [Tree.fill_of_var]
    exact hsame.first
  · refine .cons ?_ h.second
    rw [Tree.fill_of_var]
    exact hsame.second
  · rw [hleaves, List.filterMap_append, h.gaps]
    exact List.append_nil _
  · refine h.apart.mono ?_
    intro leaf hleaf
    rw [hleaves, ← List.append_assoc, List.mem_append, List.mem_singleton] at hleaf
    rcases hleaf with hleaf | rfl
    · exact hleaf
    · exact List.mem_append_left _ (List.mem_map_of_mem hmem)

/-! ## Gaps -/

/-- The name `?` and the next argument, with new variables. -/
theorem fillGap (h : Shared args k s s' names names' ts ts') {arg : Term} (harg : args[k]? = some arg) :
    Shared args (k + 1) (s.atom "?").2 (s'.build arg).2 names names' ((s.atom "?").1 :: ts)
      ((s'.build arg).1 :: ts') := by
  obtain ⟨os, h⟩ := h
  obtain ⟨f, hbuild, hf⟩ := s'.exists_settles_build arg
  have hgetD : args.getD k default = arg := by
    rw [List.getD_eq_getElem?_getD, harg, Option.getD_some]
  have hrenamings : (Leaf.gap k f).renamings args = arg.vars.map fun w => ((some k, w), f w) := by
    rw [Leaf.renamings, hgetD]
  have hapart : LeavesApart args [.gap k f] := by
    have hself : [Leaf.gap k f].flatMap (Leaf.renamings args) = (Leaf.gap k f).renamings args :=
      List.flatMap_singleton _ _
    constructor
    · rw [hself, hrenamings, List.forall_mem_map]
      exact fun w hw => (hf w hw).1
    · rw [hself, hrenamings, List.forall_mem_map]
      intro w hw
      rw [List.forall_mem_map]
      intro w' hw'
      constructor
      · intro heq
        rw [(Prod.mk.inj heq).2]
      · intro heq
        rw [(hf w hw).2.2 w' hw' heq]
  refine ⟨_, h.add (.gap k f) (s.settles_literal (.atom "?")) ?_ List.range_succ hapart ?_⟩
  · rw [Leaf.second, hgetD]
    exact hbuild
  · rw [hrenamings, List.forall_mem_map]
    intro w hw
    refine ⟨(hf w hw).2.1, nofun, ?_⟩
    rintro i hi
    exact (Option.some.inj hi).le

end Shared

/-! ## The terms -/

/-- The leaf without what the second term has there. -/
def Leaf.place : Leaf → TermVar ⊕ Nat
  | var v _ => .inl v
  | gap i _ => .inr i

/-- What the variables become can be told from what they are for. -/
theorem LeavesApart.exists_rename {args : List Term} {ls : List Leaf} (h : LeavesApart args ls) :
    ∃ rename : Option Nat → TermVar → TermVar,
      ∀ p ∈ ls.flatMap (Leaf.renamings args), rename p.1.1 p.1.2 = p.2 := by
  have hone : OneToOne (ls.flatMap (Leaf.renamings args)) := by
    intro p hp q hq
    rw [h.iff p hp q hq]
    constructor
    · intro hid
      have hname : p.2.name = q.2.name := by
        rw [h.name p hp, h.name q hq, (h.iff p hp q hq).mpr hid]
      obtain ⟨_, ⟨_, _⟩⟩ := p
      obtain ⟨_, ⟨_, _⟩⟩ := q
      exact congrArg₂ TermVar.mk hid hname
    · exact congrArg TermVar.id
  have hvar : Nonempty TermVar := ⟨⟨0, none⟩⟩
  obtain ⟨f, hf⟩ := hone.exists_fun
  exact ⟨fun a v => f (a, v), hf⟩

/-- **Terms with an outline in common** differ in the choice of variables and in the gaps only. -/
theorem Common.substituted {args : List Term} {k : Nat} {s s' : Store}
    {names names' : List (String × Ref)} {t t' : Ref} {os : List Outline}
    (h : Common args k s s' names names' [t] [t'] os) :
    Term.Substituted args k (s.snapshot t) (s'.snapshot t') := by
  obtain ⟨hfirst, hsecond, -, hgaps, hapart⟩ := h
  rcases hfirst with _ | ⟨hfirst, _ | _⟩
  rcases hsecond with _ | ⟨hsecond, _ | _⟩
  rename_i o
  have hleaves : leaves [o] = o.vars := List.flatMap_singleton _ _
  rw [hleaves] at hgaps hapart
  have hall := hapart.mono fun leaf hleaf => List.mem_append_right _ hleaf
  obtain ⟨rename, hrename⟩ := hall.exists_rename
  have hmem : ∀ {leaf : Leaf} {p : (Option Nat × TermVar) × TermVar}, leaf ∈ o.vars →
      p ∈ leaf.renamings args → rename p.1.1 p.1.2 = p.2 := fun hleaf hp =>
    hrename _ (List.mem_flatMap.mpr ⟨_, hleaf, hp⟩)
  have hcopies : (o.bind fun leaf => .var leaf.place).copies args =
      (o.vars.flatMap (Leaf.renamings args)).map Prod.fst := by
    rw [Tree.copies, Tree.vars_bind_var, List.flatMap_map, List.map_flatMap]
    refine List.flatMap_congr fun leaf _ => ?_
    cases leaf with
    | var v v' => rfl
    | gap i f =>
      rw [Leaf.renamings, List.map_map]
      rfl
  refine ⟨o.bind fun leaf => .var leaf.place, rename, ?_, ?_, ?_, ?_, ?_⟩
  · rw [Tree.vars_bind_var, List.filterMap_map, ← hgaps]
    refine List.filterMap_congr fun leaf _ => ?_
    cases leaf <;> rfl
  · rw [hfirst.snapshot_eq, Tree.fill_bind_var]
    refine Tree.fill_congr fun leaf _ => ?_
    cases leaf <;> rfl
  · rw [hsecond.snapshot_eq, Tree.fill_bind_var]
    refine Tree.fill_congr fun leaf hleaf => ?_
    cases leaf with
    | var v v' => exact congrArg Term.var (hmem hleaf (List.mem_singleton_self ((none, v), v'))).symm
    | gap i f =>
      exact Term.rename_congr fun w hw =>
        (hmem (p := ((some i, w), f w)) hleaf (List.mem_map_of_mem hw)).symm
  · rw [hcopies, List.forall_mem_map]
    intro p hp
    rw [hrename p hp]
    exact hall.name p hp
  · rw [hcopies, List.forall_mem_map]
    intro p hp
    rw [List.forall_mem_map]
    intro q hq heq
    rw [hrename p hp, hrename q hq] at heq
    exact (hall.iff p hp q hq).mpr heq

end Clausal
