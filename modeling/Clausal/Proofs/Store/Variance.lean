import Clausal.Proofs.Store.Rebuilding

/-! # Variants and the variables of a store

A term that is built has one variable for each number and name, while variants are recognised by numbers
alone.  The two agree on terms that are numbered, as are all that come out of a store
(`renamed_tree_iff`).  Terms that are made of names only have the same number for all variables, so that
`f(X, Y)` passes for a variant of `f(X, X)`; a term that is not numbered is not even a variant of what
comes out of a store into which it was put.

A term is a tree up to a correspondence of its variables before and after it was built, so that variants
among the results are what the terms are up to number and name (`variants_iff`).
-/

namespace Clausal

variable {x y : Term}

instance : Nonempty TermVar := ⟨⟨0, none⟩⟩

namespace Term

/-- If the numbers tell the variables apart, the names add nothing. -/
theorem Numbered.renamed_tree (hx : x.Numbered) : Tree.Renamed x.named x.tree := by
  rw [tree_eq]
  refine Tree.renamed_bind fun v hv w hw heq => ?_
  rw [vars_named] at hv hw
  exact hx v hv w hw (congrArg Ref.index heq)

theorem renamed_tree_iff (hx : x.Numbered) (hy : y.Numbered) :
    Tree.Renamed x.tree y.tree ↔ Tree.Renamed x.named y.named := by
  constructor
  · exact fun h => (hx.renamed_tree.trans h).trans hy.renamed_tree.symm
  · exact fun h => (hx.renamed_tree.symm.trans h).trans hy.renamed_tree

theorem Numbered.isVariant_iff (hx : x.Numbered) (hy : y.Numbered) :
    x.isVariant y = true ↔ Tree.Renamed x.named y.named :=
  Term.isVariant_iff.trans (renamed_tree_iff hx hy)

/-- Being a variant goes both ways and is passed on. -/
theorem equivalence_isVariant : Equivalence fun x y : Term => x.isVariant y = true where
  refl _ := Term.isVariant_iff.mpr (.refl _)
  symm h := Term.isVariant_iff.mpr (Term.isVariant_iff.mp h).symm
  trans h h' := Term.isVariant_iff.mpr ((Term.isVariant_iff.mp h).trans (Term.isVariant_iff.mp h'))

/-- Variables that have different numbers now were different before. -/
theorem Renumbered.renamed (h : x.Renumbered y) : Tree.Renamed x.named y.named := by
  obtain ⟨f, hf, -, rfl⟩ := h
  rw [named_rename]
  refine Tree.renamed_bind fun v hv w hw heq => ?_
  rw [vars_named] at hv hw
  exact (hf v hv w hw).mp (congrArg TermVar.id heq)

end Term

namespace Store

theorem numbered_rebuilt (s : Store) (x : Term) : (s.rebuilt x).Numbered := numbered_snapshot _ _

/-- Variants among terms that were put into stores are the same up to variables, as they are told apart
by number and name. -/
theorem isVariant_rebuilt_iff (s s' : Store) (x y : Term) :
    (s.rebuilt x).isVariant (s'.rebuilt y) = true ↔ Tree.Renamed x.named y.named := by
  have hx := (renumbered_rebuilt s x).renamed
  have hy := (renumbered_rebuilt s' y).renamed
  rw [Term.Numbered.isVariant_iff (numbered_rebuilt s x) (numbered_rebuilt s' y)]
  constructor
  · exact fun h => (hx.trans h).trans hy.symm
  · exact fun h => (hx.symm.trans h).trans hy

/-- **What variants are.**  Being a variant is an equivalence: a one-to-one correspondence between the
numbers of the variables turns the one term into the other.  If the two are put into stores and taken out
again, the correspondence is one between the variables, as number and name tell them apart.  The two notions
agree if different variables of a term have different numbers; a term for which this is not so is not a
variant of what is taken out for it. -/
theorem variants_iff (s s' : Store) (x y : Term) :
    (Equivalence fun x y : Term => x.isVariant y = true) ∧
      (x.isVariant y = true ↔ Tree.Renamed x.tree y.tree) ∧
      ((s.rebuilt x).isVariant (s'.rebuilt y) = true ↔ Tree.Renamed x.named y.named) ∧
      (x.Numbered ∧ y.Numbered →
        (x.isVariant y = true ↔ (s.rebuilt x).isVariant (s'.rebuilt y) = true)) ∧
      ((s.rebuilt x).isVariant x = true ↔ x.Numbered) := by
  refine ⟨Term.equivalence_isVariant, Term.isVariant_iff, isVariant_rebuilt_iff s s' x y, ?_,
    (renumbered_rebuilt s x).isVariant_iff⟩
  rintro ⟨hx, hy⟩
  exact (hx.isVariant_iff hy).trans (isVariant_rebuilt_iff s s' x y).symm

/-- Variables swap their places: `f(X, Y, X)` and `f(Y, X, Y)` are variants, also after they were built. -/
theorem variants_swapped :
    let x := Term.compound "f" [.var ⟨0, some "X"⟩, .var ⟨1, some "Y"⟩, .var ⟨0, some "X"⟩]
    let y := Term.compound "f" [.var ⟨1, some "Y"⟩, .var ⟨0, some "X"⟩, .var ⟨1, some "Y"⟩]
    x.Numbered ∧ y.Numbered ∧ x.isVariant y = true ∧
      (({} : Store).rebuilt x).isVariant (({} : Store).rebuilt y) = true := by
  intro x y
  have hx : x.Numbered := by simp [Term.Numbered, x]
  have hy : y.Numbered := by simp [Term.Numbered, y]
  have hvariant : x.isVariant y = true := by decide
  exact ⟨hx, hy, hvariant, ((variants_iff {} {} x y).2.2.2.1 ⟨hx, hy⟩).mp hvariant⟩

-- Terms that are made of names only: `f(X, Y)` passes for a variant of `f(X, X)`.
example : (Term.compound "f" [.var ⟨0, some "X"⟩, .var ⟨0, some "Y"⟩]).isVariant
    (.compound "f" [.var ⟨0, some "X"⟩, .var ⟨0, some "X"⟩]) = true := by decide

end Store

end Clausal
