import Clausal.Proofs.Tree.Unifier

/-! # Variants

Two lists of trees over different variables are variants if they are instances of one another, each
under one substitution for the whole list (`Variants`); that one substitution serves all of them is
what keeps the sharing of variables between the trees.  Then they differ in the names of their
variables only.

Variants stay variants if further trees are renamed on both sides (`Variants.renamed`), and if both
sides are unified with a most general unifier (`Variants.unify`).  These are the two things that a
resolution step does.
-/

namespace Clausal.Tree

variable {U V W : Type} {ps qs : List (Tree V × Tree W)} {x y : Tree V} {x' y' : Tree W}

/-- The trees of each pair are instances of one another, under one pair of substitutions. -/
def Variants (ps : List (Tree V × Tree W)) : Prop :=
  ∃ (f : V → Tree W) (g : W → Tree V), ∀ p ∈ ps, p.1.bind f = p.2 ∧ p.2.bind g = p.1

theorem Variants.subset (h : Variants ps) (hqs : ∀ q ∈ qs, q ∈ ps) : Variants qs := by
  obtain ⟨f, g, hfg⟩ := h
  exact ⟨f, g, fun q hq => hfg q (hqs q hq)⟩

/-- A variable of the one side stands where a variable of the other does. -/
theorem exists_eq_var {t : Tree V} {f : V → Tree W} {g : W → Tree V}
    (h : (t.bind f).bind g = t) {v : V} (hv : v ∈ t.vars) : ∃ w, f v = .var w := by
  rw [bind_bind] at h
  have heq : (f v).bind g = .var v := eq_of_bind_eq (h.trans (bind_var t).symm) hv
  rcases hf : f v with w | l | ⟨name, args⟩
  · exact ⟨w, rfl⟩
  · rw [hf, bind_literal] at heq
    cases heq
  · rw [hf, bind_compound] at heq
    cases heq

/-! ## Renaming apart -/

/-- A function can be given new values on the image of an injective one. -/
theorem exists_extension {rename : U → V} {us : List U} (f : V → Tree W) (h : U → Tree W)
    (hinj : ∀ u ∈ us, ∀ u' ∈ us, rename u = rename u' → u = u') :
    ∃ f' : V → Tree W, (∀ u ∈ us, f' (rename u) = h u) ∧
      ∀ v, (∀ u ∈ us, rename u ≠ v) → f' v = f v := by
  classical
  refine ⟨fun v => if hv : ∃ u ∈ us, rename u = v then h hv.choose else f v, fun u hu => ?_,
    fun v hv => ?_⟩
  · have hex : ∃ u' ∈ us, rename u' = rename u := ⟨u, hu, rfl⟩
    obtain ⟨hmem, heq⟩ := hex.choose_spec
    dsimp only
    rw [dif_pos hex, hinj _ hmem u hu heq]
  · exact dif_neg fun ⟨u, hu, heq⟩ => hv u hu heq

/-- **Renaming further trees apart on both sides**: the new variables are different from those that
were there, and for different variables they are different. -/
theorem Variants.renamed (h : Variants ps) {us : List U} {left : U → V} {right : U → W}
    (hleft : ∀ u ∈ us, ∀ u' ∈ us, left u = left u' → u = u')
    (hright : ∀ u ∈ us, ∀ u' ∈ us, right u = right u' → u = u')
    (hnew : ∀ p ∈ ps, ∀ u ∈ us, left u ∉ p.1.vars ∧ right u ∉ p.2.vars)
    {ts : List (Tree U)} (hts : ∀ t ∈ ts, ∀ u ∈ t.vars, u ∈ us) :
    Variants (ts.map (fun t => (t.bind fun u => .var (left u), t.bind fun u => .var (right u)))
      ++ ps) := by
  obtain ⟨f, g, hfg⟩ := h
  obtain ⟨f', hf', hfold⟩ := exists_extension f (fun u => .var (right u)) hleft
  obtain ⟨g', hg', hgold⟩ := exists_extension g (fun u => .var (left u)) hright
  refine ⟨f', g', fun p hp => ?_⟩
  rcases List.mem_append.mp hp with hp | hp
  · obtain ⟨t, ht, rfl⟩ := List.mem_map.mp hp
    refine ⟨?_, ?_⟩
    · rw [bind_bind]
      exact bind_congr fun u hu => by rw [bind_of_var, hf' u (hts t ht u hu)]
    · rw [bind_bind]
      exact bind_congr fun u hu => by rw [bind_of_var, hg' u (hts t ht u hu)]
  · obtain ⟨hleftp, hrightp⟩ := hfg p hp
    have hf : p.1.bind f' = p.1.bind f := bind_congr fun v hv =>
      hfold v fun u hu heq => (hnew p hp u hu).1 (heq ▸ hv)
    have hg : p.2.bind g' = p.2.bind g := bind_congr fun w hw =>
      hgold w fun u hu heq => (hnew p hp u hu).2 (heq ▸ hw)
    exact ⟨hf.trans hleftp, hg.trans hrightp⟩

/-! ## Unifying -/

/-- Of variants, some pair of trees has a unifier if the other pair does. -/
theorem Variants.unifiable (h : Variants ps) (hx : (x, x') ∈ ps) (hy : (y, y') ∈ ps)
    (hunifier : ∃ k : V → Tree V, x.bind k = y.bind k) : ∃ k : W → Tree W, x'.bind k = y'.bind k := by
  obtain ⟨f, g, hfg⟩ := h
  obtain ⟨k, hk⟩ := hunifier
  refine ⟨fun w => ((g w).bind k).bind f, ?_⟩
  rw [← bind_bind, ← bind_bind, ← bind_bind, ← bind_bind, (hfg _ hx).2, (hfg _ hy).2, hk]

theorem Variants.swap (h : Variants ps) : Variants (ps.map Prod.swap) := by
  obtain ⟨f, g, hfg⟩ := h
  refine ⟨g, f, fun q hq => ?_⟩
  obtain ⟨p, hp, rfl⟩ := List.mem_map.mp hq
  exact ⟨(hfg p hp).2, (hfg p hp).1⟩

theorem Variants.unifiable_iff (h : Variants ps) (hx : (x, x') ∈ ps) (hy : (y, y') ∈ ps) :
    (∃ k : V → Tree V, x.bind k = y.bind k) ↔ ∃ k : W → Tree W, x'.bind k = y'.bind k :=
  ⟨h.unifiable hx hy, h.swap.unifiable (List.mem_map_of_mem hx) (List.mem_map_of_mem hy)⟩

/-- **Unifying on both sides**: on the right with a principal solution, and on the left with one that
is most general for the variables of a set. -/
theorem Variants.unify [DecidableEq W] (h : Variants ps) (hx : (x, x') ∈ ps) (hy : (y, y') ∈ ps)
    {k : V → Tree V} {S : V → Prop} (hk : x.bind k = y.bind k)
    (hgeneral : ∀ f : V → Tree W, x.bind f = y.bind f → ∃ g : V → Tree W, ∀ v, S v →
      (k v).bind g = f v)
    {k' : W → Tree W} (hk' : Equations.Principal k' [(x', y')])
    (hS : ∀ p ∈ ps, ∀ v ∈ p.1.vars, S v) :
    Variants (ps.map fun p => (p.1.bind k, p.2.bind k')) := by
  obtain ⟨f, g, hfg⟩ := h
  have hsolved : x'.bind k' = y'.bind k' := hk'.solved (x', y') (List.mem_singleton_self _)
  -- What the solution on the right makes of the left is a solution there, and the other way round.
  have hleft : x.bind (fun v => (f v).bind k') = y.bind fun v => (f v).bind k' := by
    rw [← bind_bind, ← bind_bind, (hfg _ hx).1, (hfg _ hy).1, hsolved]
  have hright : x'.bind (fun w => (g w).bind k) = y'.bind fun w => (g w).bind k := by
    rw [← bind_bind, ← bind_bind, (hfg _ hx).2, (hfg _ hy).2, hk]
  obtain ⟨f', hf'⟩ := hgeneral _ hleft
  have hg' := hk'.general (fun w => (g w).bind k) fun e he => by
    rw [List.mem_singleton] at he
    subst he
    exact hright
  refine ⟨f', fun w => (g w).bind k, fun q hq => ?_⟩
  obtain ⟨p, hp, rfl⟩ := List.mem_map.mp hq
  obtain ⟨hp₁, hp₂⟩ := hfg p hp
  refine ⟨?_, ?_⟩
  · show (p.1.bind k).bind f' = p.2.bind k'
    rw [bind_bind, bind_congr fun v hv => hf' v (hS p hp v hv), ← bind_bind, hp₁]
  · show (p.2.bind k').bind _ = p.1.bind k
    rw [bind_bind, bind_congr fun w _ => hg' w, ← bind_bind, hp₂]

end Clausal.Tree
