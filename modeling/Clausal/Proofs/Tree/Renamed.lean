import Clausal.Proofs.Tree.Basic
import Mathlib.Data.Set.Function

/-! # Trees up to the choice of variables

Two trees differ in the choice of their variables only if a one-to-one correspondence between the
variables turns the one into the other (`Renamed`).  A tree is made up of its shape, in which all
variables are alike, and of its variables in the order in which they occur (`bind_var_eq_iff`).  So a
correspondence is a matter of two lists: the trees have the same shape, and two occurrences in the one are
of the same variable exactly where those in the other are (`renamed_iff`).
-/

namespace Clausal

/-- The pairs match each left part with one right part, and each right part with one left part. -/
def OneToOne {α β : Type} (ps : List (α × β)) : Prop :=
  ∀ p ∈ ps, ∀ q ∈ ps, p.1 = q.1 ↔ p.2 = q.2

namespace OneToOne

variable {α β γ : Type}

/-- It does not matter in which order the pairs come and how often. -/
theorem congr {ps qs : List (α × β)} (h : ∀ p, p ∈ ps ↔ p ∈ qs) : OneToOne ps ↔ OneToOne qs := by
  simp only [OneToOne, h]

theorem zip_map {f : α → β} {xs : List α} (h : Set.InjOn f {x | x ∈ xs}) :
    OneToOne (xs.zip (xs.map f)) := by
  have hzip : xs.zip (xs.map f) = xs.map fun x => (x, f x) := by
    rw [← List.zip_map', List.map_id']
  rw [hzip]
  intro p hp q hq
  obtain ⟨x, hx, rfl⟩ := List.mem_map.mp hp
  obtain ⟨x', hx', rfl⟩ := List.mem_map.mp hq
  exact (h.eq_iff hx hx').symm

/-- The left parts determine the right parts. -/
theorem exists_fun [Nonempty β] {ps : List (α × β)} (h : OneToOne ps) :
    ∃ f : α → β, ∀ p ∈ ps, f p.1 = p.2 := by
  have hvalue : ∀ x, ∃ y, ∀ p ∈ ps, p.1 = x → y = p.2 := by
    intro x
    by_cases hx : ∃ p ∈ ps, p.1 = x
    · obtain ⟨p, hp, rfl⟩ := hx
      exact ⟨p.2, fun q hq heq => (h p hp q hq).mp heq.symm⟩
    · obtain ⟨y⟩ := ‹Nonempty β›
      exact ⟨y, fun p hp heq => absurd ⟨p, hp, heq⟩ hx⟩
  choose f hf using hvalue
  exact ⟨f, fun p hp => hf p.1 p hp rfl⟩

/-- What matches the places of two lists is a function that takes the one to the other. -/
theorem exists_map [Nonempty β] {xs : List α} {ys : List β} (h : OneToOne (xs.zip ys))
    (hlength : xs.length = ys.length) : ∃ f : α → β, Set.InjOn f {x | x ∈ xs} ∧ xs.map f = ys := by
  obtain ⟨f, hf⟩ := h.exists_fun
  have hpair : ∀ x ∈ xs, (x, f x) ∈ xs.zip ys := by
    intro x hx
    rw [← List.map_fst_zip hlength.le, List.mem_map] at hx
    obtain ⟨p, hp, rfl⟩ := hx
    rwa [hf p hp]
  refine ⟨f, ?_, ?_⟩
  · intro x hx x' hx' heq
    exact (h _ (hpair x hx) _ (hpair x' hx')).mpr heq
  · calc xs.map f = (xs.zip ys).map (f ∘ Prod.fst) := by
          rw [← List.map_map, List.map_fst_zip hlength.le]
      _ = (xs.zip ys).map Prod.snd := List.map_congr_left hf
      _ = ys := List.map_snd_zip hlength.ge

end OneToOne

namespace Tree

variable {U V W : Type} {x : Tree V} {y : Tree W} {z : Tree U}

/-! ## Shapes -/

/-- The tree with all variables alike. -/
def shape (x : Tree V) : Tree Unit := x.bind fun _ => .var ()

@[simp] theorem shape_bind_var (f : V → W) (x : Tree V) :
    (x.bind fun v => .var (f v)).shape = x.shape := by
  rw [shape, bind_bind]
  exact bind_congr fun v _ => bind_of_var _ _

@[simp] theorem vars_bind_var (f : V → W) (x : Tree V) :
    (x.bind fun v => .var (f v)).vars = x.vars.map f := by
  induction x with
  | var v => simp
  | literal l => simp
  | compound name args ih =>
    rw [bind_compound, vars_compound, vars_compound, List.flatMap_map, List.map_flatMap]
    exact List.flatMap_congr ih

theorem shape_compound (name : String) (args : List (Tree V)) :
    (compound name args).shape = compound name (args.map shape) := by
  rw [shape, bind_compound]
  rfl

theorem length_vars_shape (x : Tree V) : x.shape.vars.length = x.vars.length := by
  rw [shape, vars_bind_var, List.length_map]

/-- Trees of the same shape have variables in the same places. -/
theorem length_vars_of_shape_eq (h : x.shape = y.shape) : x.vars.length = y.vars.length := by
  rw [← length_vars_shape, h, length_vars_shape]

/-- A tree is its shape and its variables. -/
theorem eq_of_shape_eq {x y : Tree V} (h : x.shape = y.shape) (hvars : x.vars = y.vars) : x = y := by
  induction x generalizing y with
  | var v =>
    cases y with
    | var w => simpa using hvars
    | literal l => simp [shape] at h
    | compound name args => simp [shape] at h
  | literal l =>
    cases y with
    | var w => simp [shape] at h
    | literal m => simpa [shape] using h
    | compound name args => simp [shape] at h
  | compound name args ih =>
    cases y with
    | var w => simp [shape] at h
    | literal l => simp [shape] at h
    | compound name' args' =>
      rw [shape_compound, shape_compound] at h
      rw [vars_compound, vars_compound] at hvars
      obtain ⟨rfl, hshapes⟩ := compound.inj h
      refine congrArg _ ?_
      clear h
      -- The variables of the first argument are those in front, as many as its shape has.
      induction args generalizing args' with
      | nil => exact (List.map_eq_nil_iff.mp hshapes.symm).symm
      | cons x xs ihs =>
        cases args' with
        | nil => cases hshapes
        | cons y ys =>
          rw [List.map_cons, List.map_cons, List.cons.injEq] at hshapes
          rw [List.flatMap_cons, List.flatMap_cons] at hvars
          obtain ⟨hfirst, hrest⟩ := List.append_inj hvars (length_vars_of_shape_eq hshapes.1)
          rw [List.forall_mem_cons] at ih
          rw [ih.1 hshapes.1 hfirst, ihs ih.2 ys hrest hshapes.2]

/-- What it is for a tree to be another one with its variables replaced by others. -/
theorem bind_var_eq_iff {f : V → W} :
    (x.bind fun v => .var (f v)) = y ↔ x.shape = y.shape ∧ x.vars.map f = y.vars := by
  constructor
  · rintro rfl
    exact ⟨(shape_bind_var f x).symm, (vars_bind_var f x).symm⟩
  · rintro ⟨hshape, hvars⟩
    exact eq_of_shape_eq ((shape_bind_var f x).trans hshape) ((vars_bind_var f x).trans hvars)

/-! ## Correspondences of variables -/

/-- A one-to-one correspondence between the variables of the trees turns the one into the other. -/
def Renamed (x : Tree V) (y : Tree W) : Prop :=
  ∃ f : V → W, Set.BijOn f {v | v ∈ x.vars} {w | w ∈ y.vars} ∧ (x.bind fun v => .var (f v)) = y

/-- A renaming that keeps variables apart is a correspondence. -/
theorem renamed_bind {f : V → W} (hf : Set.InjOn f {v | v ∈ x.vars}) :
    Renamed x (x.bind fun v => .var (f v)) := by
  refine ⟨f, ⟨?_, hf, ?_⟩, rfl⟩
  · intro v hv
    exact mem_vars_rename.mpr ⟨v, hv, rfl⟩
  · intro w hw
    obtain ⟨v, hv, rfl⟩ := mem_vars_rename.mp hw
    exact ⟨v, hv, rfl⟩

/-- **Whether there is a correspondence is seen place by place.** -/
theorem renamed_iff [Nonempty W] :
    Renamed x y ↔ x.shape = y.shape ∧ OneToOne (x.vars.zip y.vars) := by
  constructor
  · rintro ⟨f, hf, hbind⟩
    obtain ⟨hshape, hvars⟩ := bind_var_eq_iff.mp hbind
    rw [← hvars]
    exact ⟨hshape, .zip_map hf.injOn⟩
  · rintro ⟨hshape, hone⟩
    obtain ⟨f, hinj, hmap⟩ := hone.exists_map (length_vars_of_shape_eq hshape)
    have hbind := bind_var_eq_iff.mpr ⟨hshape, hmap⟩
    exact hbind ▸ renamed_bind hinj

theorem Renamed.refl (x : Tree V) : Renamed x x := by
  have hid := renamed_bind (x := x) (f := id) (Set.injOn_id _)
  have hself : (x.bind fun v => .var (id v)) = x := bind_var x
  rwa [hself] at hid

theorem Renamed.symm [Nonempty V] (h : Renamed x y) : Renamed y x := by
  obtain ⟨f, hf, hbind⟩ := h
  have hinv : Set.InvOn (Function.invFunOn f {v | v ∈ x.vars}) f {v | v ∈ x.vars} {w | w ∈ y.vars} :=
    hf.invOn_invFunOn
  refine ⟨_, hf.symm hinv.symm, ?_⟩
  rw [← hbind, bind_bind]
  refine (bind_congr fun v hv => ?_).trans (bind_var x)
  rw [bind_of_var, hinv.1 hv]

theorem Renamed.trans (h : Renamed x y) (h' : Renamed y z) : Renamed x z := by
  obtain ⟨f, hf, rfl⟩ := h
  obtain ⟨g, hg, rfl⟩ := h'
  refine ⟨g ∘ f, hg.comp hf, ?_⟩
  rw [bind_bind]
  exact bind_congr fun v _ => (bind_of_var (fun w => .var (g w)) (f v)).symm

end Tree

end Clausal
