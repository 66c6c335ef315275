import Clausal.Proofs.Tree.Basic
import Mathlib.Data.Finset.Card
import Mathlib.Data.Finset.Dedup

/-! # Most general unifiers of finite trees

A substitution solves a list of equations if it makes both sides of each the same tree.  `solve`
eliminates one variable after the other, with an occurs check, and finds a solution whenever there is
one (`not_solved_of_solve`).  Its solution is a most general one, and it is relevant: only the variables of
the equations are replaced, and only by trees over these variables (`principal_of_solve`).  The second
property is what lets variables be renamed apart by counting: a variable that no equation mentions
stays unused.
-/

namespace Clausal

/-- Equations between trees. -/
abbrev Equations (V : Type) := List (Tree V × Tree V)

namespace Equations

open Clausal.Tree

variable {V W : Type}

/-- The substitution makes both sides of every equation equal. -/
def Solved (f : V → Tree W) (eqs : Equations V) : Prop :=
  ∀ e ∈ eqs, e.1.bind f = e.2.bind f

/-- The variables of all sides. -/
def vars (eqs : Equations V) : List V := eqs.flatMap fun e => e.1.vars ++ e.2.vars

/-- The size of all sides. -/
def size (eqs : Equations V) : Nat := (eqs.map fun e => e.1.size + e.2.size).sum

@[simp] theorem solved_nil (f : V → Tree W) : Solved f [] := by
  simp [Solved]

@[simp] theorem solved_cons (f : V → Tree W) (e : Tree V × Tree V) (eqs : Equations V) :
    Solved f (e :: eqs) ↔ e.1.bind f = e.2.bind f ∧ Solved f eqs := by
  simp [Solved]

theorem solved_append (f : V → Tree W) (eqs eqs' : Equations V) :
    Solved f (eqs ++ eqs') ↔ Solved f eqs ∧ Solved f eqs' := by
  simp only [Solved, List.mem_append, or_imp, forall_and]

theorem solved_zip (f : V → Tree W) : ∀ {xs ys : List (Tree V)}, xs.length = ys.length →
    (Solved f (xs.zip ys) ↔ xs.map (bind f) = ys.map (bind f))
  | [], [], _ => by simp
  | x :: xs, y :: ys, h => by
    rw [List.zip_cons_cons, solved_cons, solved_zip f (Nat.succ.inj h)]
    simp

@[simp] theorem vars_cons (e : Tree V × Tree V) (eqs : Equations V) :
    vars (e :: eqs) = e.1.vars ++ e.2.vars ++ vars eqs := rfl

theorem mem_vars_zip {v : V} {xs ys : List (Tree V)} (h : v ∈ vars (xs.zip ys)) :
    v ∈ xs.flatMap Tree.vars ∨ v ∈ ys.flatMap Tree.vars := by
  obtain ⟨e, he, hv⟩ := List.mem_flatMap.mp h
  rcases List.mem_append.mp hv with hv | hv
  · exact .inl (List.mem_flatMap.mpr ⟨_, (List.of_mem_zip he).1, hv⟩)
  · exact .inr (List.mem_flatMap.mpr ⟨_, (List.of_mem_zip he).2, hv⟩)

theorem size_append (eqs eqs' : Equations V) : size (eqs ++ eqs') = size eqs + size eqs' := by
  simp [size]

theorem size_zip : ∀ {xs ys : List (Tree V)}, xs.length = ys.length →
    size (xs.zip ys) = (xs.map Tree.size).sum + (ys.map Tree.size).sum
  | [], [], _ => rfl
  | x :: xs, y :: ys, h => by
    have ih := size_zip (Nat.succ.inj h)
    simp only [size, List.zip_cons_cons, List.map_cons, List.sum_cons] at ih ⊢
    omega

variable [DecidableEq V]

/-- Replaces one variable and leaves the others. -/
def replace (v : V) (t : Tree V) : V → Tree V := fun u => if u = v then t else var u

/-- The equations with one variable replaced. -/
def eliminate (v : V) (t : Tree V) (eqs : Equations V) : Equations V :=
  eqs.map fun e => (e.1.bind (replace v t), e.2.bind (replace v t))

@[simp] theorem replace_self (v : V) (t : Tree V) : replace v t v = t := by
  simp [replace]

theorem replace_of_ne {u v : V} (h : u ≠ v) (t : Tree V) : replace v t u = var u := by
  simp [replace, h]

/-- Replacing a variable by a tree changes nothing for a substitution under which the two agree. -/
theorem bind_replace {f : V → Tree W} {v : V} {t : Tree V} (h : f v = t.bind f) (s : Tree V) :
    (s.bind (replace v t)).bind f = s.bind f := by
  rw [bind_bind]
  refine bind_congr fun u _ => ?_
  by_cases hu : u = v
  · rw [hu, replace_self, h]
  · rw [replace_of_ne hu, bind_of_var]

theorem solved_eliminate {f : V → Tree W} {v : V} {t : Tree V} (h : f v = t.bind f)
    (eqs : Equations V) : Solved f (eliminate v t eqs) ↔ Solved f eqs := by
  simp only [Solved, eliminate, List.forall_mem_map, bind_replace h]

theorem mem_vars_bind_replace {u v : V} {t s : Tree V} (h : u ∈ (s.bind (replace v t)).vars) :
    (u ∈ s.vars ∧ u ≠ v) ∨ u ∈ t.vars := by
  obtain ⟨w, hw, hu⟩ := mem_vars_bind.mp h
  by_cases hwv : w = v
  · rw [hwv, replace_self] at hu
    exact .inr hu
  · rw [replace_of_ne hwv, vars_of_var, List.mem_singleton] at hu
    exact .inl ⟨hu ▸ hw, hu ▸ hwv⟩

theorem mem_vars_eliminate {u v : V} {t : Tree V} {eqs : Equations V}
    (h : u ∈ vars (eliminate v t eqs)) : (u ∈ vars eqs ∧ u ≠ v) ∨ u ∈ t.vars := by
  obtain ⟨e, he, hu⟩ := List.mem_flatMap.mp h
  obtain ⟨e, he', rfl⟩ := List.mem_map.mp he
  rcases List.mem_append.mp hu with hu | hu
  · rcases mem_vars_bind_replace hu with ⟨hu, hne⟩ | hu
    · exact .inl ⟨List.mem_flatMap.mpr ⟨e, he', List.mem_append_left _ hu⟩, hne⟩
    · exact .inr hu
  · rcases mem_vars_bind_replace hu with ⟨hu, hne⟩ | hu
    · exact .inl ⟨List.mem_flatMap.mpr ⟨e, he', List.mem_append_right _ hu⟩, hne⟩
    · exact .inr hu

/-- A variable that one side of an equation is, and the other side. -/
def oriented? : Tree V → Tree V → Option (V × Tree V)
  | var v, t => some (v, t)
  | t, var v => some (v, t)
  | _, _ => none

omit [DecidableEq V] in
/-- An oriented equation says the same as the one it comes from. -/
theorem oriented?_eq_some {a b t : Tree V} {v : V} (h : oriented? a b = some (v, t)) :
    (a = var v ∧ b = t) ∨ (a = t ∧ b = var v) := by
  cases a <;> cases b <;> simp_all [oriented?]

omit [DecidableEq V] in
/-- An oriented equation has the solutions of the one it comes from. -/
theorem bind_eq_iff_of_oriented? {a b t : Tree V} {v : V} (h : oriented? a b = some (v, t))
    (f : V → Tree W) : a.bind f = b.bind f ↔ f v = t.bind f := by
  rcases oriented?_eq_some h with ⟨rfl, rfl⟩ | ⟨rfl, rfl⟩
  · rw [bind_of_var]
  · rw [bind_of_var, eq_comm]

/-- Eliminating a variable leaves fewer variables. -/
theorem card_vars_eliminate {v : V} {a b t : Tree V} {eqs : Equations V}
    (h : oriented? a b = some (v, t)) (ht : v ∉ t.vars) :
    (vars (eliminate v t eqs)).toFinset.card < (vars ((a, b) :: eqs)).toFinset.card := by
  refine Finset.card_lt_card (Finset.ssubset_iff_of_subset ?_ |>.mpr ⟨v, ?_, ?_⟩)
  · intro u hu
    rw [List.mem_toFinset] at hu ⊢
    rcases mem_vars_eliminate hu with ⟨hu, -⟩ | hu
    · exact List.mem_append_right _ hu
    · rcases oriented?_eq_some h with ⟨rfl, rfl⟩ | ⟨rfl, rfl⟩ <;> simp [hu]
  · rcases oriented?_eq_some h with ⟨rfl, rfl⟩ | ⟨rfl, rfl⟩ <;> simp
  · rw [List.mem_toFinset]
    intro hv
    rcases mem_vars_eliminate hv with ⟨-, hne⟩ | hv
    · exact hne rfl
    · exact ht hv

theorem card_vars_cons (a b : Tree V) (eqs : Equations V) :
    (vars eqs).toFinset.card ≤ (vars ((a, b) :: eqs)).toFinset.card := by
  refine Finset.card_le_card fun v hv => ?_
  rw [List.mem_toFinset] at hv ⊢
  exact List.mem_append_right _ hv

omit [DecidableEq V] in
theorem size_cons_lt (a b : Tree V) (eqs : Equations V) : size eqs < size ((a, b) :: eqs) := by
  have := size_pos a
  simp only [size, List.map_cons, List.sum_cons]
  omega

omit [DecidableEq V] in
theorem mem_vars_decompose {f g : String} {xs ys : List (Tree V)} {eqs : Equations V} {v : V}
    (hv : v ∈ vars (xs.zip ys ++ eqs)) : v ∈ vars ((compound f xs, compound g ys) :: eqs) := by
  rw [vars, List.flatMap_append] at hv
  rcases List.mem_append.mp hv with hv | hv
  · rcases mem_vars_zip hv with hv | hv <;> simp [List.mem_flatMap.mp hv]
  · exact List.mem_append_right _ hv

theorem card_vars_decompose (f g : String) (xs ys : List (Tree V)) (eqs : Equations V) :
    (vars (xs.zip ys ++ eqs)).toFinset.card ≤
      (vars ((compound f xs, compound g ys) :: eqs)).toFinset.card := by
  refine Finset.card_le_card fun v hv => ?_
  rw [List.mem_toFinset] at hv ⊢
  exact mem_vars_decompose hv

omit [DecidableEq V] in
theorem size_decompose_lt (f g : String) {xs ys : List (Tree V)} (h : xs.length = ys.length)
    (eqs : Equations V) :
    size (xs.zip ys ++ eqs) < size ((compound f xs, compound g ys) :: eqs) := by
  rw [size_append, size_zip h]
  simp only [size, List.map_cons, List.sum_cons, size_compound]
  omega

theorem lex_of_le {a a' b b' : Nat} (h : a' ≤ a) (h' : b' < b) :
    Prod.Lex (· < ·) (· < ·) (a', b') (a, b) := by
  rcases Nat.lt_or_eq_of_le h with h | rfl
  · exact .left _ _ h
  · exact .right _ h'

/-- A most general solution of the equations, if they have one. -/
def solve (eqs : Equations V) : Option (V → Tree V) :=
  match eqs with
  | [] => some var
  | (a, b) :: eqs =>
    match _h : oriented? a b with
    | some (v, t) =>
      if _ : v ∈ t.vars then
        if t.isVar then solve eqs else none
      else (solve (eliminate v t eqs)).map fun f u => (replace v t u).bind f
    | none =>
      match a, b with
      | literal l, literal m => if l = m then solve eqs else none
      | compound f xs, compound g ys =>
        if _ : f = g ∧ xs.length = ys.length then solve (xs.zip ys ++ eqs) else none
      | _, _ => none
termination_by ((vars eqs).toFinset.card, size eqs)
decreasing_by
  · exact lex_of_le (card_vars_cons _ _ _) (size_cons_lt _ _ _)
  · exact .left _ _ (card_vars_eliminate _h ‹_›)
  · exact lex_of_le (card_vars_cons _ _ _) (size_cons_lt _ _ _)
  · exact lex_of_le (card_vars_decompose _ _ _ _ _) (size_decompose_lt _ _ (‹_ ∧ _›).2 _)

/-! ## Solutions -/

/-- What makes a substitution a most general and relevant solution. -/
structure Principal (f : V → Tree V) (eqs : Equations V) : Prop where
  /-- It is a solution. -/
  solved : Solved f eqs
  /-- Every other solution factors through it. -/
  general : ∀ {W : Type} (g : V → Tree W), Solved g eqs → ∀ v, (f v).bind g = g v
  /-- Variables that do not occur are left alone. -/
  outside : ∀ v, v ∉ vars eqs → f v = var v
  /-- Variables that occur are replaced by trees over variables that occur. -/
  inside : ∀ v, v ∈ vars eqs → ∀ u ∈ (f v).vars, u ∈ vars eqs

omit [DecidableEq V] in
theorem principal_nil : Principal (var : V → Tree V) [] where
  solved := solved_nil _
  general _ _ _ := bind_of_var _ _
  outside _ _ := rfl
  inside _ hv := by simp [vars] at hv

omit [DecidableEq V] in
/-- Equations over fewer variables with the same solutions have the same principal ones. -/
theorem Principal.of_iff {f : V → Tree V} {eqs eqs' : Equations V} (h : Principal f eqs)
    (hvars : ∀ v ∈ vars eqs, v ∈ vars eqs')
    (hiff : ∀ {W : Type} (g : V → Tree W), Solved g eqs' ↔ Solved g eqs) : Principal f eqs' where
  solved := (hiff f).mpr h.solved
  general g hg := h.general g ((hiff g).mp hg)
  outside v hv := h.outside v fun hv' => hv (hvars v hv')
  inside v hv u hu := by
    by_cases hv' : v ∈ vars eqs
    · exact hvars u (h.inside v hv' u hu)
    · rw [h.outside v hv', vars_of_var, List.mem_singleton] at hu
      exact hu ▸ hv

theorem mem_vars_of_eliminate {u v : V} {a b t : Tree V} {eqs : Equations V}
    (hor : oriented? a b = some (v, t)) (hu : u ∈ vars (eliminate v t eqs) ∨ u ∈ t.vars ∨ u = v) :
    u ∈ vars ((a, b) :: eqs) := by
  have hside : u ∈ t.vars ∨ u = v → u ∈ vars ((a, b) :: eqs) := by
    rintro (hu | rfl) <;> rcases oriented?_eq_some hor with ⟨rfl, rfl⟩ | ⟨rfl, rfl⟩ <;> simp [*]
  rcases hu with hu | hu
  · rcases mem_vars_eliminate hu with ⟨hu, -⟩ | hu
    · exact List.mem_append_right _ hu
    · exact hside (.inl hu)
  · exact hside hu

/-- An eliminated variable is put back before a principal solution of what is left. -/
theorem Principal.of_eliminate {f : V → Tree V} {v : V} {a b t : Tree V} {eqs : Equations V}
    (h : Principal f (eliminate v t eqs)) (hor : oriented? a b = some (v, t)) (ht : v ∉ t.vars) :
    Principal (fun u => (replace v t u).bind f) ((a, b) :: eqs) where
  solved := by
    have hkeep : ∀ s : Tree V, v ∉ s.vars → s.bind (fun u => (replace v t u).bind f) = s.bind f := by
      intro s hs
      refine bind_congr fun u hu => ?_
      have hne : u ≠ v := fun heq => hs (heq ▸ hu)
      rw [replace_of_ne hne, bind_of_var]
    have hv : (replace v t v).bind f = t.bind fun u => (replace v t u).bind f := by
      rw [replace_self, hkeep t ht]
    refine (solved_cons _ _ _).mpr ⟨?_, (solved_eliminate hv eqs).mp fun e he => ?_⟩
    · exact (bind_eq_iff_of_oriented? hor _).mpr hv
    · have hgone : v ∉ vars (eliminate v t eqs) := by
        intro hmem
        rcases mem_vars_eliminate hmem with ⟨-, hne⟩ | hmem
        · exact hne rfl
        · exact ht hmem
      rw [hkeep _ fun hmem => hgone (List.mem_flatMap.mpr ⟨e, he, List.mem_append_left _ hmem⟩),
        hkeep _ fun hmem => hgone (List.mem_flatMap.mpr ⟨e, he, List.mem_append_right _ hmem⟩)]
      exact h.solved e he
  general g hg u := by
    obtain ⟨he, hg⟩ := (solved_cons _ _ _).mp hg
    have hv := (bind_eq_iff_of_oriented? hor g).mp he
    have hf := h.general g ((solved_eliminate hv eqs).mpr hg)
    rw [bind_bind, bind_congr fun w _ => hf w]
    by_cases hu : u = v
    · rw [hu, replace_self, hv]
    · rw [replace_of_ne hu, bind_of_var]
  outside u hu := by
    have hne : u ≠ v := fun heq => hu (mem_vars_of_eliminate hor (.inr (.inr heq)))
    rw [replace_of_ne hne, bind_of_var]
    exact h.outside u fun hmem => hu (mem_vars_of_eliminate hor (.inl hmem))
  inside u hu w hw := by
    obtain ⟨u', hu', hw⟩ := mem_vars_bind.mp hw
    by_cases hmem : u' ∈ vars (eliminate v t eqs)
    · exact mem_vars_of_eliminate hor (.inl (h.inside u' hmem w hw))
    · rw [h.outside u' hmem, vars_of_var, List.mem_singleton] at hw
      subst hw
      by_cases huv : u = v
      · rw [huv, replace_self] at hu'
        exact mem_vars_of_eliminate hor (.inr (.inl hu'))
      · rw [replace_of_ne huv, vars_of_var, List.mem_singleton] at hu'
        exact hu' ▸ hu

omit [DecidableEq V] in
/-- An equation of a variable with itself says nothing. -/
theorem solved_trivial {a b t : Tree V} {v : V} (hor : oriented? a b = some (v, t))
    (hmem : v ∈ t.vars) (hvar : t.isVar = true) (f : V → Tree W) : a.bind f = b.bind f := by
  cases t with
  | var u =>
    rw [vars_of_var, List.mem_singleton] at hmem
    subst hmem
    rcases oriented?_eq_some hor with ⟨rfl, rfl⟩ | ⟨rfl, rfl⟩ <;> rfl
  | literal l => cases hvar
  | compound name args => cases hvar

omit [DecidableEq V] in
theorem bind_compound_eq_iff {f g : String} {xs ys : List (Tree V)} (σ : V → Tree W) :
    (compound f xs).bind σ = (compound g ys).bind σ ↔
      (f = g ∧ xs.length = ys.length) ∧ Solved σ (xs.zip ys) := by
  rw [bind_compound, bind_compound, compound.injEq]
  constructor
  · rintro ⟨hname, hargs⟩
    have hlen : xs.length = ys.length := by simpa using congrArg List.length hargs
    exact ⟨⟨hname, hlen⟩, (solved_zip σ hlen).mpr hargs⟩
  · rintro ⟨⟨hname, hlen⟩, hargs⟩
    exact ⟨hname, (solved_zip σ hlen).mp hargs⟩

/-- **What `solve` finds is a most general and relevant solution.** -/
theorem principal_of_solve {eqs : Equations V} {f : V → Tree V} (h : solve eqs = some f) :
    Principal f eqs := by
  fun_induction solve eqs generalizing f with
  | case1 =>
    cases h
    exact principal_nil
  | case2 a b eqs v t hor hmem hvar ih =>
    refine (ih h).of_iff (fun u hu => List.mem_append_right _ hu) fun g => ?_
    rw [solved_cons]
    exact and_iff_right (solved_trivial hor hmem hvar g)
  | case4 a b eqs v t hor hmem ih =>
    obtain ⟨f, hf, rfl⟩ := Option.map_eq_some_iff.mp h
    exact (ih hf).of_eliminate hor hmem
  | case5 eqs m hor ih =>
    refine (ih h).of_iff (fun u hu => List.mem_append_right _ hu) fun g => ?_
    rw [solved_cons]
    exact and_iff_right rfl
  | case7 eqs n xs n' ys hor hsame ih =>
    refine (ih h).of_iff (fun u hu => mem_vars_decompose hu) fun g => ?_
    rw [solved_cons, solved_append, bind_compound_eq_iff, and_iff_right hsame]
  | case3 | case6 | case8 | case9 => cases h

/-- **Where `solve` finds nothing there is no solution.** -/
theorem not_solved_of_solve {eqs : Equations V} (h : solve eqs = none) (g : V → Tree W) :
    ¬ Solved g eqs := by
  fun_induction solve eqs with
  | case1 => cases h
  | case2 a b eqs v t hor hmem hvar ih =>
    rw [solved_cons]
    exact fun hg => ih h hg.2
  | case3 a b eqs v t hor hmem hvar =>
    rw [solved_cons]
    rintro ⟨he, -⟩
    have hne : t ≠ var v := fun heq => hvar (heq ▸ rfl)
    exact ne_bind_of_mem_vars hmem hne ((bind_eq_iff_of_oriented? hor g).mp he)
  | case4 a b eqs v t hor hmem ih =>
    rw [solved_cons]
    rintro ⟨he, hg⟩
    have hv := (bind_eq_iff_of_oriented? hor g).mp he
    exact ih (Option.map_eq_none_iff.mp h) ((solved_eliminate hv eqs).mpr hg)
  | case5 eqs m hor ih =>
    rw [solved_cons]
    exact fun hg => ih h hg.2
  | case6 eqs l m hor hne =>
    rw [solved_cons]
    rintro ⟨he, -⟩
    exact hne (by simpa using he)
  | case7 eqs n xs n' ys hor hsame ih =>
    rw [solved_cons, bind_compound_eq_iff]
    exact fun hg => ih h ((solved_append _ _ _).mpr ⟨hg.1.2, hg.2⟩)
  | case8 eqs n xs n' ys hor hdiffer =>
    rw [solved_cons, bind_compound_eq_iff]
    exact fun hg => hdiffer hg.1.1
  | case9 a b eqs hor hliteral hcompound =>
    rw [solved_cons]
    rintro ⟨he, -⟩
    cases a with
    | var v => simp [oriented?] at hor
    | literal l =>
      cases b with
      | var v => simp [oriented?] at hor
      | literal m => exact hliteral l m hor rfl rfl HEq.rfl
      | compound n ys => simp at he
    | compound n xs =>
      cases b with
      | var v => simp [oriented?] at hor
      | literal m => simp at he
      | compound n' ys => exact hcompound n xs n' ys hor rfl rfl HEq.rfl

end Equations

end Clausal
