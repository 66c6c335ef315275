import Clausal.Proofs.Store.Building
import Clausal.Proofs.Store.Unification

/-! # Unification pair by pair

`Store.unify` follows the structure of its terms and counts levels down.  Here the same is done with
a list of pairs that are still to be unified and without any count: one pair is taken up at a time,
and either fails, or is replaced by the pairs of arguments in which its terms have to agree
(`unifyStep`).  Nothing but the terms themselves ends such a run (`UnifyRun`), and what it ends with
is what `Store.unify` answers.  So unification ends on every acyclic store, and what is known of the
bindings that it adds can be said together: they are a most general unifier.
-/

namespace Clausal.Store

variable {s s' : Store} {a b v : Ref} {pairs rest : List (Ref × Ref)} {r : Bool × Store}

/-- Takes up one pair.  The result is the store and the pairs to be unified in its place, unless the
two terms have no common instance. -/
def unifyStep (s : Store) (a b : Ref) : Option (Store × List (Ref × Ref)) :=
  let a := s.deref a
  let b := s.deref b
  if a = b then some (s, [])
  else
    match s.view a, s.view b with
    | .var _, .var _ => some (if b.index < a.index then s.bind a b else s.bind b a, [])
    | .var _, _ => if s.occurs a b then none else some (s.bind a b, [])
    | _, .var _ => if s.occurs b a then none else some (s.bind b a, [])
    | .literal x, .literal y => if x.same y then some (s, []) else none
    | .compound f xs, .compound g ys =>
      if f = g && xs.length = ys.length then some (s, xs.zip ys) else none
    | _, _ => none

/-- Unifying pairs one by one comes to an end with the outcome. -/
inductive UnifyRun : Store → List (Ref × Ref) → Bool × Store → Prop
  /-- Nothing is left. -/
  | done (s : Store) : UnifyRun s [] (true, s)
  /-- A pair makes way for others. -/
  | next {s s' : Store} {a b : Ref} {pairs rest : List (Ref × Ref)} {r : Bool × Store}
    (step : s.unifyStep a b = some (s', pairs)) (run : UnifyRun s' (pairs ++ rest) r) :
    UnifyRun s ((a, b) :: rest) r
  /-- A pair fails. -/
  | fail {s : Store} {a b : Ref} {rest : List (Ref × Ref)} (step : s.unifyStep a b = none) :
    UnifyRun s ((a, b) :: rest) (false, s)

/-- One level of unification is one step and, after it, the levels below. -/
theorem unifyFrom_succ (n : Nat) (s : Store) (a b : Ref) :
    unifyFrom (n + 1) s a b =
      match s.unifyStep a b with
      | none => (false, s)
      | some (s', pairs) => unifyPairs (unifyFrom n) s' (pairs.map Prod.fst) (pairs.map Prod.snd) := by
  rw [unifyFrom, unifyStep]
  by_cases heq : s.deref a = s.deref b
  · rw [if_pos heq, if_pos heq]
    rfl
  rw [if_neg heq, if_neg heq]
  -- The cases are those of what the two terms stand for.
  rcases s.view (s.deref a) with v | l | ⟨f, xs⟩ <;> rcases s.view (s.deref b) with w | m | ⟨g, ys⟩
  case compound.compound =>
    by_cases hsame : f = g ∧ xs.length = ys.length
    · have hok : (decide (f = g) && decide (xs.length = ys.length)) = true := by simpa using hsame
      simp only [hok, if_true]
      rw [List.map_fst_zip hsame.2.le, List.map_snd_zip hsame.2.ge]
    · have hno : (decide (f = g) && decide (xs.length = ys.length)) = false := by simpa using hsame
      simp only [hno, Bool.false_eq_true, if_false]
  case literal.literal => cases h : l.same m <;> simp [unifyPairs, h]
  case var.literal | var.compound | literal.var | compound.var =>
    dsimp only
    rw [bindChecked]
    split <;> rfl
  all_goals rfl

/-- New pairs are the arguments of two compounds, of the store as it was. -/
theorem unifyStep_pairs (h : s.unifyStep a b = some (s', pairs)) :
    pairs = [] ∨ s' = s ∧ ∃ f g xs ys, s.view (s.deref a) = .compound f xs ∧
      s.view (s.deref b) = .compound g ys ∧ xs.length = ys.length ∧ pairs = xs.zip ys := by
  rw [unifyStep] at h
  split at h
  · cases h
    exact .inl rfl
  · split at h
    case h_5 f xs g ys ha hb =>
      split at h
      · rename_i hsame
        cases h
        rw [Bool.and_eq_true, decide_eq_true_iff, decide_eq_true_iff] at hsame
        exact .inr ⟨rfl, f, g, xs, ys, ha, hb, hsame.2, rfl⟩
      · cases h
    case h_6 => cases h
    case h_1 => cases h; exact .inl rfl
    all_goals
      split at h <;> cases h
      exact .inl rfl

/-- After an outcome, the run goes on with the pairs that are left, or ends. -/
def After (o : Bool × Store) (rest : List (Ref × Ref)) (r : Bool × Store) : Prop :=
  if o.1 then UnifyRun o.2 rest r else r = o

/-- The pairs are unified one after the other, as far as each single pair is. -/
theorem unifyRun_unifyPairs {n : Nat} (hpairs : ∀ e ∈ pairs, e.1.index < s.size ∧
      e.2.index < s.size ∧ s.size < n + s.above e.1) (hs : s.WellFormed)
    (hone : ∀ {s : Store} {a b : Ref} {rest r}, s.WellFormed → a.index < s.size → b.index < s.size →
      s.size < n + s.above a → After (unifyFrom n s a b) rest r → UnifyRun s ((a, b) :: rest) r)
    (h : After (unifyPairs (unifyFrom n) s (pairs.map Prod.fst) (pairs.map Prod.snd)) rest r) :
    UnifyRun s (pairs ++ rest) r := by
  induction pairs generalizing s with
  | nil => simpa [unifyPairs, After] using h
  | cons e pairs ih =>
    obtain ⟨⟨hx, hy, hn⟩, hpairs⟩ := List.forall_mem_cons.mp hpairs
    refine hone hs hx hy hn ?_
    have hfirst := unifies_unifyFrom hs hx hy hn
    rw [List.map_cons, List.map_cons, unifyPairs] at h
    rcases ho : unifyFrom n s e.1 e.2 with ⟨ok, s'⟩
    rw [ho] at h hfirst
    cases ok with
    | false => exact h
    | true =>
      -- The terms that are left have no fewer cells above them after the bindings.
      obtain ⟨vs, hgrows, -⟩ := hfirst.grows
      have hsize : s'.size = s.size := hfirst.size
      refine ih (fun e' he' => ?_) hfirst.wellFormed h
      obtain ⟨hx', hy', hn'⟩ := hpairs e' he'
      have := hgrows.above_le hsize e'.1
      rw [hsize]
      exact ⟨hx', hy', by omega⟩

/-- **The count of levels is never what ends unification**: the run has the same outcome. -/
theorem unifyRun_unifyFrom {n : Nat} (hs : s.WellFormed) (ha : a.index < s.size)
    (hb : b.index < s.size) (hn : s.size < n + s.above a) (h : After (unifyFrom n s a b) rest r) :
    UnifyRun s ((a, b) :: rest) r := by
  induction n generalizing s a b rest r with
  | zero =>
    have := s.above_le_size a
    omega
  | succ n ih =>
    rw [unifyFrom_succ] at h
    rcases hstep : s.unifyStep a b with _ | ⟨s', pairs⟩
    · rw [hstep] at h
      obtain rfl : r = (false, s) := h
      exact .fail hstep
    · rw [hstep] at h
      refine .next hstep ?_
      rcases unifyStep_pairs hstep with rfl | ⟨rfl, f, g, xs, ys, hx, hy, hlen, rfl⟩
      · simpa [unifyPairs, After] using h
      · -- Going to an argument leaves one level less and has one cell more above it.
        have hacyclic := hs.acyclic
        have habove := above_le_of_reaches (hacyclic.reaches_deref a)
        rw [hacyclic.view_deref] at hx hy
        refine unifyRun_unifyPairs (fun e he => ?_) hs ih h
        obtain ⟨hex, hey⟩ := List.of_mem_zip (show (e.1, e.2) ∈ xs.zip ys from he)
        have hcx := cell?_deref_of_view_compound hx
        have hcy := cell?_deref_of_view_compound hy
        have := hacyclic.above_lt (.arg hcx hex)
        exact ⟨hs.closed (.arg hcx hex), hs.closed (.arg hcy hey), by omega⟩

/-- **Unification**, on an acyclic store.  Taking up the pairs of terms one by one comes to an end,
and `unify` gives its outcome.  That is success exactly if the two terms have a unifier over finite
trees.  Then nothing was done but to bind free variables, the two terms have become equal, every term
has become its instance under the bindings, and every unifier is an instance of the bindings.  After a
failure there is no unifier, over whatever variables. -/
theorem unify_most_general (hs : s.WellFormed) (ha : a.index < s.size) (hb : b.index < s.size) :
    UnifyRun s [(a, b)] (s.unify a b) ∧
    ((s.unify a b).1 = true ↔ ∃ f : Ref → Tree Ref, (s.resolve a).bind f = (s.resolve b).bind f) ∧
    ((s.unify a b).1 = true →
      (∃ vs, Grows s (s.unify a b).2 vs) ∧ (s.unify a b).2.size = s.size ∧
      (s.unify a b).2.WellFormed ∧
      (s.unify a b).2.resolve a = (s.unify a b).2.resolve b ∧
      (∀ t, (s.unify a b).2.resolve t = (s.resolve t).bind (s.unify a b).2.resolve) ∧
      ∀ {W : Type} (f : Ref → Tree W), (s.resolve a).bind f = (s.resolve b).bind f →
        ∃ g : Ref → Tree W, ∀ v, s.Free v → ((s.unify a b).2.resolve v).bind g = f v) ∧
    ((s.unify a b).1 = false → ∀ {W : Type} (f : Ref → Tree W),
      (s.resolve a).bind f ≠ (s.resolve b).bind f) := by
  have hunify := unifies_unify hs ha hb
  obtain ⟨hsolved, hgeneral⟩ := unify_principal hs ha hb
  obtain ⟨vs, hgrows, -⟩ := hunify.grows
  have hinstance : ∀ t, (s.unify a b).2.resolve t = (s.resolve t).bind (s.unify a b).2.resolve :=
    hgrows.resolve_eq hs.acyclic hunify.wellFormed.acyclic
  refine ⟨?_, ⟨fun hok => ⟨_, hsolved hok⟩, fun ⟨f, hf⟩ => (hgeneral f hf).1⟩,
    fun hok => ⟨⟨vs, hgrows⟩, hunify.size, hunify.wellFormed, ?_, hinstance,
      fun f hf => (hgeneral f hf).2⟩, fun hno W f hf => ?_⟩
  · refine unifyRun_unifyFrom hs ha hb (n := s.size + 1) (by omega) ?_
    show After (s.unify a b) [] (s.unify a b)
    rcases s.unify a b with ⟨_ | _, s'⟩
    · rfl
    · exact .done s'
  · rw [hinstance a, hinstance b]
    exact hsolved hok
  · rw [(hgeneral f hf).1] at hno
    cases hno

/-- `f(X, g(Y))` and `f(g(Z), X)`: a variable that is bound by the first pair of arguments is
unified with a term by the second. -/
theorem unify_most_general_chain :
    let x : Term := .var ⟨0, none⟩
    let y : Term := .var ⟨1, none⟩
    let z : Term := .var ⟨2, none⟩
    let built := ({} : Store).build
      (.compound "=" [.compound "f" [x, .compound "g" [y]], .compound "f" [.compound "g" [z], x]])
    let s := built.2
    ∃ a b, s.WellFormed ∧ a.index < s.size ∧ b.index < s.size ∧ a ≠ b ∧
      s.args built.1 = [a, b] ∧ (s.unify a b).1 = true ∧
      UnifyRun s [(a, b)] (s.unify a b) ∧ (s.unify a b).2.resolve a = (s.unify a b).2.resolve b := by
  intro x y z built s
  have hmade : ∀ {name : String} {t : Term}, t.WellMade → (Term.compound name [t]).WellMade :=
    fun h => .compound nofun (List.forall_mem_singleton.mpr h)
  have hmade₂ : ∀ {name : String} {t u : Term}, t.WellMade → u.WellMade →
      (Term.compound name [t, u]).WellMade := fun h h' =>
    .compound nofun (List.forall_mem_cons.mpr ⟨h, List.forall_mem_singleton.mpr h'⟩)
  have hs : s.WellFormed := ((Adds.refl wellFormed_empty).build
    (hmade₂ (hmade₂ (.var _) (hmade (.var _))) (hmade₂ (hmade (.var _)) (.var _)))).adds.wellFormed
  have ha : (⟨3⟩ : Ref).index < s.size := by decide +kernel
  have hb : (⟨6⟩ : Ref).index < s.size := by decide +kernel
  have hok : (s.unify ⟨3⟩ ⟨6⟩).1 = true := by decide +kernel
  obtain ⟨hrun, -, htrue, -⟩ := unify_most_general hs ha hb
  exact ⟨⟨3⟩, ⟨6⟩, hs, ha, hb, by decide, by decide +kernel, hok, hrun, (htrue hok).2.2.2.1⟩

end Clausal.Store
