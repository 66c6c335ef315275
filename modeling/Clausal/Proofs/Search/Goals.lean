import Clausal.Proofs.Search.Agreement

/-! # What goals ask for

Terms that agree with trees ask for the same when they are taken up as goals: it is seen in the same
way whether they can be called (`Assigns.callee`), the control constructs are told from the
predicates in the same way (`Assigns.control`), and `call/N` makes the same of them
(`Assigns.withArgs`).
-/

namespace Clausal

open Store

/-- The same, with other goals and arguments. -/
def Search.Control.map {α β : Type} (f : α → β) : Control α → Control β
  | .succeed => .succeed
  | .fail => .fail
  | .cut => .cut
  | .both left right => .both (f left) (f right)
  | .ifThenElse condition consequence otherwise =>
    .ifThenElse (f condition) (f consequence) (f otherwise)
  | .either left right => .either (f left) (f right)
  | .ifThen condition consequence => .ifThen (f condition) (f consequence)
  | .not goal => .not (f goal)
  | .call goal extra => .call (f goal) (extra.map f)
  | .procedure pi args => .procedure pi (args.map f)

namespace Reference

open Search Machine

variable {m : Machine} {s : Store} {uses : Nat} {F : Family} {val : Ref → Tree Var} {t : Ref}
  {name : String} {args extra : List Ref}

theorem control_either {V : Type} (left right : Tree V) : control ";" [left, right] =
    match left with
    | .compound "->" [condition, consequence] => .ifThenElse condition consequence right
    | _ => .either left right := rfl

/-- **Control constructs are told from predicates in the same way.** -/
theorem Assigns.control (h : Assigns m s uses F val) (name : String)
    (hargs : ∀ a ∈ args, F.Covers s a) :
    control name (args.map val) = (Control.of s name args).map val := by
  unfold Control.of
  split
  case h_6 left right =>
    rw [List.map_cons, List.map_cons, List.map_nil, control_either]
    have heither : ∀ {t : Tree Var}, val left = t →
        Control.either t (val right) = (Control.either left right).map val :=
      fun h => congrArg (Control.either · (val right)) h.symm
    rcases hview : s.view left with v | l | ⟨functor, parts⟩
    · obtain ⟨x, hx⟩ := h.var left v (hargs left List.mem_cons_self) hview
      rw [hx]
      exact heither hx
    · have hleft := h.literal left l hview
      rw [hleft]
      exact heither hleft
    · have hleft := h.compound left functor parts hview
      rw [hleft]
      by_cases hcondition : ∃ a b, functor = "->" ∧ parts = [a, b]
      · obtain ⟨a, b, rfl, rfl⟩ := hcondition
        rfl
      · split
        · rename_i condition consequence heq
          obtain ⟨rfl, hparts⟩ := Tree.compound.inj heq
          obtain ⟨a, b, rfl⟩ := List.length_eq_two.mp
            ((List.length_map val).symm.trans (congrArg List.length hparts))
          exact absurd ⟨a, b, rfl, rfl⟩ hcondition
        · split
          · rename_i a b heq
            obtain ⟨rfl, rfl⟩ := View.compound.inj heq
            exact absurd ⟨a, b, rfl, rfl⟩ hcondition
          · exact heither hleft
  case h_9 goal extra =>
    simp only [Reference.control, List.map_cons, List.length_map]
    split
    · rfl
    · simp [Control.map]
  case h_10 =>
    -- Replacing the arguments does not make one of the other patterns match.
    rcases args with _ | ⟨a, _ | ⟨b, _ | ⟨c, args⟩⟩⟩
    all_goals
      unfold Reference.control
      split
      all_goals simp_all [Control.map]
  all_goals rfl

/-- What is reported of a constant that is no atom. -/
theorem typeError_literal {l : Literal} (h : s.view t = .literal l) :
    s.typeError .callable t = .type .callable (.literal l) := by
  rw [typeError, snapshot, snapshotFrom, h]

theorem callee_eq (m : Machine) (s : Store) (t : Ref) : Search.callee t { m with store := s } =
    (match s.view t with
      | .var _ => Machine.fail .instantiation
      | .literal (.atom name) => pure (name, [])
      | .compound name args => pure (name, args)
      | .literal _ => Machine.fail (s.typeError .callable t) :
      MachineM (String × List Ref)) { m with store := s } := by
  show (match s.view t with
    | .var _ => _
    | .literal (.atom _) => _
    | .compound _ _ => _
    | .literal _ => _ : MachineM (String × List Ref)) _ = _
  rcases s.view t with v | l | ⟨name, args⟩
  · rfl
  · cases l <;> rfl
  · rfl

/-- **Whether goals can be called is seen in the same way.** -/
theorem Assigns.callee (h : Assigns m s uses F val) (hs : s.Acyclic) (ht : F.Covers s t) :
    match callee (val t) with
    | .ok (name, as) => ∃ args, Search.callee t { m with store := s } =
        .ok (name, args) { m with store := s } ∧ as = args.map val ∧
        s.nameArity? t = some (name, args.length) ∧ ∀ a ∈ args, F.Covers s a
    | .error r => ∃ e, Search.callee t { m with store := s } =
        .error (.error e) { m with store := s } ∧ r.Reported e := by
  rw [callee_eq, nameArity?]
  rcases hview : s.view t with v | l | ⟨name, args⟩
  · obtain ⟨x, hx⟩ := h.var t v ht hview
    rw [hx]
    exact ⟨_, rfl, .instantiation⟩
  · rw [h.literal t l hview]
    have herror := typeError_literal hview
    cases l with
    | atom name => exact ⟨[], rfl, rfl, rfl, List.forall_mem_nil _⟩
    | small n | big n | float x => exact ⟨_, rfl, herror ▸ .notCallable _⟩
  · rw [h.compound t name args hview]
    refine ⟨args, rfl, rfl, rfl, fun a ha => ?_⟩
    obtain ⟨p, hp, hreach⟩ := ht
    refine ⟨p, hp, hreach.trans (hs.reaches_of_mem_args ?_)⟩
    rw [Store.args, hview]
    exact ha

theorem Assigns.apply (h : Assigns m s uses F val) (name : String)
    (hargs : ∀ a ∈ args, F.Covers s a) :
    Later s (s.apply name args).2 ∧ Agrees m (s.apply name args).2 uses
      (((s.apply name args).1, .apply name (args.map val)) :: F) := by
  have hparts := (h.agrees args hargs).apply name
    fun p (hp : p ∈ args.map fun r => (r, val r)) => List.mem_append_left _ hp
  have hrefs : Family.refs (args.map fun r => (r, val r)) = args := by
    rw [Family.refs, List.map_map]
    exact List.map_id' args
  have htrees : (args.map fun r => (r, val r)).map Prod.snd = args.map val := List.map_map
  rw [hrefs, htrees] at hparts
  refine ⟨hparts.1, hparts.2.subset fun p hp => ?_⟩
  rcases List.mem_cons.mp hp with rfl | hp
  · exact List.mem_cons_self
  · exact List.mem_cons_of_mem _ (List.mem_append_right _ hp)

theorem withArgs_cons (m : Machine) (s : Store) (t a : Ref) (extra : List Ref) :
    Search.withArgs t (a :: extra) { m with store := s } =
    (match s.view (s.deref t) with
      | .var _ => Machine.fail .instantiation
      | .literal (.atom name) => onStore (·.apply name (a :: extra))
      | .compound name args => onStore (·.apply name (args ++ a :: extra))
      | .literal _ => Machine.fail (s.typeError .callable (s.deref t)) :
      MachineM Ref) { m with store := s } := by
  show (match s.view (s.deref t) with
    | .var _ => _
    | .literal (.atom _) => _
    | .compound _ _ => _
    | .literal _ => _ : MachineM Ref) _ = _
  rcases s.view (s.deref t) with v | l | ⟨name, args⟩
  · rfl
  · cases l <;> rfl
  · rfl

/-- **`call/N` makes the same of goals.** -/
theorem Assigns.withArgs (h : Assigns m s uses F val) (ht : F.Covers s t)
    (hextra : ∀ a ∈ extra, F.Covers s a) (hs : s.WellFormed) (htrailed : s.Trailed) :
    match withArgs (val t) (extra.map val) with
    | .ok T => ∃ u s', Search.withArgs t extra { m with store := s } = .ok u { m with store := s' } ∧
        Later s s' ∧ Agrees m s' uses ((u, T) :: F)
    | .error r => ∃ e, Search.withArgs t extra { m with store := s } =
        .error (.error e) { m with store := s } ∧ r.Reported e := by
  obtain ⟨p, hp, hreach⟩ := ht
  have hderef : F.Covers s (s.deref t) := ⟨p, hp, hreach.trans (hs.acyclic.reaches_deref t)⟩
  rcases extra with _ | ⟨a, extra⟩
  · refine ⟨s.deref t, s, rfl, .refl hs htrailed, ?_⟩
    have hagrees := h.agrees [s.deref t] (List.forall_mem_singleton.mpr hderef)
    rw [List.map_singleton, h.deref] at hagrees
    exact hagrees
  · rw [withArgs_cons, ← h.deref]
    rcases hview : s.view (s.deref t) with v | l | ⟨name, args⟩
    · obtain ⟨x, hx⟩ := h.var _ v hderef hview
      rw [hx]
      exact ⟨_, rfl, .instantiation⟩
    · rw [h.literal _ l hview]
      have herror := typeError_literal hview
      cases l with
      | atom name => exact ⟨_, _, rfl, h.apply name hextra⟩
      | small n | big n | float x => exact ⟨_, rfl, herror ▸ .notCallable _⟩
    · rw [h.compound _ name args hview]
      have happly := h.apply name fun u (hu : u ∈ args ++ a :: extra) => by
        rcases List.mem_append.mp hu with hu | hu
        · obtain ⟨q, hq, hreach⟩ := hderef
          refine ⟨q, hq, hreach.trans (hs.acyclic.reaches_of_mem_args ?_)⟩
          rw [Store.args, hview]
          exact hu
        · exact hextra u hu
      rw [List.map_append] at happly
      exact ⟨_, _, rfl, happly⟩

end Reference

end Clausal
