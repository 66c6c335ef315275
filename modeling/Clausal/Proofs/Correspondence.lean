/-! # Actions that correspond

Two actions correspond if they run side by side: from states that are related, both end in values
that are related, or both in errors that are, and their states are related again.
`Correspondence.Matches` says this of two results, and the rules below take two actions apart along
their binds.

After an error that is excused the second action may do as it likes.  Reading a text that ends too
early is excused, for instance, where the second text goes on.
-/

namespace Clausal

/-- Which errors and states of two actions are related. -/
structure Correspondence (ε σ : Type) where
  /-- Errors of the first action after which nothing is asked of the second. -/
  excused : ε → Prop := fun _ => False
  /-- Errors that are related. -/
  errors : ε → ε → Prop
  /-- States that are related. -/
  states : σ → σ → Prop
  /-- States in which related errors are met. -/
  failed : σ → σ → Prop := states

namespace Correspondence

variable {ε σ α α' β β' : Type} {C D : Correspondence ε σ} {Q Q' : α → α' → Prop} {R : β → β' → Prop}
  {st st' : σ}

/-- Both results are values that `Q` relates, or both are errors that are related. -/
def Matches (C : Correspondence ε σ) (Q : α → α' → Prop) :
    EStateM.Result ε σ α → EStateM.Result ε σ α' → Prop
  | .ok a st, .ok a' st' => Q a a' ∧ C.states st st'
  | .error e st, .error e' st' => C.excused e ∨ (C.errors e e' ∧ C.failed st st')
  | .error e _, .ok _ _ => C.excused e
  | .ok _ _, .error _ _ => False

theorem matches_error {e e' : ε} (he : C.errors e e') (hst : C.failed st st') :
    C.Matches Q (.error e st : EStateM.Result ε σ α) (.error e' st') :=
  .inr ⟨he, hst⟩

theorem matches_excused {e : ε} (he : C.excused e) (r : EStateM.Result ε σ α') :
    C.Matches Q (.error e st) r := by
  cases r with
  | ok a' st' => exact he
  | error e' st' => exact .inl he

theorem Matches.imp {r : EStateM.Result ε σ α} {r' : EStateM.Result ε σ α'} (h : C.Matches Q r r')
    (hQ : ∀ a a', Q a a' → Q' a a') : C.Matches Q' r r' := by
  cases r with
  | ok a st =>
    cases r' with
    | ok a' st' => exact ⟨hQ a a' h.1, h.2⟩
    | error e' st' => exact h
  | error e st =>
    cases r' with
    | ok a' st' => exact h
    | error e' st' => exact h

/-- What the first result is known to be, the second is. -/
theorem Matches.of_ok {r : EStateM.Result ε σ α} {r' : EStateM.Result ε σ α'} (h : C.Matches Q r r')
    {a : α} (hr : r = .ok a st) : ∃ a' st', r' = .ok a' st' ∧ Q a a' ∧ C.states st st' := by
  subst hr
  cases r' with
  | ok a' st' => exact ⟨a', st', rfl, h⟩
  | error e' st' => exact h.elim

theorem Matches.bind {m : EStateM ε σ α} {m' : EStateM ε σ α'} {f : α → EStateM ε σ β}
    {f' : α' → EStateM ε σ β'} (h : C.Matches Q (m st) (m' st'))
    (hf : ∀ a a' s s', m st = .ok a s → m' st' = .ok a' s' → Q a a' → C.states s s' →
      C.Matches R (f a s) (f' a' s')) : C.Matches R ((m >>= f) st) ((m' >>= f') st') := by
  show C.Matches R (EStateM.bind m f st) (EStateM.bind m' f' st')
  rw [EStateM.bind, EStateM.bind]
  rcases hm : m st with ⟨a, s⟩ | ⟨e, s⟩
  · rcases hm' : m' st' with ⟨a', s'⟩ | ⟨e', s'⟩
    · rw [hm, hm'] at h
      exact hf a a' s s' hm hm' h.1 h.2
    · rw [hm, hm'] at h
      exact h.elim
  · rcases hm' : m' st' with ⟨a', s'⟩ | ⟨e', s'⟩
    · rw [hm, hm'] at h
      exact matches_excused h _
    · rw [hm, hm'] at h
      exact h

theorem Matches.map {m : EStateM ε σ α} {m' : EStateM ε σ α'} {f : α → β} {f' : α' → β'}
    (h : C.Matches (fun a a' => R (f a) (f' a')) (m st) (m' st')) :
    C.Matches R ((f <$> m) st) ((f' <$> m') st') := by
  show C.Matches R (EStateM.map f m st) (EStateM.map f' m' st')
  rw [EStateM.map, EStateM.map]
  rcases hm : m st with ⟨a, s⟩ | ⟨e, s⟩
  · rcases hm' : m' st' with ⟨a', s'⟩ | ⟨e', s'⟩
    · rw [hm, hm'] at h
      exact h
    · rw [hm, hm'] at h
      exact h.elim
  · rcases hm' : m' st' with ⟨a', s'⟩ | ⟨e', s'⟩
    · rw [hm, hm'] at h
      exact matches_excused h _
    · rw [hm, hm'] at h
      exact h

/-- Actions for elements and their counterparts that correspond, one after the other.  A property
`I` of the first states may be used and has to be kept. -/
theorem Matches.forM {I : σ → Prop} {P : PUnit → PUnit → Prop} {g : α → α'}
    {f : α → EStateM ε σ PUnit} {f' : α' → EStateM ε σ PUnit} {as : List α} (hP : P ⟨⟩ ⟨⟩)
    (h : ∀ a ∈ as, ∀ s s', I s → C.states s s' → C.Matches P (f a s) (f' (g a) s'))
    (hI : ∀ a ∈ as, ∀ s u s', I s → f a s = .ok u s' → I s') (hst : I st)
    (hstates : C.states st st') :
    C.Matches P (as.forM f st) ((as.map g).forM f' st') := by
  induction as generalizing st st' with
  | nil => exact ⟨hP, hstates⟩
  | cons a as ih =>
    show C.Matches _ ((do f a; as.forM f) st) ((do f' (g a); (as.map g).forM f') st')
    refine (h a List.mem_cons_self st st' hst hstates).bind fun u u' s s' hs _ _ hss => ?_
    exact ih (fun b hb => h b (List.mem_cons_of_mem _ hb))
      (fun b hb => hI b (List.mem_cons_of_mem _ hb)) (hI a List.mem_cons_self st u s hst hs) hss

/-- Actions that correspond for each of some elements, one after the other. -/
theorem Matches.forM_self {I : σ → Prop} {P : PUnit → PUnit → Prop} {f f' : α → EStateM ε σ PUnit}
    {as : List α} (hP : P ⟨⟩ ⟨⟩)
    (h : ∀ a ∈ as, ∀ s s', I s → C.states s s' → C.Matches P (f a s) (f' a s'))
    (hI : ∀ a ∈ as, ∀ s u s', I s → f a s = .ok u s' → I s') (hst : I st)
    (hstates : C.states st st') : C.Matches P (as.forM f st) (as.forM f' st') := by
  have hforM : C.Matches P (as.forM f st) ((as.map id).forM f' st') :=
    Matches.forM (g := id) hP h hI hst hstates
  rw [List.map_id] at hforM
  exact hforM

end Correspondence

end Clausal
