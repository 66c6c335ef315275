import Clausal.Proofs.Search.Agreement
import Clausal.Proofs.Search.Modes

/-! # Searches that run through answers

From a place in a search, the search runs through a sequence of answers (`Behaves`): it comes to each
of them in turn, where it goes on with what is left to prove under the bindings of the answer; and
whenever it turns back to the stack that it had there, it comes to the next one.  After the last
answer it ends as the sequence does (`Finishes`).

This goes together with the operations on sequences of answers, and that is what the theorems below
say: one sequence after another (`Behaves.append`), what comes of each answer (`Behaves.bind`), cuts
that are local (`Behaves.confined`) and the first answer alone (`Behaves.commit`).  Where a sequence
was cut off, the number `n` says that this many steps do not bring the search to an end.
-/

namespace Clausal.Search

open Store Machine Reference

/-- A place in a search at which answers are looked for. -/
structure Place where
  /-- The store. -/
  store : Store
  /-- What is left to prove after it. -/
  goals : List Frame
  /-- What is left to try after it. -/
  choices : Choices
  /-- The height to which a cut goes back. -/
  barrier : Nat
  /-- The terms that are bound by the answers. -/
  family : Family

/-- The stack is one, and a cut does not go above it. -/
structure Place.Proper (p : Place) : Prop where
  /-- Choice points know how many are below them. -/
  choices : p.choices.Proper
  /-- A cut goes back. -/
  barrier_le : p.barrier ≤ Choices.height p.choices

variable (m : Machine) (run : Builtin → List Ref → MachineM Bool)

/-- How the search ends after the last answer. -/
def Finishes (p : Place) (n : Nat) (s : Store) (M : Mode) : Ending → Prop
  | .exhausted => ∃ j s', Leads m run j s M s' (.turning p.choices) ∧ Later p.store s'
  | .cut => ∃ j s', Leads m run j s M s' (.turning (p.choices.cutTo p.barrier)) ∧ Later p.store s'
  | .refused r => ∃ j e, Refuses m run j s M e ∧ r.Reported e
  | .foreign _ => True
  | .unfinished => ∀ fuel taken, fuel ≤ n →
    ∃ m', M.exec run fuel taken { m with store := s } = .error .outOfFuel m'

/-- The search has come to an answer. -/
structure Arrives (p : Place) (j : Nat) (s : Store) (M : Mode) (uses : Nat) (σ : Bindings)
    (s' : Store) (choices : Choices) : Prop where
  /-- It goes on with what is left to prove. -/
  leads : Leads m run j s M s' (.running ⟨p.goals, choices⟩)
  /-- Bindings have been added. -/
  later : Later p.store s'
  /-- What is left to try is still there, as far as no cut could go. -/
  keeps : Choices.Keeps p.barrier p.choices choices
  /-- The bindings are those of the answer. -/
  agrees : Agrees m s' uses (p.family.bind σ)

/-- The search runs through the answers one after the other, and ends. -/
def Behaves (p : Place) (ending : Ending) : List (Nat × Bindings) → Nat → Store → Mode → Prop
  | [], n, s, M => Finishes m run p n s M ending
  | answer :: later, n, s, M => ∃ j s' choices,
    Arrives m run p j s M answer.1 answer.2 s' choices ∧
      ∀ s'', Later s' s'' → Behaves p ending later (n - j) s'' (.turning choices)

variable {m run} {p : Place} {e ending : Ending} {answers later : List (Nat × Bindings)}
  {answer : Nat × Bindings} {n n' j : Nat} {s s' s₁ : Store} {M M' : Mode} {K : List Frame}
  {choices : Choices} {F : Family} {σ : Bindings} {b : Nat}

/-! ## Ends -/

theorem Finishes.of_leads (hleads : Leads m run j s M s' M') (h : Finishes m run p n s' M' e) :
    Finishes m run p (j + n) s M e := by
  cases e with
  | exhausted =>
    obtain ⟨k, s'', hleads', hlater⟩ := h
    exact ⟨_, s'', hleads.trans hleads', hlater⟩
  | cut =>
    obtain ⟨k, s'', hleads', hlater⟩ := h
    exact ⟨_, s'', hleads.trans hleads', hlater⟩
  | refused r =>
    obtain ⟨k, error, hrefuses, hreported⟩ := h
    exact ⟨_, error, hleads.refuses hrefuses, hreported⟩
  | foreign pi => exact trivial
  | unfinished =>
    intro fuel taken hfuel
    by_cases hj : fuel < j
    · exact hleads.short fuel taken hj
    · obtain ⟨rest, rfl⟩ := Nat.exists_eq_add_of_le (Nat.le_of_not_lt hj)
      rw [hleads.long]
      exact h rest _ (by omega)

theorem Finishes.mono (h : Finishes m run p n s M e) (hn : n' ≤ n) : Finishes m run p n' s M e := by
  cases e with
  | unfinished => exact fun fuel taken hfuel => h fuel taken (hfuel.trans hn)
  | exhausted | cut | refused | foreign => exact h

/-- A place to which the search had come before. -/
theorem Finishes.of_later (hlater : Later p.store s') (h : Finishes m run { p with store := s' } n s M e) :
    Finishes m run p n s M e := by
  cases e with
  | exhausted | cut =>
    obtain ⟨k, s'', hleads, hlater'⟩ := h
    exact ⟨k, s'', hleads, hlater.trans hlater'⟩
  | refused | foreign | unfinished => exact h

/-! ## Sequences -/

theorem Behaves.of_leads (hleads : Leads m run j s M s' M')
    (h : Behaves m run p e answers n s' M') : Behaves m run p e answers (j + n) s M := by
  cases answers with
  | nil => exact Finishes.of_leads hleads h
  | cons answer later =>
    obtain ⟨k, s'', choices, harrives, hnext⟩ := h
    refine ⟨j + k, s'', choices, { harrives with leads := hleads.trans harrives.leads }, ?_⟩
    rwa [Nat.add_sub_add_left]

theorem Behaves.mono (h : Behaves m run p e answers n s M) (hn : n' ≤ n) :
    Behaves m run p e answers n' s M := by
  induction answers generalizing n n' s M with
  | nil => exact Finishes.mono h hn
  | cons answer later ih =>
    obtain ⟨k, s', choices, harrives, hnext⟩ := h
    exact ⟨k, s', choices, harrives, fun s'' hs'' => ih (hnext s'' hs'') (Nat.sub_le_sub_right hn k)⟩

/-- A place to which the search had come before. -/
theorem Behaves.of_later (hlater : Later p.store s')
    (h : Behaves m run { p with store := s' } e answers n s M) : Behaves m run p e answers n s M := by
  induction answers generalizing n s M with
  | nil => exact Finishes.of_later hlater h
  | cons answer later ih =>
    obtain ⟨k, s'', choices, harrives, hnext⟩ := h
    refine ⟨k, s'', choices, ?_, fun s₃ hs₃ => ih (hnext s₃ hs₃)⟩
    exact ⟨harrives.leads, hlater.trans harrives.later, harrives.keeps, harrives.agrees⟩

/-- Fewer terms. -/
theorem Behaves.subset (h : Behaves m run { p with family := F } e answers n s M)
    (hF : ∀ q ∈ p.family, q ∈ F) : Behaves m run p e answers n s M := by
  induction answers generalizing n s M with
  | nil => exact h
  | cons answer later ih =>
    obtain ⟨k, s', choices, harrives, hnext⟩ := h
    refine ⟨k, s', choices, ?_, fun s'' hs'' => ih (hnext s'' hs'')⟩
    refine ⟨harrives.leads, harrives.later, harrives.keeps, harrives.agrees.subset fun q' hq' => ?_⟩
    obtain ⟨q, hq, rfl⟩ := List.mem_map.mp hq'
    exact Family.mem_bind (hF q hq) answer.2

/-- Bindings that were there before. -/
theorem Behaves.after (h : Behaves m run { p with family := p.family.bind σ } e answers n s M) :
    Behaves m run p e (answers.map fun answer => (answer.1, σ.andThen answer.2)) n s M := by
  induction answers generalizing n s M with
  | nil => exact h
  | cons answer later ih =>
    obtain ⟨k, s', choices, harrives, hnext⟩ := h
    refine ⟨k, s', choices, ?_, fun s'' hs'' => ih (hnext s'' hs'')⟩
    refine ⟨harrives.leads, harrives.later, harrives.keeps, ?_⟩
    rw [← Family.bind_bind]
    exact harrives.agrees

/-- Turning back at once. -/
theorem behaves_none (hlater : Later p.store s) (n : Nat) :
    Behaves m run p .exhausted [] n s (.turning p.choices) :=
  ⟨0, s, .refl s _, hlater⟩

/-- One answer to which the search has come. -/
theorem behaves_one (hp : p.Proper) (hlater : Later p.store s) {uses : Nat}
    (hagrees : Agrees m s uses (p.family.bind σ)) (n : Nat) :
    Behaves m run p .exhausted [(uses, σ)] n s (.running ⟨p.goals, p.choices⟩) :=
  ⟨0, s, p.choices, ⟨.refl s _, hlater, .refl hp.choices hp.barrier_le, hagrees⟩,
    fun _ hs'' => behaves_none (hlater.trans hs'') _⟩

/-! ## Operations -/

/-- The search runs through the answers of the sequence. -/
abbrev Answered (m : Machine) (run : Builtin → List Ref → MachineM Bool) (p : Place) (a : Answers)
    (n : Nat) (s : Store) (M : Mode) : Prop :=
  Behaves m run p a.ending a.found n s M

variable {A B : Answers}

/-- **One sequence after the other**: after the first one, with more to try, the search comes to the
second. -/
theorem Answered.append (hlater : Later p.store s₁)
    (hkeeps : Choices.Keeps p.barrier p.choices choices)
    (hA : Answered m run { p with store := s₁, choices := choices } A n s M)
    (hB : ∀ s', Later s₁ s' → Answered m run p B n s' (.turning choices)) :
    Answered m run p (A.append B) n s M := by
  obtain ⟨found, ending⟩ := A
  induction found generalizing n s M with
  | nil =>
    cases ending with
    | exhausted =>
      obtain ⟨j, s', hleads, hlater'⟩ := hA
      exact (Behaves.of_leads hleads (hB s' hlater')).mono (Nat.le_add_left n j)
    | cut =>
      obtain ⟨j, s', hleads, hlater'⟩ := hA
      refine ⟨j, s', ?_, hlater.trans hlater'⟩
      rwa [← hkeeps.cutTo p.barrier (Nat.le_refl _)]
    | refused | foreign | unfinished => exact hA
  | cons answer later ih =>
    obtain ⟨j, s', choices', harrives, hnext⟩ := hA
    have hrest : ∀ s'', Later s' s'' →
        Answered m run p (Answers.append ⟨later, ending⟩ B) (n - j) s'' (.turning choices') :=
      fun s'' hs'' => ih (fun s₃ hs₃ => (hB s₃ hs₃).mono (Nat.sub_le n j)) (hnext s'' hs'')
    have harrives' : Arrives m run p j s M answer.1 answer.2 s' choices' :=
      ⟨harrives.leads, hlater.trans harrives.later, hkeeps.trans harrives.keeps, harrives.agrees⟩
    cases ending with
    | exhausted => exact ⟨j, s', choices', harrives', hrest⟩
    | cut | refused | foreign | unfinished => exact ⟨j, s', choices', harrives', hrest⟩

/-- **What comes of each answer**: where the search has come to an answer, it runs through what the
answer leads to. -/
theorem Answered.bind {f : Nat → Bindings → Answers}
    (hA : Answered m run { p with goals := K } A n s M)
    (hf : ∀ uses σ s' choices n', n' ≤ n → Later p.store s' →
      Choices.Keeps p.barrier p.choices choices → Agrees m s' uses (p.family.bind σ) →
      Answered m run ⟨s', p.goals, choices, p.barrier, p.family.bind σ⟩ (f uses σ) n' s'
        (.running ⟨K, choices⟩)) :
    Answered m run p (A.bind f) n s M := by
  obtain ⟨found, ending⟩ := A
  induction found generalizing n s M with
  | nil => exact hA
  | cons answer later ih =>
    obtain ⟨j, s', choices, harrives, hnext⟩ := hA
    have hfirst := hf answer.1 answer.2 s' choices (n - j) (Nat.sub_le n j) harrives.later
      harrives.keeps harrives.agrees
    have hafter : Answered m run ⟨s', p.goals, choices, p.barrier, p.family⟩
        ((f answer.1 answer.2).after answer.2) (n - j) s' (.running ⟨K, choices⟩) := hfirst.after
    have happend := Answered.append (p := p) harrives.later harrives.keeps hafter fun s'' hs'' =>
      ih (fun uses σ s₃ choices' n' hn' => hf uses σ s₃ choices' n' (hn'.trans (Nat.sub_le n j)))
        (hnext s'' hs'')
    exact (happend.of_leads harrives.leads).mono (by omega)

/-- **Cuts that are local**: they go back to where the search began. -/
theorem Answered.confined (hp : p.Proper)
    (h : Answered m run { p with barrier := Choices.height p.choices } A n s M) :
    Answered m run p A.confined n s M := by
  obtain ⟨found, ending⟩ := A
  induction found generalizing n s M with
  | nil =>
    cases ending with
    | cut =>
      obtain ⟨j, s', hleads, hlater⟩ := h
      refine ⟨j, s', ?_, hlater⟩
      rwa [Choices.cutTo_height] at hleads
    | exhausted | refused | foreign | unfinished => exact h
  | cons answer later ih =>
    obtain ⟨j, s', choices, harrives, hnext⟩ := h
    have harrives' : Arrives m run p j s M answer.1 answer.2 s' choices :=
      { harrives with keeps := harrives.keeps.mono hp.barrier_le }
    have hrest := fun s'' hs'' => ih (hnext s'' hs'')
    cases ending with
    | cut | exhausted | refused | foreign | unfinished =>
      exact ⟨j, s', choices, harrives', hrest⟩

/-- **The first answer alone**: where the search has come to it, it drops what was to be tried. -/
theorem Behaves.commit (hm : m.cancelled.contains m.context = false) (hp : p.Proper)
    (hkeeps : Choices.Keeps (Choices.height p.choices) p.choices choices)
    (h : Behaves m run { p with
      goals := .cutTo (Choices.height p.choices) :: p.goals, choices := choices,
      barrier := Choices.height choices } e (answer :: later) n s M) :
    Behaves m run p .exhausted [answer] n s M := by
  obtain ⟨j, s', choices', harrives, -⟩ := h
  have hcut : choices'.cutTo (Choices.height p.choices) = p.choices := by
    rw [harrives.keeps.cutTo _ hkeeps.le, hkeeps.cutTo _ (Nat.le_refl _), Choices.cutTo_height]
  have hstep : Leads m run 1 s' (.running ⟨.cutTo (Choices.height p.choices) :: p.goals, choices'⟩) s'
      (.running ⟨p.goals, p.choices⟩) := by
    refine leads_of_prove hm ?_
    show EStateM.Result.ok (some (Search.mk p.goals (choices'.cutTo _))) _ = _
    rw [hcut]
  have hone : Behaves m run p .exhausted [answer] n s' (.running ⟨p.goals, p.choices⟩) :=
    behaves_one hp harrives.later harrives.agrees n
  exact ((hone.of_leads hstep).of_leads harrives.leads).mono (by omega)

end Clausal.Search
