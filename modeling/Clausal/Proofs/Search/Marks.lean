import Clausal.Proofs.Machine.Operations
import Clausal.Proofs.Search.Modes

/-! # Marks of choice points

A choice point remembers how long the trail was when it was made.  While a search goes on, the marks of
its choice points never lie beyond the end of the trail, and from the lowest choice point to the latest
they never decrease (`Choices.Marked`), so each turning back undoes to a valid mark and leaves those of
the choice points below valid.

The mark of the lowest choice point stays what it is until there is no choice point any more: clauses
that are left for a goal become a choice point again with the mark that they had.  Hence a search that
fails after turning back has undone everything up to the mark of the choice point that was the lowest
(`marks_step`).
-/

namespace Clausal

open Store

namespace Choices

variable {k : Nat} {s s' : Store} {choices : Choices} {point : ChoicePoint}

/-- The marks of the choice points belong to the trail of the store, and the lowest is `k`. -/
structure Marked (k : Nat) (s : Store) (choices : Choices) : Prop where
  /-- No mark lies beyond the trail. -/
  le : ∀ point ∈ choices, point.mark ≤ s.mark
  /-- Later choice points do not have smaller marks than earlier ones. -/
  sorted : choices.Pairwise fun later earlier => earlier.mark ≤ later.mark
  /-- The mark of the lowest choice point. -/
  lowest : ∀ point, choices.getLast? = some point → point.mark = k

theorem Marked.nil (k : Nat) (s : Store) : Marked k s [] where
  le := nofun
  sorted := .nil
  lowest := nofun

/-- The trail may get longer. -/
theorem Marked.grow (h : Marked k s choices) (hle : s.mark ≤ s'.mark) : Marked k s' choices where
  le point hp := (h.le point hp).trans hle
  sorted := h.sorted
  lowest := h.lowest

theorem Marked.push (h : Marked k s choices) (hbase : choices = [] → k = s.mark)
    (alternative : Alternative) : Marked k s (choices.push s.mark alternative) where
  le := List.forall_mem_cons.mpr ⟨Nat.le_refl _, h.le⟩
  sorted := .cons h.le h.sorted
  lowest point hp := by
    rcases choices with _ | ⟨below, choices⟩
    · cases hp
      exact (hbase rfl).symm
    · rw [Choices.push, List.getLast?_cons_cons] at hp
      exact h.lowest point hp

theorem Marked.cutTo (h : Marked k s choices) (height : Nat) : Marked k s (choices.cutTo height) := by
  obtain ⟨dropped, hsuffix⟩ : choices.cutTo height <:+ choices := List.dropWhile_suffix _
  refine ⟨fun point hp => h.le point ?_, h.sorted.sublist ?_, fun point hp => h.lowest point ?_⟩
  · exact hsuffix ▸ List.mem_append_right _ hp
  · exact (List.dropWhile_suffix _).sublist
  · rw [← hsuffix, List.getLast?_append, hp]
    rfl

/-- Turning back leads to a valid mark. -/
theorem Marked.undo (h : Marked k s (point :: choices)) :
    (s.undoTo point.mark).mark = point.mark ∧ Marked k (s.undoTo point.mark) choices ∧
      (choices = [] → k = (s.undoTo point.mark).mark) := by
  have hmark : (s.undoTo point.mark).mark = point.mark := by
    rw [mark_undoTo, Nat.min_eq_left (h.le point List.mem_cons_self)]
  obtain ⟨hle, hsorted⟩ := List.pairwise_cons.mp h.sorted
  refine ⟨hmark, ⟨fun p hp => (hle p hp).trans hmark.ge, hsorted, fun p hp => h.lowest p ?_⟩, ?_⟩
  · rw [List.getLast?_cons, hp]
    rfl
  · rintro rfl
    exact ((h.lowest point rfl).symm).trans hmark.symm

end Choices

namespace Search

open Machine Choices

variable {k : Nat} {m : Machine} {t : Ref} {goals : List Frame} {choices : Choices}
  {solve : Ref → MachineM Bool}

/-- The search that an action comes to has valid marks; if it comes to none, the machine is as said. -/
def Marks (k : Nat) (P : Machine → Prop) (r : Option Search) (m : Machine) : Prop :=
  match r with
  | some S => Marked k m.store S.choices
  | none => P m

/-- The machine is sound and has kept all cells and bindings. -/
structure Advances (m m' : Machine) : Prop where
  /-- The machine is sound. -/
  sound : m'.Sound
  /-- Cells are never given back. -/
  size_le : m.store.size ≤ m'.store.size
  /-- The trail is not shorter. -/
  mark_le : m.store.mark ≤ m'.store.mark

theorem Advances.of_evolves {m' : Machine} {R R' : List Ref} (h : Evolves m m' R R') :
    Advances m m' :=
  ⟨h.sound, h.size_le, h.mark_le⟩

theorem Advances.refl (h : m.Sound) : Advances m m := ⟨h, Nat.le_refl _, Nat.le_refl _⟩

/-- Trying clauses. -/
theorem marks_tryClauses (h : m.Sound) (ht : t.index < m.store.size) {cs : List Clause}
    (hcs : ∀ c ∈ cs, c.InRange m.store) (hmarked : Marked k m.store choices)
    (hbase : choices = [] → k = m.store.mark) :
    Ends (tryClauses t goals choices cs m)
      (Marks k fun m' => Advances m m' ∧ m'.store.mark = m.store.mark) fun _ => True := by
  induction cs generalizing m with
  | nil => exact ⟨.refl h, rfl⟩
  | cons c rest ih =>
    rw [List.forall_mem_cons] at hcs
    have henter := h.evolves_enter hcs.1 ht
    show Ends (tryClauses t goals choices (c :: rest) { m with store := m.store }) _ _
    rw [tryClauses_cons]
    rcases hbody : (c.enter t m.store).1 with _ | body
    · have hundone := henter.undo
      have hmark : ((c.enter t m.store).2.undoTo m.store.mark).mark = m.store.mark := by
        rw [mark_undoTo, Nat.min_eq_left henter.mark_le]
      have hsize := hundone.grows.size_le
      refine (ih hundone.sound (Nat.lt_of_lt_of_le ht hsize) (fun c' hc' => (hcs.2 c' hc').mono hsize)
        (hmarked.grow hmark.ge) fun hnil => (hbase hnil).trans hmark.symm).imp (fun r m' hm' => ?_)
        fun _ => id
      rcases r with _ | S
      · obtain ⟨hadvances, heq⟩ := hm'
        exact ⟨⟨hadvances.sound, hsize.trans hadvances.size_le, hmark.ge.trans hadvances.mark_le⟩,
          heq.trans hmark⟩
      · exact hm'
    · show Marked k _ (if rest.isEmpty then choices else _)
      split
      · exact hmarked.grow henter.mark_le
      · exact (hmarked.push hbase _).grow henter.mark_le

/-- **A search that turns back and finds nothing left** has undone to the lowest mark. -/
theorem marks_backtrack (h : m.Sound) (hchoices : ∀ point ∈ choices, InStore m.store point)
    (hmarked : Marked k m.store choices) (hbase : choices = [] → k = m.store.mark) :
    Ends (backtrack choices m) (Marks k fun m' => m'.store.mark = k) fun _ => True := by
  induction choices generalizing m with
  | nil => exact (hbase rfl).symm
  | cons point choices ih =>
    rw [List.forall_mem_cons] at hchoices
    obtain ⟨hmark, hmarked', hbase'⟩ := hmarked.undo
    have hsound : { m with store := m.store.undoTo point.mark }.Sound :=
      h.of_persists (h.wellFormed.undoTo _) (h.trailed.undoTo _) (persists_undoTo _ _)
    have hsize : m.store.size ≤ (m.store.undoTo point.mark).size := (size_undoTo _ _).ge
    have hpoint := hchoices.1.mono hsize
    rw [backtrack]
    refine (ends_onStore (Q := fun _ m₁ =>
      m₁ = { m with store := m.store.undoTo point.mark }) rfl).bind fun _ m₁ hm₁ => ?_
    subst hm₁
    obtain ⟨below, mark, alternative⟩ := point
    cases alternative with
    | resume goals => exact hmarked'
    | clauses goal rest goals =>
      refine Ends.bind (marks_tryClauses hsound (hpoint.1 goal List.mem_cons_self) hpoint.2 hmarked'
        hbase') fun r m₂ hm₂ => ?_
      rcases r with _ | S
      · obtain ⟨hadvances, heq⟩ := hm₂
        refine ih hadvances.sound (fun p hp => (hchoices.2 p hp).mono ?_) (hmarked'.grow heq.ge)
          fun hnil => (hbase' hnil).trans heq.symm
        exact hsize.trans hadvances.size_le
      · exact hm₂

/-! ## Goals -/

theorem marks_callProcedure (hsolve : Proper solve) (h : m.Sound) (pi : Indicator) {args : List Ref}
    (ht : t.index < m.store.size) (hargs : ∀ a ∈ args, a.index < m.store.size)
    (hmarked : Marked k m.store choices) (hbase : choices = [] → k = m.store.mark) :
    Ends (callProcedure (Builtin.run solve) pi t args goals choices m) (Marks k (Advances m))
      fun _ => True := by
  unfold callProcedure
  refine Ends.bind (Q := fun m₁ m' => m' = m ∧ m₁ = m) ⟨rfl, rfl⟩ fun m₁ m' hm' => ?_
  obtain ⟨rfl, rfl⟩ := hm'
  rcases hp : m₁.database.find? pi with _ | ⟨b | p⟩
  · exact trivial
  · have hrun := evolving_run hsolve h b hargs
    refine Ends.bind (hrun.imp (fun _ _ => Advances.of_evolves) fun _ _ => trivial) fun found m' hm' => ?_
    cases found with
    | true => exact hmarked.grow hm'.mark_le
    | false => exact hm'
  · refine (marks_tryClauses h ht (inRange_of_find? h hp) hmarked hbase).imp (fun r m' hm' => ?_)
      fun _ => id
    rcases r with _ | S
    · exact hm'.1
    · exact hm'

theorem marks_proveControl (hsolve : Proper solve) (h : m.Sound) (barrier : Nat)
    (ht : t.index < m.store.size) {control : Control Ref}
    (hrefs : ∀ r ∈ control.refs, r.index < m.store.size) (hmarked : Marked k m.store choices)
    (hbase : choices = [] → k = m.store.mark) :
    Ends (proveControl (Builtin.run solve) t barrier goals choices control m) (Marks k (Advances m))
      fun _ => True := by
  cases control with
  | succeed | both left right | ifThen condition consequence => exact hmarked
  | fail => exact .refl h
  | cut => exact hmarked.cutTo barrier
  | ifThenElse condition consequence otherwise => exact hmarked.push hbase _
  | either left right => exact hmarked.push hbase _
  | not goal => exact hmarked.push hbase _
  | call goal extra =>
    rw [Control.refs, List.forall_mem_cons] at hrefs
    refine Ends.bind ((evolving_withArgs h hrefs.1 hrefs.2).imp (fun _ _ => Advances.of_evolves)
      fun _ _ => trivial) fun g m' hm' => ?_
    exact hmarked.grow hm'.mark_le
  | procedure pi args => exact marks_callProcedure hsolve h pi ht hrefs hmarked hbase

theorem marks_proveGoal (hsolve : Proper solve) (h : m.Sound) (barrier : Nat)
    (ht : t.index < m.store.size) (hmarked : Marked k m.store choices)
    (hbase : choices = [] → k = m.store.mark) :
    Ends (proveGoal (Builtin.run solve) t barrier goals choices m) (Marks k (Advances m))
      fun _ => True := by
  have hs := h.wellFormed.acyclic
  unfold proveGoal
  refine Ends.bind (Q := fun r m' => m' = m ∧ r = m.store.deref t) ⟨rfl, rfl⟩ fun r m' hm' => ?_
  obtain ⟨rfl, rfl⟩ := hm'
  refine Ends.bind ((ends_callee hs _).imp (fun _ _ => id) fun _ _ => trivial) fun r m hm => ?_
  obtain ⟨rfl, hargs⟩ := hm
  refine Ends.bind (Q := fun control m' => m' = m ∧ control = Control.of m.store r.1 r.2)
    ⟨rfl, rfl⟩ fun control m' hm' => ?_
  obtain ⟨rfl, rfl⟩ := hm'
  have hderef := h.wellFormed.deref_lt ht
  refine marks_proveControl hsolve h barrier hderef (fun u hu => ?_) hmarked hbase
  obtain ⟨a, ha, hr⟩ := Control.reaches_of hs _ hu
  exact h.wellFormed.lt_of_reaches hderef ((hargs a ha).trans hr)

/-- Taking up a frame. -/
theorem marks_prove (hsolve : Proper solve) (h : m.Sound) {frame : Frame}
    (hframe : ∀ r ∈ frame.refs, r.index < m.store.size) (hmarked : Marked k m.store choices)
    (hbase : choices = [] → k = m.store.mark) :
    Ends (prove (Builtin.run solve) frame goals choices m) (Marks k (Advances m)) fun _ => True := by
  cases frame with
  | goal t barrier => exact marks_proveGoal hsolve h barrier (hframe t List.mem_cons_self) hmarked hbase
  | cutTo height => exact hmarked.cutTo height
  | fail => exact .refl h

/-- **A step keeps the marks valid**, and if nothing is left after it, the trail is as long as at the
lowest mark that there was. -/
theorem marks_step (hsolve : Proper solve) (h : m.Sound) {frame : Frame}
    (hframe : ∀ r ∈ frame.refs, r.index < m.store.size)
    (hchoices : ∀ point ∈ choices, InStore m.store point) (hmarked : Marked k m.store choices)
    (hbase : choices = [] → k = m.store.mark) :
    Ends (step (Builtin.run solve) frame goals choices m)
      (Marks k fun m' => choices ≠ [] → m'.store.mark = k) fun _ => True := by
  unfold step
  refine Ends.bind (marks_prove hsolve h hframe hmarked hbase) fun r m' hm' => ?_
  rcases r with _ | S
  · by_cases hnil : choices = []
    · subst hnil
      exact fun hne => absurd rfl hne
    · refine (marks_backtrack hm'.sound (fun p hp => (hchoices p hp).mono hm'.size_le)
        (hmarked.grow hm'.mark_le) fun heq => absurd heq hnil).imp (fun r m'' hm'' => ?_) fun _ => id
      rcases r with _ | S
      · exact fun _ => hm''
      · exact hm''
  · exact hm'

end Search

end Clausal
