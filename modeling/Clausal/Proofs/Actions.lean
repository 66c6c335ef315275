/-! # What actions end with

An action has a state before and a state after, whether it ends in a value or in an error.  `Ends`
says of a result that its value and state are as given, or that the state that an error leaves is.
The rules below take an action apart along its binds.
-/

namespace Clausal

variable {ε σ α β : Type} {Q Q' : α → σ → Prop} {R : β → σ → Prop} {E E' : σ → Prop} {st : σ}

/-- The result is a value and a state of which `Q` holds, or an error in a state of which `E`
holds. -/
def Ends (r : EStateM.Result ε σ α) (Q : α → σ → Prop) (E : σ → Prop) : Prop :=
  match r with
  | .ok a st => Q a st
  | .error _ st => E st

theorem Ends.imp {r : EStateM.Result ε σ α} (h : Ends r Q E) (hQ : ∀ a st, Q a st → Q' a st)
    (hE : ∀ st, E st → E' st) : Ends r Q' E' := by
  cases r with
  | ok a st => exact hQ a st h
  | error e st => exact hE st h

theorem Ends.bind {m : EStateM ε σ α} {f : α → EStateM ε σ β} (h : Ends (m st) Q E)
    (hf : ∀ a st, Q a st → Ends (f a st) R E) : Ends ((m >>= f) st) R E := by
  show Ends (EStateM.bind m f st) R E
  rw [EStateM.bind]
  rcases hm : m st with ⟨a, st'⟩ | ⟨e, st'⟩
  · rw [hm] at h
    exact hf a st' h
  · rw [hm] at h
    exact h

theorem Ends.map {m : EStateM ε σ α} {f : α → β} (h : Ends (m st) (fun a st => R (f a) st) E) :
    Ends ((f <$> m) st) R E := by
  show Ends (EStateM.map f m st) R E
  rw [EStateM.map]
  rcases hm : m st with ⟨a, st'⟩ | ⟨e, st'⟩
  · rw [hm] at h
    exact h
  · rw [hm] at h
    exact h

theorem Ends.of_ok {r : EStateM.Result ε σ α} (h : Ends r Q E) {a : α} {st' : σ}
    (hr : r = .ok a st') : Q a st' := by
  subst hr
  exact h

/-- The value that an action ended in, with the state. -/
def value? : EStateM.Result ε σ α → Option (α × σ)
  | .ok a st => some (a, st)
  | .error _ _ => none

/-- The error that an action ended in, with the state. -/
def failure? : EStateM.Result ε σ α → Option (ε × σ)
  | .ok _ _ => none
  | .error e st => some (e, st)

theorem value?_eq_some {r : EStateM.Result ε σ α} {a : α} : value? r = some (a, st) ↔ r = .ok a st := by
  cases r <;> simp [value?]

theorem failure?_eq_some {r : EStateM.Result ε σ α} {e : ε} :
    failure? r = some (e, st) ↔ r = .error e st := by
  cases r <;> simp [failure?]

/-- A result that has a property. -/
theorem exists_ok_of_any {x : Except ε α} {p : α → Prop} [DecidablePred p]
    (h : x.toOption.any p = true) : ∃ a, x = .ok a ∧ p a := by
  cases x with
  | error e => cases h
  | ok a => exact ⟨a, rfl, of_decide_eq_true h⟩

/-- An action whose first part ends in a value goes on from there. -/
theorem bind_eq_of_ok {m : EStateM ε σ α} {f : α → EStateM ε σ β} {a : α} {st' : σ}
    (h : m st = .ok a st') : (m >>= f) st = f a st' := by
  show EStateM.bind m f st = _
  rw [EStateM.bind, h]

/-- An action whose first part ends in an error ends in it. -/
theorem bind_eq_of_error {m : EStateM ε σ α} {f : α → EStateM ε σ β} {e : ε} {st' : σ}
    (h : m st = .error e st') : (m >>= f) st = .error e st' := by
  show EStateM.bind m f st = _
  rw [EStateM.bind, h]

/-- What is made of the value of an action that ends in one. -/
theorem map_eq_of_ok {m : EStateM ε σ α} {f : α → β} {a : α} {st' : σ} (h : m st = .ok a st') :
    (f <$> m) st = .ok (f a) st' := by
  show EStateM.map f m st = _
  rw [EStateM.map, h]

/-- What comes after an action depends on its result only. -/
theorem bind_congr_result {m m' : EStateM ε σ α} {st st' : σ} (h : m st = m' st')
    (f : α → EStateM ε σ β) : (m >>= f) st = (m' >>= f) st' := by
  show EStateM.bind m f st = EStateM.bind m' f st'
  rw [EStateM.bind, EStateM.bind, h]

/-- What every element's action keeps, going through a list keeps. -/
theorem Ends.forM {I : σ → Prop} {f : α → EStateM ε σ PUnit} {as : List α}
    (h : ∀ a ∈ as, ∀ st, I st → Ends (f a st) (fun _ => I) I) (hst : I st) :
    Ends (as.forM f st) (fun _ => I) I := by
  induction as generalizing st with
  | nil => exact hst
  | cons a as ih =>
    rw [List.forall_mem_cons] at h
    exact (h.1 st hst).bind fun _ st' hst' => ih h.2 hst'

/-- Doing something for each of one value is doing it for the value. -/
theorem forM_singleton (f : α → EStateM ε σ Unit) (a : α) : [a].forM f = f a := by
  simp only [List.forM_eq_forM, List.forM_cons, List.forM_nil, bind_pure_unit]

end Clausal
