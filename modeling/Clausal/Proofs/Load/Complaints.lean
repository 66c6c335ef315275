import Clausal.Proofs.Machine.Reached

/-! # Complaints come from loads

Only loads complain that the clauses of a predicate do not stand together, so that an action that ends
with this complaint has begun a load (`Machine.closed_orderly`).
-/

namespace Clausal

namespace Machine

/-- What the action does to the database is recorded, and if it ends with the complaint that clauses do
not stand together, it has begun a load. -/
structure Orderly {α : Type} (action : MachineM α) : Prop where
  /-- Its changes are recorded. -/
  recorded : ∀ running, Recorded running action
  /-- Its complaints are those of loads. -/
  tidy : ∀ m pi m', action m = .error (.error (.discontiguous pi)) m' → m.loads < m'.loads

variable {α β : Type} {m m' : Machine}

theorem Orderly.bind {action : MachineM α} {f : α → MachineM β} (h : Orderly action)
    (hf : ∀ a, Orderly (f a)) : Orderly (action >>= f) where
  recorded running := (h.recorded running).bind fun a => (hf a).recorded running
  tidy m pi m' herror := by
    rcases hresult : action m with ⟨a, m₁⟩ | ⟨e, m₁⟩
    · have hle := ((h.recorded [] m).of_ok hresult).loads_le
      rw [bind_eq_of_ok hresult] at herror
      exact Nat.lt_of_le_of_lt hle ((hf a).tidy m₁ pi m' herror)
    · rw [bind_eq_of_error hresult] at herror
      cases herror
      exact h.tidy m pi _ hresult

theorem orderly_examine {f : Store → Except Error α} (hf : ∀ s, Tidy (f s)) : Orderly (examine f) where
  recorded running := recorded_examine f
  tidy m pi m' herror := by
    have hvalue : ofExcept (f m.store) m = .error (.error (.discontiguous pi)) m' := herror
    rcases hresult : f m.store with e | a
    · rw [hresult] at hvalue
      cases hvalue
      exact absurd hresult (hf m.store pi)
    · rw [hresult] at hvalue
      cases hvalue

theorem Orderly.undoing {action : MachineM α} (h : Orderly action) : Orderly (undoing action) where
  recorded running := (h.recorded running).undoing
  tidy m pi m' herror := by
    rw [undoing_eq] at herror
    rcases hresult : action m with ⟨a, m₁⟩ | ⟨e, m₁⟩
    · rw [hresult] at herror
      cases herror
    · rw [hresult] at herror
      cases herror
      exact h.tidy m pi m₁ hresult

theorem Orderly.under {action : MachineM α} (h : Orderly action) (c : Context) :
    Orderly (under c action) where
  recorded running := (h.recorded running).under c
  tidy m pi m' herror := by
    rw [Machine.under] at herror
    rcases hresult : action { m with context := c } with ⟨a, m₁⟩ | ⟨e, m₁⟩
    · rw [hresult] at herror
      cases herror
    · rw [hresult] at herror
      cases herror
      exact h.tidy { m with context := c } pi m₁ hresult

/-- A load has begun. -/
theorem orderly_load {solve : Ref → MachineM Bool} (hsolve : Loading.RecordedSolve solve)
    (source : TermSource) : Orderly (load solve source) where
  recorded running := recorded_load hsolve source
  tidy m pi m' herror := by
    have hrecorded : Loading.Recorded [] (m.loads + 1)
        (Loading.loadSource solve (m.sources.length + 2) source) :=
      Loading.recorded_loadSource hsolve _ source
    have hlt : Ends (load solve source m) (fun _ m' => m.loads < m'.loads) fun m' => m.loads < m'.loads :=
      ends_load ((hrecorded (m.beginLoad source) rfl).imp (fun _ _ h => h.follows.loads_le)
        fun _ h => h.follows.loads_le)
    rw [herror] at hlt
    exact hlt

theorem closed_orderly : Closed Orderly where
  pure a := ⟨fun _ => recorded_pure a, fun _ _ _ herror => by cases herror⟩
  bind := Orderly.bind
  outOfFuel := ⟨fun _ => recorded_throw _, fun _ _ _ herror => by cases herror⟩
  examine := orderly_examine
  change hf := ⟨fun _ m => .of_same (hf m).database (hf m).loads, fun _ _ _ herror => by cases herror⟩
  undoing := Orderly.undoing
  under := fun c h => h.under c
  load := fun source hsolve => orderly_load (fun running goal => (hsolve goal).recorded running) source

end Machine

end Clausal
