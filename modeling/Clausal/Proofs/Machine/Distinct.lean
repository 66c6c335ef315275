import Clausal.Proofs.Machine.Reached

/-! # Indicators are distinct

A database has one definition for an indicator (`Machine.Reached.distinct`): a definition that changes
keeps its place, and a new one is added at the end only if there is none.  So two databases that have
the same indicators in the same order, and define them alike, are alike entry by entry
(`Database.Distinct.forall₂`).
-/

namespace Clausal

namespace Database

variable {db db' : Database} {pi : Indicator} {load : Nat}

/-- The indicators that are defined, in their order. -/
def indicators (db : Database) : List Indicator := db.entries.map Prod.fst

/-- No indicator occurs twice. -/
def Distinct (db : Database) : Prop := db.indicators.Nodup

/-- Setting a definition keeps the indicators, or adds one that was not there. -/
theorem map_fst_set (pi : Indicator) (proc : Procedure) (entries : List (Indicator × Procedure)) :
    (set pi proc entries).map Prod.fst =
      if pi ∈ entries.map Prod.fst then entries.map Prod.fst else entries.map Prod.fst ++ [pi] := by
  induction entries with
  | nil => rfl
  | cons e entries ih =>
    rw [set, List.map_cons]
    by_cases hpi : e.1 = pi
    · rw [if_pos hpi, List.map_cons, hpi, if_pos List.mem_cons_self]
    · rw [if_neg hpi, List.map_cons, ih]
      by_cases hmem : pi ∈ entries.map Prod.fst
      · rw [if_pos hmem, if_pos (List.mem_cons_of_mem _ hmem)]
      · have hnone : pi ∉ e.1 :: entries.map Prod.fst := by
          rw [List.mem_cons, or_iff_right (Ne.symm hpi)]
          exact hmem
        rw [if_neg hmem, if_neg hnone, List.cons_append]

/-- An indicator that is defined keeps its place. -/
theorem indicators_insert_of_mem (h : pi ∈ db.indicators) (proc : Procedure) :
    (db.insert pi proc).indicators = db.indicators := by
  have hset := map_fst_set pi proc db.entries
  exact hset.trans (if_pos h)

theorem Distinct.insert (h : db.Distinct) (pi : Indicator) (proc : Procedure) :
    (db.insert pi proc).Distinct := by
  have hset := map_fst_set pi proc db.entries
  rw [Distinct, indicators, Database.insert, hset]
  split
  · exact h
  · rename_i hmem
    exact h.append (List.nodup_singleton pi) (List.disjoint_singleton.mpr hmem)

theorem Distinct.update (h : db.Distinct) {f : Predicate → Predicate}
    (hupdate : db.update load pi f = .ok db') : db'.Distinct := by
  obtain ⟨-, rfl⟩ := update_eq_ok hupdate
  exact (h.insert _ _).insert _ _

theorem find?_isSome_iff : (db.find? pi).isSome = true ↔ pi ∈ db.indicators := by
  rw [find?, indicators]
  induction db.entries with
  | nil => simp
  | cons e entries ih =>
    rw [List.lookup_cons, List.map_cons, List.mem_cons]
    by_cases hpi : pi = e.1
    · simp [hpi]
    · rw [beq_false_of_ne hpi, or_iff_right hpi]
      exact ih

/-- **Databases with the same indicators that define them alike are alike entry by entry.** -/
theorem Distinct.forall₂ (h : db.Distinct) (hindicators : db'.indicators = db.indicators)
    {R : Procedure → Procedure → Prop}
    (hR : ∀ pi proc proc', db.find? pi = some proc → db'.find? pi = some proc' → R proc proc') :
    List.Forall₂ (fun e e' => e'.1 = e.1 ∧ R e.2 e'.2) db.entries db'.entries := by
  obtain ⟨entries⟩ := db
  obtain ⟨entries'⟩ := db'
  have hkeys : entries'.map Prod.fst = entries.map Prod.fst := hindicators
  have hnodup : (entries.map Prod.fst).Nodup := h
  have hlookup : ∀ pi proc proc', entries.lookup pi = some proc → entries'.lookup pi = some proc' →
      R proc proc' := hR
  clear h hindicators hR
  induction entries generalizing entries' with
  | nil =>
    obtain rfl := List.map_eq_nil_iff.mp hkeys
    exact .nil
  | cons e entries ih =>
    obtain ⟨e', entries', rfl, hfst, hkeys⟩ := List.map_eq_cons_iff.mp hkeys
    rw [List.map_cons, List.nodup_cons] at hnodup
    obtain ⟨hmem, hnodup⟩ := hnodup
    have hself : ∀ (e : Indicator × Procedure) (entries : List (Indicator × Procedure)),
        (e :: entries).lookup e.1 = some e.2 := by
      intro e entries
      rw [List.lookup_cons, beq_self_eq_true]
    refine .cons ⟨hfst, hlookup e.1 _ _ (hself e entries) (hfst ▸ hself e' entries')⟩ ?_
    refine ih entries' hkeys hnodup ?_
    intro pi proc proc' hproc hproc'
    -- The indicator of the first entry is not among the others.
    have hne : pi ≠ e.1 := by
      rintro rfl
      have hdefined : (Database.mk entries).find? e.1 = some proc := hproc
      have hsome : ((Database.mk entries).find? e.1).isSome = true := by rw [hdefined]; rfl
      exact hmem (find?_isSome_iff.mp hsome)
    refine hlookup pi proc proc' ?_ ?_
    · rw [List.lookup_cons, beq_false_of_ne hne]
      exact hproc
    · rw [List.lookup_cons, hfst, beq_false_of_ne hne]
      exact hproc'

end Database

/-! ## Machines -/

namespace Ledger

variable {led led' : Ledger} {e : Event} {es : List Event}

theorem Step.distinct (h : Step led e led') (hled : led.database.Distinct) : led'.database.Distinct := by
  cases h with
  | begin | finish => exact hled
  | touch n loads htouch =>
    obtain ⟨-, -, rfl⟩ := Database.touch_eq_ok htouch
    exact hled.insert _ _
  | declare n loads hdeclare => exact hled.update hdeclare
  | append n loads happend => exact hled.update happend

theorem Run.distinct (h : Run led es led') (hled : led.database.Distinct) : led'.database.Distinct := by
  induction h with
  | nil led => exact hled
  | cons step _ ih => exact ih (step.distinct hled)

end Ledger

namespace Machine

variable {m m' : Machine} {running : List Nat}

theorem Follows.distinct (h : Follows running m m') (hm : m.database.Distinct) :
    m'.database.Distinct := by
  obtain ⟨es, hes⟩ := h
  exact hes.distinct hm

theorem Recorded.distinct {α : Type} {action : MachineM α} (h : Recorded running action)
    (hm : m.database.Distinct) : (Machine.after action m).database.Distinct :=
  (h.after m).distinct hm

theorem distinct_build (operators : List (String × Nat × Specifier))
    (builtins : List (Indicator × Builtin)) (defaults : Bool) :
    (build operators builtins defaults).database.Distinct := by
  have hfold : ∀ (all : List (Indicator × Builtin)) (db : Database), db.Distinct →
      (all.foldl (fun db e => db.insert e.1 (.builtin e.2)) db).Distinct := by
    intro all
    induction all with
    | nil => exact fun db hdb => hdb
    | cons e all ih => exact fun db hdb => ih _ (hdb.insert _ _)
  exact hfold _ {} List.nodup_nil

/-- A move keeps indicators distinct. -/
theorem Moves.distinct {D : Set Ref} {a a' : Activity} (h : Moves D a a')
    (ha : a.machine.database.Distinct) : a'.machine.database.Distinct := by
  have hnext : ∀ {source m m'} {next : Option (Ref × TermSource)}, m.database.Distinct →
      Machine.nextTerm source m = .ok next m' → m'.database.Distinct := by
    intro source m m' next hm hread
    have hfollows : Follows [] m m' := ((composed_recorded []).nextTerm source m).of_ok hread
    exact hfollows.distinct hm
  cases h with
  | step hstep =>
    have hfollows : Follows [] _ _ :=
      (closed_recorded.step (closed_recorded.solve _) _ _ _ [] _).of_ok hstep
    exact hfollows.distinct ha
  | builtin hcallee hcontrol hfind hbegins =>
    cases hbegins with
    | once | copyTerm | consult | compile | compileDetached => exact ha
  | file hopen =>
    obtain ⟨rfl, -⟩ := (Loading.ends_openSource _ _).of_ok hopen
    exact ha
  | @nextFile k m m' name names hload =>
    have hcomposed := composed_recorded []
    have hrecorded : Recorded [] (do poll; Machine.load (solve k) (← openSource name) : MachineM Unit) :=
      hcomposed.poll.bind fun _ => (hcomposed.openSource name).bind fun source =>
        recorded_load (recorded_solve k) source
    exact ((hrecorded m).of_ok hload).distinct ha
  | expansion hread =>
    have hdistinct := hnext ha hread
    exact hdistinct
  | expanded hread hexpand =>
    have hfollows : Follows [] _ _ :=
      ((composed_recorded []).expand (recorded_solve _ []) _ _).of_ok hexpand
    exact hfollows.distinct (hnext ha hread)
  | directive => exact ha
  | inclusion hterm hfile hname hopen =>
    obtain ⟨rfl, -⟩ := (Loading.ends_openSource _ _).of_ok hopen
    exact ha
  | @loaded k depth t ts source l l' hload =>
    have hgoes : Loading.Goes [] l.load.id l l' := (Loading.recorded_loadTerm (recorded_solve k)
      (Loading.recorded_loadSource (recorded_solve k) depth) t l rfl).of_ok hload
    exact hgoes.follows.distinct ha
  | nextTerm => exact ha

/-- **In every machine that is reached, no indicator is defined twice.** -/
theorem Reached.distinct (h : m.Reached) : m.database.Distinct := by
  induction h with
  | build operators builtins defaults => exact distinct_build operators builtins defaults
  | adjust h hs hdb hloads ih =>
    rw [hdb]
    exact ih
  | allocate h hs ih => exact ih
  | compile h fuel c text hargs ih =>
    exact (closed_recorded.compile (closed_recorded.solve fuel) c text _ []).distinct ih
  | @consult _ h fuel c files hfiles ih =>
    have hrecorded : Recorded [] (consultFiles fuel c files) := recorded_consultFiles fuel c files
    exact hrecorded.distinct ih
  | call h fuel pi hargs ih =>
    exact (closed_recorded.callWith (closed_recorded.solve fuel) pi _ []).distinct ih
  | within h hbegin hmoves ih =>
    induction hmoves with
    | refl =>
      cases hbegin with
      | compile | consult | call => exact ih
    | tail _ hmove ih' => exact hmove.distinct ih'

end Machine

end Clausal
