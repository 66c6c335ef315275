import Clausal.Proofs.Store.Rebuilding
import Clausal.TermWriter

/-! # How variables are written

What is written of a term is a template with a place for each occurrence of a variable, into which the
names of the variables are filled (`TermWriter.templated_pieces`): the names are all that the text tells of
the variables.

A variable is written by the name that it had in the source, or else by its number after an underscore.
The numbers tell variables apart that have no names; names need not (`TermVar.Clashing`).
`TermWriter.variableName_eq_iff` says which variables are written alike, and `TermWriter.written_alike`
that this is so in every term that comes out of a store.
-/

namespace Clausal

namespace TermVar

variable {v u : TermVar}

/-- The name that the variable had in the source, if it was one that names anything. -/
def sourceName? (v : TermVar) : Option String := v.name.filter (· ≠ "_")

/-- Variables that are written alike although their numbers may differ: both had the same name in the
source, or one had a name there that reads like the number of the other. -/
inductive Clashing (v u : TermVar) : Prop
  /-- The same name. -/
  | shared {name : String} (hv : v.sourceName? = some name) (hu : u.sourceName? = some name)
  /-- The name of the one is how the number of the other is written. -/
  | named (hv : v.sourceName? = some ("_" ++ toString u.id)) (hu : u.sourceName? = none)
  /-- The other way round. -/
  | numbered (hv : v.sourceName? = none) (hu : u.sourceName? = some ("_" ++ toString v.id))

end TermVar

namespace TermWriter

variable {v u : TermVar}

theorem variableName_eq (v : TermVar) :
    variableName v = v.sourceName?.getD ("_" ++ toString v.id) := by
  obtain ⟨id, _ | name⟩ := v
  · rfl
  · rw [variableName, TermVar.sourceName?, Option.filter_some]
    by_cases hname : name = "_"
    · simp [hname]
    · simp [hname]

/-- Numbers that are written alike are equal. -/
theorem eq_of_numbered_eq {i j : Nat} (h : "_" ++ toString i = "_" ++ toString j) : i = j := by
  rw [String.append_right_inj, Nat.toString_eq_ofList_toDigits, Nat.toString_eq_ofList_toDigits,
    String.ofList_inj] at h
  rw [← Nat.ofDigitChars_toDigits (b := 10) (n := i) (by decide) (by decide), h,
    Nat.ofDigitChars_toDigits (by decide) (by decide)]

/-- **Which variables are written alike.**  Without names in the source it is those of the same number;
otherwise the names clash. -/
theorem variableName_eq_iff : variableName v = variableName u ↔
    (v.id = u.id ∧ v.sourceName? = none ∧ u.sourceName? = none) ∨ v.Clashing u := by
  rw [variableName_eq, variableName_eq]
  constructor
  · intro h
    cases hv : v.sourceName? with
    | none =>
      cases hu : u.sourceName? with
      | none =>
        rw [hv, hu] at h
        exact .inl ⟨eq_of_numbered_eq h, rfl, rfl⟩
      | some name =>
        rw [hv, hu] at h
        exact .inr (.numbered hv (hu.trans (congrArg some h.symm)))
    | some name =>
      cases hu : u.sourceName? with
      | none =>
        rw [hv, hu] at h
        exact .inr (.named (hv.trans (congrArg some h)) hu)
      | some name' =>
        rw [hv, hu] at h
        exact .inr (.shared hv (hu.trans (congrArg some h.symm)))
  · rintro (⟨hid, hv, hu⟩ | ⟨hv, hu⟩ | ⟨hv, hu⟩ | ⟨hv, hu⟩)
    · rw [hv, hu, hid]
    all_goals
      rw [hv, hu]
      rfl

/-! ## Templates -/

/-- The pieces of a template, with the names of the variables filled in. -/
def filled (f : TermVar → TermVar) (template : List (Piece ⊕ TermVar)) : List Piece :=
  template.map (Sum.elim id fun v => .token (variableName (f v)))

/-- What is written, under every renaming, is one template with places for the variables. -/
def Templated (pieces : (TermVar → TermVar) → List Piece) (vs : List TermVar) : Prop :=
  ∃ template : List (Piece ⊕ TermVar), template.filterMap Sum.getRight? = vs ∧
    ∀ f, pieces f = filled f template

section

variable {pieces pieces' : (TermVar → TermVar) → List Piece} {vs vs' : List TermVar}

theorem templated_const (ps : List Piece) : Templated (fun _ => ps) [] := by
  refine ⟨ps.map .inl, ?_, fun f => ?_⟩
  · rw [List.filterMap_map]
    exact List.filterMap_eq_nil_iff.mpr fun _ _ => rfl
  · rw [filled, List.map_map]
    exact (List.map_id ps).symm

theorem templated_var (v : TermVar) : Templated (fun f => [.token (variableName (f v))]) [v] :=
  ⟨[.inr v], rfl, fun _ => rfl⟩

theorem Templated.append (h : Templated pieces vs) (h' : Templated pieces' vs') :
    Templated (fun f => pieces f ++ pieces' f) (vs ++ vs') := by
  obtain ⟨template, rfl, hpieces⟩ := h
  obtain ⟨template', rfl, hpieces'⟩ := h'
  refine ⟨template ++ template', List.filterMap_append, fun f => ?_⟩
  dsimp only
  rw [hpieces, hpieces', filled, filled, filled, List.map_append]

theorem Templated.append_left (h : Templated pieces vs) (before : List Piece) :
    Templated (fun f => before ++ pieces f) vs :=
  (templated_const before).append h

theorem Templated.append_right (h : Templated pieces vs) (after : List Piece) :
    Templated (fun f => pieces f ++ after) vs := by
  have hboth := h.append (templated_const after)
  rwa [List.append_nil] at hboth

theorem Templated.bracketed (h : Templated pieces vs) (enclosed : Bool) :
    Templated (fun f => TermWriter.bracketed enclosed (pieces f)) vs := by
  cases enclosed with
  | false => exact h
  | true => exact (h.append_left [.plain "("]).append_right [.plain ")"]

end

variable {w : TermWriter} {x : Term} {xs : List Term}

/-- A term is written in the same form whatever its variables are. -/
theorem form_map_rename (w : TermWriter) (name : String) (f : TermVar → TermVar) (xs : List Term) :
    w.form name (xs.map (Term.rename f)) = w.form name xs := by
  rcases xs with _ | ⟨x, _ | ⟨y, _ | ⟨z, xs⟩⟩⟩
  · rfl
  · cases x with
    | literal l => rw [List.map_singleton, Term.rename_literal]
    | compound name args =>
      rw [List.map_singleton, Term.rename_compound]
      rfl
    | var v =>
      rw [List.map_singleton, Term.rename_var]
      rfl
  · rfl
  · rfl

theorem templated_args (hxs : ∀ x ∈ xs, ∀ place, Templated (fun f => w.pieces place (x.rename f)) x.vars)
    (form : Form) (index : Nat) (separator : List Piece) :
    Templated (fun f => ((w.argPieces form index (xs.map (Term.rename f))).intersperse
      separator).flatten) (xs.flatMap Term.vars) := by
  induction xs generalizing index with
  | nil => exact templated_const []
  | cons x xs ih =>
    rw [List.forall_mem_cons] at hxs
    have hfirst := hxs.1 (form.place index)
    have hrest := ih hxs.2 (index + 1)
    rw [List.flatMap_cons]
    cases xs with
    | nil =>
      simp only [List.map_cons, List.map_nil, argPieces, List.intersperse_singleton,
        List.flatten_singleton, List.flatMap_nil, List.append_nil]
      exact hfirst
    | cons y ys =>
      simp only [List.map_cons, argPieces, List.intersperse_cons_cons, List.flatten_cons] at hrest ⊢
      exact hfirst.append (hrest.append_left separator)

theorem flatten_intersperse_nil {α : Type} (xss : List (List α)) :
    (xss.intersperse []).flatten = xss.flatten := by
  induction xss with
  | nil => rfl
  | cons xs xss ih =>
    cases xss with
    | nil => rfl
    | cons ys yss =>
      rw [List.intersperse_cons_cons, List.flatten_cons, List.flatten_cons, ih, List.nil_append]
      rfl

theorem templated_assemble {parts : (TermVar → TermVar) → List (List Piece)} {vs : List TermVar}
    (hparts : ∀ separator, Templated (fun f => ((parts f).intersperse separator).flatten) vs)
    (place : Place) (form : Form) (name : String) :
    Templated (fun f => w.assemble place form name (parts f)) vs := by
  have hflatten : Templated (fun f => (parts f).flatten) vs := by
    simpa only [flatten_intersperse_nil] using hparts []
  cases form with
  | cell =>
    cases place with
    | operand limit => exact (hflatten.append_left [.plain "["]).append_right [.plain "]"]
    | tail => exact hflatten.append_left [.plain ","]
  | curly =>
    exact ((hflatten.append_left [.plain "\x7b"]).append_left place.opening).append_right
      [.plain "\x7d"]
  | between op =>
    exact ((hparts [w.separator name op]).bracketed _).append_left place.opening
  | before op =>
    exact ((hflatten.append_left [.token (w.name name), .plain " "]).bracketed _).append_left
      place.opening
  | after op =>
    exact ((hflatten.append_right [.plain " ", .token (w.name name)]).bracketed _).append_left
      place.opening
  | call =>
    exact (((hparts [.plain ","]).append_left [.token (w.name name), .plain "("]).append_left
      place.opening).append_right [.plain ")"]

/-- **What is written of a term is a template** with a place for each occurrence of a variable. -/
theorem templated_pieces (w : TermWriter) (place : Place) (x : Term) :
    Templated (fun f => w.pieces place (x.rename f)) x.vars := by
  induction x using Term.induct generalizing place with
  | literal l =>
    simp only [Term.rename_literal, Term.vars_literal]
    exact templated_const _
  | compound name xs ih =>
    simp only [Term.rename_compound, Term.vars_compound, pieces, form_map_rename]
    exact templated_assemble (templated_args (fun x hx place => ih x hx place) _ 0) place _ name
  | var v =>
    simp only [Term.rename_var, Term.vars_var, pieces]
    exact (templated_var v).append_left place.opening

/-- **Which variables of a term are written alike.**  What is written of a term that comes out of a store
is a template, filled in with the names of the variables where they occur.  Two variables have the same
name there if and only if they are the same or their names clash. -/
theorem written_alike (w : TermWriter) (place : Place) (s : Store) (t : Ref) :
    (∃ template : List (Piece ⊕ TermVar), template.filterMap Sum.getRight? = (s.snapshot t).vars ∧
      ∀ f, w.pieces place ((s.snapshot t).rename f) = filled f template) ∧
    ∀ v ∈ (s.snapshot t).vars, ∀ u ∈ (s.snapshot t).vars,
      variableName v = variableName u ↔ v = u ∨ v.Clashing u := by
  refine ⟨templated_pieces w place _, ?_⟩
  intro v hv u hu
  rw [variableName_eq_iff]
  constructor
  · rintro (⟨hid, -⟩ | hclashing)
    · exact .inl (s.numbered_snapshot t v hv u hu hid)
    · exact .inr hclashing
  · rintro (rfl | hclashing)
    · cases hname : v.sourceName? with
      | none => exact .inl ⟨rfl, rfl, rfl⟩
      | some name => exact .inr (.shared hname hname)
    · exact .inr hclashing

/-- The name `_1` and the number of the second variable are written alike. -/
theorem written_alike_underscore :
    let x := ({} : Store).rebuilt (.compound "f" [.var ⟨0, some "_1"⟩, .var ⟨1, some "_"⟩])
    ∃ v ∈ x.vars, ∃ u ∈ x.vars, v ≠ u ∧ variableName v = variableName u := by
  intro x
  have hx : x = .compound "f" [.var ⟨0, some "_1"⟩, .var ⟨1, some "_"⟩] := by rfl
  have hv : ⟨0, some "_1"⟩ ∈ x.vars := by simp [hx]
  have hu : ⟨1, some "_"⟩ ∈ x.vars := by simp [hx]
  have hclashing : TermVar.Clashing ⟨0, some "_1"⟩ ⟨1, some "_"⟩ := .named (by decide) (by decide)
  refine ⟨_, hv, _, hu, by decide, ?_⟩
  exact ((written_alike {} (.operand 1200) _ _).2 _ hv _ hu).mpr (.inr hclashing)

end TermWriter

end Clausal
