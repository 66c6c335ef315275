import Clausal.Proofs.Clause.Reading
import Clausal.Proofs.Store.Building
import Mathlib.Data.List.Forall2

/-! # Compilation is faithful

What a clause was compiled from can be read back from its instructions (`compile_reads`): the
arguments of the head and, in their order, the goals of the body, each up to identity of terms.

A draft only ever grows (`Draft.Extends`): entries and variables keep their numbers, so what an
instruction refers to when it is emitted is what it refers to in the finished clause
(`Draft.Within`).  Each function of the compiler is described by what it emits, read in any clause
that the draft ends up in, and the descriptions compose.  The variables need no invariant of their
own: a draft numbers them by `Store.addVars`, which is what `Store.freeVars` does with the variables
of the whole clause.
-/

namespace Clausal.Clause

open Store

variable {s : Store} {c : Clause} {t u v : Ref} {ts us : List Ref}

/-- Entries of a list keep their places when the list is extended. -/
theorem kept_of_prefix {α : Type} {l l' : List α} (h : l <+: l') {n : Nat} {a : α}
    (hn : l[n]? = some a) : l'[n]? = some a := by
  obtain ⟨hlt, heq⟩ := List.getElem?_eq_some_iff.mp hn
  rw [List.prefix_iff_getElem?.mp h n hlt, heq]

/-! ## Identity of the ends of chains -/

theorem same_deref_right (hs : s.Acyclic) (t u : Ref) : s.same t (s.deref u) = s.same t u := by
  simp only [same, Store.compare, compareFrom, hs.deref_deref]

theorem Calls.of_deref (hs : s.Acyclic) {call : Indicator × List Ref}
    (h : Calls s call (s.deref t)) : Calls s call t := by
  cases h with
  | atom view => exact .atom (hs.view_deref t ▸ view)
  | compound view agree => exact .compound (hs.view_deref t ▸ view) agree
  | var view agree =>
    obtain ⟨u, us, hu, hus, rfl⟩ := List.forall₂_cons_right_iff.mp agree
    exact .var (hs.view_deref t ▸ view) (.cons (same_deref_right hs u t ▸ hu) hus)

/-- What a goal calls has as many arguments as the predicate takes. -/
theorem Calls.length_eq {call : Indicator × List Ref} (h : Calls s call t) :
    call.2.length = call.1.arity := by
  cases h with
  | atom _ => rfl
  | compound _ agree => exact agree.length_eq
  | var _ agree => exact agree.length_eq

theorem sameEntry_comm (s : Store) (e e' : Entry) : sameEntry s e e' = sameEntry s e' e := by
  cases e <;> cases e' <;> simp [sameEntry, same_comm s, eq_comm]

/-! ## Reading blocks of instructions -/

/-- The instructions match or push the given operands. -/
abbrev Pushes (c : Clause) (code : List Instruction) (us : List Ref) : Prop :=
  List.Forall₂ (fun i u => c.operand? i = some u) code us

theorem Pushes.readHead {is : List Instruction} (h : Pushes c is us) (code : List Instruction) :
    c.readHead (is ++ code) = (c.readHead code).map fun (ts, rest) => (us ++ ts, rest) := by
  induction h with
  | nil => simp
  | @cons i u is us hi _ ih =>
    rcases i with n | n | _ | n | _
    case const | var => simp [Clause.readHead, hi, ih, Function.comp_def]
    all_goals cases hi

theorem Pushes.readBody {is : List Instruction} (h : Pushes c is us) (pushed : List Ref)
    (code : List Instruction) :
    c.readBody pushed (is ++ code) = c.readBody (us.reverse ++ pushed) code := by
  induction h generalizing pushed with
  | nil => rfl
  | @cons i u is us hi _ ih =>
    rcases i with n | n | _ | n | _
    case const | var => simp [Clause.readBody, hi, ih]
    all_goals cases hi

namespace Draft

variable {d d' d'' : Draft} {P : Ref → Prop}

/-! ## Drafts that grow -/

/-- The clause has the entries and the variables of the draft at their places. -/
structure Within (d : Draft) (c : Clause) : Prop where
  /-- The entries. -/
  table : d.table <+: c.table
  /-- The variables. -/
  vars : d.vars <+: c.vars

/-- The draft `d'` has what `d` has, and further variables and instructions, and entries for terms of
which `P` holds. -/
structure Extends (s : Store) (P : Ref → Prop) (d d' : Draft) (vs : List Ref)
    (code : List Instruction) : Prop where
  /-- Entries keep their places. -/
  table : d.table <+: d'.table
  /-- No entry is there twice. -/
  distinct : Distinct s d.table → Distinct s d'.table
  /-- The terms of all entries are of the kind. -/
  terms : (∀ u, .term u ∈ d.table → P u) → ∀ u, .term u ∈ d'.table → P u
  /-- The variables were added, each once. -/
  vars : d'.vars = addVars d.vars vs
  /-- The instructions were added. -/
  code : d'.code = d.code ++ code

theorem Extends.refl (s : Store) (P : Ref → Prop) (d : Draft) : Extends s P d d [] [] where
  table := List.prefix_rfl
  distinct := id
  terms := id
  vars := rfl
  code := (List.append_nil _).symm

theorem Extends.trans {vs vs' : List Ref} {code code' : List Instruction}
    (h : Extends s P d d' vs code) (h' : Extends s P d' d'' vs' code') :
    Extends s P d d'' (vs ++ vs') (code ++ code') where
  table := h.table.trans h'.table
  distinct hd := h'.distinct (h.distinct hd)
  terms ht := h'.terms (h.terms ht)
  vars := by rw [h'.vars, h.vars, addVars_append]
  code := by rw [h'.code, h.code, List.append_assoc]

theorem Within.of_extends {vs : List Ref} {code : List Instruction} (h : Within d' c)
    (he : Extends s P d d' vs code) : Within d c where
  table := he.table.trans h.table
  vars := (he.vars ▸ prefix_addVars d.vars vs).trans h.vars

theorem extends_emit (s : Store) (P : Ref → Prop) (d : Draft) (i : Instruction) :
    Extends s P d (d.emit i) [] [i] where
  table := List.prefix_rfl
  distinct := id
  terms := id
  vars := rfl
  code := rfl

/-! ## The parts of the compiler -/

theorem extends_slot (s : Store) (P : Ref → Prop) (d : Draft) (v : Ref) :
    Extends s P d (d.slot v).2 [v] [] := by
  rw [slot]
  rcases h : d.vars.idxOf? v with _ | n
  · rw [List.idxOf?_eq_none_iff] at h
    exact ⟨List.prefix_rfl, id, id, (addVar_of_not_mem h).symm, (List.append_nil _).symm⟩
  · obtain ⟨hlt, hv, -⟩ := List.idxOf?_eq_some_iff.mp h
    have hmem : v ∈ d.vars := hv ▸ List.getElem_mem hlt
    exact ⟨List.prefix_rfl, id, id, (addVar_of_mem hmem).symm, (List.append_nil _).symm⟩

theorem vars_slot (d : Draft) (v : Ref) : (d.slot v).2.vars[(d.slot v).1]? = some v := by
  rw [slot]
  rcases h : d.vars.idxOf? v with _ | n
  · simp
  · obtain ⟨hlt, hv, -⟩ := List.idxOf?_eq_some_iff.mp h
    rw [List.getElem?_eq_getElem hlt, hv]

/-- Adding the variables of a term one by one. -/
theorem extends_slots (s : Store) (P : Ref → Prop) (d : Draft) (vs : List Ref) :
    Extends s P d (vs.foldl (fun d v => (d.slot v).2) d) vs [] := by
  induction vs generalizing d with
  | nil => exact Extends.refl s P d
  | cons v vs ih => exact (extends_slot s P d v).trans (ih (d.slot v).2)

theorem distinct_append {e : Entry} (h : Distinct s d.table)
    (he : ∀ e' ∈ d.table, sameEntry s e' e = false) : Distinct s (d.table ++ [e]) := by
  refine List.pairwise_append.mpr ⟨h, List.pairwise_singleton _ _, fun e' he' e'' he'' => ?_⟩
  rw [List.mem_singleton] at he''
  exact he'' ▸ he e' he'

theorem terms_append {e : Entry} (h : ∀ u, .term u ∈ d.table → P u) (he : ∀ u, e = .term u → P u) :
    ∀ u, .term u ∈ d.table ++ [e] → P u := by
  intro u hu
  rcases List.mem_append.mp hu with hu | hu
  · exact h u hu
  · exact he u (List.mem_singleton.mp hu).symm

theorem extends_termOffset (d : Draft) (ht : P t) :
    Extends s P d (d.termOffset s t).2 [] [] := by
  simp only [termOffset]
  split
  · exact Extends.refl s P d
  · rename_i h
    rw [List.findIdx?_eq_none_iff] at h
    refine ⟨List.prefix_append _ _, fun hd => distinct_append hd fun e he => ?_,
      fun hp => terms_append hp (by rintro u ⟨⟩; exact ht), rfl, (List.append_nil _).symm⟩
    cases e with
    | term u => simpa [sameEntry, same_comm s u t] using h _ he
    | procedure pi => rfl

theorem term_termOffset (s : Store) (d : Draft) (t : Ref) :
    ∃ u, (d.termOffset s t).2.table[(d.termOffset s t).1]? = some (.term u) ∧
      s.same u t = true := by
  simp only [termOffset]
  split
  · rename_i n h
    obtain ⟨hlt, hn, -⟩ := List.findIdx?_eq_some_iff_getElem.mp h
    rcases he : d.table[n] with u | pi
    · rw [he] at hn
      exact ⟨u, by rw [List.getElem?_eq_getElem hlt, he], by rwa [same_comm]⟩
    · rw [he] at hn
      cases hn
  · exact ⟨t, by simp, same_refl s t⟩

theorem extends_procedureOffset (s : Store) (P : Ref → Prop) (d : Draft) (pi : Indicator) :
    Extends s P d (d.procedureOffset pi).2 [] [] := by
  simp only [procedureOffset]
  split
  · exact Extends.refl s P d
  · rename_i h
    rw [List.idxOf?_eq_none_iff] at h
    refine ⟨List.prefix_append _ _, fun hd => distinct_append hd fun e he => ?_,
      fun hp => terms_append hp nofun, rfl, (List.append_nil _).symm⟩
    cases e with
    | term u => rfl
    | procedure pi' =>
      have hne : pi' ≠ pi := fun heq => h (heq ▸ he)
      simpa [sameEntry] using hne

theorem procedure_procedureOffset (d : Draft) (pi : Indicator) :
    (d.procedureOffset pi).2.table[(d.procedureOffset pi).1]? = some (.procedure pi) := by
  simp only [procedureOffset]
  split
  · rename_i n h
    obtain ⟨hlt, he, -⟩ := List.idxOf?_eq_some_iff.mp h
    rw [List.getElem?_eq_getElem hlt, he]
  · simp

theorem Within.term? (h : Within d c) {n : Nat} (hn : d.table[n]? = some (.term u)) :
    c.term? n = some u := by
  rw [Clause.term?, kept_of_prefix h.table hn]

theorem Within.procedure? (h : Within d c) {n : Nat} {pi : Indicator}
    (hn : d.table[n]? = some (.procedure pi)) : c.procedure? n = some pi := by
  rw [Clause.procedure?, kept_of_prefix h.table hn]

/-- An entry for a term and the instruction that refers to it. -/
theorem const_spec (d : Draft) (ht : P t) :
    ∃ i, Extends s P d ((d.termOffset s t).2.emit (.const (d.termOffset s t).1)) [] [i] ∧
      ∀ c, Within ((d.termOffset s t).2.emit (.const (d.termOffset s t).1)) c →
        ∃ u, c.operand? i = some u ∧ s.same u t = true := by
  refine ⟨_, (extends_termOffset d ht).trans (extends_emit s P _ _), fun c hc => ?_⟩
  obtain ⟨u, hu, hsame⟩ := term_termOffset s d t
  exact ⟨u, hc.term? hu, hsame⟩

/-- An argument adds its variables and one instruction, whose operand is the argument. -/
theorem argument_spec (hs : s.Acyclic) (d : Draft) (hP : ∀ u, s.Reaches t u → P u) :
    ∃ i, Extends s P d (d.argument s t) (s.resolve t).vars [i] ∧
      ∀ c, Within (d.argument s t) c → ∃ u, c.operand? i = some u ∧ s.same u t = true := by
  have hend := hP _ (hs.reaches_deref t)
  simp only [argument, hs.view_deref]
  rcases hview : s.view t with v | l | ⟨name, args⟩
  · refine ⟨.var (d.slot v).1, ?_, fun c hc => ⟨v, kept_of_prefix hc.vars (vars_slot d v), ?_⟩⟩
    · rw [hs.resolve_of_view_var hview, Tree.vars_of_var]
      exact (extends_slot s P d v).trans (extends_emit s P _ _)
    · rw [← deref_of_view_var hview, same_comm, same_deref_right hs, same_refl]
  · obtain ⟨i, hext, hop⟩ := const_spec d hend
    rw [hs.resolve_of_view_literal hview, Tree.vars_literal]
    refine ⟨i, hext, fun c hc => ?_⟩
    obtain ⟨u, hu, hsame⟩ := hop c hc
    exact ⟨u, hu, same_deref_right hs u t ▸ hsame⟩
  · -- The variables of a compound are numbered before it is entered.
    have hslots := extends_slots s P d (s.freeVars (s.deref t))
    obtain ⟨i, hext, hop⟩ :=
      const_spec ((s.freeVars (s.deref t)).foldl (fun d v => (d.slot v).2) d) hend
    refine ⟨i, ?_, fun c hc => ?_⟩
    · have hvars : addVars d.vars (s.freeVars (s.deref t)) = addVars d.vars (s.resolve t).vars := by
        rw [hs.freeVars_eq, hs.resolve_deref, addVars_addVars, addVars_nil]
      have hboth := hslots.trans hext
      refine ⟨hboth.table, hboth.distinct, hboth.terms, ?_, hboth.code⟩
      rw [hboth.vars, List.append_nil, hvars]
    · obtain ⟨u, hu, hsame⟩ := hop c hc
      exact ⟨u, hu, same_deref_right hs u t ▸ hsame⟩

/-- Arguments add one instruction each. -/
theorem arguments_spec (hs : s.Acyclic) (d : Draft) (ts : List Ref)
    (hP : ∀ t ∈ ts, ∀ u, s.Reaches t u → P u) :
    ∃ is, Extends s P d (ts.foldl (argument s) d) (ts.flatMap fun t => (s.resolve t).vars) is ∧
      ∀ c, Within (ts.foldl (argument s) d) c → ∃ us, Pushes c is us ∧ Agree s us ts := by
  induction ts generalizing d with
  | nil => exact ⟨[], Extends.refl s P d, fun c _ => ⟨[], .nil, .nil⟩⟩
  | cons t ts ih =>
    rw [List.forall_mem_cons] at hP
    obtain ⟨i, hext, hop⟩ := argument_spec hs d hP.1
    obtain ⟨is, hrest, hops⟩ := ih (d.argument s t) hP.2
    refine ⟨i :: is, hext.trans hrest, fun c hc => ?_⟩
    obtain ⟨u, hu, hsame⟩ := hop c (hc.of_extends hrest)
    obtain ⟨us, hus, hagree⟩ := hops c hc
    exact ⟨u :: us, .cons hu hus, .cons hsame hagree⟩

/-- A call adds one instruction, which names the predicate. -/
theorem callProcedure_spec (s : Store) (P : Ref → Prop) (d : Draft) (pi : Indicator) :
    ∃ n, Extends s P d (d.callProcedure pi) [] [.call n] ∧
      ∀ c, Within (d.callProcedure pi) c → c.procedure? n = some pi := by
  refine ⟨_, (extends_procedureOffset s P d pi).trans (extends_emit s P _ _), fun c hc => ?_⟩
  exact hc.procedure? (procedure_procedureOffset d pi)

/-- The instructions push the arguments of a call and make it. -/
def Makes (c : Clause) (code : List Instruction) (call : Indicator × List Ref) : Prop :=
  ∃ is n, code = is ++ [.call n] ∧ Pushes c is call.2 ∧ c.procedure? n = some call.1

/-- Pushing arguments and calling a predicate with them. -/
theorem call_spec (hs : s.Acyclic) (d : Draft) (ts : List Ref)
    (hP : ∀ t ∈ ts, ∀ u, s.Reaches t u → P u) (pi : Indicator) :
    ∃ code, Extends s P d ((ts.foldl (argument s) d).callProcedure pi)
        (ts.flatMap fun t => (s.resolve t).vars) code ∧
      ∀ c, Within ((ts.foldl (argument s) d).callProcedure pi) c →
        ∃ us, Makes c code (pi, us) ∧ Agree s us ts := by
  obtain ⟨is, hargs, hops⟩ := arguments_spec hs d ts hP
  obtain ⟨n, hcall, hpi⟩ := callProcedure_spec s P (ts.foldl (argument s) d) pi
  refine ⟨is ++ [.call n], ?_, fun c hc => ?_⟩
  · simpa only [List.append_nil] using hargs.trans hcall
  · obtain ⟨us, hus, hagree⟩ := hops c (hc.of_extends hcall)
    exact ⟨us, ⟨is, n, rfl, hus, hpi c hc⟩, hagree⟩

/-- A goal can be compiled if it is a variable or callable, and then it adds the call that it
makes. -/
theorem goal_spec (hs : s.Acyclic) (d : Draft) {g : Ref} (hP : ∀ u, s.Reaches g u → P u) :
    ((∃ d', goal s d g = .ok d') ↔ (∃ v, s.view g = .var v) ∨ Callable s g) ∧
      ∀ d', goal s d g = .ok d' → ∃ code, Extends s P d d' (s.resolve g).vars code ∧
        ∀ c, Within d' c → ∃ call, Makes c code call ∧ Calls s call g := by
  simp only [goal]
  rcases hview : s.view g with v | l | ⟨name, args⟩
  · refine ⟨iff_of_true ⟨_, rfl⟩ (.inl ⟨v, rfl⟩), fun d' hd => ?_⟩
    cases hd
    obtain ⟨code, hext, hmakes⟩ := call_spec hs d [g] (List.forall_mem_singleton.mpr hP) ⟨"call", 1⟩
    refine ⟨code, by simpa using hext, fun c hc => ?_⟩
    obtain ⟨us, hmakes, hagree⟩ := hmakes c hc
    exact ⟨_, hmakes, .var hview hagree⟩
  · cases l with
    | atom name =>
      refine ⟨iff_of_true ⟨_, rfl⟩ (.inr (.inl ⟨name, hview⟩)), fun d' hd => ?_⟩
      cases hd
      obtain ⟨code, hext, hmakes⟩ := call_spec hs d [] (P := P) nofun ⟨name, 0⟩
      rw [hs.resolve_of_view_literal hview, Tree.vars_literal]
      refine ⟨code, hext, fun c hc => ?_⟩
      obtain ⟨us, hmakes, hagree⟩ := hmakes c hc
      rw [Agree, List.forall₂_nil_right_iff] at hagree
      exact ⟨_, hagree ▸ hmakes, .atom hview⟩
    | small _ | big _ | float _ =>
      refine ⟨iff_of_false nofun ?_, nofun⟩
      rintro (⟨v, hv⟩ | ⟨name, hname⟩ | ⟨name, args, hargs⟩)
      · cases hv
      · rw [hview] at hname
        cases hname
      · rw [hview] at hargs
        cases hargs
  · refine ⟨iff_of_true ⟨_, rfl⟩ (.inr (.inr ⟨name, args, hview⟩)), fun d' hd => ?_⟩
    cases hd
    have hargs : ∀ a ∈ args, ∀ u, s.Reaches a u → P u := fun a ha u hr =>
      hP u (((hs.reaches_deref g).tail (.arg (cell?_deref_of_view_compound hview) ha)).trans hr)
    obtain ⟨code, hext, hmakes⟩ := call_spec hs d args hargs ⟨name, args.length⟩
    rw [hs.resolve_of_view_compound hview, Tree.vars_compound, List.flatMap_map]
    refine ⟨code, hext, fun c hc => ?_⟩
    obtain ⟨us, hmakes, hagree⟩ := hmakes c hc
    exact ⟨_, hmakes, .compound hview hagree⟩

/-- What reading a block of instructions adds to the calls of a body. -/
def MakesAll (c : Clause) (code : List Instruction) (calls : List (Indicator × List Ref)) : Prop :=
  ∀ rest, c.readBody [] (code ++ rest) = (c.readBody [] rest).map (calls ++ ·)

theorem Makes.makesAll {code : List Instruction} {call : Indicator × List Ref}
    (h : Makes c code call) (hlen : call.2.length = call.1.arity) : MakesAll c code [call] := by
  obtain ⟨is, n, rfl, hpush, hpi⟩ := h
  intro rest
  rw [List.append_assoc, hpush.readBody]
  simp [readBody, hpi, hlen]

theorem MakesAll.append {code code' : List Instruction} {calls calls' : List (Indicator × List Ref)}
    (h : MakesAll c code calls) (h' : MakesAll c code' calls') :
    MakesAll c (code ++ code') (calls ++ calls') := by
  intro rest
  rw [List.append_assoc, h, h', Option.map_map]
  exact congrArg (Option.map · _) (funext fun body => (List.append_assoc _ _ _).symm)

/-- Goals can be compiled if each is a variable or callable, and then they add the calls that they
make in their order. -/
theorem goals_spec (hs : s.Acyclic) (d : Draft) (gs : List Ref)
    (hP : ∀ g ∈ gs, ∀ u, s.Reaches g u → P u) :
    ((∃ d', gs.foldlM (goal s) d = .ok d') ↔ ∀ g ∈ gs, (∃ v, s.view g = .var v) ∨ Callable s g) ∧
      ∀ d', gs.foldlM (goal s) d = .ok d' →
        ∃ code, Extends s P d d' (gs.flatMap fun g => (s.resolve g).vars) code ∧
          ∀ c, Within d' c → ∃ calls, MakesAll c code calls ∧ List.Forall₂ (Calls s) calls gs := by
  induction gs generalizing d with
  | nil =>
    refine ⟨iff_of_true ⟨d, rfl⟩ (by simp), fun d' hd => ?_⟩
    cases hd
    exact ⟨[], Extends.refl s P d, fun c _ => ⟨[], fun rest => by simp, .nil⟩⟩
  | cons g gs ih =>
    rw [List.forall_mem_cons] at hP
    obtain ⟨hok, hspec⟩ := goal_spec hs d hP.1
    rw [List.foldlM_cons, List.forall_mem_cons, ← hok]
    rcases hg : goal s d g with e | d₁
    · exact ⟨iff_of_false nofun (by simp), nofun⟩
    · obtain ⟨hoks, hspecs⟩ := ih d₁ hP.2
      obtain ⟨code, hext, hmakes⟩ := hspec d₁ hg
      refine ⟨?_, fun d' hd => ?_⟩
      · rw [← hoks]
        exact (and_iff_right ⟨d₁, rfl⟩).symm
      · obtain ⟨codes, hexts, hall⟩ := hspecs d' hd
        refine ⟨code ++ codes, hext.trans hexts, fun c hc => ?_⟩
        obtain ⟨call, hcall, hcalls⟩ := hmakes c (hc.of_extends hexts)
        obtain ⟨calls, hrest, hgs⟩ := hall c hc
        exact ⟨[call] ++ calls, (hcall.makesAll hcalls.length_eq).append hrest, .cons hcalls hgs⟩

end Draft

/-! ## Compilation -/

/-- A term is split into a head and goals in one way only. -/
theorem Splits.unique {head head' : Ref} {goals goals' : List Ref} (h : Splits s t head goals)
    (h' : Splits s t head' goals') : head = head' ∧ goals = goals' := by
  cases h with
  | rule view body =>
    cases h' with
    | rule view' body' =>
      rw [view] at view'
      cases view'
      exact ⟨rfl, body.unique body'⟩
    | fact view' => exact absurd view (view' _ _)
  | fact view =>
    cases h' with
    | rule view' _ => exact absurd view' (view _ _)
    | fact _ => exact ⟨rfl, rfl⟩

/-- Every clause has a head and goals. -/
theorem exists_splits (hs : s.Acyclic) (t : Ref) : ∃ head goals, Splits s t head goals := by
  by_cases hview : ∀ head body, s.view t ≠ .compound ":-" [head, body]
  · exact ⟨t, [], .fact hview⟩
  · simp only [not_forall, not_not] at hview
    obtain ⟨head, body, hview⟩ := hview
    obtain ⟨goals, hgoals, -⟩ := hs.conjuncts_operands body
    exact ⟨head, goals, .rule hview hgoals⟩

/-- A head has an indicator if it is callable, and then it calls that predicate. -/
theorem headIndicator_spec (s : Store) (head : Ref) :
    ((∃ pi, headIndicator s head = .ok pi) ↔ Callable s head) ∧
      ∀ pi, headIndicator s head = .ok pi → ∀ us, Agree s us (s.args head) →
        Calls s (pi, us) head := by
  simp only [headIndicator, Store.args]
  have hrefused : ∀ {e : Error} {us' : List Ref}, ¬ Callable s head →
      ((∃ pi : Indicator, Except.error e = .ok pi) ↔ Callable s head) ∧
        ∀ pi, Except.error e = .ok pi → ∀ us, Agree s us us' → Calls s (pi, us) head := by
    intro e us' hnone
    constructor
    · refine iff_of_false ?_ hnone
      rintro ⟨pi, hpi⟩
      cases hpi
    · intro pi hpi
      cases hpi
  rcases hview : s.view head with v | l | ⟨name, args⟩
  · refine hrefused ?_
    rintro (⟨name, h⟩ | ⟨name, args, h⟩) <;> rw [hview] at h <;> cases h
  · cases l with
    | atom name =>
      refine ⟨iff_of_true ⟨_, rfl⟩ (.inl ⟨name, hview⟩), fun pi hpi us hagree => ?_⟩
      cases hpi
      rw [Agree, List.forall₂_nil_right_iff] at hagree
      exact hagree ▸ .atom hview
    | small _ | big _ | float _ =>
      refine hrefused ?_
      rintro (⟨name, h⟩ | ⟨name, args, h⟩) <;> rw [hview] at h <;> cases h
  · refine ⟨iff_of_true ⟨_, rfl⟩ (.inr ⟨name, args, hview⟩), fun pi hpi us hagree => ?_⟩
    cases hpi
    exact .compound hview hagree

theorem vars_of_callable (hs : s.Acyclic) (h : Callable s t) :
    (s.resolve t).vars = (s.args t).flatMap fun u => (s.resolve u).vars := by
  rcases h with ⟨name, h⟩ | ⟨name, args, h⟩
  · rw [hs.resolve_of_view_literal h, Store.args, h, Tree.vars_literal, List.flatMap_nil]
  · rw [hs.resolve_of_view_compound h, Store.args, h, Tree.vars_compound, List.flatMap_map]

/-- The finished clause of a draft. -/
def Draft.finish (d : Draft) (pi : Indicator) (raw : Ref) : Clause :=
  { pi, raw, table := d.table, vars := d.vars, code := (d.emit .exit).code }

theorem Draft.within_finish (d : Draft) (pi : Indicator) (raw : Ref) :
    d.Within (d.finish pi raw) where
  table := List.prefix_rfl
  vars := List.prefix_rfl

theorem Draft.Extends.finish_code {P : Ref → Prop} {d : Draft} {vs : List Ref} {code : List Instruction}
    (h : Draft.Extends s P {} d vs code) (pi : Indicator) (raw : Ref) :
    (d.finish pi raw).code = code ++ [.exit] :=
  congrArg (· ++ [Instruction.exit]) h.code

theorem Draft.Extends.finish_vars {P : Ref → Prop} {d : Draft} {vs : List Ref} {code : List Instruction}
    (h : Draft.Extends s P {} d vs code) (pi : Indicator) (raw : Ref) :
    (d.finish pi raw).vars = addVars [] vs :=
  h.vars

/-- The arguments of a head, compiled. -/
def headDraft (s : Store) (head : Ref) : Draft := (s.args head).foldl (Draft.argument s) {}

theorem compile_of_isVar (h : s.isVar t = true) : compile s t = .error .instantiation := by
  simp only [compile, h, ite_true]
  rfl

theorem compile_of_fact (hvar : s.isVar t = false)
    (hview : ∀ head body, s.view t ≠ .compound ":-" [head, body]) :
    compile s t = (headIndicator s (s.deref t)).map fun pi =>
      (headDraft s (s.deref t)).finish pi (s.deref t) := by
  have hparts : headBody s t = (s.deref t, none) := by
    rw [headBody]
    split
    · exact absurd ‹_› (hview _ _)
    · rfl
  simp only [compile, hvar, Bool.false_eq_true, ite_false, hparts]
  cases headIndicator s (s.deref t) <;> rfl

theorem compile_of_rule {head body : Ref} (hview : s.view t = .compound ":-" [head, body]) :
    compile s t = (headIndicator s head).bind fun pi =>
      ((s.operands "," body).foldlM (Draft.goal s) ((headDraft s head).emit .enter)).map fun d =>
        d.finish pi (s.deref t) := by
  have hparts : headBody s t = (head, some body) := by
    simp only [headBody, hview]
  have hvar : s.isVar t = false := by
    simp only [Store.isVar, hview]
  simp only [compile, hvar, Bool.false_eq_true, ite_false, hparts]
  cases headIndicator s head with
  | error e => rfl
  | ok pi =>
    simp only [headDraft, Except.bind]
    cases h : (s.operands "," body).foldlM (Draft.goal s)
        (((s.args head).foldl (Draft.argument s) {}).emit .enter) <;>
      rfl

/-- The head of a finished clause is read from the instructions of its arguments. -/
theorem reading?_of_pushes {is tail rest : List Instruction} {calls : List (Indicator × List Ref)}
    (hpush : Pushes c is us) (hlen : us.length = c.pi.arity) (hcode : c.code = is ++ tail)
    (htail : c.readHead tail = some ([], rest)) (hbody : c.readBody [] rest = some calls) :
    c.reading? = some ⟨us, calls⟩ := by
  rw [reading?, hcode, hpush.readHead, htail]
  simp [hlen, hbody]

theorem headDraft_spec (hs : s.Acyclic) {P : Ref → Prop} (hP : ∀ u, s.Reaches head u → P u) :
    ∃ is, Draft.Extends s P {} (headDraft s head)
        ((s.args head).flatMap fun u => (s.resolve u).vars) is ∧
      ∀ c, (headDraft s head).Within c → ∃ us, Pushes c is us ∧ Agree s us (s.args head) :=
  Draft.arguments_spec hs {} (s.args head) fun _ ha u hr =>
    hP u ((hs.reaches_of_mem_args ha).trans hr)

/-- What is read off a clause `c` that was compiled from `t`. -/
structure Reads (s : Store) (t head : Ref) (goals : List Ref) (c : Clause) : Prop where
  /-- The instructions say what the clause says. -/
  reading : ∃ r, c.reading? = some r ∧ Calls s (c.pi, r.head) head ∧
    List.Forall₂ (Calls s) r.body goals
  /-- The variables are those of the clause. -/
  vars : c.vars = s.freeVars t
  /-- No two entries are equal. -/
  distinct : Distinct s c.table
  /-- The terms of the table are parts of the clause. -/
  reached : ∀ u, .term u ∈ c.table → s.Reaches t u
  /-- The clause keeps the term. -/
  raw : c.raw = s.deref t

theorem reads_of_fact (hs : s.Acyclic) (hview : ∀ head body, s.view t ≠ .compound ":-" [head, body])
    (h : compile s t = .ok c) : Callable s t ∧ Reads s t t [] c := by
  have hvar : s.isVar t = false := by
    by_contra hvar
    rw [compile_of_isVar (by simpa using hvar)] at h
    cases h
  rw [compile_of_fact hvar hview] at h
  obtain ⟨hok, hcalls⟩ := headIndicator_spec s (s.deref t)
  rcases hpi : headIndicator s (s.deref t) with e | pi
  · rw [hpi] at h
    cases h
  rw [hpi] at h
  cases h
  have hcallable := hok.mp ⟨pi, hpi⟩
  obtain ⟨is, hext, hops⟩ :=
    headDraft_spec hs fun u (hu : s.Reaches (s.deref t) u) => (hs.reaches_deref t).trans hu
  obtain ⟨us, hpush, hagree⟩ := hops _ (Draft.within_finish _ pi (s.deref t))
  have hhead := hcalls pi hpi us hagree
  refine ⟨?_, ⟨⟨us, []⟩, ?_, hhead.of_deref hs, .nil⟩, ?_, hext.distinct .nil,
    hext.terms nofun, rfl⟩
  · simpa only [Callable, hs.view_deref] using hcallable
  · exact reading?_of_pushes hpush hhead.length_eq (hext.finish_code pi _) rfl rfl
  · rw [hs.freeVars_eq, ← hs.resolve_deref, vars_of_callable hs hcallable]
    exact hext.finish_vars pi _

theorem reads_of_rule (hs : s.Acyclic) {head body : Ref} {goals : List Ref}
    (hview : s.view t = .compound ":-" [head, body]) (hbody : s.Conjuncts body goals)
    (h : compile s t = .ok c) :
    Callable s head ∧ (∀ g ∈ goals, (∃ v, s.view g = .var v) ∨ Callable s g) ∧
      Reads s t head goals c := by
  rw [compile_of_rule hview] at h
  obtain ⟨goals', hgoals', hoperands⟩ := hs.conjuncts_operands body
  obtain rfl := hbody.unique hgoals'
  obtain ⟨hok, hcalls⟩ := headIndicator_spec s head
  rcases hpi : headIndicator s head with e | pi
  · rw [hpi] at h
    cases h
  have hcallable := hok.mp ⟨pi, hpi⟩
  have hpart : ∀ u ∈ [head, body], s.Reaches t u := fun u hu =>
    (hs.reaches_deref t).tail (.arg (cell?_deref_of_view_compound hview) hu)
  have hparts : ∀ g ∈ goals.map s.deref, ∀ u, s.Reaches g u → s.Reaches t u := by
    rw [List.forall_mem_map]
    intro g hg u hu
    exact (hpart body (by simp)).trans
      ((hbody.reaches hs hg).trans ((hs.reaches_deref g).trans hu))
  obtain ⟨hoks, hspec⟩ :=
    Draft.goals_spec hs ((headDraft s head).emit .enter) (goals.map s.deref) hparts
  rcases hd : (goals.map s.deref).foldlM (Draft.goal s) ((headDraft s head).emit .enter) with e | d
  · rw [hpi, Except.bind, hoperands, hd] at h
    cases h
  rw [hpi, Except.bind, hoperands, hd] at h
  cases h
  obtain ⟨is, hext, hops⟩ :=
    headDraft_spec hs fun u (hu : s.Reaches head u) => (hpart head (by simp)).trans hu
  obtain ⟨code, hexts, hmakes⟩ := hspec d hd
  have hall := hext.trans ((Draft.extends_emit s (s.Reaches t) _ .enter).trans hexts)
  have hwithin := Draft.within_finish d pi (s.deref t)
  obtain ⟨calls, hmakes, hgoals⟩ := hmakes _ hwithin
  obtain ⟨us, hpush, hagree⟩ :=
    hops _ ((hwithin.of_extends hexts).of_extends (Draft.extends_emit s (s.Reaches t) _ .enter))
  have hhead := hcalls pi hpi us hagree
  refine ⟨hcallable, ?_, ⟨⟨us, calls⟩, ?_, hhead, ?_⟩, ?_, hall.distinct .nil,
    hall.terms nofun, rfl⟩
  · have hmap := hoks.mp ⟨d, hd⟩
    simpa only [List.forall_mem_map, Callable, hs.view_deref] using hmap
  · have hcode := hall.finish_code pi (s.deref t)
    rw [List.append_assoc, List.append_assoc] at hcode
    exact reading?_of_pushes hpush hhead.length_eq hcode rfl
      ((hmakes [.exit]).trans (by simp [readBody]))
  · rw [List.forall₂_map_right_iff] at hgoals
    exact hgoals.imp fun _ _ hcall => hcall.of_deref hs
  · have hvars : (s.resolve t).vars = (s.resolve head).vars ++ (s.resolve body).vars := by
      rw [hs.resolve_of_view_compound hview]
      simp
    rw [hs.freeVars_eq, hvars, vars_of_callable hs hcallable, hbody.vars_eq hs]
    simpa only [List.nil_append, List.flatMap_map, hs.resolve_deref] using
      hall.finish_vars pi (s.deref t)

theorem reads_of_compile (hs : s.Acyclic) {head : Ref} {goals : List Ref}
    (hsplits : Splits s t head goals) (h : compile s t = .ok c) :
    Callable s head ∧ Reads s t head goals c := by
  cases hsplits with
  | fact view => exact reads_of_fact hs view h
  | rule view body =>
    obtain ⟨hcallable, -, hreads⟩ := reads_of_rule hs view body h
    exact ⟨hcallable, hreads⟩

theorem exists_compile_of_fact (hs : s.Acyclic)
    (hview : ∀ head body, s.view t ≠ .compound ":-" [head, body]) (hcallable : Callable s t) :
    ∃ c, compile s t = .ok c := by
  have hvar : s.isVar t = false := by
    rcases hcallable with ⟨name, h⟩ | ⟨name, args, h⟩ <;> simp only [Store.isVar, h]
  have hend : Callable s (s.deref t) := by
    simpa only [Callable, hs.view_deref] using hcallable
  obtain ⟨pi, hpi⟩ := (headIndicator_spec s (s.deref t)).1.mpr hend
  exact ⟨_, by rw [compile_of_fact hvar hview, hpi]; rfl⟩

theorem exists_compile_of_rule (hs : s.Acyclic) {head body : Ref} {goals : List Ref}
    (hview : s.view t = .compound ":-" [head, body]) (hbody : s.Conjuncts body goals)
    (hcallable : Callable s head) (hgoals : ∀ g ∈ goals, (∃ v, s.view g = .var v) ∨ Callable s g) :
    ∃ c, compile s t = .ok c := by
  obtain ⟨goals', hgoals', hoperands⟩ := hs.conjuncts_operands body
  obtain rfl := hbody.unique hgoals'
  obtain ⟨pi, hpi⟩ := (headIndicator_spec s head).1.mpr hcallable
  have hends : ∀ g ∈ goals.map s.deref, (∃ v, s.view g = .var v) ∨ Callable s g := by
    simpa only [List.forall_mem_map, Callable, hs.view_deref] using hgoals
  obtain ⟨d, hd⟩ := (Draft.goals_spec hs ((headDraft s head).emit .enter) _
    (P := fun _ => True) fun _ _ _ _ => trivial).1.mpr hends
  exact ⟨_, by rw [compile_of_rule hview, hpi, Except.bind, hoperands, hd]; rfl⟩

theorem isVar_iff (s : Store) (t : Ref) : s.isVar t = true ↔ ∃ v, s.view t = .var v := by
  rw [Store.isVar]
  rcases s.view t with v | l | ⟨name, args⟩ <;> simp

theorem Distinct.ne (h : Distinct s c.table) {i j : Nat} {e e' : Entry} (hij : i ≠ j)
    (he : c.table[i]? = some e) (he' : c.table[j]? = some e') : sameEntry s e e' = false := by
  obtain ⟨hi, rfl⟩ := List.getElem?_eq_some_iff.mp he
  obtain ⟨hj, rfl⟩ := List.getElem?_eq_some_iff.mp he'
  rw [Distinct, List.pairwise_iff_getElem] at h
  rcases Nat.lt_or_gt_of_ne hij with hlt | hlt
  · exact h i j hi hj hlt
  · rw [sameEntry_comm]
    exact h j i hj hi hlt

/-- **Compilation is faithful.**  A clause compiles exactly if it is no variable, its head is
callable, and every goal of its body is a variable or callable.  The instructions then read back as
the arguments of the head and, in their order, the calls of the goals; the variables are those of the
clause in the order in which they occur; and no two entries of the table are equal. -/
theorem compile_reads (hs : s.Acyclic) (t : Ref) :
    ∃ head goals, Splits s t head goals ∧
      ((∃ c, compile s t = .ok c) ↔
        s.isVar t = false ∧ Callable s head ∧ ∀ g ∈ goals, s.isVar g = true ∨ Callable s g) ∧
      ∀ c, compile s t = .ok c →
        (∃ r, c.reading? = some r ∧ Calls s (c.pi, r.head) head ∧
          List.Forall₂ (Calls s) r.body goals) ∧
        c.vars = s.freeVars t ∧
        ∀ (i j : Nat) (e e' : Entry), i ≠ j → c.table[i]? = some e → c.table[j]? = some e' →
          sameEntry s e e' = false := by
  obtain ⟨head, goals, hsplits⟩ := exists_splits hs t
  refine ⟨head, goals, hsplits, ?_⟩
  simp only [isVar_iff]
  cases hsplits with
  | fact hview =>
    refine ⟨⟨?_, fun h => exists_compile_of_fact hs hview h.2.1⟩, fun c hc => ?_⟩
    · rintro ⟨c, hc⟩
      have hcallable := (reads_of_fact hs hview hc).1
      refine ⟨?_, hcallable, by simp⟩
      rcases hcallable with ⟨name, h⟩ | ⟨name, args, h⟩ <;> simp only [Store.isVar, h]
    · obtain ⟨-, hreads⟩ := reads_of_fact hs hview hc
      exact ⟨hreads.reading, hreads.vars, fun i j e e' => hreads.distinct.ne⟩
  | rule hview hbody =>
    refine ⟨⟨?_, fun h => exists_compile_of_rule hs hview hbody h.2.1 h.2.2⟩, fun c hc => ?_⟩
    · rintro ⟨c, hc⟩
      obtain ⟨hcallable, hgoals, -⟩ := reads_of_rule hs hview hbody hc
      exact ⟨by simp only [Store.isVar, hview], hcallable, hgoals⟩
    · obtain ⟨-, -, hreads⟩ := reads_of_rule hs hview hbody hc
      exact ⟨hreads.reading, hreads.vars, fun i j e e' => hreads.distinct.ne⟩

/-- The clause `p(X, f(X)) :- q(f(X)), Y`: the template `f(X)` has one entry, and `Y` is called. -/
theorem compile_reads_rule : ∃ s t c head goals, s.Acyclic ∧ compile s t = .ok c ∧
    c.table.length = 3 ∧ c.vars.length = 2 ∧ Splits s t head goals ∧
    (∃ r, c.reading? = some r ∧ Calls s (c.pi, r.head) head ∧ List.Forall₂ (Calls s) r.body goals) ∧
    c.vars = s.freeVars t := by
  let x : Term := .var ⟨0, none⟩
  let fx : Term := .compound "f" [x]
  let rule : Term := .compound ":-" [.compound "p" [x, fx],
    .compound "," [.compound "q" [fx], .var ⟨1, none⟩]]
  let built := ({} : Store).build rule
  have hx : x.WellMade := .var _
  have hfx : fx.WellMade := .compound nofun (List.forall_mem_singleton.mpr hx)
  have hrule : rule.WellMade := by
    refine .compound nofun (List.forall_mem_cons.mpr ⟨?_, List.forall_mem_singleton.mpr ?_⟩)
    · exact .compound nofun (List.forall_mem_cons.mpr ⟨hx, List.forall_mem_singleton.mpr hfx⟩)
    · refine .compound nofun (List.forall_mem_cons.mpr ⟨?_, List.forall_mem_singleton.mpr (.var _)⟩)
      exact .compound nofun (List.forall_mem_singleton.mpr hfx)
  have hacyclic : built.2.Acyclic :=
    ((Adds.refl wellFormed_empty).build hrule).adds.wellFormed.acyclic
  have hok : (match compile built.2 built.1 with
      | .ok c => c.table.length == 3 && c.vars.length == 2
      | .error _ => false) = true := by decide +kernel
  rcases hc : compile built.2 built.1 with e | c
  · rw [hc] at hok
    cases hok
  · rw [hc, Bool.and_eq_true, beq_iff_eq, beq_iff_eq] at hok
    obtain ⟨head, goals, hsplits, -, hreads⟩ := compile_reads hacyclic built.1
    obtain ⟨hreading, hvars, -⟩ := hreads c hc
    exact ⟨_, _, c, head, goals, hacyclic, hc, hok.1, hok.2, hsplits, hreading, hvars⟩

end Clausal.Clause
