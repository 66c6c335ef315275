import Clausal.TermWriter
import Clausal.Proofs.Store.GapOperations

/-! # Traversals end

Every function that follows terms counts levels down.  The count is there because nothing in the type
of a store forbids a cycle; it is not part of what the functions compute.  In a store without cycles
the edges are well founded (`acyclic_iff_wellFounded`), and each of the functions obeys an equation from
which the count is gone: what it gives at a place is what it gives at the places that this one points
at, put together (`Traversable`).  Recursion along well-founded edges ends, so on such a store the
functions without a count end on every place, and give what these give.

That the count does not matter is the case of an empty gap of what is known of stores with cells put
in (`Shifted`).  Copying is the one traversal that changes the store while it goes on, so the count of
each argument is taken in the store that the copies before it left.
-/

namespace Clausal

@[simp] theorem Gap.listEnd_empty (e : ListEnd) : Gap.empty.listEnd e = e := by
  cases e <;> rfl

@[simp] theorem Gap.entries_empty (fresh : Renaming) : Gap.empty.entries fresh = fresh :=
  List.map_id fresh

namespace Store

variable {s : Store} {t u : Ref} {n m : Nat} {fresh : Renaming}

/-! ## Well-founded edges -/

/-- No path comes back to where it began if and only if none goes on for ever. -/
theorem acyclic_iff_wellFounded : s.Acyclic ↔ WellFounded fun u t => s.Points t u := by
  refine ⟨fun hs => ⟨fun t => hs.induction (fun t ih => Acc.intro t ih) t⟩, fun h t => ?_⟩
  induction t using h.induction with
  | h t ih =>
    intro hcycle
    obtain ⟨u, hp, hr⟩ := Relation.TransGen.head'_iff.mp hcycle
    exact ih u hp (.tail' hr hp)

/-! ## Equations without a count -/

theorem Acyclic.deref_eq (hs : s.Acyclic) (t : Ref) :
    s.deref t = match s.cell? t with
      | some (.var _ (some next)) => s.deref next
      | _ => t := by
  split
  · exact hs.deref_of_bound ‹_›
  · rename_i hcell
    exact deref_of_not_bound fun ⟨name, u, hb⟩ => hcell name u hb

/-- The variables of a compound are those of its arguments, from left to right. -/
theorem Acyclic.freeVarsFrom_rec (hs : s.Acyclic) (vars : List Ref) (t : Ref) :
    s.freeVarsFrom (s.size + 1) vars t = match s.view t with
      | .var v => if vars.contains v then vars else vars ++ [v]
      | .literal _ => vars
      | .compound _ args => args.foldl (s.freeVarsFrom (s.size + 1)) vars := by
  rw [Store.freeVarsFrom]
  rcases hview : s.view t with v | l | ⟨name, args⟩
  · rfl
  · rfl
  · refine List.foldl_ext _ _ _ fun vars u hu => ?_
    have hlt := hs.rank_lt_of_view hview hu
    have hle := s.rank_le_size t
    have hwider := (Wider.refl s).freeVarsFrom hs (show s.rank u < s.size + 1 by omega)
      (show s.rank u < s.size by omega) vars
    simpa [Gap.ref_empty_eq] using hwider

theorem Acyclic.isGround_eq (hs : s.Acyclic) (t : Ref) :
    s.isGround t = match s.view t with
      | .var _ => false
      | .literal _ => true
      | .compound _ args => args.all s.isGround := by
  rw [Store.isGround, groundFrom]
  rcases hview : s.view t with v | l | ⟨name, args⟩
  · rfl
  · rfl
  · have hargs : ∀ u ∈ args, s.groundFrom s.size u = s.isGround u := fun u hu => by
      have hlt := hs.rank_lt_of_view hview hu
      have hle := s.rank_le_size t
      exact (Wider.refl s).groundFrom hs (by omega) (by omega)
    rw [Bool.eq_iff_iff, List.all_eq_true, List.all_eq_true]
    exact forall₂_congr fun u hu => by rw [hargs u hu]

theorem Acyclic.listShape_eq (hs : s.Acyclic) (t : Ref) :
    s.listShape t = match s.view t with
      | .compound name [head, tail] =>
        if name = "." then (head :: (s.listShape tail).1, (s.listShape tail).2)
        else ([], .improper (s.deref t))
      | .literal l => ([], if l = .atom "[]" then .proper else .improper (s.deref t))
      | .var v => ([], .partly v)
      | _ => ([], .improper (s.deref t)) := by
  rw [Store.listShape, listFrom_succ]
  rcases hview : s.view t with v | l | ⟨name, _ | ⟨head, _ | ⟨tail, _ | ⟨x, xs⟩⟩⟩⟩
  case compound.cons.cons.nil =>
    have hlt := hs.rank_lt_of_view hview (u := tail) (by simp)
    have hle := s.rank_le_size t
    have htail : s.listShape tail =
        ((s.listFrom s.size tail).1.map id, Gap.empty.listEnd (s.listFrom s.size tail).2) :=
      (Wider.refl s).listFrom hs (by omega) (by omega)
    simp only [htail, List.map_id, Gap.listEnd_empty]
  all_goals rfl

theorem Acyclic.snapshot_eq (hs : s.Acyclic) (t : Ref) :
    s.snapshot t = match s.view t with
      | .var v => .var ⟨v.index, s.varName? v⟩
      | .literal l => .literal l
      | .compound name args => .compound name (args.map s.snapshot) := by
  rw [Store.snapshot, snapshotFrom]
  rcases hview : s.view t with v | l | ⟨name, args⟩
  · rfl
  · rfl
  · refine congrArg _ (List.map_congr_left fun u hu => ?_)
    have hlt := hs.rank_lt_of_view hview hu
    have hle := s.rank_le_size t
    exact hs.snapshotFrom_eq (by omega) (by omega)

/-- Two compounds of one name and length are compared by their arguments, from left to right. -/
theorem Acyclic.compare_eq (hs : s.Acyclic) (a b : Ref) :
    s.compare a b =
      if s.deref a = s.deref b then .eq
      else match s.view a, s.view b with
        | .var x, .var y => Ord.compare x.index y.index
        | .var _, _ => .lt
        | _, .var _ => .gt
        | .literal x, .literal y => x.compare y
        | .literal _, .compound _ _ => .lt
        | .compound _ _, .literal _ => .gt
        | .compound f xs, .compound g ys =>
          (Ord.compare xs.length ys.length).then <| (Ord.compare f g).then <|
            xs.compareLex s.compare ys := by
  have hargs : ∀ us vs : List Ref, (∀ u ∈ us, s.rank u < s.size) →
      us.compareLex (s.compareFrom s.size) vs = us.compareLex s.compare vs := by
    intro us
    induction us with
    | nil => intro vs _; cases vs <;> rfl
    | cons u us ih =>
      intro vs hus
      rw [List.forall_mem_cons] at hus
      cases vs with
      | nil => rfl
      | cons v vs =>
        have hfirst : s.compare u v = s.compareFrom s.size u v :=
          (Wider.refl s).compareFrom hs hus.1 (by omega) v
        rw [List.compareLex_cons_cons, List.compareLex_cons_cons, hfirst, ih vs hus.2]
  rw [Store.compare, compareFrom]
  simp only [hs.view_deref]
  split
  · rfl
  · rcases hview : s.view a with v | l | ⟨f, xs⟩ <;> rcases s.view b with w | m | ⟨g, ys⟩
    case compound.compound =>
      have hxs : ∀ x ∈ xs, s.rank x < s.size := fun x hx =>
        Nat.lt_of_lt_of_le (hs.rank_lt_of_view hview hx) (s.rank_le_size a)
      simp only [hargs xs ys hxs]
    all_goals rfl

/-! ## Copying -/

theorem CopiesWide.eq_of_empty {α : Type} {r r' : α × Store × Renaming}
    (h : CopiesWide .empty id r r') : r' = r :=
  Prod.ext h.value (Prod.ext h.store.eq_of_empty (h.fresh.trans (Gap.entries_empty _)))

/-- The arguments of a compound are copied one after the other, each in the store that the copies
before it left. -/
theorem WellFormed.copyWith_eq (hs : s.WellFormed) (hr : fresh.InRange s) (t : Ref) :
    s.copyWith fresh t = match s.cell? (s.deref t) with
      | some (.compound name args) =>
        let (copies, s₁, fresh₁) := copyAll (fun st u => st.1.copyWith st.2 u) (s, fresh) args
        if copies = args then (s.deref t, s₁, fresh₁)
        else ((s₁.push (.compound name copies)).1, (s₁.push (.compound name copies)).2, fresh₁)
      | some (.var _ _) =>
        match fresh.lookup (s.deref t) with
        | some copy => (copy, s, fresh)
        | none => ((s.var none).1, (s.var none).2, (s.deref t, (s.var none).1) :: fresh)
      | _ => (s.deref t, s, fresh) := by
  rw [copyWith, copyFrom]
  rcases hc : s.cell? (s.deref t) with _ | ⟨l | ⟨name, args⟩ | ⟨name, binding⟩⟩
  case some.compound =>
    have hargs : ∀ u ∈ args, u.index < s.size ∧ s.rank u < s.size := fun u hu => by
      have hp : s.Points (s.deref t) u := .arg hc hu
      exact ⟨hs.closed hp, Nat.lt_of_lt_of_le (hs.acyclic.rank_lt hp) (s.rank_le_size _)⟩
    have hall : CopiesWide .empty (List.map Gap.empty.ref) (copyAll (copyFrom s.size) (s, fresh) args)
        (copyAll (fun st u => st.1.copyWith st.2 u) (s, Gap.empty.entries fresh)
          (args.map Gap.empty.ref)) := copiesWide_copyAll (fun s₁ u => s₁.rank u < s.size)
      (fun hs₁ hr₁ hu hb => copies_copyFrom hs₁ hr₁ hu hb)
      (fun h hs₁ hr₁ hu hb => copiesWide_copyFrom h hs₁ hr₁ hu hb <|
        Nat.lt_succ_of_le ((rank_le_size _ _).trans h.size_le))
      (fun hgrows hs₁ hu hb => Nat.lt_of_le_of_lt (hgrows.rank_le hs₁ hu) hb)
      (Wider.refl s) hs hr hargs
    rw [Gap.ref_empty_eq, Gap.entries_empty, List.map_id, List.map_id_fun] at hall
    dsimp only
    rw [hall.eq_of_empty]
  all_goals rfl

/-- Copying leaves the cells that there were as they are. -/
theorem WellFormed.cell?_copyWith (hs : s.WellFormed) (hr : fresh.InRange s)
    (ht : t.index < s.size) (hu : u.index < s.size) :
    (s.copyWith fresh t).2.1.cell? u = s.cell? u :=
  (copies_copyWith hs hr ht).grows.kept hu List.not_mem_nil

/-! ## Writing -/

theorem argPieces_map (w : TermWriter) (form : Form) (i : Nat) (f : Ref → Term) (us : List Ref) :
    w.argPieces form i (us.map f) = us.mapIdx fun j u => w.pieces (form.place (i + j)) (f u) := by
  induction us generalizing i with
  | nil => rw [List.map_nil, TermWriter.argPieces, List.mapIdx_nil]
  | cons u us ih =>
    rw [List.map_cons, TermWriter.argPieces, ih, List.mapIdx_cons]
    simp only [Nat.add_right_comm, Nat.add_zero, Nat.add_assoc]

/-- A place is written by what it stands for, the arguments of a compound each at a place of its
own. -/
theorem Acyclic.pieces_snapshot_eq (hs : s.Acyclic) (w : TermWriter) (place : Place) (t : Ref) :
    w.pieces place (s.snapshot t) = match s.view t with
      | .var v => place.opening ++ [.token (TermWriter.variableName ⟨v.index, s.varName? v⟩)]
      | .literal l =>
        if place = .tail && l = .atom "[]" then [] else place.opening ++ w.literal place.limit l
      | .compound name args =>
        let form := w.form name (args.map s.snapshot)
        w.assemble place form name
          (args.mapIdx fun i u => w.pieces (form.place i) (s.snapshot u)) := by
  rw [hs.snapshot_eq]
  rcases s.view t with v | l | ⟨name, args⟩
  · rw [TermWriter.pieces]
  · rw [TermWriter.pieces]
  · simp only [TermWriter.pieces, argPieces_map, Nat.zero_add]

/-! ## Traversals of a well-formed store -/

/-- The edges of the store are well founded, and each traversal gives at a place what it gives at the
places that this one points at, put together. -/
structure Traversable (s : Store) : Prop where
  /-- No path goes on for ever. -/
  wellFounded : WellFounded fun u t => s.Points t u
  /-- Following bindings. -/
  deref (t : Ref) : s.deref t = match s.cell? t with
    | some (.var _ (some next)) => s.deref next
    | _ => t
  /-- The standard order. -/
  compare (a b : Ref) : s.compare a b =
    if s.deref a = s.deref b then .eq
    else match s.view a, s.view b with
      | .var x, .var y => Ord.compare x.index y.index
      | .var _, _ => .lt
      | _, .var _ => .gt
      | .literal x, .literal y => x.compare y
      | .literal _, .compound _ _ => .lt
      | .compound _ _, .literal _ => .gt
      | .compound f xs, .compound g ys =>
        (Ord.compare xs.length ys.length).then <| (Ord.compare f g).then <|
          xs.compareLex s.compare ys
  /-- Collecting the free variables. -/
  freeVars (vars : List Ref) (t : Ref) : s.freeVarsFrom (s.size + 1) vars t = match s.view t with
    | .var v => if vars.contains v then vars else vars ++ [v]
    | .literal _ => vars
    | .compound _ args => args.foldl (s.freeVarsFrom (s.size + 1)) vars
  /-- Whether there is no free variable. -/
  isGround (t : Ref) : s.isGround t = match s.view t with
    | .var _ => false
    | .literal _ => true
    | .compound _ args => args.all s.isGround
  /-- Reading a list. -/
  listShape (t : Ref) : s.listShape t = match s.view t with
    | .compound name [head, tail] =>
      if name = "." then (head :: (s.listShape tail).1, (s.listShape tail).2)
      else ([], .improper (s.deref t))
    | .literal l => ([], if l = .atom "[]" then .proper else .improper (s.deref t))
    | .var v => ([], .partly v)
    | _ => ([], .improper (s.deref t))
  /-- Taking a term out of the store. -/
  snapshot (t : Ref) : s.snapshot t = match s.view t with
    | .var v => .var ⟨v.index, s.varName? v⟩
    | .literal l => .literal l
    | .compound name args => .compound name (args.map s.snapshot)
  /-- Copying, under any renaming. -/
  copyWith (fresh : Renaming) (hr : fresh.InRange s) (t : Ref) :
    s.copyWith fresh t = match s.cell? (s.deref t) with
      | some (.compound name args) =>
        let (copies, s₁, fresh₁) := copyAll (fun st u => st.1.copyWith st.2 u) (s, fresh) args
        if copies = args then (s.deref t, s₁, fresh₁)
        else ((s₁.push (.compound name copies)).1, (s₁.push (.compound name copies)).2, fresh₁)
      | some (.var _ _) =>
        match fresh.lookup (s.deref t) with
        | some copy => (copy, s, fresh)
        | none => ((s.var none).1, (s.var none).2, (s.deref t, (s.var none).1) :: fresh)
      | _ => (s.deref t, s, fresh)
  /-- Copying an argument leaves the cells of the others as they are. -/
  cell?_copyWith (fresh : Renaming) (hr : fresh.InRange s) (t u : Ref) (ht : t.index < s.size)
    (hu : u.index < s.size) : (s.copyWith fresh t).2.1.cell? u = s.cell? u
  /-- Writing, under any operators. -/
  pieces (w : TermWriter) (place : Place) (t : Ref) :
    w.pieces place (s.snapshot t) = match s.view t with
      | .var v => place.opening ++ [.token (TermWriter.variableName ⟨v.index, s.varName? v⟩)]
      | .literal l =>
        if place = .tail && l = .atom "[]" then [] else place.opening ++ w.literal place.limit l
      | .compound name args =>
        let form := w.form name (args.map s.snapshot)
        w.assemble place form name
          (args.mapIdx fun i u => w.pieces (form.place i) (s.snapshot u))

/-- **On a well-formed store every traversal ends.** -/
theorem WellFormed.traversals_end (hs : s.WellFormed) : s.Traversable where
  wellFounded := acyclic_iff_wellFounded.mp hs.acyclic
  deref := hs.acyclic.deref_eq
  compare := hs.acyclic.compare_eq
  freeVars := hs.acyclic.freeVarsFrom_rec
  isGround := hs.acyclic.isGround_eq
  listShape := hs.acyclic.listShape_eq
  snapshot := hs.acyclic.snapshot_eq
  copyWith _ hr := hs.copyWith_eq hr
  cell?_copyWith _ hr _ _ ht hu := hs.cell?_copyWith hr ht hu
  pieces := hs.acyclic.pieces_snapshot_eq

end Store

end Clausal
