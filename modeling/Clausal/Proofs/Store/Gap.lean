import Clausal.Directive
import Clausal.Proofs.Store.Copying
import Clausal.Proofs.Store.Order
import Clausal.Proofs.Store.Unification

/-! # Stores with cells put in

Cells are never given back, so what a store holds besides the terms at hand shifts the places of all
later cells.  `Wider gap s s'` says that `s'` is `s` with a row of cells put in, the `gap`.  Every
operation on the wider store does what it does on the other one, with all places past the gap
shifted: the bounds on levels grow with the store, but on a store without cycles they do not matter,
and places keep their order, so the older of two variables is the older in both.
-/

namespace Clausal

/-- A row of cells that one store has and another has not. -/
structure Gap where
  /-- The place of the first of them. -/
  start : Nat
  /-- How many there are. -/
  width : Nat
  deriving DecidableEq, Repr

/-! ## Shifting places -/

mutual

/-- The term with its variables numbered anew. -/
def Term.renumber (f : Nat → Nat) : Term → Term
  | .literal l => .literal l
  | .compound name args => .compound name (Term.renumberAll f args)
  | .var v => .var { v with id := f v.id }

/-- The terms with their variables numbered anew. -/
def Term.renumberAll (f : Nat → Nat) : List Term → List Term
  | [] => []
  | t :: ts => t.renumber f :: Term.renumberAll f ts

end

theorem Term.renumberAll_eq (f : Nat → Nat) (ts : List Term) :
    Term.renumberAll f ts = ts.map (Term.renumber f) := by
  induction ts with
  | nil => rfl
  | cons t ts ih => rw [Term.renumberAll, ih, List.map_cons]

namespace Gap

variable (gap : Gap) {i j : Nat} {t u : Ref}

/-- Where a place is in the wider store. -/
def place (i : Nat) : Nat := if i < gap.start then i else i + gap.width

/-- The name of the cell in the wider store. -/
def ref (t : Ref) : Ref := ⟨gap.place t.index⟩

/-- The cell with the places in it shifted. -/
def cell : Cell → Cell
  | .literal l => .literal l
  | .compound name args => .compound name (args.map gap.ref)
  | .var name binding => .var name (binding.map gap.ref)

/-- The view with the places in it shifted. -/
def view : View → View
  | .var v => .var (gap.ref v)
  | .literal l => .literal l
  | .compound name args => .compound name (args.map gap.ref)

/-- The term with its variables numbered as in the wider store. -/
def term (t : Term) : Term := t.renumber gap.place

/-- The renaming between the places of the wider store. -/
def entries (fresh : Renaming) : Renaming := fresh.map fun (v, x) => (gap.ref v, gap.ref x)

/-- The end of a chain with the place in it shifted. -/
def listEnd : ListEnd → ListEnd
  | .proper => .proper
  | .partly tail => .partly (gap.ref tail)
  | .improper tail => .improper (gap.ref tail)

theorem place_lt_iff : gap.place i < gap.place j ↔ i < j := by
  simp only [place]
  split <;> split <;> omega

theorem place_injective : Function.Injective gap.place := by
  intro i j h
  simp only [place] at h
  split at h <;> split at h <;> omega

theorem place_of_le (h : gap.start ≤ i) : gap.place i = i + gap.width :=
  if_neg (Nat.not_lt.mpr h)

theorem ref_injective : Function.Injective gap.ref := by
  intro t u h
  exact congrArg Ref.mk (gap.place_injective (congrArg Ref.index h))

@[simp] theorem ref_inj : gap.ref t = gap.ref u ↔ t = u := gap.ref_injective.eq_iff

@[simp] theorem term_literal (l : Literal) : gap.term (.literal l) = .literal l := by
  rw [term, Term.renumber]

@[simp] theorem term_var (v : TermVar) : gap.term (.var v) = .var ⟨gap.place v.id, v.name⟩ := by
  rw [term, Term.renumber]

@[simp] theorem term_compound (name : String) (args : List Term) :
    gap.term (.compound name args) = .compound name (args.map gap.term) := by
  rw [term, Term.renumber, Term.renumberAll_eq]
  rfl

/-! ## No gap -/

/-- No cells at all. -/
def empty : Gap := ⟨0, 0⟩

@[simp] theorem ref_empty (t : Ref) : empty.ref t = t := rfl

theorem ref_empty_eq : empty.ref = id := rfl

@[simp] theorem cell_empty (c : Cell) : empty.cell c = c := by
  rcases c with l | ⟨name, args⟩ | ⟨name, binding⟩
  · rfl
  · rw [cell, ref_empty_eq, List.map_id]
  · rw [cell, ref_empty_eq, Option.map_id]
    rfl

end Gap

/-- Looking up a key that is renamed without confusion. -/
theorem lookup_map_injective {κ κ' ν ν' : Type} [BEq κ] [BEq κ'] [LawfulBEq κ] [LawfulBEq κ']
    {f : κ → κ'} (hf : Function.Injective f) (g : ν → ν') (l : List (κ × ν)) (k : κ) :
    (l.map fun e => (f e.1, g e.2)).lookup (f k) = (l.lookup k).map g := by
  induction l with
  | nil => rfl
  | cons e l ih =>
    obtain ⟨k', v⟩ := e
    rw [List.map_cons, List.lookup_cons, List.lookup_cons, ih]
    by_cases h : k = k'
    · simp [h]
    · rw [beq_eq_false_iff_ne.mpr h, beq_eq_false_iff_ne.mpr fun heq => h (hf heq)]

theorem Gap.lookup_entries (gap : Gap) (fresh : Renaming) (v : Ref) :
    (gap.entries fresh).lookup (gap.ref v) = (fresh.lookup v).map gap.ref :=
  lookup_map_injective gap.ref_injective gap.ref fresh v

namespace Store

variable {gap : Gap} {s s' : Store} {a b t u v : Ref} {ts : List Ref} {n n' : Nat}

/-- The cells of the second store are those of the first with cells put in. -/
structure Shifted (gap : Gap) (s s' : Store) : Prop where
  /-- The gap is among the cells of the store or after them. -/
  le : gap.start ≤ s.size
  /-- There are so many cells more. -/
  size : s'.size = s.size + gap.width
  /-- The cells of the first store are in the second, with the places in them shifted. -/
  cell : ∀ t, s'.cell? (gap.ref t) = (s.cell? t).map gap.cell

/-- The second store is the first with cells put in. -/
structure Wider (gap : Gap) (s s' : Store) : Prop extends Shifted gap s s' where
  /-- The same variables are bound. -/
  trail : s'.trail.toList = s.trail.toList.map gap.ref

/-- What an operation gives is the same up to `φ`, and the stores after it are related. -/
structure Widens {α β : Type} (R : Store → Store → Prop) (φ : α → β) (r : α × Store)
    (r' : β × Store) : Prop where
  /-- What it gives. -/
  value : r'.1 = φ r.1
  /-- The stores after it. -/
  store : R r.2 r'.2

namespace Shifted

/-! ## Looking at terms -/

theorem size_le (h : Shifted gap s s') : s.size ≤ s'.size := h.size ▸ Nat.le_add_right _ _

theorem derefFrom (h : Shifted gap s s') (hs : s.Acyclic) (hn : s.rank t ≤ n) (hn' : s.rank t ≤ n') :
    s'.derefFrom n' (gap.ref t) = gap.ref (s.derefFrom n t) := by
  rw [hs.derefFrom_eq hn hn']
  clear hn hn'
  induction n' generalizing t with
  | zero => rfl
  | succ n' ih =>
    rw [Store.derefFrom, Store.derefFrom, h.cell]
    rcases s.cell? t with _ | ⟨l | ⟨name, args⟩ | ⟨name, _ | u⟩⟩
    · rfl
    · rfl
    · rfl
    · rfl
    · exact ih

theorem deref (h : Shifted gap s s') (hs : s.Acyclic) (t : Ref) :
    s'.deref (gap.ref t) = gap.ref (s.deref t) :=
  h.derefFrom hs (s.rank_le_size t) ((s.rank_le_size t).trans h.size_le)

theorem view (h : Shifted gap s s') (hs : s.Acyclic) (t : Ref) :
    s'.view (gap.ref t) = gap.view (s.view t) := by
  simp only [Store.view, h.deref hs, h.cell]
  rcases s.cell? (s.deref t) with _ | ⟨l | ⟨name, args⟩ | ⟨name, binding⟩⟩ <;> rfl

theorem isVar (h : Shifted gap s s') (hs : s.Acyclic) (t : Ref) :
    s'.isVar (gap.ref t) = s.isVar t := by
  simp only [Store.isVar, h.view hs]
  rcases s.view t with v | l | ⟨name, args⟩ <;> rfl

theorem varName? (h : Shifted gap s s') (hs : s.Acyclic) (t : Ref) :
    s'.varName? (gap.ref t) = s.varName? t := by
  simp only [Store.varName?, h.deref hs, h.cell]
  rcases s.cell? (s.deref t) with _ | ⟨l | ⟨name, args⟩ | ⟨name, binding⟩⟩ <;> rfl

theorem args (h : Shifted gap s s') (hs : s.Acyclic) (t : Ref) :
    s'.args (gap.ref t) = (s.args t).map gap.ref := by
  simp only [Store.args, h.view hs]
  rcases s.view t with v | l | ⟨name, args⟩ <;> rfl

end Shifted

theorem cell?_eq_none (h : s.size ≤ t.index) : s.cell? t = none := Array.getElem?_eq_none h

theorem cell?_bind (s : Store) (v u t : Ref) :
    (s.bind v u).cell? t = if t = v then (s.cell? t).map fun
        | .var name _ => .var name (some u)
        | c => c
      else s.cell? t := by
  obtain ⟨i⟩ := t
  obtain ⟨j⟩ := v
  show (setBinding s.cells ⟨j⟩ (some u))[i]? = _
  rw [setBinding, Array.getElem?_modify]
  by_cases hij : j = i
  · rw [if_pos hij, if_pos (congrArg Ref.mk hij.symm)]
    rfl
  · rw [if_neg hij, if_neg fun heq => hij (congrArg Ref.index heq).symm]
    rfl

theorem listFrom_succ (s : Store) (n : Nat) (t : Ref) :
    s.listFrom (n + 1) t = match s.view t with
      | .compound name [head, tail] =>
        if name = "." then (head :: (s.listFrom n tail).1, (s.listFrom n tail).2)
        else ([], .improper (s.deref t))
      | .literal l => ([], if l = .atom "[]" then .proper else .improper (s.deref t))
      | .var v => ([], .partly v)
      | _ => ([], .improper (s.deref t)) := by
  rw [Store.listFrom.eq_def]
  dsimp only
  rcases s.view t with v | l | ⟨name, _ | ⟨x, _ | ⟨y, _ | ⟨z, zs⟩⟩⟩⟩
  case literal => by_cases hl : l = .atom "[]" <;> simp [hl]
  case compound.cons.cons.nil => by_cases hname : name = "." <;> simp [hname]
  all_goals simp

namespace Shifted

/-- Variables are added in the same order. -/
theorem freeVarsFrom (h : Shifted gap s s') (hs : s.Acyclic) (hn : s.rank t < n)
    (hn' : s.rank t < n') (vars : List Ref) :
    s'.freeVarsFrom n' (vars.map gap.ref) (gap.ref t) = (s.freeVarsFrom n vars t).map gap.ref := by
  induction n generalizing n' t vars with
  | zero => omega
  | succ n ih =>
    obtain ⟨n', rfl⟩ := Nat.exists_eq_add_of_lt (Nat.zero_lt_of_lt hn')
    rw [Nat.zero_add, Store.freeVarsFrom, Store.freeVarsFrom, h.view hs]
    rcases hview : s.view t with v | l | ⟨name, args⟩
    · simp only [Gap.view, List.contains_eq_mem, List.mem_map, Gap.ref_inj, exists_eq_right]
      split
      · rfl
      · rw [List.map_append, List.map_singleton]
    · rfl
    · have hargs : ∀ us : List Ref, (∀ u ∈ us, u ∈ args) → ∀ vars : List Ref,
          (us.map gap.ref).foldl (s'.freeVarsFrom n') (vars.map gap.ref) =
            (us.foldl (s.freeVarsFrom n) vars).map gap.ref := by
        intro us hus
        induction us with
        | nil => exact fun _ => rfl
        | cons u us ih' =>
          intro vars
          have hlt := hs.rank_lt_of_view hview (hus u List.mem_cons_self)
          rw [List.map_cons, List.foldl_cons, List.foldl_cons, ih (by omega) (by omega)]
          exact ih' (fun u hu => hus u (List.mem_cons_of_mem _ hu)) _
      exact hargs args (fun _ => id) vars

theorem freeVars (h : Shifted gap s s') (hs : s.Acyclic) (t : Ref) :
    s'.freeVars (gap.ref t) = (s.freeVars t).map gap.ref := by
  have hle := s.rank_le_size t
  have hsize := h.size_le
  exact h.freeVarsFrom hs (by omega) (by omega) []

theorem listFrom (h : Shifted gap s s') (hs : s.Acyclic) (hn : s.rank t < n) (hn' : s.rank t < n') :
    s'.listFrom n' (gap.ref t) =
      ((s.listFrom n t).1.map gap.ref, gap.listEnd (s.listFrom n t).2) := by
  induction n generalizing n' t with
  | zero => omega
  | succ n ih =>
    obtain ⟨n', rfl⟩ := Nat.exists_eq_add_of_lt (Nat.zero_lt_of_lt hn')
    rw [Nat.zero_add, listFrom_succ, listFrom_succ, h.view hs, h.deref hs]
    rcases hview : s.view t with v | l | ⟨name, args⟩
    · rfl
    · by_cases hl : l = .atom "[]"
      · simp [hl, Gap.view, Gap.listEnd]
      · simp [hl, Gap.view, Gap.listEnd]
    · rcases args with _ | ⟨x, _ | ⟨y, _ | ⟨z, zs⟩⟩⟩
      case cons.cons.nil =>
        have hy := hs.rank_lt_of_view hview (u := y) (by simp)
        have hrest : s'.listFrom n' (gap.ref y) =
            ((s.listFrom n y).1.map gap.ref, gap.listEnd (s.listFrom n y).2) :=
          ih (by omega) (by omega)
        by_cases hname : name = "."
        · simp [hname, Gap.view, hrest]
        · simp [hname, Gap.view, Gap.listEnd]
      all_goals rfl

theorem listShape (h : Shifted gap s s') (hs : s.Acyclic) (t : Ref) :
    s'.listShape (gap.ref t) =
      ((s.listShape t).1.map gap.ref, gap.listEnd (s.listShape t).2) := by
  have hle := s.rank_le_size t
  have hsize := h.size_le
  exact h.listFrom hs (by omega) (by omega)

theorem snapshotFrom (h : Shifted gap s s') (hs : s.Acyclic) (hn : s.rank t < n)
    (hn' : s.rank t < n') : s'.snapshotFrom n' (gap.ref t) = gap.term (s.snapshotFrom n t) := by
  induction n generalizing n' t with
  | zero => omega
  | succ n ih =>
    obtain ⟨n', rfl⟩ := Nat.exists_eq_add_of_lt (Nat.zero_lt_of_lt hn')
    rw [Nat.zero_add, Store.snapshotFrom, Store.snapshotFrom, h.view hs]
    rcases hview : s.view t with v | l | ⟨name, args⟩
    · simp only [Gap.view, Gap.term_var, h.varName? hs]
      rfl
    · simp only [Gap.view, Gap.term_literal]
    · simp only [Gap.view, Gap.term_compound, List.map_map]
      refine congrArg _ (List.map_congr_left fun u hu => ?_)
      have hlt := hs.rank_lt_of_view hview hu
      exact ih (by omega) (by omega)

theorem snapshot (h : Shifted gap s s') (hs : s.Acyclic) (t : Ref) :
    s'.snapshot (gap.ref t) = gap.term (s.snapshot t) := by
  have hle := s.rank_le_size t
  have hsize := h.size_le
  exact h.snapshotFrom hs (by omega) (by omega)

theorem operandsFrom (h : Shifted gap s s') (hs : s.Acyclic) (name : String) (hn : s.rank t < n)
    (hn' : s.rank t < n') :
    s'.operandsFrom name n' (gap.ref t) = (s.operandsFrom name n t).map gap.ref := by
  induction n generalizing n' t with
  | zero => omega
  | succ n ih =>
    obtain ⟨n', rfl⟩ := Nat.exists_eq_add_of_lt (Nat.zero_lt_of_lt hn')
    rw [Nat.zero_add, Store.operandsFrom.eq_def, Store.operandsFrom.eq_def]
    simp only [h.view hs, h.deref hs]
    rcases hview : s.view t with v | l | ⟨f, _ | ⟨x, _ | ⟨y, _ | ⟨z, zs⟩⟩⟩⟩
    case compound.cons.cons.nil =>
      have hx := hs.rank_lt_of_view hview (u := x) (by simp)
      have hy := hs.rank_lt_of_view hview (u := y) (by simp)
      simp only [Gap.view, List.map_cons, List.map_nil]
      split
      · rw [ih (by omega) (by omega), ih (by omega) (by omega), List.map_append]
      · rfl
    all_goals rfl

theorem operands (h : Shifted gap s s') (hs : s.Acyclic) (name : String) (t : Ref) :
    s'.operands name (gap.ref t) = (s.operands name t).map gap.ref := by
  have hle := s.rank_le_size t
  have hsize := h.size_le
  exact h.operandsFrom hs name (by omega) (by omega)

/-- Places keep their order, so terms do. -/
theorem compareFrom (h : Shifted gap s s') (hs : s.Acyclic) (hn : s.rank a < n)
    (hn' : s.rank a < n') (b : Ref) :
    s'.compareFrom n' (gap.ref a) (gap.ref b) = s.compareFrom n a b := by
  induction n generalizing n' a b with
  | zero => omega
  | succ n ih =>
    obtain ⟨n', rfl⟩ := Nat.exists_eq_add_of_lt (Nat.zero_lt_of_lt hn')
    rw [Nat.zero_add, Store.compareFrom, Store.compareFrom, h.deref hs, h.deref hs, h.view hs,
      h.view hs, hs.view_deref, hs.view_deref]
    simp only [Gap.ref_inj]
    split
    · rfl
    · rcases hview : s.view a with v | l | ⟨f, xs⟩ <;> rcases s.view b with w | m | ⟨g, ys⟩
      case var.var =>
        simp only [Gap.view, Gap.ref]
        rcases Nat.lt_trichotomy v.index w.index with hlt | heq | hgt
        · rw [Nat.compare_eq_lt.mpr hlt, Nat.compare_eq_lt.mpr (gap.place_lt_iff.mpr hlt)]
        · rw [heq]
          simp
        · rw [Nat.compare_eq_gt.mpr hgt, Nat.compare_eq_gt.mpr (gap.place_lt_iff.mpr hgt)]
      case compound.compound =>
        have hargs : ∀ us vs : List Ref, (∀ u ∈ us, u ∈ xs) →
            (us.map gap.ref).compareLex (s'.compareFrom n') (vs.map gap.ref) =
              us.compareLex (s.compareFrom n) vs := by
          intro us
          induction us with
          | nil => intro vs _; cases vs <;> rfl
          | cons u us ih' =>
            intro vs hus
            cases vs with
            | nil => rfl
            | cons v vs =>
              have hlt := hs.rank_lt_of_view hview (hus u List.mem_cons_self)
              rw [List.map_cons, List.map_cons, List.compareLex_cons_cons, List.compareLex_cons_cons,
                ih (by omega) (by omega), ih' vs fun u hu => hus u (List.mem_cons_of_mem _ hu)]
        simp only [Gap.view, List.length_map, hargs xs ys fun _ => id]
      all_goals rfl

theorem compare (h : Shifted gap s s') (hs : s.Acyclic) (a b : Ref) :
    s'.compare (gap.ref a) (gap.ref b) = s.compare a b := by
  have hle := s.rank_le_size a
  have hsize := h.size_le
  exact h.compareFrom hs (by omega) (by omega) b

theorem same (h : Shifted gap s s') (hs : s.Acyclic) (a b : Ref) :
    s'.same (gap.ref a) (gap.ref b) = s.same a b := by
  rw [Store.same, Store.same, h.compare hs]

theorem groundFrom (h : Shifted gap s s') (hs : s.Acyclic) (hn : s.rank t < n)
    (hn' : s.rank t < n') : s'.groundFrom n' (gap.ref t) = s.groundFrom n t := by
  induction n generalizing n' t with
  | zero => omega
  | succ n ih =>
    obtain ⟨n', rfl⟩ := Nat.exists_eq_add_of_lt (Nat.zero_lt_of_lt hn')
    rw [Nat.zero_add, Store.groundFrom, Store.groundFrom, h.view hs]
    rcases hview : s.view t with v | l | ⟨name, args⟩
    · rfl
    · rfl
    · have hargs : ∀ u ∈ args, s'.groundFrom n' (gap.ref u) = s.groundFrom n u := fun u hu => by
        have hlt := hs.rank_lt_of_view hview hu
        exact ih (by omega) (by omega)
      show (args.map gap.ref).all (s'.groundFrom n') = args.all (s.groundFrom n)
      rw [List.all_map, Bool.eq_iff_iff, List.all_eq_true, List.all_eq_true]
      exact forall₂_congr fun u hu => by rw [Function.comp_apply, hargs u hu]

theorem isGround (h : Shifted gap s s') (hs : s.Acyclic) (t : Ref) :
    s'.isGround (gap.ref t) = s.isGround t := by
  have hle := s.rank_le_size t
  have hsize := h.size_le
  exact h.groundFrom hs (by omega) (by omega)

theorem atom? (h : Shifted gap s s') (hs : s.Acyclic) (t : Ref) :
    s'.atom? (gap.ref t) = s.atom? t := by
  simp only [Store.atom?, h.view hs]
  rcases s.view t with v | l | ⟨name, args⟩
  · rfl
  · cases l <;> rfl
  · rfl

/-! ## Adding cells -/

theorem push (h : Shifted gap s s') (c : Cell) :
    Widens (Shifted gap) gap.ref (s.push c) (s'.push (gap.cell c)) := by
  have hlast : gap.ref ⟨s.size⟩ = ⟨s'.size⟩ := by
    rw [Gap.ref, gap.place_of_le h.le, h.size]
  refine ⟨hlast.symm, ?_, ?_, fun t => ?_⟩
  · rw [size_push]
    exact Nat.le_succ_of_le h.le
  · rw [size_push, size_push, h.size]
    omega
  · rcases Nat.lt_trichotomy t.index s.size with hlt | heq | hgt
    · have hlt' : (gap.ref t).index < s'.size := by
        have := gap.place_lt_iff.mpr hlt
        rwa [gap.place_of_le h.le, ← h.size] at this
      rw [cell?_push_of_lt _ hlt, cell?_push_of_lt _ hlt', h.cell]
    · obtain rfl : t = ⟨s.size⟩ := congrArg Ref.mk heq
      rw [hlast, cell?_push_self, cell?_push_self, Option.map_some]
    · have hgt' : s'.size < (gap.ref t).index := by
        have := gap.place_lt_iff.mpr hgt
        rwa [gap.place_of_le h.le, ← h.size] at this
      rw [cell?_eq_none (by rw [size_push]; omega), cell?_eq_none (by rw [size_push]; omega),
        Option.map_none]

end Shifted

/-- Stores that are related stay so when a cell is added to both, with the places in it shifted. -/
class Shifting (gap : outParam Gap) (R : Store → Store → Prop) : Prop where
  /-- Adding a cell. -/
  push {s s' : Store} (h : R s s') (c : Cell) : Widens R gap.ref (s.push c) (s'.push (gap.cell c))

instance : Shifting gap (Shifted gap) := ⟨Shifted.push⟩

instance : Shifting gap (Wider gap) where
  push h c := ⟨(h.toShifted.push c).value, (h.toShifted.push c).store, h.trail⟩

namespace Shifting

variable {R : Store → Store → Prop} [Shifting gap R]

theorem literal (h : R s s') (l : Literal) :
    Widens R gap.ref (s.literal l) (s'.literal l) :=
  push h (.literal l)

theorem atom (h : R s s') (name : String) :
    Widens R gap.ref (s.atom name) (s'.atom name) :=
  push h (.literal (.atom name))

theorem var (h : R s s') (name : Option String) :
    Widens R gap.ref (s.var name) (s'.var name) :=
  push h (.var name none)

theorem apply (h : R s s') (name : String) (args : List Ref) :
    Widens R gap.ref (s.apply name args) (s'.apply name (args.map gap.ref)) := by
  rcases args with _ | ⟨t, ts⟩
  · exact atom h name
  · exact push h (.compound name (t :: ts))

theorem partialList (h : R s s') (items : List Ref) (tail : Ref) :
    Widens R gap.ref (s.partialList items tail)
      (s'.partialList (items.map gap.ref) (gap.ref tail)) := by
  induction items with
  | nil => exact ⟨rfl, h⟩
  | cons head items ih =>
    have hstep := apply ih.store "." [head, (s.partialList items tail).1]
    rw [List.map_cons, List.map_singleton, ← ih.value] at hstep
    exact hstep

theorem list (h : R s s') (items : List Ref) :
    Widens R gap.ref (s.list items) (s'.list (items.map gap.ref)) := by
  have hnil := atom h "[]"
  have hlist := partialList hnil.store items (s.atom "[]").1
  rw [← hnil.value] at hlist
  exact hlist

theorem literals (h : R s s') (ls : List Literal) :
    Widens R (List.map gap.ref) (s.literals ls) (s'.literals ls) := by
  induction ls using List.reverseRecOn with
  | nil => exact ⟨rfl, h⟩
  | append_singleton ls l ih =>
    have hlit := literal ih.store l
    rw [literals_concat, literals_concat]
    refine ⟨?_, hlit.store⟩
    rw [List.map_append, List.map_singleton, ← ih.value, ← hlit.value]

end Shifting

namespace Wider

/-! ## Binding -/

theorem bind (h : Wider gap s s') (v u : Ref) :
    Wider gap (s.bind v u) (s'.bind (gap.ref v) (gap.ref u)) where
  le := by rw [size_bind]; exact h.le
  size := by rw [size_bind, size_bind, h.size]
  cell t := by
    rw [cell?_bind, cell?_bind, h.cell]
    simp only [Gap.ref_inj]
    split
    · rcases s.cell? t with _ | ⟨l | ⟨name, args⟩ | ⟨name, binding⟩⟩ <;> rfl
    · rfl
  trail := by rw [trail_bind, trail_bind, h.trail, List.map_append, List.map_singleton]

theorem mark (h : Wider gap s s') : s'.mark = s.mark := by
  simpa [Store.mark] using congrArg List.length h.trail

theorem undoTo (h : Wider gap s s') (k : Nat) : Wider gap (s.undoTo k) (s'.undoTo k) where
  le := by rw [size_undoTo]; exact h.le
  size := by rw [size_undoTo, size_undoTo, h.size]
  cell t := by
    have hmem : gap.ref t ∈ s'.trail.toList.drop k ↔ t ∈ s.trail.toList.drop k := by
      rw [h.trail, ← List.map_drop, List.mem_map_of_injective gap.ref_injective]
    rw [cell?_undoTo, cell?_undoTo, h.cell]
    simp only [hmem]
    split
    · rcases s.cell? t with _ | ⟨l | ⟨name, args⟩ | ⟨name, binding⟩⟩ <;> rfl
    · rfl
  trail := by rw [trail_undoTo, trail_undoTo, h.trail, List.map_take]

/-! ## No gap -/

theorem refl (s : Store) : Wider .empty s s where
  le := Nat.zero_le _
  size := rfl
  cell t := by
    rcases h : s.cell? t with _ | c
    · exact h
    · simp [h]
  trail := by
    rw [Gap.ref_empty_eq, List.map_id]

/-- A store that is wider by nothing is the same. -/
theorem eq_of_empty (h : Wider .empty s s') : s' = s := by
  obtain ⟨cells, trail⟩ := s
  obtain ⟨cells', trail'⟩ := s'
  have hcells : cells' = cells := Array.ext_getElem? fun i => by
    have hcell := h.cell ⟨i⟩
    have hid : (cells[i]?).map Gap.empty.cell = cells[i]? := by
      rcases cells[i]? with _ | c
      · rfl
      · exact congrArg some (Gap.cell_empty c)
    exact hcell.trans hid
  have htrail : trail' = trail := by
    have := h.trail
    rw [Gap.ref_empty_eq, List.map_id] at this
    exact Array.toList_inj.mp this
  rw [hcells, htrail]

end Wider

end Store

end Clausal
