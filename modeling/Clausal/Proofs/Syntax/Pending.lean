import Clausal.Proofs.Store.Denotation
import Clausal.Proofs.Syntax.Grammar

/-! # What a construct that lacks operands stands for

While a term is read, the constructs begun are partial derivations, outermost last: the tokens taken
since a construct was begun are those of its operands so far and the punctuation between them
(`Reading.Begun`), and the expression inside which it was begun waits for it, with a priority that it
may have there (`Reading.Waits`).  What the operands denote does not change while the store gets new
cells, and so neither does any of this.

The names of the variables are in the store as well as with the reader.  `Reading.Named` says that the
two agree, and that the occurrences so far stand for one cell exactly if they have one name.
-/

namespace Clausal

namespace Reading

open Store

variable {ops : OperatorTable} {quotes : DoubleQuotes} {s s' : Store} {t v : Ref} {x : Term}
  {p limit limit' : Nat} {name : String} {op : Operator} {token : Token}
  {tokens tokens' : List Token} {occs occs' : Occurrences} {items : List Ref}
  {construct : Construct} {begun : List Construct} {names : List (String × Ref)}

/-! ## Operands -/

/-- The tokens are a term of the given priority, and it is the term at the place. -/
def Operand (ops : OperatorTable) (quotes : DoubleQuotes) (s : Store) (t : Ref) (p : Nat)
    (tokens : List Token) (occs : Occurrences) : Prop :=
  ∃ x, Denotes s t x ∧ Derives ops quotes p tokens x occs

/-- The tokens are terms with commas between them, and they are the terms at the places, which are
given the last first. -/
def Items (ops : OperatorTable) (quotes : DoubleQuotes) (s : Store) (items : List Ref)
    (tokens : List Token) (occs : Occurrences) : Prop :=
  ∃ xs, DenotesAll s items.reverse xs ∧ DerivesAll ops quotes tokens xs occs

/-- The tokens are the items so far, each with a comma after it. -/
inductive Listed (ops : OperatorTable) (quotes : DoubleQuotes) (s : Store) :
    List Ref → List Token → Occurrences → Prop
  /-- No item. -/
  | nil : Listed ops quotes s [] [] []
  /-- Items and a comma. -/
  | comma {items : List Ref} {tokens : List Token} {occs : Occurrences}
    (h : Items ops quotes s items tokens occs) : Listed ops quotes s items (tokens ++ [.comma]) occs

theorem Listed.give (h : Listed ops quotes s items tokens occs)
    (hoperand : Operand ops quotes s t p tokens' occs') (hp : p ≤ 999) :
    Items ops quotes s (t :: items) (tokens ++ tokens') (occs ++ occs') := by
  obtain ⟨x, hx, hderives⟩ := hoperand
  cases h with
  | nil => exact ⟨[x], .cons hx .nil, .one hderives hp⟩
  | comma h =>
    obtain ⟨xs, hxs, hall⟩ := h
    refine ⟨xs ++ [x], ?_, ?_⟩
    · rw [List.reverse_cons]
      exact hxs.append (.cons hx .nil)
    · rw [List.append_assoc, List.singleton_append]
      exact .more hall hderives hp

/-! ## Constructs -/

/-- The tokens are what was taken for the construct so far.  It stands where an expression of at most
priority `limit` is read, and its next operand is an expression of at most priority `limit'`. -/
inductive Begun (ops : OperatorTable) (quotes : DoubleQuotes) (s : Store) (limit : Nat) :
    Construct → Nat → List Token → Occurrences → Prop
  /-- An operator before its operand. -/
  | before {name : String} {op : Operator} {tokens : List Token} (hname : Spells tokens name)
    (hop : ops.find? name .before = some op) (hlimit : op.priority ≤ limit) :
    Begun ops quotes s limit (.before name op.priority) op.rightMax tokens []
  /-- An operator after its left operand. -/
  | between {name : String} {op : Operator} {token : Token} {t : Ref} {p : Nat}
    {tokens : List Token} {occs : Occurrences} (hname : Joins token name)
    (hop : ops.find? name .between = some op) (hlimit : op.priority ≤ limit)
    (hleft : Operand ops quotes s t p tokens occs) (hp : p ≤ op.leftMax) :
    Begun ops quotes s limit (.between name op.priority t) op.rightMax (tokens ++ [token]) occs
  /-- A name and its arguments. -/
  | args {name : String} {items : List Ref} {tokens tokens' : List Token} {occs : Occurrences}
    (hname : Spells tokens name) (hitems : Listed ops quotes s items tokens' occs) :
    Begun ops quotes s limit (.args name items) 999 (tokens ++ .openArgs :: tokens') occs
  /-- A term in brackets. -/
  | group {bracket : Token} (hbracket : bracket = .openGroup ∨ bracket = .openArgs) :
    Begun ops quotes s limit .group 1200 [bracket] []
  /-- A list. -/
  | list {items : List Ref} {tokens : List Token} {occs : Occurrences}
    (hitems : Listed ops quotes s items tokens occs) :
    Begun ops quotes s limit (.list items) 999 (.openList :: tokens) occs
  /-- A list after the bar. -/
  | listTail {items : List Ref} {tokens : List Token} {occs : Occurrences}
    (hitems : Items ops quotes s items tokens occs) :
    Begun ops quotes s limit (.listTail items) 999 (.openList :: tokens ++ [.bar]) occs
  /-- A term in braces. -/
  | curly : Begun ops quotes s limit .curly 1200 [.openCurly] []

/-- The tokens are what was taken for the constructs so far, and an expression of at most priority
`limit` is awaited. -/
inductive Waits (ops : OperatorTable) (quotes : DoubleQuotes) (s : Store) :
    List Construct → Nat → List Token → Occurrences → Prop
  /-- The whole term is awaited. -/
  | whole : Waits ops quotes s [] 1200 [] []
  /-- An operand of a construct is awaited. -/
  | operand {begun : List Construct} {construct : Construct} {limit limit' : Nat}
    {tokens tokens' : List Token} {occs occs' : Occurrences}
    (h : Waits ops quotes s begun limit tokens occs)
    (hconstruct : Begun ops quotes s limit construct limit' tokens' occs') :
    Waits ops quotes s (construct :: .expression limit :: begun) limit' (tokens ++ tokens')
      (occs ++ occs')

section Growth

variable (hs : s.WellFormed) (hgrows : Grows s s' []) (hs' : s'.Acyclic)

include hs hgrows hs'

theorem Operand.grow (h : Operand ops quotes s t p tokens occs) :
    Operand ops quotes s' t p tokens occs :=
  let ⟨x, hx, hderives⟩ := h
  ⟨x, hx.grow hs hgrows hs', hderives⟩

theorem Items.grow (h : Items ops quotes s items tokens occs) :
    Items ops quotes s' items tokens occs :=
  let ⟨xs, hxs, hall⟩ := h
  ⟨xs, hxs.grow hs hgrows hs', hall⟩

theorem Listed.grow (h : Listed ops quotes s items tokens occs) :
    Listed ops quotes s' items tokens occs := by
  cases h with
  | nil => exact .nil
  | comma h => exact .comma (h.grow hs hgrows hs')

theorem Begun.grow (h : Begun ops quotes s limit construct limit' tokens occs) :
    Begun ops quotes s' limit construct limit' tokens occs := by
  cases h with
  | before hname hop hlimit => exact .before hname hop hlimit
  | between hname hop hlimit hleft hp => exact .between hname hop hlimit (hleft.grow hs hgrows hs') hp
  | args hname hitems => exact .args hname (hitems.grow hs hgrows hs')
  | group hbracket => exact .group hbracket
  | list hitems => exact .list (hitems.grow hs hgrows hs')
  | listTail hitems => exact .listTail (hitems.grow hs hgrows hs')
  | curly => exact .curly

theorem Waits.grow (h : Waits ops quotes s begun limit tokens occs) :
    Waits ops quotes s' begun limit tokens occs := by
  induction h with
  | whole => exact .whole
  | operand _ hconstruct ih => exact .operand ih (hconstruct.grow hs hgrows hs')

end Growth

/-! ## Variables -/

/-- Two occurrences stand for one cell exactly if they have one name, and a name at all. -/
def Apart (a b : String × Ref) : Prop := a.2 = b.2 ↔ a.1 = b.1 ∧ a.1 ≠ "_"

/-- The names that the reader knows are those of the variables that occur, each of which stands for a
cell of its own. -/
structure Named (s : Store) (names : List (String × Ref)) (occs : Occurrences) : Prop where
  /-- Every occurrence is that of a variable. -/
  cell : ∀ {name v}, (name, v) ∈ occs → s.cell? v = some (.var (sourceName name) none)
  /-- A name that is known has occurred. -/
  occurs : ∀ {name v}, names.lookup name = some v → (name, v) ∈ occs
  /-- A name that has occurred is known. -/
  known : ∀ {name v}, (name, v) ∈ occs → name ≠ "_" → names.lookup name = some v
  /-- Occurrences are told apart by their names. -/
  apart : occs.Pairwise Apart

theorem named_nil (s : Store) : Named s [] [] := ⟨nofun, nofun, nofun, .nil⟩

theorem Named.grow (h : Named s names occs) (hgrows : Grows s s' []) : Named s' names occs where
  cell hmem := by
    rw [hgrows.kept (index_lt_of_cell? (h.cell hmem)) List.not_mem_nil, h.cell hmem]
  occurs := h.occurs
  known := h.known
  apart := h.apart

/-- A new cell stands for none of the variables there are. -/
theorem Named.ne_of_size_le (h : Named s names occs) (hv : s.size ≤ v.index) :
    ∀ a ∈ occs, a.2 ≠ v := by
  rintro a ha rfl
  exact absurd (index_lt_of_cell? (h.cell ha)) (Nat.not_lt.mpr hv)

theorem Named.snoc_apart (h : Named s names occs) {o : String × Ref} (ho : ∀ a ∈ occs, Apart a o) :
    (occs ++ [o]).Pairwise Apart :=
  List.pairwise_append.mpr ⟨h.apart, List.pairwise_singleton Apart o, fun a ha _ hb =>
    List.mem_singleton.mp hb ▸ ho a ha⟩

/-- A variable whose name is known. -/
theorem Named.repeated (h : Named s names occs) (hname : name ≠ "_")
    (hlookup : names.lookup name = some v) : Named s names (occs ++ [(name, v)]) := by
  have hmem : ∀ {o}, o ∈ occs ++ [(name, v)] → o ∈ occs := fun ho =>
    (List.mem_append.mp ho).elim id fun ho => List.mem_singleton.mp ho ▸ h.occurs hlookup
  refine ⟨fun ho => h.cell (hmem ho), fun ho => List.mem_append_left _ (h.occurs ho),
    fun ho => h.known (hmem ho), h.snoc_apart fun a ha => ⟨fun heq => ?_, fun ⟨heq, ha'⟩ => ?_⟩⟩
  · -- Cells know the names of their variables.
    have hcell := h.cell (h.occurs hlookup)
    rw [← show a.2 = v from heq, h.cell ha] at hcell
    have hsource : sourceName a.1 = sourceName name := by injections
    rw [sourceName, sourceName, if_neg hname] at hsource
    split at hsource
    · cases hsource
    · exact ⟨Option.some.inj hsource, ‹_›⟩
  · have hknown := h.known ha ha'
    rw [heq, hlookup] at hknown
    exact (Option.some.inj hknown).symm

/-- A variable without a name. -/
theorem Named.anonymous (h : Named s names occs) (hcell : s.cell? v = some (.var none none))
    (hfresh : ∀ a ∈ occs, a.2 ≠ v) : Named s names (occs ++ [("_", v)]) where
  cell ho := by
    rcases List.mem_append.mp ho with ho | ho
    · exact h.cell ho
    · cases List.mem_singleton.mp ho
      exact hcell
  occurs ho := List.mem_append_left _ (h.occurs ho)
  known ho hname := by
    rcases List.mem_append.mp ho with ho | ho
    · exact h.known ho hname
    · cases List.mem_singleton.mp ho
      exact absurd rfl hname
  apart := h.snoc_apart fun a ha => ⟨fun heq => absurd heq (hfresh a ha), fun ⟨heq, ha'⟩ =>
    absurd heq ha'⟩

/-- A variable whose name is new. -/
theorem Named.first (h : Named s names occs) (hname : name ≠ "_")
    (hlookup : names.lookup name = none) (hcell : s.cell? v = some (.var (some name) none))
    (hfresh : ∀ a ∈ occs, a.2 ≠ v) : Named s ((name, v) :: names) (occs ++ [(name, v)]) where
  cell ho := by
    rcases List.mem_append.mp ho with ho | ho
    · exact h.cell ho
    · cases List.mem_singleton.mp ho
      rw [sourceName, if_neg hname]
      exact hcell
  occurs {name' v'} ho := by
    rw [List.lookup_cons] at ho
    split at ho
    · rename_i heq
      cases eq_of_beq heq
      cases ho
      exact List.mem_append_right _ (List.mem_singleton_self _)
    · exact List.mem_append_left _ (h.occurs ho)
  known {name' v'} ho hname' := by
    rcases List.mem_append.mp ho with ho | ho
    · have hknown := h.known ho hname'
      have hne : (name' == name) = false := by
        rw [beq_eq_false_iff_ne]
        rintro rfl
        rw [hlookup] at hknown
        cases hknown
      rw [List.lookup_cons, hne]
      exact hknown
    · cases List.mem_singleton.mp ho
      exact List.lookup_cons_self
  apart := h.snoc_apart fun a ha => ⟨fun heq => absurd heq (hfresh a ha), fun ⟨heq, ha'⟩ => by
    have hknown := h.known ha ha'
    rw [show a.1 = name from heq, hlookup] at hknown
    cases hknown⟩

end Reading

end Clausal
