import Clausal.Proofs.Syntax.Phrases
import Clausal.Proofs.Syntax.Spelling
import Clausal.Proofs.Syntax.Wording

/-! # Terms that are read as they are written

What is written with operators is not always read as it was written.  The reader looks at one token to tell
what a name is, and the writer does not think of that: a minus takes the number that its operand begins
with as its own, a prefix operator does not take an operand that begins with the name of an infix operator,
and as a constant it takes the name of an infix operator after it for its operand if that is a prefix
operator too.  `TermWriter.legible` says that none of this comes up in a term.

The writer puts brackets around operators by their priorities alone.  That is enough where the token after
a term leaves the operators in it their operands (`OperatorTable.Closes`), which an operator to the right
does under every table that is regular (`OperatorTable.Regular`), as the standard one is.
-/

namespace Clausal

/-! ## Terms -/

/-- A ground term without floats, in which every compound has an argument. -/
inductive Term.Symbolic : Term → Prop
  /-- A name. -/
  | atom (name : String) : Symbolic (.atom name)
  /-- An integer of any size. -/
  | int (n : Int) : Symbolic (.int n)
  /-- A name with at least one argument. -/
  | compound {name : String} {args : List Term} (hne : args ≠ []) (hargs : ∀ x ∈ args, Symbolic x) :
    Symbolic (.compound name args)

theorem Term.symbolic_one {name : String} {x : Term} (hx : x.Symbolic) : (compound name [x]).Symbolic :=
  .compound (List.cons_ne_nil _ _) (List.forall_mem_singleton.mpr hx)

theorem Term.symbolic_two {name : String} {x y : Term} (hx : x.Symbolic) (hy : y.Symbolic) :
    (compound name [x, y]).Symbolic :=
  .compound (List.cons_ne_nil _ _) (List.forall_mem_cons.mpr ⟨hx, List.forall_mem_singleton.mpr hy⟩)

theorem Term.Symbolic.vars {x : Term} (h : x.Symbolic) : x.vars = [] := by
  induction h with
  | atom name => exact Term.vars_literal _
  | int n => exact Term.vars_literal _
  | compound _ _ ih =>
    rw [Term.vars_compound, List.flatMap_eq_nil_iff]
    exact ih

/-- The term has no variables and no floats, and no name in it is an operator. -/
inductive Term.Plain (ops : OperatorTable) : Term → Prop
  /-- A name. -/
  | atom {name : String} (hname : ops.isOperator name = false) : Plain ops (.atom name)
  /-- An integer of any size. -/
  | int (n : Int) : Plain ops (.int n)
  /-- A name with at least one argument. -/
  | compound {name : String} {args : List Term} (hname : ops.isOperator name = false)
    (hne : args ≠ []) (hargs : ∀ x ∈ args, Plain ops x) : Plain ops (.compound name args)

theorem Term.Plain.symbolic {ops : OperatorTable} {x : Term} (h : x.Plain ops) : x.Symbolic := by
  induction h with
  | @atom name _ => exact .atom name
  | int n => exact .int n
  | compound _ hne _ ih => exact .compound hne ih

theorem OperatorTable.find?_of_isOperator {ops : OperatorTable} {name : String}
    (h : ops.isOperator name = false) (fixity : Fixity) : ops.find? name fixity = none := by
  rw [find?, List.lookup_eq_none_iff]
  intro e he
  rw [isOperator, List.any_eq_false] at h
  rw [bne_iff_ne]
  rintro heq
  have hname := h e he
  rw [← heq] at hname
  exact hname (decide_eq_true rfl)

/-! ## Legible terms -/

/-- What the reader goes by where an operand comes. -/
structure Spot where
  /-- The highest priority that an operator in the expression can have. -/
  room : Nat
  /-- Whether the token after the operand could begin one. -/
  followed : Bool
  deriving DecidableEq

namespace Spot

/-- An argument or an item of a list. -/
def item : Spot := ⟨999, false⟩

/-- Within brackets or braces, and before a full stop. -/
def inner : Spot := ⟨1200, false⟩

end Spot

/-- The token of an operator between its operands. -/
def Token.between (name : String) : Token := if name = "," then .comma else .literal (.atom name)

namespace TermWriter

variable (w : TermWriter)

/-- Whether a name stands in brackets where a term of at most the priority can stand. -/
def encloses (limit : Nat) (name : String) : Bool :=
  w.ops.isOperator name && limit < 999 && name ≠ "[]" && name ≠ "\x7b\x7d"

/-- The token that a term begins with where one of at most the priority can stand, and after layout. -/
def first (limit : Nat) : Term → Token
  | .var v => .var (variableName v)
  | .literal (.atom name) => if w.encloses limit name then .openGroup else .ofName name
  | .literal l => if l.isNegative then .literal (.atom "-") else .literal l
  | .compound name [] => .ofName name
  | .compound name (x :: xs) =>
    match w.form name (x :: xs) with
    | .cell => .openList
    | .curly => .openCurly
    | .between op | .after op => if limit < op.priority then .openGroup else first op.leftMax x
    | .before op => if limit < op.priority then .openGroup else .ofName name
    | .call => .ofName name

mutual

/-- Whether a term is read as it is written where one of at most the priority can stand.  What is asked is
that no operator as a constant finds an operand after it, and that every operator finds the one before
which it is written.  Operators after their operand are left out. -/
def legible (limit : Nat) (spot : Spot) : Term → Bool
  | .var _ => true
  | .literal (.atom name) =>
    w.encloses limit name || !spot.followed || !(w.ops.find? name .before).any (·.priority ≤ spot.room)
  | .literal _ => true
  | .compound name [x, y] =>
    match w.form name [x, y] with
    | .between op =>
      let spot := if limit < op.priority then .inner else spot
      legible op.leftMax ⟨spot.room, w.ops.starts (.between name)⟩ x &&
        legible op.rightMax ⟨op.rightMax, spot.followed⟩ y
    | _ => legible 999 .item x && legible 999 .item y
  | .compound name [x] =>
    match w.form name [x] with
    | .before op =>
      let spot := if limit < op.priority then .inner else spot
      w.ops.starts (w.first op.rightMax x) && !(name = "-" && (w.first op.rightMax x).isNumber) &&
        legible op.rightMax ⟨op.rightMax, spot.followed⟩ x
    | .after _ => false
    | .curly => legible 1200 .inner x
    | _ => legible 999 .item x
  | .compound _ args => legibleAll args

/-- Whether all the terms are read as they are written as arguments. -/
def legibleAll : List Term → Bool
  | [] => true
  | x :: xs => legible 999 .item x && legibleAll xs

end

/-- `- 1^2`: the minus would be the sign of the number. -/
example : legible {} 1200 .inner (.compound "-" [.compound "^" [.int 1, .int 2]]) = false := by
  decide +kernel

/-- `:- *`: the operand would begin with an operator between operands. -/
example : legible {} 1200 .inner (.compound ":-" [.atom "*"]) = false := by
  decide +kernel

/-- `- :- 0`: the constant on the left would take the rest for its operand. -/
example : legible {} 1200 .inner (.compound ":-" [.atom "-", .int 0]) = false := by
  decide +kernel

variable {w : TermWriter} {name : String} {x y : Term} {xs : List Term}

theorem first_number {l : Literal} (hl : l.isNumber) (w : TermWriter) (limit : Nat) :
    w.first limit (.literal l) = if l.isNegative then .literal (.atom "-") else .literal l := by
  cases l with
  | atom name => cases hl
  | small n | big n | float x => rw [first]; exact nofun

theorem legible_number {l : Literal} (hl : l.isNumber) (w : TermWriter) (limit : Nat) (spot : Spot) :
    w.legible limit spot (.literal l) = true := by
  cases l with
  | atom name => cases hl
  | small n | big n | float x => rw [legible]; exact nofun

/-- What comes first after layout does not open arguments. -/
theorem first_ne_openArgs (w : TermWriter) (limit : Nat) (x : Term) : w.first limit x ≠ .openArgs := by
  fun_induction first with
  | case3 | case6 | case14 | case15 => exact Token.ofName_ne_openArgs _
  | case10 _ _ _ _ _ _ _ ih | case12 _ _ _ _ _ _ _ ih => exact ih
  | _ => exact nofun

theorem legibleAll_eq (w : TermWriter) (xs : List Term) :
    w.legibleAll xs = xs.all (w.legible 999 .item) := by
  induction xs with
  | nil => rfl
  | cons x xs ih => rw [legibleAll, ih, List.all_cons]

theorem legible_call (hform : w.form name xs = .call) (limit : Nat) (spot : Spot) :
    w.legible limit spot (.compound name xs) = xs.all (w.legible 999 .item) := by
  rcases xs with _ | ⟨x, _ | ⟨y, _ | ⟨z, xs⟩⟩⟩
  · rw [legible, legibleAll_eq]
    · exact nofun
    · exact nofun
  · rw [legible, hform, List.all_cons, List.all_nil, Bool.and_true]
  · rw [legible, hform, List.all_cons, List.all_cons, List.all_nil, Bool.and_true]
  · rw [legible, legibleAll_eq]
    · exact nofun
    · exact nofun

theorem legible_cell (hform : w.form name [x, y] = .cell) (limit : Nat) (spot : Spot) :
    w.legible limit spot (.compound name [x, y]) = (w.legible 999 .item x && w.legible 999 .item y) := by
  rw [legible, hform]

theorem legible_curly (hform : w.form name [x] = .curly) (limit : Nat) (spot : Spot) :
    w.legible limit spot (.compound name [x]) = w.legible 1200 .inner x := by
  rw [legible, hform]

end TermWriter

/-! ## Tables of operators -/

namespace Operator

theorem leftMax_le (op : Operator) : op.leftMax ≤ op.priority := by
  obtain ⟨priority, specifier⟩ := op
  cases specifier <;> simp [leftMax]

theorem rightMax_le (op : Operator) : op.rightMax ≤ op.priority := by
  obtain ⟨priority, specifier⟩ := op
  cases specifier <;> simp [rightMax]

end Operator

/-- A token is at most one name after an operand. -/
theorem Joins.unique {token : Token} {name name' : String} (h : Joins token name)
    (h' : Joins token name') : name = name' := by
  cases h <;> cases h' <;> rfl

namespace OperatorTable

variable {ops : OperatorTable} {limit limit' : Nat} {next : Token} {name : String} {op : Operator}

theorem Bounds.mono (h : ops.Bounds limit next) (hle : limit' ≤ limit) : ops.Bounds limit' next :=
  fun name hname fixity hfixity op hop => Nat.lt_of_le_of_lt hle (h name hname fixity hfixity op hop)

/-- The token after a term of at most the priority belongs to no name that the term ends with, and goes on
with no operand at its end. -/
structure Closes (ops : OperatorTable) (limit : Nat) (next : Token) : Prop where
  /-- It belongs to no name. -/
  detached (name : String) : next.Detached name
  /-- It does not go on with the operand on the right of an operator. -/
  bounds {name : String} {fixity : Fixity} {op : Operator} (hfixity : fixity ≠ .after)
    (hop : ops.find? name fixity = some op) (hpriority : op.priority ≤ limit) :
    ops.Bounds op.rightMax next

theorem Closes.mono (h : ops.Closes limit next) (hle : limit' ≤ limit) : ops.Closes limit' next :=
  ⟨h.detached, fun hfixity hop hpriority => h.bounds hfixity hop (Nat.le_trans hpriority hle)⟩

theorem Bounds.closes (h : ops.Bounds limit next) (hnext : ∀ name, next.Detached name) :
    ops.Closes limit next :=
  ⟨hnext, fun {_ _ op} _ _ hpriority => h.mono (Nat.le_trans op.rightMax_le hpriority)⟩

theorem closes_closing (h : next ∈ [.close, .closeList, .closeCurly, .stop]) : ops.Closes limit next := by
  refine (bounds_closing h).closes (Token.detached_mark ?_)
  simp only [List.mem_cons, List.not_mem_nil, or_false] at h ⊢
  tauto

/-- What the writer takes for granted about the operators. -/
structure Regular (ops : OperatorTable) : Prop where
  /-- A comma and a bar do not go on with arguments. -/
  separates : ops.Separates
  /-- No operator stands after its operand. -/
  after (name : String) : ops.find? name .after = none
  /-- No priority is too high for brackets. -/
  priority_le {name : String} {fixity : Fixity} {op : Operator} (hop : ops.find? name fixity = some op) :
    op.priority ≤ 1200
  /-- An operator between its operands needs no quotes. -/
  bare {name : String} {op : Operator} (hop : ops.find? name .between = some op) :
    name = "," ∨ Lexer.Bare name
  /-- Where an operator stands without brackets on the left of another one, that one is not taken for a
  part of its operand. -/
  rightMax_lt {name name' : String} {fixity : Fixity} {op op' : Operator}
    (hop : ops.find? name .between = some op) (hfixity : fixity ≠ .after)
    (hop' : ops.find? name' fixity = some op') (hle : op'.priority ≤ op.leftMax) :
    op'.rightMax < op.priority

theorem mem_of_find? {fixity : Fixity} (hop : ops.find? name fixity = some op) :
    (⟨name, fixity⟩, op) ∈ ops.entries := by
  obtain ⟨l, l', heq, -⟩ := List.lookup_eq_some_iff.mp hop
  rw [heq]
  exact List.mem_append_right _ List.mem_cons_self

/-- The standard operators are regular. -/
theorem regular_standard : standard.Regular where
  separates := separates_standard
  after name := by
    have hentries : ∀ e ∈ standard.entries, e.1.fixity ≠ .after := by decide +kernel
    cases hop : standard.find? name .after with
    | none => rfl
    | some op => exact absurd rfl (hentries _ (mem_of_find? hop))
  priority_le hop := by
    have hentries : ∀ e ∈ standard.entries, e.2.priority ≤ 1200 := by decide +kernel
    exact hentries _ (mem_of_find? hop)
  bare hop := by
    have hentries : ∀ e ∈ standard.entries, e.1.fixity = .between →
        e.1.name = "," ∨ Lexer.Bare e.1.name := by
      decide +kernel
    exact hentries _ (mem_of_find? hop) rfl
  rightMax_lt hop hfixity hop' := by
    have hentries : ∀ e ∈ standard.entries, e.1.fixity = .between → ∀ e' ∈ standard.entries,
        e'.1.fixity ≠ .after → e'.2.priority ≤ e.2.leftMax → e'.2.rightMax < e.2.priority := by
      decide +kernel
    exact hentries _ (mem_of_find? hop) rfl _ (mem_of_find? hop') hfixity

theorem joins_between (name : String) : Joins (Token.between name) name := by
  rw [Token.between]
  split
  · rename_i hname
    subst hname
    exact .comma
  · exact .name name

/-- An operator between its operands closes the one on its left. -/
theorem Regular.closes_between (h : ops.Regular) (hop : ops.find? name .between = some op) :
    ops.Closes op.leftMax (.between name) where
  detached name' := by
    rw [Token.between]
    split
    · exact Token.detached_mark (by simp) name'
    · exact ⟨nofun, fun _ => rfl⟩
  bounds := by
    intro name' fixity op' hfixity hop' hle joined hjoined fixity' hfixity' op'' hop''
    have hname := hjoined.unique (joins_between name)
    subst hname
    simp only [List.mem_cons, List.not_mem_nil, or_false] at hfixity'
    obtain rfl | rfl := hfixity'
    · obtain rfl := Option.some.inj (hop''.symm.trans hop)
      exact h.rightMax_lt hop hfixity hop' hle
    · rw [h.after] at hop''
      cases hop''

end OperatorTable

/-- What comes after an item of a list closes it, and begins no operand. -/
theorem PhraseTail.closes {ops : OperatorTable} {next : Token} {tokens : List Token} {y : Term}
    (hops : ops.Separates) (h : PhraseTail ops next tokens y) :
    ops.Closes 999 next ∧ ops.starts next = false := by
  refine ⟨(h.bounds hops).closes ?_, ?_⟩
  · cases h with
    | nil | cons | bar => exact Token.detached_mark (by simp)
  · cases h with
    | nil | cons | bar => rfl

end Clausal
