import Clausal.TermReader

/-! # The grammar of terms

`Derives ops quotes p tokens x occurrences` says that the tokens are a term of priority `p` under the
operators of the table, and that the term is `x`.  Constants, variables, texts, compounds, lists and
terms in brackets or braces have priority 0.  An operator with its operands has the operator's priority,
and the operands have at most the priorities that its specifier allows.  Arguments and items have at
most priority 999, and what stands in brackets or braces at most 1200.

The grammar is ambiguous, because a name may be an operator in several positions and also a constant.
What a derivation says of variables is in its list of occurrences: the name that each of them is written
with, from left to right, and the cell that stands for it.
-/

namespace Clausal

/-! ## Operators -/

namespace Operator

/-- An operand of the priority may stand to the left of the operator. -/
def AllowsLeft (op : Operator) (priority : Nat) : Prop :=
  match op.specifier with
  | .yfx | .yf => priority ≤ op.priority
  | .xfx | .xfy | .xf => priority < op.priority
  | .fx | .fy => False

/-- An operand of the priority may stand to the right of the operator. -/
def AllowsRight (op : Operator) (priority : Nat) : Prop :=
  match op.specifier with
  | .xfy | .fy => priority ≤ op.priority
  | .xfx | .yfx | .fx => priority < op.priority
  | .xf | .yf => False

variable {op : Operator} {priority : Nat}

theorem allowsLeft_of_le (hop : 0 < op.priority) (hfixity : op.specifier.fixity ≠ .before)
    (h : priority ≤ op.leftMax) : op.AllowsLeft priority := by
  obtain ⟨p, specifier⟩ := op
  simp only [leftMax, AllowsLeft] at h hop ⊢
  cases specifier with
  | yfx | yf => exact h
  | xfx | xfy | xf => exact Nat.lt_of_le_pred hop h
  | fx | fy => exact hfixity rfl

theorem allowsRight_of_le (hop : 0 < op.priority) (hfixity : op.specifier.fixity ≠ .after)
    (h : priority ≤ op.rightMax) : op.AllowsRight priority := by
  obtain ⟨p, specifier⟩ := op
  simp only [rightMax, AllowsRight] at h hop ⊢
  cases specifier with
  | xfy | fy => exact h
  | xfx | yfx | fx => exact Nat.lt_of_le_pred hop h
  | xf | yf => exact hfixity rfl

end Operator

namespace OperatorTable

variable {table : OperatorTable} {name : String} {fixity : Fixity} {op : Operator}

/-- A table that comes from the standard one by defining operators. -/
inductive Reachable : OperatorTable → Prop
  /-- The standard operators. -/
  | standard : Reachable .standard
  /-- One more definition. -/
  | add {table : OperatorTable} (h : Reachable table) (name : String) (priority : Nat)
    (specifier : Specifier) : Reachable (table.add name priority specifier)

/-- Definitions are kept in the position that their specifiers say, with positive priorities. -/
def Coherent (table : OperatorTable) : Prop :=
  ∀ e ∈ table.entries, e.2.specifier.fixity = e.1.fixity ∧ 0 < e.2.priority

theorem mem_set {key : OperatorKey} {e : OperatorKey × Operator}
    {entries : List (OperatorKey × Operator)} (h : e ∈ set key op entries) :
    e = (key, op) ∨ e ∈ entries := by
  induction entries with
  | nil => exact .inl (List.mem_singleton.mp h)
  | cons entry entries ih =>
    rw [set] at h
    split at h
    · rcases List.mem_cons.mp h with rfl | h
      · exact .inl rfl
      · exact .inr (List.mem_cons_of_mem _ h)
    · rcases List.mem_cons.mp h with rfl | h
      · exact .inr List.mem_cons_self
      · exact (ih h).imp_right (List.mem_cons_of_mem _)

theorem Coherent.add (h : table.Coherent) (name : String) (priority : Nat) (specifier : Specifier) :
    (table.add name priority specifier).Coherent := by
  unfold OperatorTable.add
  dsimp only
  split
  · exact fun e he => h e (List.mem_filter.mp he).1
  · rename_i hpriority
    intro e he
    rcases mem_set he with rfl | he
    · exact ⟨rfl, Nat.pos_of_ne_zero hpriority⟩
    · exact h e he

theorem Reachable.coherent (h : table.Reachable) : table.Coherent := by
  induction h with
  | standard => exact List.foldlRecOn _ _ (List.forall_mem_nil _) fun _ h d _ => h.add _ _ _
  | add _ name priority specifier ih => exact ih.add name priority specifier

theorem Coherent.of_find? (h : table.Coherent) (hop : table.find? name fixity = some op) :
    op.specifier.fixity = fixity ∧ 0 < op.priority := by
  obtain ⟨l, l', heq, -⟩ := List.lookup_eq_some_iff.mp hop
  exact h (⟨name, fixity⟩, op) (heq ▸ List.mem_append_right _ List.mem_cons_self)

end OperatorTable

/-! ## Constants and texts -/

/-- The codes of the characters. -/
def codesTerm (text : String) : Term := .list (text.toList.map fun c => .literal (.ofInt c.toNat))

/-- Double-quoted text. -/
def DoubleQuotes.term (text : String) : DoubleQuotes → Term
  | .chars => .list (text.toList.map fun c => .atom c.toString)
  | .codes => codesTerm text
  | .atom => .atom text

/-- The name of a variable in the source, unless it has none. -/
def sourceName (name : String) : Option String := if name = "_" then none else some name

/-- The name of a variable, if the token is one. -/
def Token.variable? : Token → Option String
  | .var name => some name
  | _ => none

/-- The tokens are the name, where an operand is awaited. -/
inductive Spells : List Token → String → Prop
  /-- A name. -/
  | name (name : String) : Spells [.literal (.atom name)] name
  /-- The empty list. -/
  | list : Spells [.openList, .closeList] "[]"
  /-- The empty braces. -/
  | braces : Spells [.openCurly, .closeCurly] "\x7b\x7d"

/-- The token is the name, after an operand. -/
inductive Joins : Token → String → Prop
  /-- A name. -/
  | name (name : String) : Joins (.literal (.atom name)) name
  /-- A comma. -/
  | comma : Joins .comma ","
  /-- A bar. -/
  | bar : Joins .bar "|"

/-! ## Derivations -/

/-- Where variables occur: the name of each and the cell that stands for it, from left to right. -/
abbrev Occurrences := List (String × Ref)

mutual

/-- The tokens are a term of the given priority. -/
inductive Derives (ops : OperatorTable) (quotes : DoubleQuotes) :
    Nat → List Token → Term → Occurrences → Prop
  /-- A number. -/
  | number {l : Literal} (hl : l.isNumber) : Derives ops quotes 0 [.literal l] (.literal l) []
  /-- A minus and a number. -/
  | minus {l : Literal} (hl : l.isNumber) :
    Derives ops quotes 0 [.literal (.atom "-"), .literal l] (.literal l.neg) []
  /-- A variable. -/
  | var (name : String) (v : Ref) :
    Derives ops quotes 0 [.var name] (.var ⟨v.index, sourceName name⟩) [(name, v)]
  /-- Text between double quotes. -/
  | quoted (text : String) : Derives ops quotes 0 [.quoted text] (quotes.term text) []
  /-- Text between back quotes. -/
  | backQuoted (text : String) : Derives ops quotes 0 [.backQuoted text] (codesTerm text) []
  /-- A name. -/
  | name {tokens : List Token} {name : String} (hname : Spells tokens name) :
    Derives ops quotes 0 tokens (.atom name) []
  /-- A name and its arguments. -/
  | compound {tokens args : List Token} {name : String} {xs : List Term} {occs : Occurrences}
    (hname : Spells tokens name) (hargs : DerivesAll ops quotes args xs occs) :
    Derives ops quotes 0 (tokens ++ .openArgs :: args ++ [.close]) (.compound name xs) occs
  /-- A term in brackets. -/
  | group {bracket : Token} {p : Nat} {tokens : List Token} {x : Term} {occs : Occurrences}
    (hbracket : bracket = .openGroup ∨ bracket = .openArgs)
    (h : Derives ops quotes p tokens x occs) (hp : p ≤ 1200) :
    Derives ops quotes 0 (bracket :: tokens ++ [.close]) x occs
  /-- A list. -/
  | list {items : List Token} {xs : List Term} {occs : Occurrences}
    (hitems : DerivesAll ops quotes items xs occs) :
    Derives ops quotes 0 (.openList :: items ++ [.closeList]) (.list xs) occs
  /-- A list and what stands for its tail. -/
  | listTail {items tokens : List Token} {xs : List Term} {x : Term} {p : Nat}
    {occs occs' : Occurrences} (hitems : DerivesAll ops quotes items xs occs)
    (h : Derives ops quotes p tokens x occs') (hp : p ≤ 999) :
    Derives ops quotes 0 (.openList :: items ++ .bar :: tokens ++ [.closeList])
      (.partialList xs x) (occs ++ occs')
  /-- A term in braces. -/
  | curly {p : Nat} {tokens : List Token} {x : Term} {occs : Occurrences}
    (h : Derives ops quotes p tokens x occs) (hp : p ≤ 1200) :
    Derives ops quotes 0 (.openCurly :: tokens ++ [.closeCurly]) (.compound "\x7b\x7d" [x]) occs
  /-- An operator before its operand. -/
  | before {name : String} {op : Operator} {p : Nat} {tokens operand : List Token} {x : Term}
    {occs : Occurrences} (hname : Spells tokens name)
    (hop : ops.find? name .before = some op) (h : Derives ops quotes p operand x occs)
    (hp : op.AllowsRight p) :
    Derives ops quotes op.priority (tokens ++ operand) (.compound name [x]) occs
  /-- An operator after its operand. -/
  | after {name : String} {op : Operator} {p : Nat} {token : Token} {operand : List Token} {x : Term}
    {occs : Occurrences} (hname : Joins token name)
    (hop : ops.find? name .after = some op) (h : Derives ops quotes p operand x occs)
    (hp : op.AllowsLeft p) :
    Derives ops quotes op.priority (operand ++ [token]) (.compound name [x]) occs
  /-- An operator between its operands. -/
  | between {name : String} {op : Operator} {p p' : Nat} {token : Token} {left right : List Token}
    {x y : Term} {occs occs' : Occurrences} (hname : Joins token name)
    (hop : ops.find? name .between = some op) (hleft : Derives ops quotes p left x occs)
    (hp : op.AllowsLeft p) (hright : Derives ops quotes p' right y occs') (hp' : op.AllowsRight p') :
    Derives ops quotes op.priority (left ++ token :: right) (.compound name [x, y]) (occs ++ occs')

/-- The tokens are terms with commas between them. -/
inductive DerivesAll (ops : OperatorTable) (quotes : DoubleQuotes) :
    List Token → List Term → Occurrences → Prop
  /-- One term. -/
  | one {p : Nat} {tokens : List Token} {x : Term} {occs : Occurrences}
    (h : Derives ops quotes p tokens x occs) (hp : p ≤ 999) : DerivesAll ops quotes tokens [x] occs
  /-- One more term. -/
  | more {p : Nat} {items tokens : List Token} {xs : List Term} {x : Term}
    {occs occs' : Occurrences} (hitems : DerivesAll ops quotes items xs occs)
    (h : Derives ops quotes p tokens x occs') (hp : p ≤ 999) :
    DerivesAll ops quotes (items ++ .comma :: tokens) (xs ++ [x]) (occs ++ occs')

end

variable {ops : OperatorTable} {quotes : DoubleQuotes} {tokens : List Token} {x : Term}
  {xs : List Term} {occs : Occurrences} {name : String} {token : Token}

theorem Spells.variables (h : Spells tokens name) : tokens.filterMap Token.variable? = [] := by
  cases h <;> rfl

/-- A minus is nothing but a name. -/
theorem Spells.eq_of_minus (h : Spells tokens "-") : tokens = [.literal (.atom "-")] := by
  generalize hminus : "-" = name at h
  cases h with
  | name => rfl
  | list | braces => exact absurd hminus (by decide)

theorem Joins.variable (h : Joins token name) : token.variable? = none := by
  cases h <;> rfl

/-- The occurrences are those of the variable tokens, from left to right. -/
theorem Derives.variables {p : Nat} (h : Derives ops quotes p tokens x occs) :
    occs.map (·.1) = tokens.filterMap Token.variable? := by
  induction h using Derives.rec
    (motive_2 := fun tokens _ occs _ => occs.map (·.1) = tokens.filterMap Token.variable?) with
  | number | minus | var | quoted | backQuoted => rfl
  | name hname => exact hname.variables.symm
  | compound hname _ ih => simp [hname.variables, ih, Token.variable?, List.filterMap_cons]
  | group hbracket _ _ ih =>
    rcases hbracket with rfl | rfl <;> simp [ih, Token.variable?, List.filterMap_cons]
  | list _ ih => simp [ih, Token.variable?, List.filterMap_cons]
  | listTail _ _ _ ih ih' => simp [ih, ih', Token.variable?, List.filterMap_cons]
  | curly _ _ ih => simp [ih, Token.variable?, List.filterMap_cons]
  | before hname _ _ _ ih => simp [hname.variables, ih]
  | after hname _ _ _ ih => simp [hname.variable, ih]
  | between hname _ _ _ _ _ ih ih' => simp [hname.variable, ih, ih']
  | one _ _ ih => exact ih
  | more _ _ _ ih ih' => simp [ih, ih', Token.variable?, List.filterMap_cons]

end Clausal
