import Clausal.Proofs.Store.Denotation
import Clausal.Proofs.Syntax.Steps

/-! # How tokens are read

The grammar leaves open what is an operator, and the reader decides it from one token at a time.
`Phrase ops room p next tokens x` says that the tokens are put together as the reader does it: in an
expression of priority up to `room`, with the token `next` after them, they are the term `x`, with priority
`p`.

Every construct of a phrase is begun and completed by steps of the reader (`Reading.Leads`), so the reader
gives the term that a phrase is read as (`TermReader.read_phrase`).
-/

namespace Clausal

open Relation (ReflTransGen)

/-! ## Phrases -/

mutual

/-- In an expression of priority up to `room`, and before the token `next`, the tokens are read as the term
of priority `p`. -/
inductive Phrase (ops : OperatorTable) : (room p : Nat) → (next : Token) → List Token → Term → Prop
  /-- A number without a sign. -/
  | number {room : Nat} {next : Token} {l : Literal} (hl : l.isNumber) (hcanonical : l.Canonical) :
    Phrase ops room 0 next [.literal l] (.literal l)
  /-- A minus and a number. -/
  | minus {room : Nat} {next : Token} {l : Literal} (hl : l.isNumber) :
    Phrase ops room 0 next [.literal (.atom "-"), .literal l] (.literal l.neg)
  /-- A name.  If it can be an operator before its operand, then no operand follows. -/
  | name {room : Nat} {next : Token} {tokens : List Token} {name : String} (hname : Spells tokens name)
    (hnext : next.Detached name)
    (hop : ∀ op, ops.find? name .before = some op → op.priority ≤ room → ops.starts next = false) :
    Phrase ops room 0 next tokens (.atom name)
  /-- A name and its arguments. -/
  | compound {room : Nat} {next : Token} {tokens args : List Token} {name : String} {xs : List Term}
    (hname : Spells tokens name) (hargs : PhraseAll ops args xs) :
    Phrase ops room 0 next (tokens ++ .openArgs :: (args ++ [.close])) (.compound name xs)
  /-- A term in brackets. -/
  | group {room p : Nat} {next bracket : Token} {tokens : List Token} {x : Term}
    (hbracket : bracket = .openGroup ∨ bracket = .openArgs) (h : Phrase ops 1200 p .close tokens x) :
    Phrase ops room 0 next (bracket :: (tokens ++ [.close])) x
  /-- A list. -/
  | list {room p : Nat} {next next' : Token} {tokens tokens' : List Token} {x y : Term}
    (hhead : Phrase ops 999 p next' tokens x) (htail : PhraseTail ops next' tokens' y) :
    Phrase ops room 0 next (.openList :: (tokens ++ (tokens' ++ [.closeList]))) (.cons x y)
  /-- A term in braces. -/
  | curly {room p : Nat} {next : Token} {tokens : List Token} {x : Term}
    (h : Phrase ops 1200 p .closeCurly tokens x) :
    Phrase ops room 0 next (.openCurly :: (tokens ++ [.closeCurly])) (.compound "\x7b\x7d" [x])
  /-- An operator before its operand, which the next token does not go on with. -/
  | before {room p : Nat} {next first : Token} {tokens rest : List Token} {name : String} {op : Operator}
    {x : Term} (hname : Spells tokens name) (hop : ops.find? name .before = some op)
    (hroom : op.priority ≤ room) (hfirst : first.Detached name) (hstarts : ops.starts first = true)
    (h : Phrase ops op.rightMax p next (first :: rest) x) (hnext : ops.Bounds op.rightMax next) :
    Phrase ops room op.priority next (tokens ++ first :: rest) (.compound name [x])
  /-- An operator between its operands.  The next token does not go on with the operand on the right. -/
  | between {room p p' : Nat} {next token : Token} {left right : List Token} {name : String}
    {op : Operator} {x y : Term} (hname : Joins token name) (hop : ops.find? name .between = some op)
    (hroom : op.priority ≤ room) (hleft : Phrase ops room p token left x) (hp : p ≤ op.leftMax)
    (hright : Phrase ops op.rightMax p' next right y) (hnext : ops.Bounds op.rightMax next) :
    Phrase ops room op.priority next (left ++ token :: right) (.compound name [x, y])

/-- The tokens are read as the arguments of a name. -/
inductive PhraseAll (ops : OperatorTable) : List Token → List Term → Prop
  /-- The last argument. -/
  | one {p : Nat} {tokens : List Token} {x : Term} (h : Phrase ops 999 p .close tokens x) :
    PhraseAll ops tokens [x]
  /-- One more argument in front. -/
  | more {p : Nat} {tokens tokens' : List Token} {x : Term} {xs : List Term}
    (h : Phrase ops 999 p .comma tokens x) (hrest : PhraseAll ops tokens' xs) :
    PhraseAll ops (tokens ++ .comma :: tokens') (x :: xs)

/-- After an item of a list, the tokens are read as the rest of the list.  The token `next` is the first of
them, or else the one that closes the list. -/
inductive PhraseTail (ops : OperatorTable) : (next : Token) → List Token → Term → Prop
  /-- No more items. -/
  | nil : PhraseTail ops .closeList [] (.atom "[]")
  /-- One more item. -/
  | cons {p : Nat} {next : Token} {tokens tokens' : List Token} {x y : Term}
    (hhead : Phrase ops 999 p next tokens x) (htail : PhraseTail ops next tokens' y) :
    PhraseTail ops .comma (.comma :: (tokens ++ tokens')) (.cons x y)
  /-- What stands for the tail. -/
  | bar {p : Nat} {tokens : List Token} {x : Term} (h : Phrase ops 999 p .closeList tokens x) :
    PhraseTail ops .bar (.bar :: tokens) x

end

section Shape

variable {ops : OperatorTable} {room p : Nat} {next : Token} {tokens tail : List Token} {name : String}
  {x y : Term}

/-- The tokens of a name begin with no closing bracket. -/
theorem Spells.begins (h : Spells tokens name) (more : List Token) :
    ∃ first rest, tokens ++ more = first :: rest ∧ first ≠ .closeList ∧ first ≠ .closeCurly := by
  cases h with
  | name | list | braces => exact ⟨_, _, rfl, by simp, by simp⟩

/-- A phrase begins with no closing bracket. -/
theorem Phrase.begins (h : Phrase ops room p next tokens x) (more : List Token) :
    ∃ first rest, tokens ++ more = first :: rest ∧ first ≠ .closeList ∧ first ≠ .closeCurly := by
  induction h using Phrase.rec (motive_2 := fun _ _ _ => True) (motive_3 := fun _ _ _ _ => True)
    generalizing more with
  | number | minus | list | curly => exact ⟨_, _, rfl, by simp, by simp⟩
  | name hname => exact hname.begins more
  | compound hname =>
    rw [List.append_assoc]
    exact hname.begins _
  | group hbracket =>
    obtain rfl | rfl := hbracket
    · exact ⟨_, _, rfl, by simp, by simp⟩
    · exact ⟨_, _, rfl, by simp, by simp⟩
  | before hname =>
    rw [List.append_assoc]
    exact hname.begins _
  | between _ _ _ _ _ _ _ ih =>
    rw [List.append_assoc]
    exact ih _
  | one | more | nil | cons | bar => trivial

/-- The rest of a list begins with the token that comes after the item. -/
theorem PhraseTail.begins (h : PhraseTail ops next tail y) (more : List Token) :
    ∃ rest, tail ++ .closeList :: more = next :: rest := by
  cases h with
  | nil => exact ⟨_, rfl⟩
  | cons => exact ⟨_, rfl⟩
  | bar => exact ⟨_, rfl⟩

/-- What comes after an item does not go on with it. -/
theorem PhraseTail.bounds (hops : ops.Separates) (h : PhraseTail ops next tail y) :
    ops.Bounds 999 next := by
  cases h with
  | nil => exact OperatorTable.bounds_closing (by simp)
  | cons => exact hops.bounds_comma
  | bar => exact hops.bounds_bar

end Shape

/-! ## Runs -/

namespace Reading

open Store
open TermReader (Gives)

variable {ops : OperatorTable} {reader final : TermReader} {token next : Token} {tokens : List Token}
  {name : String} {op : Operator} {limit room p : Nat} {s : Store} {names : List (String × Ref)}
  {begun : List Construct}

section Leads

variable {c c' : ReadPhase × Reading} {x y : Term} {tokens' : List Token} {begun' : List Construct}
  {p' : Nat}

/-- Steps lead to where the term is complete with the priority, made by adding cells to the store; the
constructs are still begun then, and the tokens come next. -/
def Leads (ops : OperatorTable) (final : TermReader) (names : List (String × Ref)) (s : Store)
    (c : ReadPhase × Reading) (begun : List Construct) (p : Nat) (tokens : List Token) (x : Term) : Prop :=
  ∃ reader r, Gives tokens final reader ∧ Makes s r x ∧
    ReflTransGen (Next ops) c (.complete r.1 p, ⟨reader, r.2, names, begun⟩)

theorem Leads.head (h : Leads ops final names s c' begun p tokens x) (hnext : Next ops c c') :
    Leads ops final names s c begun p tokens x := by
  obtain ⟨reader, r, hgives, hmakes, hsteps⟩ := h
  exact ⟨reader, r, hgives, hmakes, .head hnext hsteps⟩

theorem Leads.bind (h : Leads ops final names s c begun p tokens x)
    (hrest : ∀ reader r, Gives tokens final reader → Makes s r x →
      Leads ops final names r.2 (.complete r.1 p, ⟨reader, r.2, names, begun⟩) begun' p' tokens' y) :
    Leads ops final names s c begun' p' tokens' y := by
  obtain ⟨reader, r, hgives, hmakes, hsteps⟩ := h
  obtain ⟨reader', r', hgives', hmakes', hsteps'⟩ := hrest reader r hgives hmakes
  exact ⟨reader', r', hgives', hmakes'.after hmakes.grows, hsteps.trans hsteps'⟩

/-- One step makes the term. -/
theorem leads_of_next {r : Ref × Store} (hgives : Gives tokens final reader) (hmakes : Makes s r x)
    (hnext : Next ops c (.complete r.1 p, ⟨reader, r.2, names, begun⟩)) :
    Leads ops final names s c begun p tokens x :=
  ⟨reader, r, hgives, hmakes, .single hnext⟩

/-- The operand is the whole expression. -/
theorem Leads.expression (hbounds : ops.Bounds limit token)
    (h : Leads ops final names s c (.expression limit :: begun) p (token :: tokens) x) :
    Leads ops final names s c begun p (token :: tokens) x := by
  obtain ⟨reader, r, hgives, hmakes, hsteps⟩ := h
  obtain ⟨reader', hgives', hgive⟩ := giveExpression_bounds hbounds hgives r.1 p
  exact ⟨reader', r, hgives', hmakes, hsteps.tail (next_complete (hgive r.2 names begun))⟩

end Leads

/-- Where an operand is awaited, the tokens are read as the term, of which an operator may still make more
within the expression. -/
def ReadsAs (ops : OperatorTable) (room p : Nat) (next : Token) (tokens : List Token) (x : Term) : Prop :=
  ∀ ⦃more : List Token⦄ ⦃final reader : TermReader⦄ ⦃s : Store⦄ (names : List (String × Ref))
    (begun : List Construct), Gives (tokens ++ next :: more) final reader → s.WellFormed →
    Leads ops final names s (.operand, ⟨reader, s, names, .expression room :: begun⟩)
      (.expression room :: begun) p (next :: more) x

section Phrases

variable {x y : Term}

theorem readsAs_number {l : Literal} (hl : l.isNumber) (hcanonical : l.Canonical) :
    ReadsAs ops room 0 next [.literal l] (.literal l) := by
  intro more final reader s names begun hgives hs
  obtain ⟨reader', hgives', hnext⟩ := nextToken_eq hgives
  refine leads_of_next hgives' (hs.makes_literal hcanonical) (next_operand ?_)
  rw [beginOperand, bind_eq_of_ok (hnext _ _ _)]
  cases l with
  | atom name => cases hl
  | small n | big n | float x => rfl

theorem readsAs_minus {l : Literal} (hl : l.isNumber) :
    ReadsAs ops room 0 next [.literal (.atom "-"), .literal l] (.literal l.neg) := by
  intro more final reader s names begun hgives hs
  obtain ⟨reader₁, h₁, hbegin⟩ := beginOperand_spells ops (.name "-") hgives
  obtain ⟨reader₂, h₂, hname⟩ := nameOperand_minus ops hl h₁
  refine leads_of_next h₂ (hs.makes_literal (Literal.neg_canonical l)) ?_
  exact next_operand ((hbegin _ _ _).trans (hname _ _ _))

theorem readsAs_name (hname : Spells tokens name) (hnext : next.Detached name)
    (hop : ∀ op, ops.find? name .before = some op → op.priority ≤ room → ops.starts next = false) :
    ReadsAs ops room 0 next tokens (.atom name) := by
  intro more final reader s names begun hgives hs
  obtain ⟨reader₁, h₁, hbegin⟩ := beginOperand_spells ops hname hgives
  obtain ⟨reader₂, h₂, hdetached⟩ := nameOperand_detached ops hnext h₁
  obtain ⟨reader₃, h₃, hatom⟩ := operatorOrName_atom h₂ hop
  refine leads_of_next h₃ (hs.makes_atom name) (next_operand ?_)
  exact (hbegin _ _ _).trans ((hdetached _ _ _).trans (hatom _ _ _))

theorem readsAs_group {bracket : Token} (hbracket : bracket = .openGroup ∨ bracket = .openArgs)
    (hx : ReadsAs ops 1200 p .close tokens x) :
    ReadsAs ops room 0 next (bracket :: (tokens ++ [.close])) x := by
  intro more final reader s names begun hgives hs
  rw [List.cons_append, List.append_assoc, List.singleton_append] at hgives
  obtain ⟨reader₁, h₁, hnext⟩ := nextToken_eq hgives
  have hopen : Next ops (.operand, ⟨reader, s, names, .expression room :: begun⟩)
      (.operand, ⟨reader₁, s, names, .expression 1200 :: .group :: .expression room :: begun⟩) := by
    refine next_operand ?_
    rw [beginOperand, bind_eq_of_ok (hnext _ _ _)]
    obtain rfl | rfl := hbracket <;> rfl
  have hinner := (hx names (.group :: .expression room :: begun) h₁ hs).expression
    (OperatorTable.bounds_closing (by simp))
  refine .head (hinner.bind ?_) hopen
  intro reader' r hgives' hmakes
  obtain ⟨reader₂, h₂, hclose⟩ := expect_eq hgives'
  refine ⟨reader₂, r, h₂, ⟨.refl _, hmakes.wellFormed, hmakes.denotes⟩, .single (next_complete ?_)⟩
  rw [giveOperand, bind_eq_of_ok (hclose _ _ _)]
  rfl

theorem readsAs_curly (hbegins : ∀ more, ∃ first rest, tokens ++ more = first :: rest ∧
      first ≠ .closeList ∧ first ≠ .closeCurly) (hx : ReadsAs ops 1200 p .closeCurly tokens x) :
    ReadsAs ops room 0 next (.openCurly :: (tokens ++ [.closeCurly])) (.compound "\x7b\x7d" [x]) := by
  intro more final reader s names begun hgives hs
  rw [List.cons_append, List.append_assoc, List.singleton_append] at hgives
  obtain ⟨reader₁, h₁, hnext⟩ := nextToken_eq hgives
  obtain ⟨first, rest, heq, -, hfirst⟩ := hbegins (.closeCurly :: next :: more)
  rw [heq] at h₁
  obtain ⟨reader₂, h₂, hpeek⟩ := peekToken_eq h₁
  rw [← heq] at h₂
  have hopen : Next ops (.operand, ⟨reader, s, names, .expression room :: begun⟩)
      (.operand, ⟨reader₂, s, names, .expression 1200 :: .curly :: .expression room :: begun⟩) := by
    refine next_operand ?_
    rw [beginOperand, bind_eq_of_ok (hnext _ _ _)]
    dsimp only
    rw [bind_eq_of_ok (hpeek _ _ _), if_neg hfirst]
    rfl
  have hinner := (hx names (.curly :: .expression room :: begun) h₂ hs).expression
    (OperatorTable.bounds_closing (by simp))
  refine .head (hinner.bind ?_) hopen
  intro reader' r hgives' hmakes
  obtain ⟨reader₃, h₃, hclose⟩ := expect_eq hgives'
  have hall : DenotesAll r.2 [r.1] [x] := .cons hmakes.denotes .nil
  refine leads_of_next h₃ (hmakes.wellFormed.makes_apply _ hall (List.cons_ne_nil _ _))
    (next_complete ?_)
  rw [giveOperand, bind_eq_of_ok (hclose _ _ _)]
  rfl

/-! ### Operators -/

theorem readsAs_before {first : Token} {rest : List Token} (hname : Spells tokens name)
    (hop : ops.find? name .before = some op) (hroom : op.priority ≤ room) (hfirst : first.Detached name)
    (hstarts : ops.starts first = true) (hx : ReadsAs ops op.rightMax p next (first :: rest) x)
    (hnext : ops.Bounds op.rightMax next) :
    ReadsAs ops room op.priority next (tokens ++ first :: rest) (.compound name [x]) := by
  intro more final reader s names begun hgives hs
  rw [List.append_assoc] at hgives
  obtain ⟨reader₁, h₁, hbegin⟩ := beginOperand_spells ops hname hgives
  obtain ⟨reader₂, h₂, hdetached⟩ := nameOperand_detached ops hfirst h₁
  obtain ⟨reader₃, h₃, hbefore⟩ := operatorOrName_before h₂ hop hroom hstarts
  have hopen : Next ops (.operand, ⟨reader, s, names, .expression room :: begun⟩)
      (.operand, ⟨reader₃, s, names, .expression op.rightMax :: .before name op.priority ::
        .expression room :: begun⟩) :=
    next_operand ((hbegin _ _ _).trans ((hdetached _ _ _).trans (hbefore _ _ _)))
  have hinner := (hx names (.before name op.priority :: .expression room :: begun) h₃ hs).expression hnext
  refine .head (hinner.bind ?_) hopen
  intro reader' r hgives' hmakes
  have hall : DenotesAll r.2 [r.1] [x] := .cons hmakes.denotes .nil
  exact leads_of_next hgives' (hmakes.wellFormed.makes_apply name hall (List.cons_ne_nil _ _))
    (next_complete rfl)

theorem readsAs_between {p' : Nat} {left right : List Token} (hname : Joins token name)
    (hop : ops.find? name .between = some op) (hroom : op.priority ≤ room)
    (hx : ReadsAs ops room p token left x) (hp : p ≤ op.leftMax)
    (hy : ReadsAs ops op.rightMax p' next right y) (hnext : ops.Bounds op.rightMax next) :
    ReadsAs ops room op.priority next (left ++ token :: right) (.compound name [x, y]) := by
  intro more final reader s names begun hgives hs
  rw [List.append_assoc, List.cons_append] at hgives
  refine (hx names begun hgives hs).bind ?_
  intro reader₁ r h₁ hmakes
  obtain ⟨reader₂, h₂, hgive⟩ := giveExpression_between hname hop hroom hp h₁ r.1
  have hinner := (hy names (.between name op.priority r.1 :: .expression room :: begun) h₂
    hmakes.wellFormed).expression hnext
  refine .head (hinner.bind ?_) (next_complete (hgive _ _ _))
  intro reader₃ r' h₃ hmakes'
  have hleft := hmakes.denotes.grow hmakes.wellFormed hmakes'.grows hmakes'.wellFormed.acyclic
  have hall : DenotesAll r'.2 [r.1, r'.1] [x, y] := .cons hleft (.cons hmakes'.denotes .nil)
  exact leads_of_next h₃ (hmakes'.wellFormed.makes_apply name hall (List.cons_ne_nil _ _))
    (next_complete rfl)

/-! ### Arguments -/

/-- Where an argument of a name is awaited, the tokens are read as the arguments that are left. -/
def ReadsArgs (ops : OperatorTable) (tokens : List Token) (ys : List Term) : Prop :=
  ∀ (name : String) (items : List Ref) ⦃xs : List Term⦄ ⦃more : List Token⦄
    ⦃final reader : TermReader⦄ ⦃s : Store⦄ (names : List (String × Ref)) (begun : List Construct),
    DenotesAll s items.reverse xs → Gives (tokens ++ .close :: more) final reader → s.WellFormed →
    Leads ops final names s (.operand, ⟨reader, s, names, .expression 999 :: .args name items :: begun⟩)
      begun 0 more (.compound name (xs ++ ys))

/-- One more item has been made. -/
theorem denotesAll_snoc {items : List Ref} {xs : List Term} {r : Ref × Store}
    (hitems : DenotesAll s items.reverse xs) (hs : s.WellFormed) (hmakes : Makes s r x) :
    DenotesAll r.2 (r.1 :: items).reverse (xs ++ [x]) := by
  rw [List.reverse_cons]
  exact (hitems.grow hs hmakes.grows hmakes.wellFormed.acyclic).append (.cons hmakes.denotes .nil)

theorem readsArgs_one (hx : ReadsAs ops 999 p .close tokens x) : ReadsArgs ops tokens [x] := by
  intro name items xs more final reader s names begun hitems hgives hs
  have hinner := (hx names (.args name items :: begun) hgives hs).expression
    (OperatorTable.bounds_closing (by simp))
  refine hinner.bind ?_
  intro reader' r hgives' hmakes
  obtain ⟨reader₁, h₁, hnext⟩ := nextToken_eq hgives'
  have hall := denotesAll_snoc hitems hs hmakes
  have hne : (r.1 :: items).reverse ≠ [] := by
    rw [List.reverse_ne_nil_iff]
    exact List.cons_ne_nil _ _
  refine leads_of_next h₁ (hmakes.wellFormed.makes_apply name hall hne) (next_complete ?_)
  rw [giveOperand, bind_eq_of_ok (hnext _ _ _)]
  rfl

theorem readsArgs_more (hops : ops.Separates) {tokens' : List Token} {ys : List Term}
    (hx : ReadsAs ops 999 p .comma tokens x) (hrest : ReadsArgs ops tokens' ys) :
    ReadsArgs ops (tokens ++ .comma :: tokens') (x :: ys) := by
  intro name items xs more final reader s names begun hitems hgives hs
  rw [List.append_assoc, List.cons_append] at hgives
  refine ((hx names (.args name items :: begun) hgives hs).expression hops.bounds_comma).bind ?_
  intro reader' r hgives' hmakes
  obtain ⟨reader₁, h₁, hnext⟩ := nextToken_eq hgives'
  have hall := denotesAll_snoc hitems hs hmakes
  have hlast := hrest name _ names begun hall h₁ hmakes.wellFormed
  rw [List.append_assoc, List.singleton_append] at hlast
  refine hlast.head (next_complete ?_)
  rw [giveOperand, bind_eq_of_ok (hnext _ _ _)]
  rfl

theorem readsAs_compound {args : List Token} {xs : List Term} (hname : Spells tokens name)
    (hargs : ReadsArgs ops args xs) :
    ReadsAs ops room 0 next (tokens ++ .openArgs :: (args ++ [.close])) (.compound name xs) := by
  intro more final reader s names begun hgives hs
  rw [List.append_assoc, List.cons_append, List.append_assoc, List.singleton_append] at hgives
  obtain ⟨reader₁, h₁, hbegin⟩ := beginOperand_spells ops hname hgives
  obtain ⟨reader₂, h₂, hopen⟩ := nameOperand_args ops name h₁
  have hall := hargs name [] names (.expression room :: begun) .nil h₂ hs
  rw [List.nil_append] at hall
  exact hall.head (next_operand ((hbegin _ _ _).trans (hopen _ _ _)))

/-! ### Lists -/

/-- After an item of a list, the tokens are read as the rest of the list. -/
def ReadsTail (ops : OperatorTable) (tokens : List Token) (y : Term) : Prop :=
  ∀ ⦃t : Ref⦄ ⦃p : Nat⦄ ⦃items : List Ref⦄ ⦃xs : List Term⦄ ⦃x : Term⦄ ⦃more : List Token⦄
    ⦃final reader : TermReader⦄ ⦃s : Store⦄ (names : List (String × Ref)) (begun : List Construct),
    DenotesAll s (t :: items).reverse (xs ++ [x]) → Gives (tokens ++ .closeList :: more) final reader →
    s.WellFormed → Leads ops final names s (.complete t p, ⟨reader, s, names, .list items :: begun⟩)
      begun 0 more (.partialList (xs ++ [x]) y)

theorem readsTail_nil : ReadsTail ops [] (.atom "[]") := by
  intro t p items xs x more final reader s names begun hall hgives hs
  obtain ⟨reader₁, h₁, hnext⟩ := nextToken_eq hgives
  refine leads_of_next h₁ (hs.makes_list hall) (next_complete ?_)
  rw [giveOperand, bind_eq_of_ok (hnext _ _ _)]
  rfl

theorem readsTail_cons (hops : ops.Separates) {tail : List Token} (hx : ReadsAs ops 999 p next tokens x)
    (htail : PhraseTail ops next tail y) (hy : ReadsTail ops tail y) :
    ReadsTail ops (.comma :: (tokens ++ tail)) (.cons x y) := by
  intro t p' items xs z more final reader s names begun hall hgives hs
  obtain ⟨rest, heq⟩ := htail.begins more
  rw [List.cons_append, List.append_assoc, heq] at hgives
  obtain ⟨reader₁, h₁, hnext⟩ := nextToken_eq hgives
  have hcomma : Next ops (.complete t p', ⟨reader, s, names, .list items :: begun⟩)
      (.operand, ⟨reader₁, s, names, .expression 999 :: .list (t :: items) :: begun⟩) := by
    refine next_complete ?_
    rw [giveOperand, bind_eq_of_ok (hnext _ _ _)]
    rfl
  have hinner := (hx names (.list (t :: items) :: begun) h₁ hs).expression (htail.bounds hops)
  refine .head (hinner.bind ?_) hcomma
  intro reader' r hgives' hmakes
  rw [← heq] at hgives'
  have hlast := hy (p := p) names begun (denotesAll_snoc hall hs hmakes) hgives' hmakes.wellFormed
  have hlist : Term.partialList (xs ++ [z] ++ [x]) y = Term.partialList (xs ++ [z]) (.cons x y) := by
    rw [Term.partialList, Term.partialList, List.foldr_append, List.foldr_cons, List.foldr_nil]
  rw [hlist] at hlast
  exact hlast

theorem readsTail_bar (hx : ReadsAs ops 999 p .closeList tokens x) : ReadsTail ops (.bar :: tokens) x := by
  intro t p' items xs z more final reader s names begun hall hgives hs
  obtain ⟨reader₁, h₁, hnext⟩ := nextToken_eq hgives
  have hbar : Next ops (.complete t p', ⟨reader, s, names, .list items :: begun⟩)
      (.operand, ⟨reader₁, s, names, .expression 999 :: .listTail (t :: items) :: begun⟩) := by
    refine next_complete ?_
    rw [giveOperand, bind_eq_of_ok (hnext _ _ _)]
    rfl
  have hinner := (hx names (.listTail (t :: items) :: begun) h₁ hs).expression
    (OperatorTable.bounds_closing (by simp))
  refine .head (hinner.bind ?_) hbar
  intro reader' r hgives' hmakes
  obtain ⟨reader₂, h₂, hclose⟩ := expect_eq hgives'
  have hitems := hall.grow hs hmakes.grows hmakes.wellFormed.acyclic
  refine leads_of_next h₂ (hmakes.wellFormed.makes_partialList hitems hmakes.denotes) (next_complete ?_)
  rw [giveOperand, bind_eq_of_ok (hclose _ _ _)]
  rfl

theorem readsAs_list (hops : ops.Separates) {next' : Token} {tail : List Token}
    (hbegins : ∀ more, ∃ first rest, tokens ++ more = first :: rest ∧ first ≠ .closeList ∧
      first ≠ .closeCurly) (hx : ReadsAs ops 999 p next' tokens x) (htail : PhraseTail ops next' tail y)
    (hy : ReadsTail ops tail y) :
    ReadsAs ops room 0 next (.openList :: (tokens ++ (tail ++ [.closeList]))) (.cons x y) := by
  intro more final reader s names begun hgives hs
  rw [List.cons_append, List.append_assoc, List.append_assoc, List.singleton_append] at hgives
  obtain ⟨reader₁, h₁, hnext⟩ := nextToken_eq hgives
  obtain ⟨first, rest, heq, hfirst, -⟩ := hbegins (tail ++ .closeList :: next :: more)
  rw [heq] at h₁
  obtain ⟨reader₂, h₂, hpeek⟩ := peekToken_eq h₁
  obtain ⟨rest', heq'⟩ := htail.begins (next :: more)
  have hopen : Next ops (.operand, ⟨reader, s, names, .expression room :: begun⟩)
      (.operand, ⟨reader₂, s, names, .expression 999 :: .list [] :: .expression room :: begun⟩) := by
    refine next_operand ?_
    rw [beginOperand, bind_eq_of_ok (hnext _ _ _)]
    dsimp only
    rw [bind_eq_of_ok (hpeek _ _ _), if_neg hfirst]
    rfl
  rw [← heq, heq'] at h₂
  have hinner := (hx names (.list [] :: .expression room :: begun) h₂ hs).expression (htail.bounds hops)
  refine .head (hinner.bind ?_) hopen
  intro reader' r hgives' hmakes
  rw [← heq'] at hgives'
  have hall : DenotesAll r.2 [r.1].reverse ([] ++ [x]) := .cons hmakes.denotes .nil
  exact hy names (.expression room :: begun) hall hgives' hmakes.wellFormed

/-- **A phrase is read as its term**, by recursion on the phrase. -/
theorem readsAs_phrase (hops : ops.Separates) (h : Phrase ops room p next tokens x) :
    ReadsAs ops room p next tokens x := by
  induction h using Phrase.rec (motive_2 := fun tokens xs _ => ReadsArgs ops tokens xs)
    (motive_3 := fun _ tokens y _ => ReadsTail ops tokens y) with
  | number hl hcanonical => exact readsAs_number hl hcanonical
  | minus hl => exact readsAs_minus hl
  | name hname hnext hop => exact readsAs_name hname hnext hop
  | compound hname _ ih => exact readsAs_compound hname ih
  | group hbracket _ ih => exact readsAs_group hbracket ih
  | list hhead htail ih ih' => exact readsAs_list hops hhead.begins ih htail ih'
  | curly h ih => exact readsAs_curly h.begins ih
  | before hname hop hroom hfirst hstarts _ hnext ih =>
    exact readsAs_before hname hop hroom hfirst hstarts ih hnext
  | between hname hop hroom _ hp _ hnext ih ih' => exact readsAs_between hname hop hroom ih hp ih' hnext
  | one _ ih => exact readsArgs_one ih
  | more _ _ ih ih' => exact readsArgs_more hops ih ih'
  | nil => exact readsTail_nil
  | cons _ htail ih ih' => exact readsTail_cons hops ih htail ih'
  | bar _ ih => exact readsTail_bar ih

end Phrases

end Reading

/-! ## Terms -/

namespace TermReader

variable {ops : OperatorTable} {reader final : TermReader} {tokens : List Token} {x : Term} {p : Nat}
  {s : Store}

/-- **The reader gives the term that a phrase before a full stop is read as**, and what comes after the
full stop is left. -/
theorem read_phrase (hops : ops.Separates) (h : Phrase ops 1200 p .stop tokens x)
    (hgives : Gives (tokens ++ [.stop]) final reader) (hs : s.WellFormed) :
    ∃ t s', reader.read ops s = (.ok t, final, s') ∧ s'.snapshot t = x := by
  have hreads := (Reading.readsAs_phrase hops h [] [] hgives hs).expression
    (OperatorTable.bounds_closing (by simp))
  obtain ⟨reader₁, r, hgives₁, hmakes, hsteps⟩ := hreads
  obtain ⟨reader₂, hstop, -, htakes, -⟩ := hgives₁.head
  cases htakes
  exact ⟨r.1, r.2, Reading.read_of_complete hsteps hstop, hmakes.denotes.eq⟩

end TermReader

end Clausal
