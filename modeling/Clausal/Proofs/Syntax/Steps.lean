import Clausal.Proofs.Syntax.Grammar
import Clausal.Proofs.Syntax.Termination

/-! # What the reader does with the next token

Given the tokens to come (`TermReader.Gives`), every action of reading is an equation: a token is taken or
looked at, a name is an operand, an operator before its operand or the name of a compound, and an operand
is continued by an operator or is the whole expression.  Which of these it is depends on the token after
the name or the operand, and on nothing further: `Token.Detached`, `OperatorTable.starts` and
`OperatorTable.Bounds` say what is asked of that token.
-/

namespace Clausal

open Relation (ReflTransGen)

/-! ## What the next token decides -/

/-- The token is a number. -/
def Token.isNumber : Token → Bool
  | .literal l => l.isNumber
  | _ => false

/-- The token after a name neither opens its arguments nor is a number of which the name is the sign. -/
structure Token.Detached (token : Token) (name : String) : Prop where
  /-- Arguments are opened by a bracket right after the name. -/
  args : token ≠ .openArgs
  /-- A minus is the sign of the number after it. -/
  sign : name = "-" → token.isNumber = false

/-- A token after an operand that is no name belongs to no name before it. -/
theorem Token.detached_mark {token : Token}
    (h : token ∈ [.comma, .bar, .close, .closeList, .closeCurly, .stop]) (name : String) :
    token.Detached name := by
  constructor
  · rintro rfl
    exact absurd h (by simp)
  · intro _
    cases token with
    | literal l => exact absurd h (by simp)
    | _ => rfl

namespace OperatorTable

/-- Whether the operand of an operator before it can begin with the token. -/
def starts (ops : OperatorTable) : Token → Bool
  | .literal (.atom name) =>
    (ops.find? name .before).isSome ||
      ((ops.find? name .between).isNone && (ops.find? name .after).isNone)
  | .literal _ | .var _ | .quoted _ | .backQuoted _ => true
  | .openGroup | .openArgs | .openList | .openCurly => true
  | _ => false

/-- No operator that the token may be after an operand has a priority up to the limit. -/
def Bounds (ops : OperatorTable) (limit : Nat) (token : Token) : Prop :=
  ∀ name, Joins token name → ∀ fixity ∈ [Fixity.between, .after], ∀ op,
    ops.find? name fixity = some op → limit < op.priority

/-- Neither a comma nor a bar is an operator that could go on with an argument. -/
def Separates (ops : OperatorTable) : Prop :=
  ∀ name ∈ [",", "|"], ∀ fixity ∈ [Fixity.between, .after], ∀ op,
    ops.find? name fixity = some op → 1000 ≤ op.priority

/-- The standard comma has priority 1000, and the bar is no standard operator. -/
theorem separates_standard : standard.Separates := by
  have hcomma : standard.find? "," .between = some ⟨1000, .xfy⟩ := by decide +kernel
  have hafter : standard.find? "," .after = none := by decide +kernel
  have hbar : standard.find? "|" .between = none := by decide +kernel
  have hbar' : standard.find? "|" .after = none := by decide +kernel
  intro name hname fixity hfixity op hop
  simp only [List.mem_cons, List.not_mem_nil, or_false] at hname hfixity
  obtain rfl | rfl := hname <;> obtain rfl | rfl := hfixity
  · rw [hcomma] at hop
    cases hop
    exact Nat.le_refl _
  · rw [hafter] at hop
    cases hop
  · rw [hbar] at hop
    cases hop
  · rw [hbar'] at hop
    cases hop

variable {ops : OperatorTable} {limit : Nat} {token : Token}

/-- What closes a term goes on with nothing. -/
theorem bounds_closing (h : token ∈ [.close, .closeList, .closeCurly, .stop]) :
    ops.Bounds limit token := by
  intro name hname
  cases hname with
  | name | comma | bar => exact absurd h (by simp)

theorem Separates.bounds_comma (h : ops.Separates) : ops.Bounds 999 .comma := by
  rintro name ⟨⟩ fixity hfixity op hop
  exact h "," (by decide) fixity hfixity op hop

theorem Separates.bounds_bar (h : ops.Separates) : ops.Bounds 999 .bar := by
  rintro name ⟨⟩ fixity hfixity op hop
  exact h "|" (by decide) fixity hfixity op hop

end OperatorTable

/-! ## Tokens to come -/

namespace TermReader

variable {reader final : TermReader} {token : Token} {tokens : List Token}

/-- The tokens come next, and the reader after them is `final`.  Placeholders are names. -/
structure Gives (tokens : List Token) (final reader : TermReader) : Prop where
  /-- The tokens. -/
  takes : reader.Takes tokens final
  /-- No placeholder is replaced. -/
  placeholders : reader.placeholders = none

/-- A token that comes first is taken from the reader or held back by it. -/
theorem Gives.head (h : Gives (token :: tokens) final reader) :
    ∃ reader', reader.token? = some (token, reader') ∧ reader.placeholders = none ∧
      Gives tokens final reader' := by
  obtain ⟨htakes, hplaceholders⟩ := h
  cases htakes with
  | @cons _ reader' _ _ _ htoken htokens =>
  have hsame : reader'.placeholders = reader.placeholders := by
    rw [token?] at htoken
    split at htoken
    · cases htoken
      rfl
    · split at htoken <;> cases htoken
      rfl
  exact ⟨reader', htoken, hplaceholders, htokens, hsame.trans hplaceholders⟩

theorem Gives.cons {reader' : TermReader} (h : Gives tokens final reader')
    (htoken : reader.token? = some (token, reader')) (hplaceholders : reader.placeholders = none) :
    Gives (token :: tokens) final reader :=
  ⟨.cons htoken h.takes, hplaceholders⟩

end TermReader

namespace Reading

open TermReader (Gives)

variable {ops : OperatorTable} {reader final : TermReader} {token next : Token} {tokens : List Token}
  {name : String} {op : Operator} {limit room p : Nat} {s : Store} {names : List (String × Ref)}
  {begun : List Construct}

theorem lexing_eq {reader' : TermReader} (hahead : reader.ahead = none)
    (h : reader.token? = some (token, reader')) (s : Store) (names : List (String × Ref))
    (begun : List Construct) :
    lexing Lexer.token ⟨reader, s, names, begun⟩ = .ok token ⟨reader', s, names, begun⟩ := by
  obtain ⟨lexer, ahead, placeholders, doubleQuotes⟩ := reader
  subst hahead
  rw [TermReader.token?] at h
  dsimp only at h
  split at h
  · rename_i t lexer' hlexer
    cases h
    simp only [lexing, hlexer]
  · cases h

/-- The next token is taken. -/
theorem nextToken_of_token? {reader' : TermReader} (h : reader.token? = some (token, reader'))
    (s : Store) (names : List (String × Ref)) (begun : List Construct) :
    nextToken ⟨reader, s, names, begun⟩ = .ok token ⟨reader', s, names, begun⟩ := by
  obtain ⟨lexer, ahead, placeholders, doubleQuotes⟩ := reader
  cases ahead with
  | some t =>
    cases h
    rfl
  | none => exact lexing_eq rfl h s names begun

/-- The next token is looked at, and held back then. -/
theorem peekToken_of_token? {reader' : TermReader} (h : reader.token? = some (token, reader'))
    (s : Store) (names : List (String × Ref)) (begun : List Construct) :
    peekToken ⟨reader, s, names, begun⟩ =
      .ok token ⟨{ reader' with ahead := some token }, s, names, begun⟩ := by
  obtain ⟨lexer, ahead, placeholders, doubleQuotes⟩ := reader
  cases ahead with
  | some t =>
    cases h
    rfl
  | none =>
    have hpeek : peekToken ⟨⟨lexer, none, placeholders, doubleQuotes⟩, s, names, begun⟩ = (do
        let token ← lexing Lexer.token
        modify fun r => { r with reader := { r.reader with ahead := some token } }
        pure token : ReadM Token) ⟨⟨lexer, none, placeholders, doubleQuotes⟩, s, names, begun⟩ := rfl
    rw [hpeek, bind_eq_of_ok (lexing_eq rfl h s names begun)]
    rfl

/-- A token that comes is taken. -/
theorem nextToken_eq (h : Gives (token :: tokens) final reader) : ∃ reader', Gives tokens final reader' ∧
    ∀ s names begun, nextToken ⟨reader, s, names, begun⟩ = .ok token ⟨reader', s, names, begun⟩ := by
  obtain ⟨reader', htoken, -, hrest⟩ := h.head
  exact ⟨reader', hrest, nextToken_of_token? htoken⟩

/-- A token that comes is looked at, and still comes then. -/
theorem peekToken_eq (h : Gives (token :: tokens) final reader) :
    ∃ reader', Gives (token :: tokens) final reader' ∧
      ∀ s names begun, peekToken ⟨reader, s, names, begun⟩ = .ok token ⟨reader', s, names, begun⟩ := by
  obtain ⟨reader', htoken, hplaceholders, hrest⟩ := h.head
  have hheld := TermReader.token?_held token (TermReader.ahead_of_token? htoken)
  exact ⟨_, hrest.cons hheld hrest.placeholders, peekToken_of_token? htoken⟩

/-- The token that has to come is taken. -/
theorem expect_eq (h : Gives (token :: tokens) final reader) : ∃ reader', Gives tokens final reader' ∧
    ∀ s names begun, expect token ⟨reader, s, names, begun⟩ = .ok () ⟨reader', s, names, begun⟩ := by
  obtain ⟨reader', hrest, hnext⟩ := nextToken_eq h
  refine ⟨reader', hrest, ?_⟩
  intro s names begun
  rw [expect, bind_eq_of_ok (hnext s names begun), if_pos rfl]
  rfl

/-- One step of reading that is no error, before the whole term is complete. -/
def Next (ops : OperatorTable) (c c' : ReadPhase × Reading) : Prop :=
  (∀ t, c.1 ≠ .whole t) ∧ step ops c.1 c.2 = .ok c'.1 c'.2

/-- Steps lead to a result. -/
theorem comes_of_next {c : ReadPhase × Reading} {t : Ref} {r' : Reading}
    (h : ReflTransGen (Next ops) c (.whole t, r')) : ∃ n, Comes ops n c.1 c.2 (.ok t r') := by
  induction h using ReflTransGen.head_induction_on with
  | refl => exact ⟨0, .whole t r'⟩
  | head hstep _ ih =>
    obtain ⟨n, hcomes⟩ := ih
    exact ⟨n + 1, .step hstep.1 hstep.2 hcomes⟩

theorem next_operand {r r' : Reading} {phase : ReadPhase} (h : beginOperand ops r = .ok phase r') :
    Next ops (.operand, r) (phase, r') := by
  refine ⟨?_, h⟩
  intro t ht
  cases ht

theorem next_complete {construct : Construct} {t : Ref} {phase : ReadPhase} {r' : Reading}
    (h : giveOperand ops construct t p ⟨reader, s, names, begun⟩ = .ok phase r') :
    Next ops (.complete t p, ⟨reader, s, names, construct :: begun⟩) (phase, r') := by
  refine ⟨?_, h⟩
  intro t ht
  cases ht

/-! ## Names -/

/-- The tokens of a name are taken, and the name is an operand or begins one. -/
theorem beginOperand_spells (ops : OperatorTable) (hname : Spells tokens name) {more : List Token}
    (h : Gives (tokens ++ more) final reader) : ∃ reader', Gives more final reader' ∧
      ∀ s names begun, beginOperand ops ⟨reader, s, names, begun⟩ =
        nameOperand ops name ⟨reader', s, names, begun⟩ := by
  cases hname with
  | name =>
    obtain ⟨reader₁, h₁, hnext⟩ := nextToken_eq h
    refine ⟨reader₁, h₁, ?_⟩
    intro s names begun
    rw [beginOperand, bind_eq_of_ok (hnext s names begun)]
  | list =>
    obtain ⟨reader₁, h₁, hnext⟩ := nextToken_eq h
    obtain ⟨reader₂, h₂, hpeek⟩ := peekToken_eq h₁
    obtain ⟨reader₃, h₃, hnext'⟩ := nextToken_eq h₂
    refine ⟨reader₃, h₃, ?_⟩
    intro s names begun
    rw [beginOperand, bind_eq_of_ok (hnext s names begun)]
    dsimp only
    rw [bind_eq_of_ok (hpeek s names begun), if_pos rfl, bind_eq_of_ok (hnext' s names begun)]
  | braces =>
    obtain ⟨reader₁, h₁, hnext⟩ := nextToken_eq h
    obtain ⟨reader₂, h₂, hpeek⟩ := peekToken_eq h₁
    obtain ⟨reader₃, h₃, hnext'⟩ := nextToken_eq h₂
    refine ⟨reader₃, h₃, ?_⟩
    intro s names begun
    rw [beginOperand, bind_eq_of_ok (hnext s names begun)]
    dsimp only
    rw [bind_eq_of_ok (hpeek s names begun), if_pos rfl, bind_eq_of_ok (hnext' s names begun)]

/-- A bracket right after the name opens its arguments. -/
theorem nameOperand_args (ops : OperatorTable) (name : String)
    (h : Gives (.openArgs :: tokens) final reader) :
    ∃ reader', Gives tokens final reader' ∧ ∀ s names begun,
      nameOperand ops name ⟨reader, s, names, begun⟩ =
        .ok .operand ⟨reader', s, names, .expression 999 :: .args name [] :: begun⟩ := by
  obtain ⟨reader₁, h₁, hpeek⟩ := peekToken_eq h
  obtain ⟨reader₂, h₂, hnext⟩ := nextToken_eq h₁
  refine ⟨reader₂, h₂, ?_⟩
  intro s names begun
  rw [nameOperand, bind_eq_of_ok (hpeek s names begun)]
  dsimp only
  rw [bind_eq_of_ok (hnext s names begun)]
  rfl

/-- A minus right before a number is its sign. -/
theorem nameOperand_minus (ops : OperatorTable) {l : Literal} (hl : l.isNumber)
    (h : Gives (.literal l :: tokens) final reader) :
    ∃ reader', Gives tokens final reader' ∧ ∀ s names begun,
      nameOperand ops "-" ⟨reader, s, names, begun⟩ =
        .ok (.complete (s.literal l.neg).1 0) ⟨reader', (s.literal l.neg).2, names, begun⟩ := by
  obtain ⟨reader₁, h₁, hpeek⟩ := peekToken_eq h
  obtain ⟨reader₂, h₂, hnext⟩ := nextToken_eq h₁
  refine ⟨reader₂, h₂, ?_⟩
  intro s names begun
  rw [nameOperand, bind_eq_of_ok (hpeek s names begun)]
  dsimp only
  rw [hl, decide_eq_true rfl, Bool.and_self, if_pos rfl, bind_eq_of_ok (hnext s names begun)]
  rfl

/-- Before any other token a name is an operator or itself. -/
theorem nameOperand_detached (ops : OperatorTable) (hnext : next.Detached name)
    (h : Gives (next :: tokens) final reader) :
    ∃ reader', Gives (next :: tokens) final reader' ∧ ∀ s names begun,
      nameOperand ops name ⟨reader, s, names, begun⟩ =
        operatorOrName ops name ⟨reader', s, names, begun⟩ := by
  obtain ⟨reader₁, h₁, hpeek⟩ := peekToken_eq h
  refine ⟨reader₁, h₁, ?_⟩
  intro s names begun
  rw [nameOperand, bind_eq_of_ok (hpeek s names begun)]
  obtain ⟨hargs, hsign⟩ := hnext
  cases next with
  | openArgs => exact absurd rfl hargs
  | literal l =>
    have hminus : (decide (name = "-") && l.isNumber) = false := by
      by_cases hname : name = "-"
      · rw [show l.isNumber = false from hsign hname, Bool.and_false]
      · rw [decide_eq_false hname, Bool.false_and]
    dsimp only
    rw [hminus, if_neg Bool.false_ne_true]
  | _ => rfl

/-- Where placeholders are names, every name is itself. -/
theorem plainName_eq (h : reader.placeholders = none) (name : String) (s : Store)
    (names : List (String × Ref)) (begun : List Construct) :
    plainName name ⟨reader, s, names, begun⟩ =
      .ok (.complete (s.atom name).1 0) ⟨reader, (s.atom name).2, names, begun⟩ := by
  rw [plainName]
  by_cases hquestion : name = "?"
  · subst hquestion
    rw [if_pos rfl]
    obtain ⟨lexer, ahead, placeholders, doubleQuotes⟩ := reader
    cases h
    rfl
  · rw [if_neg hquestion]
    rfl

theorem startsOperand_eq (ops : OperatorTable) (h : Gives (token :: tokens) final reader) :
    ∃ reader', Gives (token :: tokens) final reader' ∧ ∀ s names begun,
      startsOperand ops ⟨reader, s, names, begun⟩ = .ok (ops.starts token) ⟨reader', s, names, begun⟩ := by
  obtain ⟨reader₁, h₁, hpeek⟩ := peekToken_eq h
  refine ⟨reader₁, h₁, ?_⟩
  intro s names begun
  rw [startsOperand, bind_eq_of_ok (hpeek s names begun)]
  cases token with
  | literal l => cases l <;> rfl
  | _ => rfl

/-- A name that is no operator there, or has no operand, is itself. -/
theorem operatorOrName_atom (h : Gives (next :: tokens) final reader)
    (hop : ∀ op, ops.find? name .before = some op → op.priority ≤ room → ops.starts next = false) :
    ∃ reader', Gives (next :: tokens) final reader' ∧ ∀ s names begun,
      operatorOrName ops name ⟨reader, s, names, .expression room :: begun⟩ =
        .ok (.complete (s.atom name).1 0)
          ⟨reader', (s.atom name).2, names, .expression room :: begun⟩ := by
  have hplain := plainName_eq h.placeholders name
  cases hfind : ops.find? name .before with
  | none =>
    refine ⟨reader, h, ?_⟩
    intro s names begun
    rw [operatorOrName, hfind]
    exact hplain s names _
  | some op =>
    have hlimit : ∀ s names begun, limit ⟨reader, s, names, .expression room :: begun⟩ =
        .ok room ⟨reader, s, names, .expression room :: begun⟩ := fun _ _ _ => rfl
    by_cases hroom : op.priority ≤ room
    · obtain ⟨reader₁, h₁, hstarts⟩ := startsOperand_eq ops h
      refine ⟨reader₁, h₁, ?_⟩
      intro s names begun
      rw [operatorOrName, hfind]
      dsimp only
      rw [bind_eq_of_ok (hlimit s names begun), if_pos hroom, bind_eq_of_ok (hstarts s names _),
        hop op hfind hroom, if_neg Bool.false_ne_true]
      exact plainName_eq h₁.placeholders name s names _
    · refine ⟨reader, h, ?_⟩
      intro s names begun
      rw [operatorOrName, hfind]
      dsimp only
      rw [bind_eq_of_ok (hlimit s names begun), if_neg hroom]
      exact hplain s names _

/-- A name that is an operator before the operand that comes begins its application. -/
theorem operatorOrName_before (h : Gives (next :: tokens) final reader)
    (hop : ops.find? name .before = some op) (hroom : op.priority ≤ room)
    (hstarts : ops.starts next = true) :
    ∃ reader', Gives (next :: tokens) final reader' ∧ ∀ s names begun,
      operatorOrName ops name ⟨reader, s, names, .expression room :: begun⟩ =
        .ok .operand ⟨reader', s, names, .expression op.rightMax :: .before name op.priority ::
          .expression room :: begun⟩ := by
  obtain ⟨reader₁, h₁, hbegins⟩ := startsOperand_eq ops h
  refine ⟨reader₁, h₁, ?_⟩
  intro s names begun
  have hlimit : limit ⟨reader, s, names, .expression room :: begun⟩ =
      .ok room ⟨reader, s, names, .expression room :: begun⟩ := rfl
  rw [operatorOrName, hop]
  dsimp only
  rw [bind_eq_of_ok hlimit, if_pos hroom, bind_eq_of_ok (hbegins s names _), hstarts, if_pos rfl]
  rfl

/-! ## Expressions -/

/-- No operator up to the limit is found for a token that goes on with nothing up to it. -/
theorem findSome?_bounds (hbounds : ops.Bounds limit token) (hname : Joins token name) (p : Nat) :
    ([Fixity.between, .after].findSome? fun fixity => (ops.find? name fixity).bind fun op =>
      if op.priority ≤ limit && p ≤ op.leftMax then some (name, fixity, op) else none) = none := by
  rw [List.findSome?_eq_none_iff]
  intro fixity hfixity
  rw [Option.bind_eq_none_iff]
  intro op hop
  have hpriority := hbounds name hname fixity hfixity op hop
  rw [decide_eq_false (by omega), Bool.false_and, if_neg Bool.false_ne_true]

/-- A token that goes on with nothing up to the limit leaves the operand the whole expression. -/
theorem giveExpression_bounds (hbounds : ops.Bounds limit token)
    (h : Gives (token :: tokens) final reader) (t : Ref) (p : Nat) :
    ∃ reader', Gives (token :: tokens) final reader' ∧ ∀ s names begun,
      giveExpression ops limit t p ⟨reader, s, names, begun⟩ =
        .ok (.complete t p) ⟨reader', s, names, begun⟩ := by
  obtain ⟨reader₁, h₁, hpeek⟩ := peekToken_eq h
  refine ⟨reader₁, h₁, ?_⟩
  intro s names begun
  have hnone : ∀ {name : String}, Joins token name → _ := fun hname => findSome?_bounds hbounds hname p
  have hcontinuation : continuation? ops limit p ⟨reader, s, names, begun⟩ =
      .ok none ⟨reader₁, s, names, begun⟩ := by
    rw [continuation?, bind_eq_of_ok (hpeek s names begun)]
    cases token with
    | literal l =>
      cases l with
      | atom name => exact congrArg (EStateM.Result.ok · _) (hnone (.name name))
      | _ => rfl
    | comma => exact congrArg (EStateM.Result.ok · _) (hnone .comma)
    | bar => exact congrArg (EStateM.Result.ok · _) (hnone .bar)
    | _ => rfl
  rw [giveExpression, bind_eq_of_ok hcontinuation]
  rfl

/-- An operator between two operands takes the operand as its left one. -/
theorem giveExpression_between (hname : Joins token name) (hop : ops.find? name .between = some op)
    (hlimit : op.priority ≤ limit) (hp : p ≤ op.leftMax) (h : Gives (token :: tokens) final reader)
    (t : Ref) : ∃ reader', Gives tokens final reader' ∧ ∀ s names begun,
      giveExpression ops limit t p ⟨reader, s, names, begun⟩ =
        .ok .operand ⟨reader', s, names, .expression op.rightMax :: .between name op.priority t ::
          .expression limit :: begun⟩ := by
  obtain ⟨reader₁, h₁, hpeek⟩ := peekToken_eq h
  obtain ⟨reader₂, h₂, hnext⟩ := nextToken_eq h₁
  refine ⟨reader₂, h₂, ?_⟩
  intro s names begun
  have hfound : ([Fixity.between, .after].findSome? fun fixity => (ops.find? name fixity).bind fun op =>
      if op.priority ≤ limit && p ≤ op.leftMax then some (name, fixity, op) else none) =
        some (name, .between, op) := by
    rw [List.findSome?_cons, hop, Option.bind_some, decide_eq_true hlimit, decide_eq_true hp,
      Bool.and_self, if_pos rfl]
  have hcontinuation : continuation? ops limit p ⟨reader, s, names, begun⟩ =
      .ok (some (name, .between, op)) ⟨reader₁, s, names, begun⟩ := by
    rw [continuation?, bind_eq_of_ok (hpeek s names begun)]
    cases hname with
    | name => exact congrArg (EStateM.Result.ok · _) hfound
    | comma => exact congrArg (EStateM.Result.ok · _) hfound
    | bar => exact congrArg (EStateM.Result.ok · _) hfound
  rw [giveExpression, bind_eq_of_ok hcontinuation]
  dsimp only
  rw [bind_eq_of_ok (hnext s names begun)]
  rfl

/-! ## The full stop -/

/-- Where steps lead to a whole expression and the full stop comes, the reader gives the term, and what
comes after the full stop is left. -/
theorem read_of_complete {s' : Store} {t : Ref} {reader₁ : TermReader}
    (h : ReflTransGen (Next ops) (.operand, reader.beginning s) (.complete t p, ⟨reader₁, s', names, []⟩))
    (hstop : reader₁.token? = some (.stop, final)) : reader.read ops s = (.ok t, final, s') := by
  have hwhole : Next ops (.complete t p, ⟨reader₁, s', names, []⟩)
      (.whole t, ⟨reader₁, s', names, []⟩) := by
    refine ⟨?_, rfl⟩
    intro t ht
    cases ht
  obtain ⟨n, hcomes⟩ := comes_of_next (h.tail hwhole)
  obtain ⟨n', -, result, hcomes', hterm, -⟩ := TermReader.term_ends ops reader s
  obtain rfl := hcomes'.unique hcomes
  have hexpect : expect .stop ⟨reader₁, s', names, []⟩ = .ok () ⟨final, s', names, []⟩ := by
    rw [expect, bind_eq_of_ok (nextToken_of_token? hstop s' names []), if_pos rfl]
    rfl
  have hstopped : stopped (.ok t ⟨reader₁, s', names, []⟩) = .ok t ⟨final, s', names, []⟩ :=
    bind_eq_of_ok hexpect
  rw [TermReader.read_eq, hterm, hstopped]
  rfl

end Reading

end Clausal
