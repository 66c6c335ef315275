import Clausal.Lexer
import Clausal.Operator
import Clausal.Store.Snapshot

/-! # Terms from tokens

A term is read without looking further ahead than one token: what has been begun and lacks operands
is kept on a list, innermost first (`Reading.begun`), and reading alternates between two phases. An
operand is awaited, and the next token either is one or begins a construct that awaits operands of
its own (`beginOperand`). Or an operand is complete, and it goes to the innermost construct, which
it may complete in turn (`giveOperand`). Every expression knows the highest priority it may have,
and an operator is taken only if it and the operand on its left stay within the limits.
-/

namespace Clausal

/-- How double-quoted text is read. -/
inductive DoubleQuotes where
  /-- As a list of names of one character. -/
  | chars
  /-- As a list of character codes. -/
  | codes
  /-- As a name. -/
  | atom
  deriving DecidableEq, Repr

/-- A source of terms. -/
structure TermReader where
  /-- The tokens still to be read. -/
  lexer : Lexer
  /-- A token that was looked at and not yet used. -/
  ahead : Option Token := none
  /-- The terms that replace the coming placeholders, if placeholders are replaced at all. -/
  placeholders : Option (List Term) := none
  /-- How double-quoted text is read. -/
  doubleQuotes : DoubleQuotes := .chars
  deriving Repr

/-- A construct that lacks operands. -/
inductive Construct where
  /-- An expression of at most the given priority. -/
  | expression (limit : Nat)
  /-- An operator before its operand, and its priority. -/
  | before (name : String) (priority : Nat)
  /-- An operator after its left operand, its priority, and that operand. -/
  | between (name : String) (priority : Nat) (left : Ref)
  /-- A name and its arguments so far, the last first. -/
  | args (name : String) (items : List Ref)
  /-- A term in brackets. -/
  | group
  /-- A list and its items so far, the last first. -/
  | list (items : List Ref)
  /-- A list after the bar, and its items, the last first. -/
  | listTail (items : List Ref)
  /-- A term in braces. -/
  | curly
  deriving DecidableEq, Repr

/-- A term being read. -/
structure Reading where
  /-- Where the tokens come from. -/
  reader : TermReader
  /-- Where the term is built. -/
  store : Store
  /-- The variables of the term by name. -/
  names : List (String × Ref) := []
  /-- The constructs begun, innermost first. -/
  begun : List Construct := []

/-- What reading turns to next. -/
inductive ReadPhase where
  /-- An operand is awaited. -/
  | operand
  /-- An operand is complete, with the given priority. -/
  | complete (term : Ref) (priority : Nat)
  /-- The whole term is complete. -/
  | whole (term : Ref)

/-- An action of reading a term. An error keeps the state in which it was met. -/
abbrev ReadM := EStateM ReadError Reading

namespace Reading

/-! ### Tokens -/

/-- Runs an action of the lexer. -/
def lexing {α : Type} (m : Lexing α) : ReadM α := fun r =>
  match m r.reader.lexer with
  | .ok a lexer => .ok a { r with reader := { r.reader with lexer } }
  | .error e lexer => .error e { r with reader := { r.reader with lexer } }

/-- Takes the next token. -/
def nextToken : ReadM Token := do
  match (← get).reader.ahead with
  | some token =>
    modify fun r => { r with reader := { r.reader with ahead := none } }
    pure token
  | none => lexing Lexer.token

/-- Looks at the next token. -/
def peekToken : ReadM Token := do
  match (← get).reader.ahead with
  | some token => pure token
  | none =>
    let token ← lexing Lexer.token
    modify fun r => { r with reader := { r.reader with ahead := some token } }
    pure token

/-- Fails because of the token last taken, at the place that the lexer has reached. -/
def unexpected {α : Type} (token : Token) : ReadM α := fun r =>
  .error (.unexpected token.text r.reader.lexer.position) r

/-- Takes the next token, which must be the given one. -/
def expect (token : Token) : ReadM Unit := do
  let found ← nextToken
  if found = token then pure () else unexpected found

/-! ### Terms -/

/-- Runs an operation on the store. -/
def building {α : Type} (f : Store → α × Store) : ReadM α := fun r =>
  let ⟨reader, store, names, begun⟩ := r
  let (a, store) := f store
  .ok a ⟨reader, store, names, begun⟩

/-- The variable of a name. The underscore is a new one each time. -/
def variableNamed (name : String) : ReadM Ref := do
  if name = "_" then building (·.var none)
  else
    match (← get).names.lookup name with
    | some t => pure t
    | none =>
      let t ← building (·.var (some name))
      modify fun r => { r with names := (name, t) :: r.names }
      pure t

/-- The list of the codes of the characters. -/
def codeList (text : String) : ReadM Ref :=
  building fun s =>
    let (codes, s) := s.literals (text.toList.map fun c => .ofInt c.toNat)
    s.list codes

/-- The list of the characters as names. -/
def charList (text : String) : ReadM Ref :=
  building fun s =>
    let (chars, s) := s.literals (text.toList.map fun c => .atom c.toString)
    s.list chars

/-- Double-quoted text as a term. -/
def doubleQuoted (text : String) : ReadM Ref := do
  match (← get).reader.doubleQuotes with
  | .chars => charList text
  | .codes => codeList text
  | .atom => building (·.atom text)

/-! ### Constructs -/

/-- Begins a construct whose next operand is an expression of at most the given priority. -/
def enter (construct : Construct) (limit : Nat) : ReadM ReadPhase := do
  modify fun r => { r with begun := .expression limit :: construct :: r.begun }
  pure .operand

/-- The highest priority of the expression that an operand is awaited for. -/
def limit : ReadM Nat := do
  match (← get).begun with
  | .expression limit :: _ => pure limit
  | _ => pure 1200

variable (ops : OperatorTable)

/-- The definition under which the next token continues an expression of at most priority `limit`
after an operand of the given priority, if it does: as an operator between two operands, and if
that is not possible, as one after its operand. -/
def continuation? (limit priority : Nat) : ReadM (Option (String × Fixity × Operator)) := do
  let name? := match ← peekToken with
    | .literal (.atom name) => some name
    | .comma => some ","
    | .bar => some "|"
    | _ => none
  pure <| name?.bind fun name =>
    [Fixity.between, .after].findSome? fun fixity =>
      (ops.find? name fixity).bind fun op =>
        if op.priority ≤ limit && priority ≤ op.leftMax then some (name, fixity, op) else none

/-- Whether the next token can begin the operand of an operator before it. A name that is only an
operator between or after operands cannot. -/
def startsOperand : ReadM Bool := do
  match ← peekToken with
  | .literal (.atom name) =>
    pure ((ops.find? name .before).isSome ||
      ((ops.find? name .between).isNone && (ops.find? name .after).isNone))
  | .literal _ | .var _ | .quoted _ | .backQuoted _ => pure true
  | .openGroup | .openArgs | .openList | .openCurly => pure true
  | _ => pure false

/-- Replaces a placeholder if placeholders are replaced, and else takes the name as it is. -/
def placeholder : ReadM ReadPhase := do
  match (← get).reader.placeholders with
  | none => return .complete (← building (·.atom "?")) 0
  | some [] => fun r => .error (.missingArgument r.reader.lexer.position) r
  | some (arg :: rest) =>
    modify fun r => { r with reader := { r.reader with placeholders := some rest } }
    return .complete (← building (·.build arg)) 0

/-- A name where an operand is awaited, and it is none of the constructs that a name can begin. -/
def plainName (name : String) : ReadM ReadPhase := do
  if name = "?" then placeholder else return .complete (← building (·.atom name)) 0

/-- A name where an operand is awaited: before its operand if it can be an operator there. -/
def operatorOrName (name : String) : ReadM ReadPhase := do
  match ops.find? name .before with
  | some op =>
    if op.priority ≤ (← limit) then
      if ← startsOperand ops then enter (.before name op.priority) op.rightMax
      else plainName name
    else plainName name
  | none => plainName name

/-- A name where an operand is awaited. Right before an opening bracket it begins a compound, and a
minus right before a number is the number's sign. -/
def nameOperand (name : String) : ReadM ReadPhase := do
  match ← peekToken with
  | .openArgs =>
    let _ ← nextToken
    enter (.args name []) 999
  | .literal l =>
    if name = "-" && l.isNumber then
      let _ ← nextToken
      return .complete (← building (·.literal l.neg)) 0
    else operatorOrName ops name
  | _ => operatorOrName ops name

/-- Takes a token where an operand is awaited. -/
def beginOperand : ReadM ReadPhase := do
  match ← nextToken with
  | .literal (.atom name) => nameOperand ops name
  | .literal l => return .complete (← building (·.literal l)) 0
  | .var name => return .complete (← variableNamed name) 0
  | .quoted text => return .complete (← doubleQuoted text) 0
  | .backQuoted text => return .complete (← codeList text) 0
  | .openGroup | .openArgs => enter .group 1200
  | .openList =>
    if (← peekToken) = .closeList then
      let _ ← nextToken
      nameOperand ops "[]"
    else enter (.list []) 999
  | .openCurly =>
    if (← peekToken) = .closeCurly then
      let _ ← nextToken
      nameOperand ops "\x7b\x7d"
    else enter .curly 1200
  | token => unexpected token

/-- Gives a complete operand to an expression of at most priority `limit`. An operator that
continues the expression keeps it begun; otherwise the operand is the whole expression. -/
def giveExpression (limit : Nat) (term : Ref) (priority : Nat) : ReadM ReadPhase := do
  match ← continuation? ops limit priority with
  | none => pure (.complete term priority)
  | some (name, .between, op) =>
    let _ ← nextToken
    modify fun r => { r with begun := .expression limit :: r.begun }
    enter (.between name op.priority term) op.rightMax
  | some (name, _, op) =>
    let _ ← nextToken
    let term ← building (·.apply name [term])
    modify fun r => { r with begun := .expression limit :: r.begun }
    pure (.complete term op.priority)

/-- Gives a complete operand of the given priority to a construct. -/
def giveOperand (construct : Construct) (term : Ref) (priority : Nat) : ReadM ReadPhase := do
  match construct with
  | .expression limit => giveExpression ops limit term priority
  | .before name priority => return .complete (← building (·.apply name [term])) priority
  | .between name priority left =>
    return .complete (← building (·.apply name [left, term])) priority
  | .args name items =>
    match ← nextToken with
    | .comma => enter (.args name (term :: items)) 999
    | .close => return .complete (← building (·.apply name (term :: items).reverse)) 0
    | token => unexpected token
  | .group =>
    expect .close
    pure (.complete term 0)
  | .list items =>
    match ← nextToken with
    | .comma => enter (.list (term :: items)) 999
    | .bar => enter (.listTail (term :: items)) 999
    | .closeList => return .complete (← building (·.list (term :: items).reverse)) 0
    | token => unexpected token
  | .listTail items =>
    expect .closeList
    return .complete (← building (·.partialList items.reverse term)) 0
  | .curly =>
    expect .closeCurly
    return .complete (← building (·.apply "\x7b\x7d" [term])) 0

/-- One step of reading. -/
def step : ReadPhase → ReadM ReadPhase
  | .operand => beginOperand ops
  | .complete term priority => do
    match (← get).begun with
    | [] => pure (.whole term)
    | construct :: rest =>
      modify fun r => { r with begun := rest }
      giveOperand ops construct term priority
  | .whole term => pure (.whole term)

/-- At most the given number of steps, until the whole term is complete. -/
def steps : Nat → ReadPhase → ReadM Ref
  | _, .whole term => pure term
  | 0, _ => throw .endOfText
  | n + 1, phase => do steps n (← step ops phase)

/-- Reads a term and the full stop after it. Every token leads to at most four steps, and of two
tokens in a row at least one takes a character, so the bound on the steps is never reached. -/
def term : ReadM Ref := do
  let bound := 8 * (← get).reader.lexer.input.length + 32
  let t ← steps ops bound .operand
  expect .stop
  pure t

end Reading

namespace TermReader

/-- Reads the terms of an input. -/
def ofInput (input : Input) (doubleQuotes : DoubleQuotes := .chars)
    (placeholders : Option (List Term) := none) : TermReader :=
  { lexer := { input }, doubleQuotes, placeholders }

/-- How many lines the lexer has passed. -/
def line (r : TermReader) : Nat := r.lexer.position.line

/-- Whether nothing but layout and comments remains. -/
def atEnd (r : TermReader) : Except ReadError Bool × TermReader :=
  if r.ahead.isSome then (.ok false, r)
  else
    match Lexer.atEnd r.lexer with
    | .ok isEnd lexer => (.ok isEnd, { r with lexer })
    | .error e lexer => (.error e, { r with lexer })

/-- Reads the next term into a store, up to and including its full stop. -/
def read (ops : OperatorTable) (r : TermReader) (s : Store) :
    Except ReadError Ref × TermReader × Store :=
  match Reading.term ops { reader := r, store := s, begun := [.expression 1200] } with
  | .ok t reading => (.ok t, reading.reader, reading.store)
  | .error e reading => (.error e, reading.reader, reading.store)

/-- Reads the next term into a store, or finds that there is none. -/
def next? (ops : OperatorTable) (r : TermReader) (s : Store) :
    Except ReadError (Option Ref) × TermReader × Store :=
  match r.atEnd with
  | (.error e, r) => (.error e, r, s)
  | (.ok true, r) => (.ok none, r, s)
  | (.ok false, r) =>
    let (result, r, s) := r.read ops s
    (result.map some, r, s)

end TermReader

end Clausal
