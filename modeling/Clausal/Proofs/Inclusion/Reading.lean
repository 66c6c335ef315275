import Clausal.TermSource
import Clausal.Proofs.Actions
import Clausal.Proofs.Inclusion.Progress
import Clausal.Proofs.Store.GapOperations

/-! # Terms of a text that goes on

A term is read in the same way if there is more to read after it, and if it is read into a store
with other cells put in.  Both are proved at once (`sameNext_next?`): a reading corresponds to one
that has more to read and another store.  Reading does nothing to the store but add cells, so the
stores may be related by whatever adding cells keeps.  With nothing more to read this says that places
do not matter, and with no gap that the store is the same.
-/

namespace Clausal

/-- A construct with the places in it shifted. -/
def Gap.construct (gap : Gap) : Construct → Construct
  | .between name priority left => .between name priority (gap.ref left)
  | .args name items => .args name (items.map gap.ref)
  | .list items => .list (items.map gap.ref)
  | .listTail items => .listTail (items.map gap.ref)
  | .expression limit => .expression limit
  | .before name priority => .before name priority
  | .group => .group
  | .curly => .curly

/-- What reading turns to next, with the places in it shifted. -/
def Gap.phase (gap : Gap) : ReadPhase → ReadPhase
  | .operand => .operand
  | .complete term priority => .complete (gap.ref term) priority
  | .whole term => .whole (gap.ref term)

/-- The second reader has more to read than the first. -/
structure TermReader.Goes (more : Input) (quotes : DoubleQuotes) (r r' : TermReader) : Prop where
  /-- The text. -/
  lexer : Lexer.Goes more r.lexer r'.lexer
  /-- The token that was looked at. -/
  ahead : r'.ahead = r.ahead
  /-- There are no placeholders. -/
  placeholders : r.placeholders = none ∧ r'.placeholders = none
  /-- How text in quotes is read. -/
  doubleQuotes : r.doubleQuotes = quotes ∧ r'.doubleQuotes = quotes

namespace Reading

/-- How many characters are left, counting a full stop that was looked at. -/
def left (r : Reading) : Nat :=
  r.reader.lexer.input.length + (r.reader.ahead.map Lexer.weight).getD 0

/-- The second reading has more to read than the first, and their stores are related.  The first has
at most `k` characters left. -/
structure Goes (more : Input) (gap : Gap) (R : Store → Store → Prop) (k : Nat) (quotes : DoubleQuotes)
    (r r' : Reading) : Prop where
  /-- Where the tokens come from. -/
  reader : TermReader.Goes more quotes r.reader r'.reader
  /-- The stores. -/
  store : R r.store r'.store
  /-- The variables of the term. -/
  names : r'.names = r.names.map fun e => (e.1, gap.ref e.2)
  /-- The constructs begun. -/
  begun : r'.begun = r.begun.map gap.construct
  /-- What is left. -/
  left : r.left ≤ k

/-- How a reading corresponds to one that has more to read and another store. -/
def reading (more : Input) (gap : Gap) (R : Store → Store → Prop) (k : Nat) (quotes : DoubleQuotes) :
    Correspondence ReadError Reading where
  excused e := more ≠ [] ∧ e.isCut = true
  errors e e' := e'.unplaced = e.unplaced
  states := Goes more gap R k quotes
  failed r r' := R r.store r'.store

variable {α β : Type} {more : Input} {gap : Gap} {R : Store → Store → Prop} {k : Nat}
  {quotes : DoubleQuotes} {φ : α → α} {ψ : β → β}

/-- The actions do the same in corresponding states, with places shifted in what they give. -/
def Steady {α β : Type} (more : Input) (gap : Gap) (R : Store → Store → Prop) (φ : α → β) (m : ReadM α)
    (m' : ReadM β) : Prop :=
  ∀ ⦃k quotes r r'⦄, Goes more gap R k quotes r r' →
    (reading more gap R k quotes).Matches (fun a a' => a' = φ a) (m r) (m' r')

theorem Steady.bind {m m' : ReadM α} {f f' : α → ReadM β} (h : Steady more gap R φ m m')
    (hf : ∀ a, Steady more gap R ψ (f a) (f' (φ a))) :
    Steady more gap R ψ (m >>= f) (m' >>= f') := fun _ _ _ _ hst =>
  (h hst).bind fun a _ _ _ _ _ heq hst => heq ▸ hf a hst

theorem steady_pure {a a' : α} (h : a' = φ a) : Steady more gap R φ (pure a) (pure a') :=
  fun _ _ _ _ hst => ⟨h, hst⟩

/-- Looking at the state. -/
theorem steady_get {f f' : Reading → ReadM α}
    (h : ∀ k quotes r r', Goes more gap R k quotes r r' →
      (reading more gap R k quotes).Matches (fun a a' => a' = φ a) (f r r) (f' r' r')) :
    Steady more gap R φ (get >>= f) (get >>= f') :=
  h

/-- Changing the state. -/
theorem steady_modify {g g' : Reading → Reading}
    (h : ∀ k quotes r r', Goes more gap R k quotes r r' → Goes more gap R k quotes (g r) (g' r')) :
    Steady more gap R id (modify g) (modify g') :=
  fun k quotes r r' hst => ⟨rfl, h k quotes r r' hst⟩

/-! ## Tokens -/

/-- What a token takes is no longer left. -/
theorem ends_lexing_token {r : Reading} (h : r.reader.ahead = none) :
    Ends (lexing Lexer.token r)
      (fun t r' => r'.reader.lexer.input.length + Lexer.weight t ≤ r.left ∧ r'.reader.ahead = none)
      fun _ => True := by
  have htoken := Lexer.ends_token r.reader.lexer
  have hleft : r.left = r.reader.lexer.input.length := by
    rw [left, h]
    rfl
  rw [lexing, hleft]
  rcases hresult : Lexer.token r.reader.lexer with ⟨t, lx⟩ | ⟨e, lx⟩
  · exact ⟨htoken.of_ok hresult, h⟩
  · trivial

theorem matches_lexing_token (hmore : more.NextLine) {r r' : Reading} (hst : Goes more gap R k quotes r r')
    (hahead : r.reader.ahead = none) :
    (reading more gap R k quotes).Matches (fun a a' => a' = a) (lexing Lexer.token r)
      (lexing Lexer.token r') := by
  have hm := Lexer.steady_token hmore hst.reader.lexer
  have hleft := ends_lexing_token hahead
  rw [lexing, lexing]
  rw [lexing] at hleft
  generalize Lexer.token r.reader.lexer = x at hm hleft ⊢
  generalize Lexer.token r'.reader.lexer = x' at hm ⊢
  have hgoes : ∀ {lx lx'}, Lexer.Goes more lx lx' → lx.input.length ≤ r.left →
      Goes more gap R k quotes { r with reader := { r.reader with lexer := lx } }
        { r' with reader := { r'.reader with lexer := lx' } } := fun h hle =>
    ⟨⟨h, hst.reader.ahead, hst.reader.placeholders, hst.reader.doubleQuotes⟩, hst.store, hst.names,
      hst.begun, by
        rw [left, hahead]
        exact hle.trans hst.left⟩
  rcases x with ⟨a, lx⟩ | ⟨e, lx⟩ <;> rcases x' with ⟨a', lx'⟩ | ⟨e', lx'⟩
  · exact ⟨hm.1.symm, hgoes hm.2 (Nat.le_of_add_right_le hleft.1)⟩
  · exact hm.elim
  · exact hm
  · exact Or.imp id (fun hm => ⟨hm.1, hst.store⟩) hm

theorem steady_nextToken (hmore : more.NextLine) : Steady more gap R id nextToken nextToken := by
  refine steady_get fun k quotes r r' hst => ?_
  rw [hst.reader.ahead]
  rcases hahead : r.reader.ahead with _ | token
  · exact matches_lexing_token hmore hst hahead
  · refine ⟨rfl, ⟨hst.reader.lexer, rfl, hst.reader.placeholders, hst.reader.doubleQuotes⟩,
      hst.store, hst.names, hst.begun, ?_⟩
    exact (Nat.le_add_right _ _).trans hst.left

theorem steady_peekToken (hmore : more.NextLine) : Steady more gap R id peekToken peekToken := by
  refine steady_get fun k quotes r r' hst => ?_
  rw [hst.reader.ahead]
  rcases hahead : r.reader.ahead with _ | token
  · refine (matches_lexing_token hmore hst hahead).bind fun token token' s s' hs _ heq hst' => ?_
    subst heq
    have hleft := (ends_lexing_token hahead).of_ok hs
    exact ⟨rfl, ⟨hst'.reader.lexer, rfl, hst'.reader.placeholders, hst'.reader.doubleQuotes⟩,
      hst'.store, hst'.names, hst'.begun, hleft.1.trans hst.left⟩
  · exact ⟨rfl, hst⟩

theorem steady_unexpected (token : Token) :
    Steady more gap R φ (unexpected token) (unexpected token) :=
  fun _ _ _ _ hst => Correspondence.matches_error rfl hst.store

theorem steady_expect (hmore : more.NextLine) (token : Token) :
    Steady more gap R id (expect token) (expect token) := by
  refine (steady_nextToken hmore).bind fun found => ?_
  simp only [id]
  by_cases h : found = token
  · rw [if_pos h]
    exact steady_pure rfl
  · rw [if_neg h]
    exact steady_unexpected _

/-! ## Constructs -/

theorem steady_enter (construct : Construct) (limit : Nat) :
    Steady more gap R gap.phase (enter construct limit) (enter (gap.construct construct) limit) := by
  refine (steady_modify fun k quotes r r' hst => ?_).bind fun _ => steady_pure rfl
  exact ⟨hst.reader, hst.store, hst.names, by simp [hst.begun, Gap.construct], hst.left⟩

theorem steady_pushExpression (limit : Nat) :
    Steady more gap R id (modify fun r : Reading => { r with begun := .expression limit :: r.begun })
      (modify fun r : Reading => { r with begun := .expression limit :: r.begun }) :=
  steady_modify fun k quotes r r' hst =>
    ⟨hst.reader, hst.store, hst.names, by simp [hst.begun, Gap.construct], hst.left⟩

/-- An operand that is made of others. -/
theorem steady_complete {m m' : ReadM Ref} (h : Steady more gap R gap.ref m m') (priority : Nat) :
    Steady more gap R gap.phase (do return .complete (← m) priority)
      (do return .complete (← m') priority) :=
  h.bind fun _ => steady_pure rfl

theorem steady_limit : Steady more gap R id limit limit := by
  refine steady_get fun k quotes r r' hst => ?_
  rw [hst.begun]
  rcases r.begun with _ | ⟨construct, rest⟩
  · exact ⟨rfl, hst⟩
  · cases construct <;> exact ⟨rfl, hst⟩

/-- The full stop after a term. -/
theorem steady_stop (hmore : more.NextLine) (t : Ref) :
    Steady more gap R gap.ref (do expect .stop; pure t) (do expect .stop; pure (gap.ref t)) :=
  (steady_expect hmore .stop).bind fun _ => steady_pure rfl

variable (ops : OperatorTable)

theorem steady_continuation? (hmore : more.NextLine) (limit priority : Nat) :
    Steady more gap R id (continuation? ops limit priority) (continuation? ops limit priority) :=
  (steady_peekToken hmore).bind fun _ => steady_pure rfl

theorem steady_startsOperand (hmore : more.NextLine) :
    Steady more gap R id (startsOperand ops) (startsOperand ops) := by
  refine (steady_peekToken hmore).bind fun token => ?_
  simp only [id]
  split <;> exact steady_pure rfl

/-! ## Terms -/

theorem steady_building {f f' : Store → Ref × Store}
    (hf : ∀ s s', R s s' → Store.Widens R gap.ref (f s) (f' s')) :
    Steady more gap R gap.ref (building f) (building f') := by
  intro k quotes r r' hst
  have hmade := hf _ _ hst.store
  exact ⟨hmade.value, hst.reader, hmade.store, hst.names, hst.begun, hst.left⟩

variable [Store.Shifting gap R]

theorem steady_atom (name : String) :
    Steady more gap R gap.ref (building (·.atom name)) (building (·.atom name)) :=
  steady_building fun _ _ h => Store.Shifting.atom h name

theorem steady_apply (name : String) (args : List Ref) :
    Steady more gap R gap.ref (building (·.apply name args))
      (building (·.apply name (args.map gap.ref))) :=
  steady_building fun _ _ h => Store.Shifting.apply h name args

theorem steady_variableNamed (name : String) :
    Steady more gap R gap.ref (variableNamed name) (variableNamed name) := by
  unfold variableNamed
  by_cases hname : name = "_"
  · rw [if_pos hname]
    exact steady_building fun _ _ h => Store.Shifting.var h none
  · rw [if_neg hname]
    refine steady_get fun k quotes r r' hst => ?_
    have hlookup := lookup_map_injective Function.injective_id gap.ref r.names name
    simp only [id] at hlookup
    rw [hst.names, hlookup]
    rcases r.names.lookup name with _ | t
    · have hvar : Steady more gap R gap.ref (building (·.var (some name)))
          (building (·.var (some name))) :=
        steady_building fun _ _ h => Store.Shifting.var h (some name)
      refine hvar.bind (ψ := gap.ref) (fun t => ?_) hst
      refine (steady_modify fun k quotes r r' hst => ?_).bind fun _ => steady_pure rfl
      exact ⟨hst.reader, hst.store, by simp [hst.names], hst.begun, hst.left⟩
    · exact ⟨rfl, hst⟩

theorem steady_literals (ls : List Literal) :
    Steady more gap R gap.ref (building fun s => (s.literals ls).2.list (s.literals ls).1)
      (building fun s => (s.literals ls).2.list (s.literals ls).1) :=
  steady_building fun s s' h => by
    have hliterals := Store.Shifting.literals h ls
    have hlist := Store.Shifting.list hliterals.store (s.literals ls).1
    rw [← hliterals.value] at hlist
    exact hlist

theorem steady_doubleQuoted (text : String) :
    Steady more gap R gap.ref (doubleQuoted text) (doubleQuoted text) := by
  refine steady_get fun k quotes r r' hst => ?_
  rw [hst.reader.doubleQuotes.1, hst.reader.doubleQuotes.2]
  cases quotes with
  | chars => exact steady_literals _ hst
  | codes => exact steady_literals _ hst
  | atom => exact steady_atom text hst

theorem steady_placeholder : Steady more gap R gap.phase placeholder placeholder := by
  refine steady_get fun k quotes r r' hst => ?_
  rw [hst.reader.placeholders.1, hst.reader.placeholders.2]
  exact steady_complete (steady_atom "?") 0 hst

theorem steady_plainName (name : String) :
    Steady more gap R gap.phase (plainName name) (plainName name) := by
  unfold plainName
  by_cases h : name = "?"
  · rw [if_pos h]
    exact steady_placeholder
  · rw [if_neg h]
    exact steady_complete (steady_atom name) 0

theorem steady_operatorOrName (hmore : more.NextLine) (name : String) :
    Steady more gap R gap.phase (operatorOrName ops name) (operatorOrName ops name) := by
  unfold operatorOrName
  rcases ops.find? name .before with _ | op
  · exact steady_plainName name
  · refine steady_limit.bind fun limit => ?_
    by_cases hlimit : op.priority ≤ limit
    · simp only [id, if_pos hlimit]
      refine (steady_startsOperand ops hmore).bind fun starts => ?_
      cases starts with
      | true => exact steady_enter (.before name op.priority) op.rightMax
      | false => exact steady_plainName name
    · simp only [id, if_neg hlimit]
      exact steady_plainName name

theorem steady_nameOperand (hmore : more.NextLine) (name : String) :
    Steady more gap R gap.phase (nameOperand ops name) (nameOperand ops name) := by
  have hother : Steady more gap R gap.phase (operatorOrName ops name) (operatorOrName ops name) :=
    steady_operatorOrName ops hmore name
  refine (steady_peekToken hmore).bind fun token => ?_
  cases token with
  | openArgs => exact (steady_nextToken hmore).bind fun _ => steady_enter (.args name []) 999
  | literal l =>
    simp only [id]
    by_cases hsign : (name = "-" && l.isNumber) = true
    · rw [if_pos hsign]
      exact (steady_nextToken hmore).bind fun _ =>
        steady_complete (steady_building fun _ _ h => Store.Shifting.literal h l.neg) 0
    · rw [if_neg hsign]
      exact hother
  | _ => exact hother

/-- Going on from a token where an operand is awaited. -/
def operandFrom (token : Token) : ReadM ReadPhase := do
  match token with
  | .literal (.atom name) => nameOperand ops name
  | .literal l => return .complete (← building (·.literal l)) 0
  | .var name => return .complete (← variableNamed name) 0
  | .quoted text => return .complete (← doubleQuoted text) 0
  | .backQuoted text => return .complete (← codeList text) 0
  | .openGroup | .openArgs => enter .group 1200
  | .openList =>
    if (← peekToken) = .closeList then
      let _ ← nextToken
      nameOperand ops "[]"
    else enter (.list []) 999
  | .openCurly =>
    if (← peekToken) = .closeCurly then
      let _ ← nextToken
      nameOperand ops "\x7b\x7d"
    else enter .curly 1200
  | token => unexpected token

theorem beginOperand_eq : beginOperand ops = (do operandFrom ops (← nextToken)) := rfl

theorem steady_operandFrom (hmore : more.NextLine) (token : Token) :
    Steady more gap R gap.phase (operandFrom ops token) (operandFrom ops token) := by
  cases token with
  | literal l =>
    cases l with
    | atom name => exact steady_nameOperand ops hmore name
    | _ => exact steady_complete (steady_building fun _ _ h => Store.Shifting.literal h _) 0
  | var name => exact steady_complete (steady_variableNamed name) 0
  | quoted text => exact steady_complete (steady_doubleQuoted text) 0
  | backQuoted text => exact steady_complete (steady_literals _) 0
  | openGroup | openArgs => exact steady_enter .group 1200
  | openList =>
    refine (steady_peekToken hmore).bind fun token => ?_
    by_cases h : token = .closeList
    · simp only [id, if_pos h]
      exact (steady_nextToken hmore).bind fun _ => steady_nameOperand ops hmore _
    · simp only [id, if_neg h]
      exact steady_enter (.list []) 999
  | openCurly =>
    refine (steady_peekToken hmore).bind fun token => ?_
    by_cases h : token = .closeCurly
    · simp only [id, if_pos h]
      exact (steady_nextToken hmore).bind fun _ => steady_nameOperand ops hmore _
    · simp only [id, if_neg h]
      exact steady_enter .curly 1200
  | _ => exact steady_unexpected _

theorem steady_beginOperand (hmore : more.NextLine) :
    Steady more gap R gap.phase (beginOperand ops) (beginOperand ops) :=
  (steady_nextToken hmore).bind fun token => steady_operandFrom ops hmore token

theorem steady_giveExpression (hmore : more.NextLine) (limit : Nat) (term : Ref) (priority : Nat) :
    Steady more gap R gap.phase (giveExpression ops limit term priority)
      (giveExpression ops limit (gap.ref term) priority) := by
  refine (steady_continuation? ops hmore limit priority).bind fun found => ?_
  have hafter : ∀ (name : String) (op : Operator), Steady more gap R gap.phase
      (do
        let _ ← nextToken
        let term ← building (·.apply name [term])
        modify fun r => { r with begun := .expression limit :: r.begun }
        pure (.complete term op.priority))
      (do
        let _ ← nextToken
        let term ← building (·.apply name [gap.ref term])
        modify fun r => { r with begun := .expression limit :: r.begun }
        pure (.complete term op.priority)) := fun name op =>
    (steady_nextToken hmore).bind fun _ => (steady_apply name [term]).bind fun t =>
      (steady_pushExpression limit).bind fun _ => steady_pure rfl
  rcases found with _ | ⟨name, _ | _ | _, op⟩
  · exact steady_pure rfl
  · exact (steady_nextToken hmore).bind fun _ => (steady_pushExpression limit).bind fun _ =>
      steady_enter (.between name op.priority term) op.rightMax
  · exact hafter name op
  · exact hafter name op

theorem steady_giveOperand (hmore : more.NextLine) (construct : Construct) (term : Ref)
    (priority : Nat) : Steady more gap R gap.phase (giveOperand ops construct term priority)
      (giveOperand ops (gap.construct construct) (gap.ref term) priority) := by
  have happly : ∀ (name : String) (args : List Ref) (priority : Nat), Steady more gap R gap.phase
      (do return .complete (← building (·.apply name args)) priority)
      (do return .complete (← building (·.apply name (args.map gap.ref))) priority) :=
    fun name args priority => steady_complete (steady_apply name args) priority
  have hreverse : ∀ items : List Ref,
      (gap.ref term :: items.map gap.ref).reverse = (term :: items).reverse.map gap.ref := fun items => by
    simp
  cases construct with
  | expression limit => exact steady_giveExpression ops hmore limit term priority
  | before name priority => exact happly name [term] priority
  | between name priority left => exact happly name [left, term] priority
  | args name items =>
    refine (steady_nextToken hmore).bind fun token => ?_
    cases token with
    | comma => exact steady_enter (.args name (term :: items)) 999
    | close =>
      simp only [id, hreverse]
      exact happly name _ 0
    | _ => exact steady_unexpected _
  | group => exact (steady_expect hmore .close).bind fun _ => steady_pure rfl
  | list items =>
    refine (steady_nextToken hmore).bind fun token => ?_
    cases token with
    | comma => exact steady_enter (.list (term :: items)) 999
    | bar => exact steady_enter (.listTail (term :: items)) 999
    | closeList =>
      simp only [id, hreverse]
      exact steady_complete (steady_building fun _ _ h => Store.Shifting.list h _) 0
    | _ => exact steady_unexpected _
  | listTail items =>
    refine (steady_expect hmore .closeList).bind fun _ => ?_
    rw [← List.map_reverse]
    exact steady_complete (steady_building fun _ _ h => Store.Shifting.partialList h _ _) 0
  | curly => exact (steady_expect hmore .closeCurly).bind fun _ => happly _ [term] 0

/-- **A step of reading.** -/
theorem steady_step (hmore : more.NextLine) (phase : ReadPhase) :
    Steady more gap R gap.phase (step ops phase) (step ops (gap.phase phase)) := by
  cases phase with
  | operand => exact steady_beginOperand ops hmore
  | whole term => exact steady_pure rfl
  | complete term priority =>
    refine steady_get fun k quotes r r' hst => ?_
    rw [hst.begun]
    rcases r.begun with _ | ⟨construct, rest⟩
    · exact ⟨rfl, hst⟩
    · refine (steady_modify fun k quotes r r' hst => ?_).bind
        (fun _ => steady_giveOperand ops hmore construct term priority) hst
      exact ⟨hst.reader, hst.store, hst.names, rfl, hst.left⟩

/-- **Reading in steps.**  A bound that is not reached may be raised. -/
theorem steady_steps (hmore : more.NextLine) {n n' : Nat} (hle : n ≤ n')
    (heq : more = [] → n' = n) (phase : ReadPhase) :
    Steady more gap R gap.ref (steps ops n phase) (steps ops n' (gap.phase phase)) := by
  induction n generalizing n' phase with
  | zero =>
    cases phase with
    | whole term => cases n' <;> exact steady_pure rfl
    | _ =>
      intro k quotes r r' hst
      by_cases hnil : more = []
      · obtain rfl := heq hnil
        exact Correspondence.matches_error rfl hst.store
      · exact Correspondence.matches_excused (C := reading more gap R k quotes) ⟨hnil, rfl⟩ _
  | succ n ih =>
    obtain ⟨n', rfl⟩ := Nat.exists_eq_add_of_lt (Nat.lt_of_lt_of_le (Nat.succ_pos n) hle)
    rw [Nat.zero_add] at hle heq ⊢
    have hrest : ∀ phase, Steady more gap R gap.ref (steps ops n phase) (steps ops n' (gap.phase phase)) :=
      ih (Nat.le_of_succ_le_succ hle) fun h => Nat.succ.inj (heq h)
    cases phase with
    | whole term => exact steady_pure rfl
    | operand => exact (steady_step ops hmore .operand).bind hrest
    | complete term priority => exact (steady_step ops hmore (.complete term priority)).bind hrest

end Reading

/-- The second reader, about to read a term, has more to read than the first.  Whether there was
layout before is left open. -/
structure TermReader.Begins (more : Input) (quotes : DoubleQuotes) (r r' : TermReader) : Prop where
  /-- What there is more to read comes last. -/
  input : r'.lexer.input = r.lexer.input ++ more
  /-- No token was looked at. -/
  ahead : r.ahead = none ∧ r'.ahead = none
  /-- There are no placeholders. -/
  placeholders : r.placeholders = none ∧ r'.placeholders = none
  /-- How text in quotes is read. -/
  doubleQuotes : r.doubleQuotes = quotes ∧ r'.doubleQuotes = quotes

/-- A reader is one that has nothing more to read than itself. -/
theorem TermReader.Begins.self {more : Input} {quotes : DoubleQuotes} {r r' : TermReader} (h : r.Begins more quotes r') :
    r.Begins [] quotes r :=
  ⟨(List.append_nil _).symm, ⟨h.ahead.1, h.ahead.1⟩, ⟨h.placeholders.1, h.placeholders.1⟩,
    ⟨h.doubleQuotes.1, h.doubleQuotes.1⟩⟩

theorem TermReader.Begins.other {more : Input} {quotes : DoubleQuotes} {r r' : TermReader} (h : r.Begins more quotes r') :
    r'.Begins [] quotes r' :=
  ⟨(List.append_nil _).symm, ⟨h.ahead.2, h.ahead.2⟩, ⟨h.placeholders.2, h.placeholders.2⟩,
    ⟨h.doubleQuotes.2, h.doubleQuotes.2⟩⟩

namespace Reading

variable {more : Input} {gap : Gap} {R : Store → Store → Prop} [Store.Shifting gap R]
  {quotes : DoubleQuotes} {r r' : TermReader} {s s' : Store} (ops : OperatorTable)

/-- An opening bracket begins a group, whether or not there is layout before it. -/
theorem steady_operandFrom_of_sameToken (hmore : more.NextLine) {t t' : Token}
    (h : Lexer.SameToken t t') :
    Steady more gap R gap.phase (operandFrom ops t) (operandFrom ops t') := by
  rcases h with rfl | ⟨h, h'⟩
  · exact steady_operandFrom ops hmore t'
  · have hgroup : ∀ t : Token, t = .openGroup ∨ t = .openArgs →
        operandFrom ops t = enter .group 1200 := by
      rintro t (rfl | rfl) <;> rfl
    rw [hgroup t h, hgroup t' h']
    exact steady_enter .group 1200

theorem nextToken_of_none {r : Reading} (h : r.reader.ahead = none) :
    nextToken r = lexing Lexer.token r := by
  obtain ⟨⟨lexer, ahead, placeholders, doubleQuotes⟩, store, names, begun⟩ := r
  cases h
  rfl

/-- The first step of reading a term. -/
theorem matches_beginOperand (hmore : more.NextLine) (h : r.Begins more quotes r')
    (hs : R s s') (begun : List Construct) :
    (reading more gap R r.lexer.input.length quotes).Matches (fun a a' => a' = gap.phase a)
      (beginOperand ops { reader := r, store := s, begun })
      (beginOperand ops { reader := r', store := s', begun := begun.map gap.construct }) := by
  rw [beginOperand_eq]
  have htoken := Lexer.matches_token hmore h.input
  have hleft := Lexer.ends_token r.lexer
  refine Correspondence.Matches.bind (Q := Lexer.SameToken) ?_ fun t t' _ _ _ _ ht hst =>
    steady_operandFrom_of_sameToken ops hmore ht hst
  rw [nextToken_of_none h.ahead.1, nextToken_of_none h.ahead.2, lexing, lexing]
  dsimp only
  generalize Lexer.token r.lexer = x at htoken hleft ⊢
  generalize Lexer.token r'.lexer = x' at htoken ⊢
  rcases x with ⟨a, lx⟩ | ⟨e, lx⟩ <;> rcases x' with ⟨a', lx'⟩ | ⟨e', lx'⟩
  · refine ⟨htoken.1, ⟨htoken.2, h.ahead.2.trans h.ahead.1.symm, h.placeholders, h.doubleQuotes⟩, hs,
      rfl, rfl, ?_⟩
    show lx.input.length + (r.ahead.map Lexer.weight).getD 0 ≤ r.lexer.input.length
    rw [h.ahead.1]
    exact Nat.le_of_add_right_le hleft
  · exact htoken.elim
  · exact htoken
  · exact Or.imp id (fun hm => ⟨hm.1, hs⟩) htoken

/-- What comes before the full stop, from the first token on. -/
def beforeStop (n : Nat) : ReadM Ref := do steps ops n (← beginOperand ops)

theorem term_eq (r : TermReader) (s : Store) (begun : List Construct) :
    term ops { reader := r, store := s, begun } = (do
      let t ← beforeStop ops (8 * r.lexer.input.length + 31)
      expect .stop
      pure t : ReadM Ref) { reader := r, store := s, begun } := rfl

theorem matches_beforeStop (hmore : more.NextLine) (h : r.Begins more quotes r') (hs : R s s')
    (begun : List Construct) :
    (reading more gap R r.lexer.input.length quotes).Matches (fun t t' => t' = gap.ref t)
      (beforeStop ops (8 * r.lexer.input.length + 31) { reader := r, store := s, begun })
      (beforeStop ops (8 * r'.lexer.input.length + 31)
        { reader := r', store := s', begun := begun.map gap.construct }) := by
  have hlength : r'.lexer.input.length = r.lexer.input.length + more.length := by
    rw [h.input, List.length_append]
  refine (matches_beginOperand ops hmore h hs begun).bind fun phase _ _ _ _ _ hphase hst => ?_
  subst hphase
  refine steady_steps ops hmore (by omega) (fun hnil => ?_) phase hst
  rw [h.input, hnil, List.append_nil]

/-- A term, from its first token on. -/
theorem matches_term (hmore : more.NextLine) (h : r.Begins more quotes r') (hs : R s s')
    (begun : List Construct) :
    (reading more gap R r.lexer.input.length quotes).Matches (fun t t' => t' = gap.ref t)
      (term ops { reader := r, store := s, begun })
      (term ops { reader := r', store := s', begun := begun.map gap.construct }) := by
  rw [term_eq, term_eq]
  refine (matches_beforeStop ops hmore h hs begun).bind fun t _ _ _ _ _ ht hst => ?_
  subst ht
  exact steady_stop hmore t hst

/-- A token that is taken is no longer ahead or left. -/
theorem ends_nextToken (r : Reading) :
    Ends (nextToken r)
      (fun t r' => r'.reader.ahead = none ∧ r'.reader.lexer.input.length + Lexer.weight t ≤ r.left)
      fun _ => True := by
  rcases hahead : r.reader.ahead with _ | token
  · rw [nextToken_of_none hahead]
    exact (ends_lexing_token hahead).imp (fun _ _ h => h.symm) fun _ => id
  · obtain ⟨⟨lexer, ahead, placeholders, doubleQuotes⟩, store, names, begun⟩ := r
    cases hahead
    exact ⟨rfl, Nat.le_refl _⟩

/-- No token is ahead after a term, and less is left than before. -/
theorem ends_term (h : r.Begins [] quotes r) (s : Store) :
    Ends (term ops { reader := r, store := s, begun := [.expression 1200] })
      (fun _ r' => r'.reader.ahead = none ∧ r'.reader.lexer.input.length < r.lexer.input.length)
      fun _ => True := by
  have hsteps := matches_beforeStop ops Input.nextLine_nil h (Store.Wider.refl s) [.expression 1200]
  rw [term_eq]
  refine Ends.bind (Q := fun _ r' => r'.left ≤ r.lexer.input.length) ?_ fun t r' hr' => Ends.bind
    (Q := fun _ r'' => r''.reader.ahead = none ∧
      r''.reader.lexer.input.length < r.lexer.input.length) ?_ fun _ st h => ?_
  · rcases hresult : beforeStop ops (8 * r.lexer.input.length + 31)
        { reader := r, store := s, begun := [.expression 1200] } with ⟨t, r'⟩ | ⟨e, r'⟩
    · obtain ⟨_, _, _, _, hst⟩ := hsteps.of_ok hresult
      exact hst.left
    · trivial
  · refine (ends_nextToken r').bind fun token r'' hr'' => ?_
    split
    · rename_i htoken
      rw [htoken, Lexer.weight, if_pos rfl] at hr''
      exact ⟨hr''.1, by omega⟩
    · trivial
  · exact h

end Reading

/-! ## Sources -/

/-- How the next term of a source compares with that of a source that has more, where `begins`
relates the two from then on. -/
inductive SameNext {ρ : Type} (begins : ρ → ρ → Prop) (more : Input) (gap : Gap)
    (R : Store → Store → Prop) :
    Except ReadError (Option Ref) × ρ × Store → Except ReadError (Option Ref) × ρ × Store → Prop
  /-- There is another term. -/
  | term {t : Ref} {r r' : ρ} {s s' : Store} (h : begins r r') (hs : R s s') :
    SameNext begins more gap R (.ok (some t), r, s) (.ok (some (gap.ref t)), r', s')
  /-- Nothing is left, and there is no more to read. -/
  | ends {r r' : ρ} {s s' : Store} (h : more = []) (hs : R s s') :
    SameNext begins more gap R (.ok none, r, s) (.ok none, r', s')
  /-- Nothing is left, but there is more to read. -/
  | goesOn {r : ρ} {s : Store} {x : Except ReadError (Option Ref) × ρ × Store} (h : more ≠ []) :
    SameNext begins more gap R (.ok none, r, s) x
  /-- The text does not read as a term. -/
  | fails {e e' : ReadError} {r r' : ρ} {s s' : Store} (he : e'.unplaced = e.unplaced)
    (hs : R s s') : SameNext begins more gap R (.error e, r, s) (.error e', r', s')
  /-- The text ends within a term. -/
  | cut {e : ReadError} {r : ρ} {s : Store} {x : Except ReadError (Option Ref) × ρ × Store}
    (h : more ≠ []) (he : e.isCut = true) : SameNext begins more gap R (.error e, r, s) x

namespace TermReader

variable {more : Input} {gap : Gap} {R : Store → Store → Prop} [Store.Shifting gap R]
  {quotes : DoubleQuotes} {r r' : TermReader} {s s' : Store} (ops : OperatorTable)

/-- Reads a term that is there. -/
def readNext (r : TermReader) (s : Store) : Except ReadError (Option Ref) × TermReader × Store :=
  let (result, r, s) := r.read ops s
  (result.map some, r, s)

theorem sameNext_readNext (hmore : more.NextLine) (h : r.Begins more quotes r')
    (hs : R s s') :
    SameNext (Begins more quotes) more gap R (r.readNext ops s) (r'.readNext ops s') := by
  have hterm := Reading.matches_term ops hmore h hs [.expression 1200]
  have hend := Reading.ends_term ops h.self s
  simp only [readNext, read]
  have hbegun : [Construct.expression 1200].map gap.construct = [.expression 1200] := rfl
  rw [hbegun] at hterm
  generalize Reading.term ops { reader := r, store := s, begun := [.expression 1200] } = x
    at hterm hend ⊢
  generalize Reading.term ops { reader := r', store := s', begun := [.expression 1200] } = x'
    at hterm ⊢
  rcases x with ⟨t, reading⟩ | ⟨e, reading⟩ <;> rcases x' with ⟨t', reading'⟩ | ⟨e', reading'⟩
  · obtain ⟨rfl, hst⟩ := hterm
    exact .term ⟨hst.reader.lexer.input, ⟨hend.1, hst.reader.ahead.trans hend.1⟩,
      hst.reader.placeholders, hst.reader.doubleQuotes⟩ hst.store
  · exact hterm.elim
  · exact .cut hterm.1 hterm.2
  · rcases hterm with hcut | ⟨he, hst⟩
    · exact .cut hcut.1 hcut.2
    · exact .fails he hst

/-- What comes of skipping layout before a term. -/
def afterLayout (r : TermReader) (s : Store) :
    Except ReadError Bool × Position × Input → Except ReadError (Option Ref) × TermReader × Store
  | (.ok seen, p, []) => (.ok none, { r with lexer := ⟨[], p, r.lexer.layoutSeen || seen⟩ }, s)
  | (.ok seen, p, .char c :: rest) =>
    readNext ops { r with lexer := ⟨.char c :: rest, p, r.lexer.layoutSeen || seen⟩ } s
  | (.ok seen, p, .fault fault :: rest) =>
    (.error (.input fault), { r with lexer := ⟨rest, p, r.lexer.layoutSeen || seen⟩ }, s)
  | (.error e, p, rest) => (.error e, { r with lexer := ⟨rest, p, r.lexer.layoutSeen⟩ }, s)

theorem next?_eq (h : r.ahead = none) (s : Store) :
    r.next? ops s =
      afterLayout ops r s (Lexer.skipLayout .none false r.lexer.position r.lexer.input) := by
  obtain ⟨lexer, ahead, placeholders, doubleQuotes⟩ := r
  obtain rfl : ahead = none := h
  have hend : Lexer.atEnd lexer =
      match Lexer.skipLayout .none false lexer.position lexer.input with
      | (.ok seen, p, []) => .ok true ⟨[], p, lexer.layoutSeen || seen⟩
      | (.ok seen, p, .char c :: rest) => .ok false ⟨.char c :: rest, p, lexer.layoutSeen || seen⟩
      | (.ok seen, p, .fault fault :: rest) =>
        .error (.input fault) ⟨rest, p, lexer.layoutSeen || seen⟩
      | (.error e, p, rest) => .error e ⟨rest, p, lexer.layoutSeen⟩ := by
    show EStateM.bind Lexer.scanLayout _ lexer = _
    rw [EStateM.bind, Lexer.scanLayout]
    rcases Lexer.skipLayout .none false lexer.position lexer.input with
      ⟨e | seen, p, _ | ⟨c | fault, rest⟩⟩ <;> rfl
  simp only [next?, atEnd, Option.isSome_none, Bool.false_eq_true, if_false, hend]
  rcases Lexer.skipLayout .none false lexer.position lexer.input with
    ⟨e | seen, p, _ | ⟨c | fault, rest⟩⟩ <;> rfl

/-- **The next term of a reader.** -/
theorem sameNext_next? (hmore : more.NextLine) (h : r.Begins more quotes r') (hs : R s s') :
    SameNext (Begins more quotes) more gap R (r.next? ops s) (r'.next? ops s') := by
  have hlayout := Lexer.sameLayout_skipLayout hmore .none false r.lexer.position r'.lexer.position
    r.lexer.input
  rw [next?_eq ops h.ahead.1, next?_eq ops h.ahead.2, h.input]
  generalize Lexer.skipLayout .none false r.lexer.position r.lexer.input = x at hlayout ⊢
  generalize Lexer.skipLayout .none false r'.lexer.position (r.lexer.input ++ more) = x'
    at hlayout ⊢
  cases hlayout with
  | stays seen p p' rest hrest =>
    rcases rest with _ | ⟨c | fault, rest⟩
    · exact absurd rfl hrest
    · exact sameNext_readNext ops hmore ⟨rfl, h.ahead, h.placeholders, h.doubleQuotes⟩ hs
    · exact .fails rfl hs
  | ends seen p p' hnil => exact .ends hnil hs
  | goesOn seen p p' hline => exact .goesOn (hline ▸ List.cons_ne_nil _ _)
  | fails e p p' rest => exact .fails rfl hs
  | cut e p rest r' hne he => exact .cut hne he

end TermReader

end Clausal
