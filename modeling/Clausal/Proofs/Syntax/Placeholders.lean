import Clausal.TermSource
import Clausal.Proofs.Inclusion.Reading
import Clausal.Proofs.Syntax.Lines
import Clausal.Proofs.Syntax.Outlines
import Clausal.Proofs.Syntax.Termination

/-! # Placeholders are replaced after parsing

What becomes of a placeholder has no influence on how the text around it is read: operators, signs and
priorities depend on tokens, and never on the terms that were made of them.  So a reading that replaces
placeholders and one that takes them as names go the same way, step by step, from tokens that are the same
(`Reading.answers_step`), until a placeholder is met that there is no argument for.  The operands that are
made on the way have outlines in common (`Reading.Alike`).

The placeholders met are counted in the reading that does not replace them: those steps that take the name
`?` and make an operand of it at once (`Reading.takesPlaceholder`).
-/

namespace Clausal

open List (Forall₂)

/-- The second reader is the first one, which replaces no placeholders, with the arguments `rest` for them. -/
structure TermReader.Supplied (rest : List Term) (r r' : TermReader) : Prop where
  /-- The first reader replaces no placeholders. -/
  plain : r.placeholders = none
  /-- The second one does. -/
  eq : r' = { r with placeholders := some rest }

/-- The constructs are the same but for the operands in them. -/
inductive Construct.Like : Construct → Construct → Prop
  | expression (limit : Nat) : Like (.expression limit) (.expression limit)
  | before (name : String) (priority : Nat) : Like (.before name priority) (.before name priority)
  | between (name : String) (priority : Nat) (t t' : Ref) :
    Like (.between name priority t) (.between name priority t')
  | args (name : String) {ts ts' : List Ref} (h : ts'.length = ts.length) :
    Like (.args name ts) (.args name ts')
  | group : Like .group .group
  | list {ts ts' : List Ref} (h : ts'.length = ts.length) : Like (.list ts) (.list ts')
  | listTail {ts ts' : List Ref} (h : ts'.length = ts.length) : Like (.listTail ts) (.listTail ts')
  | curly : Like .curly .curly

theorem Construct.Like.length_eq {c c' : Construct} (h : c.Like c') :
    c'.operands.length = c.operands.length := by
  cases h with
  | args name h | list h | listTail h => exact h
  | _ => rfl

namespace Reading

variable {α β α' β' : Type} {args : List Term} {k : Nat} {ts ts' us us' : List Ref} {r r' : Reading}

/-- The operands of the constructs begun, the last first. -/
def pending (begun : List Construct) : List Ref := begun.flatMap Construct.operands

/-- The second reading is at the same place as the first, with the first `k` arguments taken.  The operands
`ts` of the first, which are not in its constructs yet, have the counterparts `ts'`. -/
structure Alike (args : List Term) (k : Nat) (ts ts' : List Ref) (r r' : Reading) : Prop where
  /-- Where the tokens come from. -/
  reader : r.reader.Supplied (args.drop k) r'.reader
  /-- The constructs begun. -/
  begun : Forall₂ Construct.Like r.begun r'.begun
  /-- All operands so far. -/
  shared : Shared args k r.store r'.store r.names r'.names (ts ++ pending r.begun)
    (ts' ++ pending r'.begun)

/-- Both actions end in values that `Q` relates, or both in the same error at the same place, which is not
that an argument is missing. -/
def Agrees (args : List Term) (k : Nat) (Q : α → α' → Reading → Reading → Prop) :
    EStateM.Result ReadError Reading α → EStateM.Result ReadError Reading α' → Prop
  | .ok a r, .ok a' r' => Q a a' r r'
  | .error e r, .error e' r' =>
    e' = e ∧ (∀ p, e ≠ .missingArgument p) ∧ r.reader.Supplied (args.drop k) r'.reader
  | .ok _ _, .error _ _ => False
  | .error _ _, .ok _ _ => False

theorem Agrees.bind {Q : α → α' → Reading → Reading → Prop} {R : β → β' → Reading → Reading → Prop}
    {m : ReadM α} {m' : ReadM α'} {f : α → ReadM β} {f' : α' → ReadM β'}
    (h : Agrees args k Q (m r) (m' r'))
    (hf : ∀ a a' r₁ r₁', Q a a' r₁ r₁' → Agrees args k R (f a r₁) (f' a' r₁')) :
    Agrees args k R ((m >>= f) r) ((m' >>= f') r') := by
  rcases hm : m r with ⟨a, r₁⟩ | ⟨e, r₁⟩ <;> rcases hm' : m' r' with ⟨a', r₁'⟩ | ⟨e', r₁'⟩ <;>
    rw [hm, hm'] at h
  · rw [bind_eq_of_ok hm, bind_eq_of_ok hm']
    exact hf a a' r₁ r₁' h
  · exact h.elim
  · exact h.elim
  · rw [bind_eq_of_error hm, bind_eq_of_error hm']
    exact h

/-- An action that depends on the reading. -/
theorem agrees_get {Q : α → α' → Reading → Reading → Prop} {f : Reading → ReadM α} {f' : Reading → ReadM α'}
    (h : Agrees args k Q (f r r) (f' r' r')) : Agrees args k Q ((get >>= f) r) ((get >>= f') r') := h

/-! ## Tokens -/

/-- The action makes no operands, and does the same in both readings. -/
def Neutral (m : ReadM α) : Prop := ∀ ⦃args k ts ts' r r'⦄, Alike args k ts ts' r r' →
  Agrees args k (fun a a' r r' => a' = a ∧ Alike args k ts ts' r r') (m r) (m r')

theorem Neutral.bind {m : ReadM α} {f : α → ReadM β} (h : Neutral m) (hf : ∀ a, Neutral (f a)) :
    Neutral (m >>= f) := by
  intro args k ts ts' r r' halike
  refine (h halike).bind fun a a' r₁ r₁' hsame => ?_
  obtain ⟨rfl, halike₁⟩ := hsame
  exact hf a' halike₁

theorem neutral_pure (a : α) : Neutral (pure a) := fun _ _ _ _ _ _ h => ⟨rfl, h⟩

/-- An action in front that makes no operands. -/
theorem Neutral.agrees {Q : β → β' → Reading → Reading → Prop} {m : ReadM α} {f : α → ReadM β}
    {f' : α → ReadM β'} (hm : Neutral m) (h : Alike args k ts ts' r r')
    (hf : ∀ a r₁ r₁', m r = .ok a r₁ → Alike args k ts ts' r₁ r₁' →
      Agrees args k Q (f a r₁) (f' a r₁')) : Agrees args k Q ((m >>= f) r) ((m >>= f') r') := by
  have hfirst := hm h
  rcases hresult : m r with ⟨a, r₁⟩ | ⟨e, r₁⟩ <;> rcases hresult' : m r' with ⟨a', r₁'⟩ | ⟨e', r₁'⟩ <;>
    rw [hresult, hresult'] at hfirst
  · obtain ⟨rfl, h₁⟩ := hfirst
    rw [bind_eq_of_ok hresult, bind_eq_of_ok hresult']
    exact hf a' r₁ r₁' hresult h₁
  · exact hfirst.elim
  · exact hfirst.elim
  · rw [bind_eq_of_error hresult, bind_eq_of_error hresult']
    exact hfirst

theorem agrees_unexpected {Q : α → α' → Reading → Reading → Prop} (token : Token)
    (h : Alike args k ts ts' r r') : Agrees args k Q (unexpected token r) (unexpected token r') := by
  have hreader := h.reader.eq
  refine ⟨?_, nofun, h.reader⟩
  rw [hreader]

theorem neutral_lexing_token : Neutral (lexing Lexer.token) := by
  intro args k ts ts' r r' h
  obtain ⟨reader, s, names, begun⟩ := r
  obtain ⟨reader', s', names', begun'⟩ := r'
  obtain ⟨⟨hplain, rfl⟩, hbegun, hshared⟩ := h
  have hmet := Lexer.counts_token reader.lexer
  simp only [lexing]
  rcases hresult : Lexer.token reader.lexer with ⟨t, lexer⟩ | ⟨e, lexer⟩
  · exact ⟨rfl, ⟨hplain, rfl⟩, hbegun, hshared⟩
  · rw [hresult] at hmet
    exact ⟨rfl, hmet.2.ne, hplain, rfl⟩

theorem neutral_nextToken : Neutral nextToken := by
  intro args k ts ts' r r' h
  have hlexing := neutral_lexing_token h
  obtain ⟨reader, s, names, begun⟩ := r
  obtain ⟨reader', s', names', begun'⟩ := r'
  obtain ⟨⟨hplain, rfl⟩, hbegun, hshared⟩ := h
  obtain ⟨lexer, ahead, placeholders, doubleQuotes⟩ := reader
  cases ahead with
  | some token => exact ⟨rfl, ⟨hplain, rfl⟩, hbegun, hshared⟩
  | none => exact hlexing

/-- Holding back a token that was taken. -/
theorem neutral_hold (token : Token) : Neutral (do
    modify fun r => { r with reader := { r.reader with ahead := some token } }
    pure token) := by
  intro args k ts ts' r r' h
  obtain ⟨reader, s, names, begun⟩ := r
  obtain ⟨reader', s', names', begun'⟩ := r'
  obtain ⟨⟨hplain, rfl⟩, hbegun, hshared⟩ := h
  exact ⟨rfl, ⟨hplain, rfl⟩, hbegun, hshared⟩

theorem neutral_peekToken : Neutral peekToken := by
  intro args k ts ts' r r' h
  have hlexing := neutral_lexing_token.bind neutral_hold h
  obtain ⟨reader, s, names, begun⟩ := r
  obtain ⟨reader', s', names', begun'⟩ := r'
  obtain ⟨⟨hplain, rfl⟩, hbegun, hshared⟩ := h
  obtain ⟨lexer, ahead, placeholders, doubleQuotes⟩ := reader
  cases ahead with
  | some token => exact ⟨rfl, ⟨hplain, rfl⟩, hbegun, hshared⟩
  | none => exact hlexing

theorem neutral_expect (token : Token) : Neutral (expect token) := by
  refine neutral_nextToken.bind fun found => ?_
  split
  · exact neutral_pure _
  · exact fun _ _ _ _ _ _ h => agrees_unexpected found h

theorem neutral_limit : Neutral limit := by
  intro args k ts ts' r r' h
  obtain ⟨reader, s, names, begun⟩ := r
  obtain ⟨reader', s', names', begun'⟩ := r'
  have hbegun := h.begun
  cases hbegun with
  | nil => exact ⟨rfl, h⟩
  | cons hlike _ => cases hlike <;> exact ⟨rfl, h⟩

theorem neutral_continuation? (ops : OperatorTable) (limit priority : Nat) :
    Neutral (continuation? ops limit priority) :=
  neutral_peekToken.bind fun _ => neutral_pure _

theorem neutral_startsOperand (ops : OperatorTable) : Neutral (startsOperand ops) := by
  refine neutral_peekToken.bind fun token => ?_
  split <;> exact neutral_pure _

/-! ## Operands -/

/-- The readings are in the same phase, and the operands that are complete correspond.  Once the term is
whole, no construct is left. -/
inductive Phases (args : List Term) (k : Nat) : ReadPhase → ReadPhase → Reading → Reading → Prop
  /-- An operand is awaited. -/
  | operand {r r' : Reading} (h : Alike args k [] [] r r') : Phases args k .operand .operand r r'
  /-- An operand is complete. -/
  | complete {t t' : Ref} {r r' : Reading} (priority : Nat) (h : Alike args k [t] [t'] r r') :
    Phases args k (.complete t priority) (.complete t' priority) r r'
  /-- The term is complete. -/
  | whole {t t' : Ref} {r r' : Reading} (h : Alike args k [t] [t'] r r') (hbegun : r.begun = []) :
    Phases args k (.whole t) (.whole t') r r'

/-- An operand that is built. -/
theorem agrees_complete (us us' : List Ref) {f f' : Store → Ref × Store}
    (h : Alike args k (us ++ ts) (us' ++ ts') r r')
    (hshared : ∀ {names names' : List (String × Ref)} {more more' : List Ref},
      Shared args k r.store r'.store names names' (us ++ more) (us' ++ more') →
        Shared args k (f r.store).2 (f' r'.store).2 names names' ((f r.store).1 :: more)
          ((f' r'.store).1 :: more')) :
    Agrees args k (fun t t' r r' => Alike args k (t :: ts) (t' :: ts') r r') (building f r)
      (building f' r') := by
  obtain ⟨reader, s, names, begun⟩ := r
  obtain ⟨reader', s', names', begun'⟩ := r'
  refine ⟨h.reader, h.begun, ?_⟩
  have hall := h.shared
  rw [List.append_assoc, List.append_assoc] at hall
  exact hshared hall

theorem Agrees.complete {m m' : ReadM Ref}
    (h : Agrees args k (fun t t' r r' => Alike args k [t] [t'] r r') (m r) (m' r')) (priority : Nat) :
    Agrees args k (Phases args k) ((do return .complete (← m) priority : ReadM ReadPhase) r)
      ((do return .complete (← m') priority : ReadM ReadPhase) r') :=
  h.bind fun _ _ _ _ h₁ => Phases.complete priority h₁

/-- A construct is begun with the operands there are. -/
theorem agrees_enter {c c' : Construct} (hlike : c.Like c') (limit : Nat)
    (h : Alike args k c.operands c'.operands r r') :
    Agrees args k (Phases args k) (enter c limit r) (enter c' limit r') :=
  .operand ⟨h.reader, .cons (.expression limit) (.cons hlike h.begun), h.shared⟩

theorem agrees_literal (l : Literal) (h : Alike args k [] [] r r') :
    Agrees args k (fun t t' r r' => Alike args k [t] [t'] r r') (building (·.literal l) r)
      (building (·.literal l) r') :=
  agrees_complete [] [] h fun hshared => hshared.literal l

theorem agrees_literalList (ls : List Literal) (h : Alike args k [] [] r r') :
    Agrees args k (fun t t' r r' => Alike args k [t] [t'] r r')
      (building (fun s => (s.literals ls).2.list (s.literals ls).1) r)
      (building (fun s => (s.literals ls).2.list (s.literals ls).1) r') :=
  agrees_complete [] [] h fun hshared => hshared.literalList ls

theorem agrees_apply (us us' : List Ref) (hlength : us'.length = us.length) (hne : us ≠ []) (name : String)
    (h : Alike args k us us' r r') :
    Agrees args k (fun t t' r r' => Alike args k [t] [t'] r r') (building (·.apply name us.reverse) r)
      (building (·.apply name us'.reverse) r') := by
  rw [← List.append_nil us, ← List.append_nil us'] at h
  exact agrees_complete us us' h fun hshared => hshared.apply hlength hne name

theorem agrees_list (hlength : us'.length = us.length) (h : Alike args k us us' r r') :
    Agrees args k (fun t t' r r' => Alike args k [t] [t'] r r') (building (·.list us.reverse) r)
      (building (·.list us'.reverse) r') := by
  rw [← List.append_nil us, ← List.append_nil us'] at h
  exact agrees_complete us us' h fun hshared => hshared.list hlength

theorem agrees_partialList {t t' : Ref} (hlength : us'.length = us.length)
    (h : Alike args k (t :: us) (t' :: us') r r') :
    Agrees args k (fun t t' r r' => Alike args k [t] [t'] r r')
      (building (·.partialList us.reverse t) r) (building (·.partialList us'.reverse t') r') := by
  rw [← List.append_nil (t :: us), ← List.append_nil (t' :: us')] at h
  exact agrees_complete (t :: us) (t' :: us') h fun hshared => hshared.partialList hlength

theorem agrees_variableNamed (name : String) (h : Alike args k [] [] r r') :
    Agrees args k (fun t t' r r' => Alike args k [t] [t'] r r') (variableNamed name r)
      (variableNamed name r') := by
  unfold variableNamed
  by_cases hname : name = "_"
  · rw [if_pos hname]
    exact agrees_complete [] [] h fun hshared => hshared.newVar none
  · rw [if_neg hname]
    obtain ⟨reader, s, names, begun⟩ := r
    obtain ⟨reader', s', names', begun'⟩ := r'
    obtain ⟨hreader, hbegun, hshared⟩ := h
    refine agrees_get ?_
    rcases hshared.lookup name with ⟨hnone, hnone'⟩ | ⟨t, t', ht, ht', hboth⟩
    · dsimp only at hnone hnone' ⊢
      rw [hnone, hnone']
      exact ⟨hreader, hbegun, hshared.newName name⟩
    · dsimp only at ht ht' ⊢
      rw [ht, ht']
      exact ⟨hreader, hbegun, hboth⟩

theorem agrees_codeList (text : String) (h : Alike args k [] [] r r') :
    Agrees args k (fun t t' r r' => Alike args k [t] [t'] r r') (codeList text r) (codeList text r') :=
  agrees_literalList _ h

theorem agrees_doubleQuoted (text : String) (h : Alike args k [] [] r r') :
    Agrees args k (fun t t' r r' => Alike args k [t] [t'] r r') (doubleQuoted text r)
      (doubleQuoted text r') := by
  have hchars := agrees_literalList (text.toList.map fun c => .atom c.toString) h
  have hcodes := agrees_codeList text h
  have hatom := agrees_literal (.atom text) h
  have hquotes : r'.reader.doubleQuotes = r.reader.doubleQuotes := by
    rw [h.reader.eq]
  refine agrees_get ?_
  rw [hquotes]
  cases r.reader.doubleQuotes with
  | chars => exact hchars
  | codes => exact hcodes
  | atom => exact hatom

/-! ## Placeholders -/

/-- Whether an action ends with an operand that is complete. -/
def completes : EStateM.Result ReadError Reading ReadPhase → Bool
  | .ok (.complete _ _) _ => true
  | .ok .operand _ => false
  | .ok (.whole _) _ => false
  | .error _ _ => false

/-- The second action ends because an argument is missing, where the reader of the first is `m`. -/
def Misses (m : TermReader) (x' : EStateM.Result ReadError Reading α') : Prop :=
  ∃ r', x' = .error (.missingArgument m.lexer.position) r' ∧
    r'.reader = { m with placeholders := some [] }

/-- The outcomes of actions that take a placeholder if `asks` holds and the first one completes an operand.
The next argument is in its place then, unless it is missing. -/
def Answers (args : List Term) (k : Nat) (asks : Bool)
    (x x' : EStateM.Result ReadError Reading ReadPhase) : Prop :=
  if asks && completes x then
    (k < args.length → Agrees args (k + 1) (Phases args (k + 1)) x x') ∧
      (args.length ≤ k → ∀ phase r, x = .ok phase r → Misses r.reader x')
  else Agrees args k (Phases args k) x x'

theorem answers_of_agrees {asks : Bool} {x x' : EStateM.Result ReadError Reading ReadPhase}
    (hnot : (asks && completes x) = false) (h : Agrees args k (Phases args k) x x') :
    Answers args k asks x x' := by
  rw [Answers, hnot, if_neg Bool.false_ne_true]
  exact h

/-- An action in front that makes no operands. -/
theorem Neutral.answers {asks : Bool} {m : ReadM β} {f f' : β → ReadM ReadPhase} (hm : Neutral m)
    (h : Alike args k ts ts' r r')
    (hf : ∀ a r₁ r₁', m r = .ok a r₁ → Alike args k ts ts' r₁ r₁' →
      Answers args k asks (f a r₁) (f' a r₁')) : Answers args k asks ((m >>= f) r) ((m >>= f') r') := by
  have hfirst := hm h
  rcases hresult : m r with ⟨a, r₁⟩ | ⟨e, r₁⟩ <;> rcases hresult' : m r' with ⟨a', r₁'⟩ | ⟨e', r₁'⟩ <;>
    rw [hresult, hresult'] at hfirst
  · obtain ⟨rfl, h₁⟩ := hfirst
    rw [bind_eq_of_ok hresult, bind_eq_of_ok hresult']
    exact hf a' r₁ r₁' hresult h₁
  · exact hfirst.elim
  · exact hfirst.elim
  · rw [bind_eq_of_error hresult, bind_eq_of_error hresult']
    exact answers_of_agrees (Bool.and_false _) hfirst

/-- A placeholder, where the next argument is put in its place or is missing. -/
theorem answers_placeholder (h : Alike args k [] [] r r') :
    Answers args k true (placeholder r) (placeholder r') := by
  obtain ⟨⟨lexer, ahead, placeholders, quotes⟩, s, names, begun⟩ := r
  obtain ⟨reader', s', names', begun'⟩ := r'
  obtain ⟨⟨hplain, hreader⟩, hbegun, hshared⟩ := h
  dsimp only at hplain hreader hbegun hshared
  subst hplain hreader
  have hcompletes : (true && completes (placeholder ⟨⟨lexer, ahead, none, quotes⟩, s, names, begun⟩)) = true :=
    rfl
  rw [Answers, hcompletes, if_pos rfl]
  rcases hrest : args.drop k with _ | ⟨arg, rest⟩
  · have hle := List.drop_eq_nil_iff.mp hrest
    refine ⟨fun hk => absurd hk (Nat.not_lt.mpr hle), ?_⟩
    intro _ phase r₁ hr₁
    cases hr₁
    exact ⟨_, rfl, rfl⟩
  · have harg : args[k]? = some arg := by
      rw [← List.head?_drop, hrest, List.head?_cons]
    have htail : args.drop (k + 1) = rest := by
      rw [← List.tail_drop, hrest, List.tail_cons]
    refine ⟨fun _ => ?_, ?_⟩
    · refine Phases.complete 0 ⟨⟨rfl, ?_⟩, hbegun, hshared.fillGap harg⟩
      rw [htail]
    · intro hle
      exact absurd (List.getElem?_eq_some_iff.mp harg).1 (Nat.not_lt.mpr hle)

/-- A name that is an operand is a placeholder if it is `?`. -/
theorem answers_plainName (name : String) (h : Alike args k [] [] r r') :
    Answers args k (name = "?") (plainName name r) (plainName name r') := by
  unfold plainName
  by_cases hname : name = "?"
  · rw [decide_eq_true hname, if_pos hname]
    exact answers_placeholder h
  · rw [decide_eq_false hname, if_neg hname]
    exact answers_of_agrees (Bool.false_and _) ((agrees_literal (.atom name) h).complete 0)

variable (ops : OperatorTable)

/-- A construct that is begun completes no operand. -/
theorem answers_enter {asks : Bool} {c c' : Construct} (hlike : c.Like c') (limit : Nat)
    (h : Alike args k c.operands c'.operands r r') :
    Answers args k asks (enter c limit r) (enter c' limit r') :=
  answers_of_agrees (Bool.and_false _) (agrees_enter hlike limit h)

theorem answers_operatorOrName (name : String) (h : Alike args k [] [] r r') :
    Answers args k (name = "?") (operatorOrName ops name r) (operatorOrName ops name r') := by
  unfold operatorOrName
  rcases ops.find? name .before with _ | op
  · exact answers_plainName name h
  · refine neutral_limit.answers h fun limit r₁ r₁' _ h₁ => ?_
    split
    · refine (neutral_startsOperand ops).answers h₁ fun starts r₂ r₂' _ h₂ => ?_
      cases starts with
      | true => exact answers_enter (.before name op.priority) op.rightMax h₂
      | false => exact answers_plainName name h₂
    · exact answers_plainName name h₁

theorem answers_nameOperand (name : String) (h : Alike args k [] [] r r') :
    Answers args k (name = "?") (nameOperand ops name r) (nameOperand ops name r') := by
  refine neutral_peekToken.answers h fun token r₁ r₁' htoken h₁ => ?_
  clear htoken
  split
  · refine neutral_nextToken.answers h₁ fun _ r₂ r₂' _ h₂ => ?_
    exact answers_enter (.args name rfl) 999 h₂
  · rename_i l
    by_cases hsign : (name = "-" && l.isNumber) = true
    · -- The sign of a number completes an operand as well, but its name is not that of placeholders.
      have hname : name = "-" := of_decide_eq_true (Bool.and_eq_true_iff.mp hsign).1
      rw [if_pos hsign]
      refine neutral_nextToken.answers h₁ fun _ r₂ r₂' _ h₂ => ?_
      refine answers_of_agrees ?_ ((agrees_literal l.neg h₂).complete 0)
      rw [hname]
      rfl
    · rw [if_neg hsign]
      exact answers_operatorOrName ops name h₁
  · exact answers_operatorOrName ops name h₁

/-- The token is the name that placeholders have. -/
def isPlaceholder (token : Token) : Bool := token = .literal (.atom "?")

theorem answers_operandFrom (token : Token) (h : Alike args k [] [] r r') :
    Answers args k (isPlaceholder token) (operandFrom ops token r) (operandFrom ops token r') := by
  have hother : ∀ {m m' : ReadM ReadPhase}, isPlaceholder token = false →
      Agrees args k (Phases args k) (m r) (m' r') → Answers args k (isPlaceholder token) (m r) (m' r') := by
    intro m m' hnot hagrees
    exact answers_of_agrees (by rw [hnot, Bool.false_and]) hagrees
  cases token with
  | literal l =>
    cases l with
    | atom name =>
      have hasks : isPlaceholder (.literal (.atom name)) = decide (name = "?") := by
        rw [isPlaceholder]
        exact decide_eq_decide.mpr (by simp)
      rw [hasks]
      exact answers_nameOperand ops name h
    | small n => exact hother rfl ((agrees_literal (.small n) h).complete 0)
    | big n => exact hother rfl ((agrees_literal (.big n) h).complete 0)
    | float x => exact hother rfl ((agrees_literal (.float x) h).complete 0)
  | var name => exact hother rfl ((agrees_variableNamed name h).complete 0)
  | quoted text => exact hother rfl ((agrees_doubleQuoted text h).complete 0)
  | backQuoted text => exact hother rfl ((agrees_codeList text h).complete 0)
  | openGroup => exact answers_enter .group 1200 h
  | openArgs => exact answers_enter .group 1200 h
  | openList =>
    refine neutral_peekToken.answers h fun token r₁ r₁' _ h₁ => ?_
    split
    · refine neutral_nextToken.answers h₁ fun _ r₂ r₂' _ h₂ => ?_
      have hname := answers_nameOperand ops "[]" h₂
      rwa [decide_eq_false (by decide)] at hname
    · exact answers_enter (.list rfl) 999 h₁
  | openCurly =>
    refine neutral_peekToken.answers h fun token r₁ r₁' _ h₁ => ?_
    split
    · refine neutral_nextToken.answers h₁ fun _ r₂ r₂' _ h₂ => ?_
      have hname := answers_nameOperand ops "\x7b\x7d" h₂
      rwa [decide_eq_false (by decide)] at hname
    · exact answers_enter .curly 1200 h₁
  | comma | bar | close | closeList | closeCurly | stop =>
    exact hother rfl (agrees_unexpected _ h)

/-- Whether an operand is awaited and a placeholder may come next. -/
def asks : ReadPhase → Reading → Bool
  | .operand, r => r.reader.token?.any fun e => isPlaceholder e.1
  | .complete _ _, _ => false
  | .whole _, _ => false

theorem answers_beginOperand (h : Alike args k [] [] r r') :
    Answers args k (asks .operand r) (beginOperand ops r) (beginOperand ops r') := by
  rw [beginOperand_eq]
  refine neutral_nextToken.answers h fun token r₁ r₁' htoken h₁ => ?_
  -- The token that was taken is the one by which `asks` decides.
  obtain ⟨reader, hreader, -⟩ := yields_nextToken.of_ok htoken
  rw [asks, hreader]
  exact answers_operandFrom ops token h₁

/-! ## Steps -/

theorem agrees_giveExpression (limit priority : Nat) {t t' : Ref} (h : Alike args k [t] [t'] r r') :
    Agrees args k (Phases args k) (giveExpression ops limit t priority r)
      (giveExpression ops limit t' priority r') := by
  refine (neutral_continuation? ops limit priority).agrees h fun found r₁ r₁' _ h₁ => ?_
  rcases found with _ | ⟨name, fixity, op⟩
  · exact Phases.complete priority h₁
  · have hafter : ∀ {r₁ r₁'}, Alike args k [t] [t'] r₁ r₁' → Agrees args k (Phases args k)
        ((do
          let _ ← nextToken
          let term ← building (·.apply name [t])
          modify fun r => { r with begun := .expression limit :: r.begun }
          pure (.complete term op.priority) : ReadM ReadPhase) r₁)
        ((do
          let _ ← nextToken
          let term ← building (·.apply name [t'])
          modify fun r => { r with begun := .expression limit :: r.begun }
          pure (.complete term op.priority) : ReadM ReadPhase) r₁') := by
      intro r₁ r₁' h₁
      refine neutral_nextToken.agrees h₁ fun _ r₂ r₂' _ h₂ => ?_
      refine (agrees_apply [t] [t'] rfl (List.cons_ne_nil _ _) name h₂).bind ?_
      intro u u' r₃ r₃' h₃
      exact Phases.complete op.priority ⟨h₃.reader, .cons (.expression limit) h₃.begun, h₃.shared⟩
    cases fixity with
    | before => exact hafter h₁
    | after => exact hafter h₁
    | between =>
      refine neutral_nextToken.agrees h₁ fun _ r₂ r₂' _ h₂ => ?_
      exact .operand ⟨h₂.reader, .cons (.expression op.rightMax)
        (.cons (.between name op.priority t t') (.cons (.expression limit) h₂.begun)), h₂.shared⟩

theorem agrees_giveOperand {c c' : Construct} (hlike : c.Like c') (priority : Nat) {t t' : Ref}
    (h : Alike args k (t :: c.operands) (t' :: c'.operands) r r') :
    Agrees args k (Phases args k) (giveOperand ops c t priority r) (giveOperand ops c' t' priority r') := by
  cases hlike with
  | expression limit => exact agrees_giveExpression ops limit priority h
  | before name priority =>
    exact (agrees_apply [t] [t'] rfl (List.cons_ne_nil _ _) name h).complete priority
  | between name priority left left' =>
    exact (agrees_apply [t, left] [t', left'] rfl (List.cons_ne_nil _ _) name h).complete
      priority
  | @args name items items' hlength =>
    have hlength' : (t' :: items').length = (t :: items).length := congrArg Nat.succ hlength
    refine neutral_nextToken.agrees h fun token r₁ r₁' _ h₁ => ?_
    split
    · exact agrees_enter (.args name hlength') 999 h₁
    · exact (agrees_apply _ _ hlength' (List.cons_ne_nil _ _) name h₁).complete 0
    · exact agrees_unexpected token h₁
  | group =>
    refine (neutral_expect .close).agrees h fun _ r₁ r₁' _ h₁ => ?_
    exact Phases.complete 0 h₁
  | @list items items' hlength =>
    have hlength' : (t' :: items').length = (t :: items).length := congrArg Nat.succ hlength
    refine neutral_nextToken.agrees h fun token r₁ r₁' _ h₁ => ?_
    split
    · exact agrees_enter (.list hlength') 999 h₁
    · exact agrees_enter (.listTail hlength') 999 h₁
    · exact (agrees_list hlength' h₁).complete 0
    · exact agrees_unexpected token h₁
  | @listTail items items' hlength =>
    refine (neutral_expect .closeList).agrees h fun _ r₁ r₁' _ h₁ => ?_
    exact (agrees_partialList hlength h₁).complete 0
  | curly =>
    refine (neutral_expect .closeCurly).agrees h fun _ r₁ r₁' _ h₁ => ?_
    exact (agrees_apply [t] [t'] rfl (List.cons_ne_nil _ _) "\x7b\x7d" h₁).complete 0

/-- **A step of the two readings.**  They go the same way, whatever the terms are that were made before. -/
theorem answers_step {phase phase' : ReadPhase} (h : Phases args k phase phase' r r') :
    Answers args k (asks phase r) (step ops phase r) (step ops phase' r') := by
  cases h with
  | operand h => exact answers_beginOperand ops h
  | whole h hbegun => exact answers_of_agrees (Bool.false_and _) (.whole h hbegun)
  | complete priority h =>
    refine answers_of_agrees (Bool.false_and _) ?_
    obtain ⟨reader, s, names, begun⟩ := r
    obtain ⟨reader', s', names', begun'⟩ := r'
    obtain ⟨hreader, hbegun, hshared⟩ := h
    cases hbegun with
    | nil => exact .whole ⟨hreader, .nil, hshared⟩ rfl
    | cons hlike hbegun => exact agrees_giveOperand ops hlike priority ⟨hreader, hbegun, hshared⟩

/-! ## Terms -/

/-- Whether a step takes a placeholder: it takes the name `?` where an operand is awaited, and the name is an
operand by itself, not an operator or in front of arguments. -/
def takesPlaceholder (phase : ReadPhase) (r : Reading) : Bool :=
  asks phase r && completes (step ops phase r)

/-- The placeholders met in at most the given number of steps, by what the reader is after each of them. -/
def placeholders : Nat → ReadPhase → Reading → List TermReader
  | _, .whole _, _ => []
  | 0, _, _ => []
  | n + 1, phase, r =>
    match step ops phase r with
    | .ok phase' r' =>
      if takesPlaceholder ops phase r then r'.reader :: placeholders n phase' r'
      else placeholders n phase' r'
    | .error _ _ => []

/-- The outcomes of two readings, the first of which meets the placeholders `ms` when `k` arguments were
taken.  They agree if there are enough arguments, and else the second ends at the first placeholder for which
there is none. -/
def Meets (args : List Term) (k : Nat) (ms : List TermReader) (Q : Nat → α → α' → Reading → Reading → Prop)
    (x : EStateM.Result ReadError Reading α) (x' : EStateM.Result ReadError Reading α') : Prop :=
  (k + ms.length ≤ args.length → Agrees args (k + ms.length) (Q (k + ms.length)) x x') ∧
    (args.length < k + ms.length → ∃ m, ms[args.length - k]? = some m ∧ Misses m x')

theorem meets_nil {Q : Nat → α → α' → Reading → Reading → Prop}
    {x : EStateM.Result ReadError Reading α} {x' : EStateM.Result ReadError Reading α'}
    (hk : k ≤ args.length) (h : Agrees args k (Q k) x x') : Meets args k [] Q x x' :=
  ⟨fun _ => h, fun hlt => absurd hlt (Nat.not_lt.mpr hk)⟩

/-- One more placeholder in front, for which there is an argument. -/
theorem Meets.cons {Q : Nat → α → α' → Reading → Reading → Prop} {m : TermReader} {ms : List TermReader}
    {x : EStateM.Result ReadError Reading α} {x' : EStateM.Result ReadError Reading α'}
    (hk : k < args.length) (h : Meets args (k + 1) ms Q x x') : Meets args k (m :: ms) Q x x' := by
  have hlength : k + (m :: ms).length = k + 1 + ms.length := by
    rw [List.length_cons, Nat.add_right_comm, Nat.add_assoc]
  have hindex : args.length - k = args.length - (k + 1) + 1 := by omega
  rw [Meets, hlength, hindex, List.getElem?_cons_succ]
  exact h

theorem Meets.bind {Q : Nat → α → α' → Reading → Reading → Prop}
    {R : Nat → β → β' → Reading → Reading → Prop} {m : ReadM α} {m' : ReadM α'} {f : α → ReadM β}
    {f' : α' → ReadM β'} {ms : List TermReader} (h : Meets args k ms Q (m r) (m' r'))
    (hf : ∀ k a a' r₁ r₁', Q k a a' r₁ r₁' → Agrees args k (R k) (f a r₁) (f' a' r₁')) :
    Meets args k ms R ((m >>= f) r) ((m' >>= f') r') := by
  refine ⟨fun hle => (h.1 hle).bind (hf _), fun hlt => ?_⟩
  obtain ⟨reader, hreader, r₁, herror, hr₁⟩ := h.2 hlt
  exact ⟨reader, hreader, r₁, bind_eq_of_error herror, hr₁⟩

/-- What comes of a step and of what is done after it: the placeholder that the step takes comes first. -/
theorem Answers.meets {asks : Bool} {m m' : ReadM ReadPhase} {f : ReadPhase → ReadM α}
    {f' : ReadPhase → ReadM α'} {ms : ReadPhase → Reading → List TermReader}
    {Q : Nat → α → α' → Reading → Reading → Prop} (hk : k ≤ args.length)
    (h : Answers args k asks (m r) (m' r'))
    (hf : ∀ {k phase phase' r r'}, k ≤ args.length → Phases args k phase phase' r r' →
      Meets args k (ms phase r) Q (f phase r) (f' phase' r')) :
    Meets args k
      (match m r with
      | .ok phase r₁ => if asks && completes (m r) then r₁.reader :: ms phase r₁ else ms phase r₁
      | .error _ _ => []) Q ((m >>= f) r) ((m' >>= f') r') := by
  rw [Answers] at h
  rcases hresult : m r with ⟨phase, r₁⟩ | ⟨e, r₁⟩ <;> rw [hresult] at h <;> dsimp only
  · rw [bind_eq_of_ok hresult]
    by_cases htakes : (asks && completes (.ok phase r₁)) = true
    · rw [if_pos htakes] at h ⊢
      by_cases hlt : k < args.length
      · have hagrees := h.1 hlt
        rcases hresult' : m' r' with ⟨phase', r₁'⟩ | ⟨e', r₁'⟩ <;> rw [hresult'] at hagrees
        · rw [bind_eq_of_ok hresult']
          exact (hf hlt hagrees).cons hlt
        · exact hagrees.elim
      · -- There is no argument for this placeholder.
        have hle := Nat.not_lt.mp hlt
        obtain ⟨r₁', herror, hreader⟩ := h.2 hle phase r₁ rfl
        refine ⟨fun hall => ?_, fun _ => ⟨r₁.reader, ?_, r₁', bind_eq_of_error herror, hreader⟩⟩
        · rw [List.length_cons] at hall
          omega
        · rw [Nat.sub_eq_zero_of_le hle, List.getElem?_cons_zero]
    · rw [if_neg htakes] at h ⊢
      rcases hresult' : m' r' with ⟨phase', r₁'⟩ | ⟨e', r₁'⟩ <;> rw [hresult'] at h
      · rw [bind_eq_of_ok hresult']
        exact hf hk h
      · exact h.elim
  · rw [bind_eq_of_error hresult]
    have hnot : (asks && completes (.error e r₁)) = false := Bool.and_false _
    rw [hnot, if_neg Bool.false_ne_true] at h
    rcases hresult' : m' r' with ⟨phase', r₁'⟩ | ⟨e', r₁'⟩ <;> rw [hresult'] at h
    · exact h.elim
    · rw [bind_eq_of_error hresult']
      exact meets_nil hk h

/-- The readings have come to the end of a term, and the terms correspond. -/
def Ended (args : List Term) (k : Nat) (t t' : Ref) (r r' : Reading) : Prop :=
  Alike args k [t] [t'] r r' ∧ r.begun = []

/-- **Any number of steps**, by what one step does. -/
theorem meets_steps (n : Nat) {phase phase' : ReadPhase} (hk : k ≤ args.length)
    (h : Phases args k phase phase' r r') :
    Meets args k (placeholders ops n phase r) (Ended args) (steps ops n phase r)
      (steps ops n phase' r') := by
  induction n generalizing k phase phase' r r' with
  | zero =>
    cases h with
    | whole h hbegun => exact meets_nil hk ⟨h, hbegun⟩
    | operand h => exact meets_nil hk ⟨rfl, nofun, h.reader⟩
    | complete priority h => exact meets_nil hk ⟨rfl, nofun, h.reader⟩
  | succ n ih =>
    have hstep := (answers_step ops h).meets hk ih
    cases h with
    | whole h hbegun => exact meets_nil hk ⟨h, hbegun⟩
    | operand => exact hstep
    | complete => exact hstep

/-- The whole term and the full stop after it. -/
theorem meets_term (h : Alike args 0 [] [] r r') :
    Meets args 0 (placeholders ops (8 * r.reader.lexer.input.length + 32) .operand r) (Ended args)
      (term ops r) (term ops r') := by
  have hsteps := meets_steps ops (8 * r.reader.lexer.input.length + 32) (Nat.zero_le args.length)
    (.operand h)
  have hlexer : r'.reader.lexer = r.reader.lexer := by
    rw [h.reader.eq]
  have hterm : ∀ r : Reading, term ops r = (do
      let t ← steps ops (8 * r.reader.lexer.input.length + 32) .operand
      expect .stop
      pure t : ReadM Ref) r := fun _ => rfl
  rw [hterm, hterm, hlexer]
  refine hsteps.bind fun k t t' r₁ r₁' hended => ?_
  refine (neutral_expect .stop).agrees hended.1 fun _ r₂ r₂' hstop h₂ => ⟨h₂, ?_⟩
  obtain ⟨reader, -, rfl⟩ := yields_expect.of_ok hstop
  exact hended.2

end Reading

/-! ## Calls -/

/-- Two calls agree: both fail with the same error, which is not that an argument is missing, both find that
there is no term, or both give a term, and the second term is the first one with the first `k` arguments in
place of placeholders.  What remains is related by `rest`. -/
inductive Agreed {ρ : Type} (rest : ρ → ρ → Prop) (args : List Term) (k : Nat) :
    Except ReadError (Option Ref) × ρ × Store → Except ReadError (Option Ref) × ρ × Store → Prop
  /-- The text does not read as a term. -/
  | fails {e : ReadError} {r r' : ρ} {s s' : Store} (he : ∀ p, e ≠ .missingArgument p) (hr : rest r r') :
    Agreed rest args k (.error e, r, s) (.error e, r', s')
  /-- Nothing is left. -/
  | ends {r r' : ρ} {s s' : Store} (hr : rest r r') :
    Agreed rest args k (.ok none, r, s) (.ok none, r', s')
  /-- There is a term. -/
  | gives {t t' : Ref} {r r' : ρ} {s s' : Store} (hr : rest r r')
    (h : Term.Substituted args k (s.snapshot t) (s'.snapshot t')) :
    Agreed rest args k (.ok (some t), r, s) (.ok (some t'), r', s')

/-- What remains may be put in something else. -/
theorem Agreed.map {ρ σ : Type} {rest : ρ → ρ → Prop} {rest' : σ → σ → Prop} {args : List Term} {k : Nat}
    {x x' : Except ReadError (Option Ref) × ρ × Store} (h : Agreed rest args k x x') (f : ρ → σ)
    (himp : ∀ r r', rest r r' → rest' (f r) (f r')) :
    Agreed rest' args k (x.1, f x.2.1, x.2.2) (x'.1, f x'.2.1, x'.2.2) := by
  cases h with
  | fails he hr => exact .fails he (himp _ _ hr)
  | ends hr => exact .ends (himp _ _ hr)
  | gives hr h => exact .gives (himp _ _ hr) h

theorem Agreed.rest {ρ : Type} {rest : ρ → ρ → Prop} {args : List Term} {k : Nat}
    {x x' : Except ReadError (Option Ref) × ρ × Store} (h : Agreed rest args k x x') :
    rest x.2.1 x'.2.1 := by
  cases h with
  | fails he hr => exact hr
  | ends hr => exact hr
  | gives hr h => exact hr

theorem Agreed.ne {ρ : Type} {rest : ρ → ρ → Prop} {args : List Term} {k : Nat}
    {x x' : Except ReadError (Option Ref) × ρ × Store} (h : Agreed rest args k x x') (p : Position) :
    x'.1 ≠ .error (.missingArgument p) := by
  cases h with
  | fails he hr => exact fun heq => he p (Except.error.inj heq)
  | ends hr => exact nofun
  | gives hr h => exact nofun

namespace TermReader

variable {args : List Term} {r r' : TermReader}

theorem Supplied.atEnd (h : r.Supplied args r') : r'.atEnd.1 = r.atEnd.1 ∧
    r.atEnd.2.Supplied args r'.atEnd.2 ∧ ∀ e, r.atEnd.1 = .error e → ∀ p, e ≠ .missingArgument p := by
  obtain ⟨lexer, ahead, placeholders, quotes⟩ := r
  obtain ⟨hplain, rfl⟩ := h
  cases ahead with
  | some token => exact ⟨rfl, ⟨hplain, rfl⟩, fun e he => by cases he⟩
  | none =>
    have hmet := Lexer.counts_atEnd lexer
    simp only [TermReader.atEnd, Option.isSome_none, Bool.false_eq_true, if_false]
    rcases hresult : Lexer.atEnd lexer with ⟨isEnd, lexer'⟩ | ⟨e, lexer'⟩
    · exact ⟨rfl, ⟨hplain, rfl⟩, fun e he => by cases he⟩
    · rw [hresult] at hmet
      refine ⟨rfl, ⟨hplain, rfl⟩, ?_⟩
      intro e' he
      cases he
      exact hmet.2.ne

/-- The placeholders met while the next term is read. -/
def placeholdersNext (ops : OperatorTable) (r : TermReader) (s : Store) : List TermReader :=
  match r.atEnd with
  | (.error _, _) => []
  | (.ok true, _) => []
  | (.ok false, r) => Reading.placeholders ops (8 * r.lexer.input.length + 32) .operand (r.beginning s)

/-- **The next term of two readers**, of which only the second replaces placeholders. -/
theorem Supplied.next? (h : r.Supplied args r') (ops : OperatorTable) (s s' : Store) :
    ((r.placeholdersNext ops s).length ≤ args.length →
      Agreed (Supplied (args.drop (r.placeholdersNext ops s).length)) args
        (r.placeholdersNext ops s).length (r.next? ops s) (r'.next? ops s')) ∧
    (args.length < (r.placeholdersNext ops s).length →
      ∃ m, (r.placeholdersNext ops s)[args.length]? = some m ∧
        (r'.next? ops s').1 = .error (.missingArgument m.lexer.position) ∧
        (r'.next? ops s').2.1.placeholders = some []) := by
  obtain ⟨hsame, hsupplied, hne⟩ := h.atEnd
  rw [placeholdersNext, TermReader.next?, TermReader.next?]
  rcases hend : r.atEnd with ⟨e | isEnd, r₁⟩ <;> rcases hend' : r'.atEnd with ⟨x, r₁'⟩ <;>
    rw [hend, hend'] at hsame hsupplied <;> rw [hend] at hne <;> dsimp only at hsame hsupplied hne ⊢ <;>
    subst hsame
  · exact ⟨fun _ => .fails (hne e rfl) hsupplied, fun hlt => absurd hlt (Nat.not_lt_zero _)⟩
  cases isEnd with
  | true => exact ⟨fun _ => .ends hsupplied, fun hlt => absurd hlt (Nat.not_lt_zero _)⟩
  | false =>
    have hbegin : Reading.Alike args 0 [] [] (r₁.beginning s) (r₁'.beginning s') :=
      ⟨hsupplied, .cons (.expression 1200) .nil, [], .nil, .nil, .nil, rfl, .nil args⟩
    obtain ⟨henough, hmissing⟩ := Reading.meets_term ops hbegin
    rw [Nat.zero_add] at henough hmissing
    dsimp only
    rw [read_eq, read_eq]
    constructor
    · intro hle
      have hagrees := henough hle
      rcases hresult : Reading.term ops (r₁.beginning s) with ⟨t, reading⟩ | ⟨e, reading⟩ <;>
        rcases hresult' : Reading.term ops (r₁'.beginning s') with ⟨t', reading'⟩ | ⟨e', reading'⟩ <;>
        rw [hresult, hresult'] at hagrees
      · obtain ⟨⟨hreader, hbegun, os, hcommon⟩, hnil⟩ := hagrees
        obtain ⟨reader, s, names, begun⟩ := reading
        obtain ⟨reader', s', names', begun'⟩ := reading'
        obtain rfl : begun = [] := hnil
        cases hbegun
        exact .gives hreader hcommon.substituted
      · exact hagrees.elim
      · exact hagrees.elim
      · obtain ⟨rfl, he, hreader⟩ := hagrees
        exact .fails he hreader
    · intro hlt
      obtain ⟨m, hm, reading, herror, hreader⟩ := hmissing hlt
      rw [herror]
      exact ⟨m, hm, rfl, congrArg placeholders hreader⟩

end TermReader

/-! ## Texts -/

namespace TermSource

variable {args : List Term} {source source' : TermSource}

/-- The second source is the first one, which replaces no placeholders, with the arguments `rest` for them. -/
structure Supplied (rest : List Term) (source source' : TermSource) : Prop where
  /-- The first source replaces no placeholders. -/
  plain : source.reader.placeholders = none
  /-- The second one does. -/
  eq : source' = { source with reader := { source.reader with placeholders := some rest } }

/-- The source without arguments for the placeholders. -/
def plain (source : TermSource) : TermSource :=
  { source with reader := { source.reader with placeholders := none } }

theorem supplied_plain {rest : List Term} (h : source.reader.placeholders = some rest) :
    source.plain.Supplied rest source := by
  obtain ⟨name, ⟨lexer, ahead, placeholders, quotes⟩, atStart⟩ := source
  obtain rfl : placeholders = some rest := h
  exact ⟨rfl, rfl⟩

/-- Both sources begin, or neither does. -/
theorem Supplied.started (h : source.Supplied args source') :
    (∃ fault, source.started = .error (.input fault) ∧ source'.started = .error (.input fault)) ∨
      ∃ source₁ source₁' : TermSource, source.started = .ok source₁ ∧ source'.started = .ok source₁' ∧
        source₁.Supplied args source₁' := by
  obtain ⟨name, reader, atStart⟩ := source
  obtain ⟨hplain, rfl⟩ := h
  cases atStart with
  | false => exact .inr ⟨_, _, rfl, rfl, hplain, rfl⟩
  | true =>
    rw [TermSource.started, TermSource.started, if_pos rfl, if_pos rfl]
    dsimp only
    cases reader.lexer.input.dropShebang with
    | error fault => exact .inl ⟨fault, rfl, rfl⟩
    | ok rest => exact .inr ⟨_, _, rfl, rfl, hplain, rfl⟩

/-- The placeholders met while the next term is read. -/
def placeholders (source : TermSource) (ops : OperatorTable) (s : Store) : List TermReader :=
  match source.started with
  | .error _ => []
  | .ok source => source.reader.placeholdersNext ops s

/-- **The next term of two sources**, of which only the second replaces placeholders. -/
theorem Supplied.next? (h : source.Supplied args source') (ops : OperatorTable) (s s' : Store) :
    ((source.placeholders ops s).length ≤ args.length →
      Agreed (Supplied (args.drop (source.placeholders ops s).length)) args
        (source.placeholders ops s).length (source.next? ops s) (source'.next? ops s')) ∧
    (args.length < (source.placeholders ops s).length →
      ∃ m, (source.placeholders ops s)[args.length]? = some m ∧
        (source'.next? ops s').1 = .error (.missingArgument m.lexer.position) ∧
        (source'.next? ops s').2.1.reader.placeholders = some []) := by
  rw [placeholders, TermSource.next?, TermSource.next?]
  rcases h.started with ⟨fault, hfault, hfault'⟩ | ⟨source₁, source₁', hok, hok', h₁⟩
  · rw [hfault, hfault']
    have hne : ∀ p, ReadError.input fault ≠ .missingArgument p := fun p hp => by cases hp
    exact ⟨fun _ => .fails hne h, fun hlt => absurd hlt (Nat.not_lt_zero _)⟩
  · obtain ⟨hplain, rfl⟩ := h₁
    have hreader : source₁.reader.Supplied args { source₁.reader with placeholders := some args } :=
      ⟨hplain, rfl⟩
    obtain ⟨henough, hmissing⟩ := hreader.next? ops s s'
    rw [hok, hok']
    dsimp only
    refine ⟨fun hle => (henough hle).map (fun reader => { source₁ with reader }) ?_, hmissing⟩
    rintro r r' ⟨hr, rfl⟩
    exact ⟨hr, rfl⟩

/-- Whether arguments are missing: if and only if there are fewer than the call meets placeholders. -/
theorem Supplied.missing_iff (h : source.Supplied args source') (ops : OperatorTable) (s s' : Store) :
    (∃ p, (source'.next? ops s').1 = .error (.missingArgument p)) ↔
      args.length < (source.placeholders ops s).length := by
  obtain ⟨henough, hmissing⟩ := h.next? ops s s'
  constructor
  · rintro ⟨p, hp⟩
    exact Nat.lt_of_not_le fun hle => (henough hle).ne p hp
  · intro hlt
    obtain ⟨m, -, hm, -⟩ := hmissing hlt
    exact ⟨_, hm⟩

/-- A call of a source that replaces placeholders gives one that does. -/
theorem Supplied.exists_rest (h : source.Supplied args source') (ops : OperatorTable) (s : Store) :
    ∃ rest, (source'.next? ops s).2.1.reader.placeholders = some rest := by
  obtain ⟨henough, hmissing⟩ := h.next? ops s s
  rcases Nat.lt_or_ge args.length (source.placeholders ops s).length with hlt | hle
  · obtain ⟨m, -, -, hrest⟩ := hmissing hlt
    exact ⟨[], hrest⟩
  · exact ⟨_, congrArg (·.reader.placeholders) (henough hle).rest.eq⟩

/-- What a source becomes when terms are read from it, each with the operators and into the store given. -/
def after (source : TermSource) : List (OperatorTable × Store) → TermSource
  | [] => source
  | (ops, s) :: calls => (source.next? ops s).2.1.after calls

/-- The placeholders that are met on the way. -/
def placeholdersBefore (source : TermSource) : List (OperatorTable × Store) → List TermReader
  | [] => []
  | (ops, s) :: calls => source.placeholders ops s ++ (source.next? ops s).2.1.placeholdersBefore calls

/-- The source goes on replacing placeholders, whatever comes of the calls. -/
theorem exists_rest_after (calls : List (OperatorTable × Store))
    (h : ∃ rest, source.reader.placeholders = some rest) :
    ∃ rest, (source.after calls).reader.placeholders = some rest := by
  induction calls generalizing source with
  | nil => exact h
  | cons call calls ih =>
    obtain ⟨rest, hrest⟩ := h
    exact ih ((supplied_plain hrest).exists_rest call.1 call.2)

/-- **Any number of calls** of the two sources, with the same operators and for each of them its own stores.
As long as there are enough arguments, the sources stay at the same place. -/
theorem Supplied.after (h : source.Supplied args source')
    (calls : List (OperatorTable × Store × Store))
    (henough : (source.placeholdersBefore (calls.map fun c => (c.1, c.2.1))).length ≤ args.length) :
    (source.after (calls.map fun c => (c.1, c.2.1))).Supplied
      (args.drop (source.placeholdersBefore (calls.map fun c => (c.1, c.2.1))).length)
      (source'.after (calls.map fun c => (c.1, c.2.2))) := by
  induction calls generalizing args source source' with
  | nil => exact h
  | cons call calls ih =>
    obtain ⟨ops, s, s'⟩ := call
    rw [List.map_cons, placeholdersBefore, List.length_append] at henough
    have hrest := ((h.next? ops s s').1 (Nat.le_of_add_right_le henough)).rest
    rw [List.map_cons, placeholdersBefore, List.length_append, ← List.drop_drop]
    refine ih hrest ?_
    rw [List.length_drop]
    exact Nat.le_sub_of_add_le' henough

/-- **Placeholders are replaced after parsing.**  A text is read twice, term by term, with the same operators:
once without replacing placeholders, and once with the arguments `args` for them.  `before` are the
placeholders that the first reading has met in the terms before, and `now` those that it meets in the next
one.

As long as there are enough arguments, the second reading is at the same place with the remaining ones, and
both fail with the same error, find that nothing is left, or give a term.  The second term is then the first
one with the next arguments in place of the placeholders, up to the choice of variables.  Where there are not
enough, the second reading fails at the first placeholder without an argument.  It fails in this way whenever
it has fewer arguments left than there are placeholders in the text that it reads, and at no other time. -/
theorem placeholders_substituted (name : String) (input : Input) (quotes : DoubleQuotes)
    (args : List Term) (calls : List (OperatorTable × Store × Store)) (ops : OperatorTable)
    (s s' : Store) :
    let text (placeholders : Option (List Term)) : TermSource :=
      ⟨name, .ofInput input quotes placeholders, true⟩
    let first := (text none).after (calls.map fun c => (c.1, c.2.1))
    let second := (text (some args)).after (calls.map fun c => (c.1, c.2.2))
    let before := (text none).placeholdersBefore (calls.map fun c => (c.1, c.2.1))
    let now := first.placeholders ops s
    (before.length ≤ args.length → first.Supplied (args.drop before.length) second) ∧
    (before.length + now.length ≤ args.length →
      Agreed (Supplied (args.drop (before.length + now.length))) (args.drop before.length) now.length
        (first.next? ops s) (second.next? ops s')) ∧
    (before.length ≤ args.length → args.length < before.length + now.length →
      ∃ m, now[args.length - before.length]? = some m ∧
        (second.next? ops s').1 = .error (.missingArgument m.lexer.position)) ∧
    ∃ rest, second.reader.placeholders = some rest ∧
      ((∃ p, (second.next? ops s').1 = .error (.missingArgument p)) ↔
        rest.length < (second.plain.placeholders ops s).length) := by
  intro text first second before now
  have hstart : (text none).Supplied args (text (some args)) := ⟨rfl, rfl⟩
  have hsame : before.length ≤ args.length → first.Supplied (args.drop before.length) second :=
    hstart.after calls
  have hlength : (args.drop before.length).length = args.length - before.length := List.length_drop
  refine ⟨hsame, ?_, ?_, ?_⟩
  · intro hle
    have hbefore := hsame (Nat.le_of_add_right_le hle)
    have hnow : now.length ≤ (args.drop before.length).length := by
      rw [hlength]
      exact Nat.le_sub_of_add_le' hle
    rw [← List.drop_drop]
    exact (hbefore.next? ops s s').1 hnow
  · intro hbefore hlt
    have hnow : (args.drop before.length).length < now.length := by
      rw [hlength]
      exact Nat.sub_lt_left_of_lt_add hbefore hlt
    obtain ⟨m, hm, herror, -⟩ := ((hsame hbefore).next? ops s s').2 hnow
    rw [hlength] at hm
    exact ⟨m, hm, herror⟩
  · have hargs : ∃ rest, (text (some args)).reader.placeholders = some rest := ⟨args, rfl⟩
    obtain ⟨rest, hrest⟩ := exists_rest_after (calls.map fun c => (c.1, c.2.2)) hargs
    exact ⟨rest, hrest, (supplied_plain hrest).missing_iff ops s s'⟩

/-- In `?(?)`, the second name is a placeholder and the first one is not.  One argument is enough, and
without any the error has the place that the lexer has reached after the token behind the placeholder. -/
theorem placeholders_substituted_argument :
    let text (placeholders : Option (List Term)) : TermSource :=
      ⟨"text", .ofInput (.ofText "?(?).") .chars placeholders, true⟩
    Agreed (Supplied []) [.atom "a"] 1 ((text none).next? .standard {})
      ((text (some [.atom "a"])).next? .standard {}) ∧
    ((text (some [])).next? .standard {}).1 = .error (.missingArgument ⟨0, 4⟩) := by
  intro text
  have hmet : ((text none).placeholders .standard {}).map (·.lexer.position) = [⟨0, 4⟩] := by
    decide +kernel
  obtain ⟨-, henough, -⟩ :=
    placeholders_substituted "text" (.ofText "?(?).") .chars [.atom "a"] [] .standard {} {}
  obtain ⟨-, -, hmissing, -⟩ :=
    placeholders_substituted "text" (.ofText "?(?).") .chars [] [] .standard {} {}
  simp only [List.map_nil, after, placeholdersBefore, List.length_nil, Nat.zero_add, List.drop_zero]
    at henough hmissing
  generalize (text none).placeholders .standard {} = ms at hmet henough hmissing
  obtain ⟨m, rfl, hposition⟩ := List.map_eq_singleton_iff.mp hmet
  refine ⟨henough (Nat.le_refl 1), ?_⟩
  obtain ⟨m', hm', herror⟩ := hmissing (Nat.le_refl 0) Nat.one_pos
  obtain rfl : m = m' := Option.some.inj hm'
  rw [herror, hposition]

end TermSource

end Clausal
