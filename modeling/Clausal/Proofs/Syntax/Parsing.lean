import Clausal.Proofs.Syntax.Pending
import Clausal.Proofs.Syntax.Tokens

/-! # Terms are read as the grammar says

Reading keeps one invariant between its steps (`Reading.Parsed`): the constructs begun wait for the
expression that is read, and the tokens of the operand that is complete, if there is one, derive it at
a priority that it may have there.  Each function of the reader takes the tokens of what it gives, so
it is described by the tokens that were taken for the innermost expression before and after it
(`Reading.Awaits`).

The result is that what is read as a term is one (`TermReader.read_derives`): the tokens up to the full
stop have a derivation of at most priority 1200, and the tree of the derivation is the term.
-/

namespace Clausal

namespace Reading

open Store

-- No proof about codes should compute with the bounds of 64 bits.
attribute [local irreducible] Literal.ofInt

variable {ops : OperatorTable} {r₀ : TermReader} {r : Reading} {limit limit' p : Nat} {t : Ref}
  {x : Term} {name : String} {token : Token} {tokens tokens' : List Token}
  {occs occs' : Occurrences} {construct : Construct}

/-! ## The invariant -/

/-- The tokens were taken since the reader was `r₀`, and the variables in them are those of the
occurrences. -/
structure Holds (r₀ : TermReader) (tokens : List Token) (occs : Occurrences) (r : Reading) :
    Prop where
  /-- The tokens. -/
  reads : r₀.Reads tokens r.reader
  /-- The store is well formed. -/
  wellFormed : r.store.WellFormed
  /-- The variables. -/
  named : Named r.store r.names occs

/-- The innermost construct is an expression of at most priority `limit`, and the tokens are those
that were taken for it so far. -/
inductive Awaits (ops : OperatorTable) (r₀ : TermReader) (limit : Nat) (tokens : List Token)
    (occs : Occurrences) (r : Reading) : Prop
  /-- The constructs begun around the expression, and the tokens that were taken for them. -/
  | intro {begun : List Construct} {tokens' : List Token} {occs' : Occurrences}
    (hbegun : r.begun = .expression limit :: begun)
    (hwaits : Waits ops r₀.doubleQuotes r.store begun limit tokens' occs')
    (hholds : Holds r₀ (tokens' ++ tokens) (occs' ++ occs) r)

/-- The invariant of reading. -/
inductive Parsed (ops : OperatorTable) (r₀ : TermReader) : ReadPhase → Reading → Prop
  /-- An operand is awaited. -/
  | operand {limit : Nat} {r : Reading} (h : Awaits ops r₀ limit [] [] r) :
    Parsed ops r₀ .operand r
  /-- An operand is complete, and it is to be seen whether an operator follows. -/
  | given {limit p : Nat} {t : Ref} {tokens : List Token} {occs : Occurrences} {r : Reading}
    (h : Awaits ops r₀ limit tokens occs r)
    (hoperand : Operand ops r₀.doubleQuotes r.store t p tokens occs) (hp : p ≤ limit) :
    Parsed ops r₀ (.complete t p) r
  /-- An expression is complete. -/
  | expression {limit p : Nat} {t : Ref} {tokens : List Token} {occs : Occurrences} {r : Reading}
    (h : Awaits ops r₀ limit tokens occs { r with begun := .expression limit :: r.begun })
    (hoperand : Operand ops r₀.doubleQuotes r.store t p tokens occs) (hp : p ≤ limit) :
    Parsed ops r₀ (.complete t p) r
  /-- The whole term is complete. -/
  | whole {p : Nat} {t : Ref} {tokens : List Token} {occs : Occurrences} {r : Reading}
    (h : Holds r₀ tokens occs r)
    (hoperand : Operand ops r₀.doubleQuotes r.store t p tokens occs) (hp : p ≤ 1200) :
    Parsed ops r₀ (.whole t) r

theorem Awaits.reads (h : Awaits ops r₀ limit tokens occs r) :
    ∃ taken, r₀.Reads taken r.reader :=
  let ⟨_, _, hholds⟩ := h
  ⟨_, hholds.reads⟩

/-! ## Tokens -/

theorem awaits_nextToken (h : Awaits ops r₀ limit tokens occs r) : Yields r nextToken fun token r' =>
    ∃ reader, r' = { r with reader } ∧ r.reader.token? = some (token, reader) ∧ token.Canonical ∧
      Awaits ops r₀ limit (tokens ++ [token]) occs r' := by
  obtain ⟨hbegun, hwaits, hreads, hs, hnamed⟩ := h
  refine yields_nextToken.imp ?_ fun _ => id
  rintro token _ ⟨reader, htoken, rfl⟩
  refine ⟨reader, rfl, htoken, (hreads.sound.of_token? htoken).1, hbegun, hwaits, ?_, hs, hnamed⟩
  rw [← List.append_assoc]
  exact hreads.next htoken

theorem awaits_peekToken (h : Awaits ops r₀ limit tokens occs r) : Yields r peekToken fun token r' =>
    ∃ reader, r' = { r with reader } ∧ Awaits ops r₀ limit tokens occs r' ∧
      ∃ next, reader.token? = some (token, next) := by
  obtain ⟨hbegun, hwaits, hreads, hs, hnamed⟩ := h
  refine (yields_peekToken hreads).imp ?_ fun _ => id
  rintro token _ ⟨reader, rfl, hreads', hnext⟩
  exact ⟨reader, rfl, ⟨hbegun, hwaits, hreads', hs, hnamed⟩, hnext⟩

/-- The token that was looked at is taken. -/
theorem awaits_nextToken_of_token? (h : Awaits ops r₀ limit tokens occs r) {next : TermReader}
    (htoken : r.reader.token? = some (token, next)) : Yields r nextToken fun _ r' =>
      ∃ reader, r' = { r with reader } ∧ Awaits ops r₀ limit (tokens ++ [token]) occs r' := by
  refine (awaits_nextToken h).imp ?_ fun _ => id
  rintro token' r' ⟨reader, hr', htoken', -, h'⟩
  rw [htoken] at htoken'
  cases htoken'
  exact ⟨_, hr', h'⟩

theorem awaits_expect (h : Awaits ops r₀ limit tokens occs r) (token : Token) :
    Yields r (expect token) fun _ r' =>
      ∃ reader, r' = { r with reader } ∧ Awaits ops r₀ limit (tokens ++ [token]) occs r' := by
  refine (awaits_nextToken h).bind ?_
  rintro found r' ⟨reader, hr', -, -, h'⟩
  split
  · rename_i heq
    exact ⟨reader, hr', heq ▸ h'⟩
  · trivial

/-! ## Operands -/

/-- A construct is begun. -/
theorem parsed_enter (h : Awaits ops r₀ limit tokens occs r)
    (hconstruct : Begun ops r₀.doubleQuotes r.store limit construct limit' tokens occs) :
    Yields r (enter construct limit') (Parsed ops r₀) := by
  obtain ⟨hbegun, hwaits, hholds⟩ := h
  refine yields_modify (.operand ⟨congrArg _ (congrArg _ hbegun), hwaits.operand hconstruct, ?_⟩)
  rw [List.append_nil, List.append_nil]
  exact ⟨hholds.reads, hholds.wellFormed, hholds.named⟩

theorem awaits_building {f : Store → Ref × Store} (h : Awaits ops r₀ limit tokens occs r)
    (hmakes : r.store.WellFormed → Makes r.store (f r.store) x) :
    Yields r (building f) fun t r' =>
      Awaits ops r₀ limit tokens occs r' ∧ Denotes r'.store t x := by
  obtain ⟨hbegun, hwaits, hreads, hs, hnamed⟩ := h
  obtain ⟨hgrows, hs', hdenotes⟩ := hmakes hs
  exact ⟨⟨hbegun, hwaits.grow hs hgrows hs'.acyclic, hreads, hs', hnamed.grow hgrows⟩, hdenotes⟩

/-- The tokens that were taken are a term. -/
theorem parsed_complete {m : ReadM Ref}
    (h : Yields r m fun t r' => Awaits ops r₀ limit tokens occs r' ∧ Denotes r'.store t x)
    (hderives : Derives ops r₀.doubleQuotes p tokens x occs) (hp : p ≤ limit) :
    Yields r (do return .complete (← m) p) (Parsed ops r₀) :=
  h.bind fun _ _ ⟨h', hdenotes⟩ => .given h' ⟨x, hdenotes, hderives⟩ hp

theorem parsed_literal (h : Awaits ops r₀ limit tokens occs r) {l : Literal} (hl : l.Canonical)
    (hderives : Derives ops r₀.doubleQuotes 0 tokens (.literal l) occs) :
    Yields r (do return .complete (← building (·.literal l)) 0) (Parsed ops r₀) :=
  parsed_complete (awaits_building h fun hs => hs.makes_literal hl) hderives (Nat.zero_le _)

theorem parsed_atom (h : Awaits ops r₀ limit tokens [] r) (hname : Spells tokens name) :
    Yields r (do return .complete (← building (·.atom name)) 0) (Parsed ops r₀) :=
  parsed_literal h (l := .atom name) trivial (.name hname)

/-! ### Variables -/

theorem holds_variableNamed (h : Holds r₀ tokens occs r) (name : String) :
    Yields r (variableNamed name) fun t r' => r'.begun = r.begun ∧ Grows r.store r'.store [] ∧
      Holds r₀ tokens (occs ++ [(name, t)]) r' ∧
      Denotes r'.store t (.var ⟨t.index, sourceName name⟩) := by
  obtain ⟨hreads, hs, hnamed⟩ := h
  have hfresh : ∀ name, ∀ a ∈ occs, a.2 ≠ (r.store.var name).1 := fun name =>
    hnamed.ne_of_size_le (Nat.le_refl r.store.size)
  unfold variableNamed
  split
  · rename_i hname
    subst hname
    obtain ⟨hgrows, hs', hdenotes⟩ := hs.makes_var none
    refine ⟨rfl, hgrows, ⟨hreads, hs', ?_⟩, hdenotes⟩
    exact (hnamed.grow hgrows).anonymous (cell?_push_self r.store _) (hfresh none)
  · rename_i hname
    have hsource : sourceName name = some name := if_neg hname
    refine yields_get ?_
    rw [hsource]
    split
    · rename_i t hlookup
      have hcell := hnamed.cell (hnamed.occurs hlookup)
      refine ⟨rfl, .refl r.store, ⟨hreads, hs, hnamed.repeated hname hlookup⟩, ?_⟩
      exact ⟨index_lt_of_cell? hcell, hsource ▸ snapshot_of_free hcell⟩
    · rename_i hlookup
      obtain ⟨hgrows, hs', hdenotes⟩ := hs.makes_var (some name)
      refine ⟨rfl, hgrows, ⟨hreads, hs', ?_⟩, hdenotes⟩
      exact (hnamed.grow hgrows).first hname hlookup (cell?_push_self r.store _) (hfresh (some name))

theorem parsed_variableNamed (h : Awaits ops r₀ limit [.var name] [] r) :
    Yields r (do return .complete (← variableNamed name) 0) (Parsed ops r₀) := by
  obtain ⟨hbegun, hwaits, hholds⟩ := h
  refine (holds_variableNamed hholds name).bind fun t r' ⟨hbegun', hgrows, hholds', hdenotes⟩ => ?_
  have hwaits' := hwaits.grow hholds.wellFormed hgrows hholds'.wellFormed.acyclic
  rw [List.append_nil] at hholds'
  exact .given ⟨hbegun'.trans hbegun, hwaits', hholds'⟩ ⟨_, hdenotes, .var name t⟩ (Nat.zero_le _)

/-! ### Texts -/

/-- The list of the constants that the characters stand for. -/
theorem awaits_literals (h : Awaits ops r₀ limit tokens occs r) (constant : Char → Literal)
    (hconstant : ∀ c, (constant c).Canonical) (text : String) :
    Yields r (building fun s => let (ts, s) := s.literals (text.toList.map constant); s.list ts)
      fun t r' => Awaits ops r₀ limit tokens occs r' ∧
        Denotes r'.store t (.list (text.toList.map fun c => .literal (constant c))) := by
  refine awaits_building h fun hs => ?_
  have hmakes := hs.makes_literalList (text.toList.map constant)
    (List.forall_mem_map.mpr fun c _ => hconstant c)
  rw [List.map_map] at hmakes
  exact hmakes

theorem awaits_codeList (h : Awaits ops r₀ limit tokens occs r) (text : String) :
    Yields r (codeList text) fun t r' =>
      Awaits ops r₀ limit tokens occs r' ∧ Denotes r'.store t (codesTerm text) :=
  awaits_literals h _ (fun _ => Literal.ofInt_canonical _) text

theorem awaits_doubleQuoted (h : Awaits ops r₀ limit tokens occs r) (text : String) :
    Yields r (doubleQuoted text) fun t r' =>
      Awaits ops r₀ limit tokens occs r' ∧ Denotes r'.store t (r₀.doubleQuotes.term text) := by
  obtain ⟨taken, hreads⟩ := h.reads
  rw [← hreads.doubleQuotes]
  refine yields_get ?_
  rcases r.reader.doubleQuotes with _ | _ | _
  · exact awaits_literals h (fun c => .atom c.toString) (fun _ => trivial) text
  · exact awaits_codeList h text
  · exact awaits_building h fun hs => hs.makes_atom text

/-! ### Names -/

theorem limit_eq (h : Awaits ops r₀ limit tokens occs r) : Reading.limit r = .ok limit r := by
  obtain ⟨reader, store, names, begun⟩ := r
  obtain ⟨hbegun, -, -⟩ := h
  subst hbegun
  rfl

theorem awaits_startsOperand (h : Awaits ops r₀ limit tokens occs r) :
    Yields r (startsOperand ops) fun _ r' => Awaits ops r₀ limit tokens occs r' := by
  refine (awaits_peekToken h).bind ?_
  rintro token r' ⟨reader, -, h', -⟩
  split <;> exact h'

theorem parsed_plainName (h : Awaits ops r₀ limit tokens [] r) (hname : Spells tokens name) :
    Yields r (plainName name) (Parsed ops r₀) := by
  unfold plainName
  split
  · rename_i heq
    obtain ⟨taken, hreads⟩ := h.reads
    refine yields_get ?_
    rw [hreads.placeholders]
    exact parsed_atom h (heq ▸ hname)
  · exact parsed_atom h hname

theorem parsed_operatorOrName (h : Awaits ops r₀ limit tokens [] r) (hname : Spells tokens name) :
    Yields r (operatorOrName ops name) (Parsed ops r₀) := by
  unfold operatorOrName
  split
  · rename_i op hop
    rw [Yields, bind_eq_of_ok (limit_eq h)]
    split
    · rename_i hlimit
      refine (awaits_startsOperand h).bind fun starts r' h' => ?_
      split
      · exact parsed_enter h' (.before hname hop hlimit)
      · exact parsed_plainName h' hname
    · exact parsed_plainName h hname
  · exact parsed_plainName h hname

theorem parsed_nameOperand (h : Awaits ops r₀ limit tokens [] r) (hname : Spells tokens name) :
    Yields r (nameOperand ops name) (Parsed ops r₀) := by
  refine (awaits_peekToken h).bind ?_
  rintro token _ ⟨reader, rfl, h', next, hnext⟩
  split
  · exact (awaits_nextToken_of_token? h' hnext).bind fun _ _ ⟨_, _, h''⟩ =>
      parsed_enter h'' (.args hname .nil)
  · rename_i l
    split
    · rename_i hminus
      obtain ⟨hminus, hl⟩ := Bool.and_eq_true_iff.mp hminus
      obtain rfl := (of_decide_eq_true hminus : name = "-")
      obtain rfl := hname.eq_of_minus
      exact (awaits_nextToken_of_token? h' hnext).bind fun _ _ ⟨_, _, h''⟩ =>
        parsed_literal h'' (Literal.neg_canonical l) (.minus hl)
    · exact parsed_operatorOrName h' hname
  · exact parsed_operatorOrName h' hname

theorem parsed_beginOperand (h : Awaits ops r₀ limit [] [] r) :
    Yields r (beginOperand ops) (Parsed ops r₀) := by
  refine (awaits_nextToken h).bind ?_
  rintro token r' ⟨reader, -, -, hcanonical, h'⟩
  rw [List.nil_append] at h'
  split
  · exact parsed_nameOperand h' (.name _)
  · rename_i l hl
    have hnumber : l.isNumber := by
      cases l with
      | atom name => exact absurd rfl (hl name)
      | small n | big n | float x => rfl
    exact parsed_literal h' hcanonical (.number hnumber)
  · exact parsed_variableNamed h'
  · exact parsed_complete (awaits_doubleQuoted h' _) (.quoted _) (Nat.zero_le _)
  · exact parsed_complete (awaits_codeList h' _) (.backQuoted _) (Nat.zero_le _)
  · exact parsed_enter h' (.group (.inl rfl))
  · exact parsed_enter h' (.group (.inr rfl))
  · refine (awaits_peekToken h').bind ?_
    rintro token _ ⟨reader, rfl, h'', next, hnext⟩
    split
    · rename_i hclose
      subst hclose
      exact (awaits_nextToken_of_token? h'' hnext).bind fun _ _ ⟨_, _, h₃⟩ =>
        parsed_nameOperand h₃ .list
    · exact parsed_enter h'' (.list .nil)
  · refine (awaits_peekToken h').bind ?_
    rintro token _ ⟨reader, rfl, h'', next, hnext⟩
    split
    · rename_i hclose
      subst hclose
      exact (awaits_nextToken_of_token? h'' hnext).bind fun _ _ ⟨_, _, h₃⟩ =>
        parsed_nameOperand h₃ .braces
    · exact parsed_enter h'' .curly
  · trivial

/-! ## Constructs -/

/-- The next token is an operator that continues an expression of at most priority `limit` after an
operand of the given priority. -/
structure Continuation (ops : OperatorTable) (limit p : Nat) (reader : TermReader) (name : String)
    (fixity : Fixity) (op : Operator) : Prop where
  /-- The token. -/
  joins : ∃ token next, reader.token? = some (token, next) ∧ Joins token name
  /-- The operator stands after its operand or between its operands. -/
  position : fixity = .between ∨ fixity = .after
  /-- The definition. -/
  defined : ops.find? name fixity = some op
  /-- The expression may have its priority. -/
  le_limit : op.priority ≤ limit
  /-- The operand may stand on its left. -/
  le_leftMax : p ≤ op.leftMax

theorem yields_continuation? (h : r₀.Reads tokens r.reader) (limit p : Nat) :
    Yields r (continuation? ops limit p) fun found r' =>
      ∃ reader, r' = { r with reader } ∧ r₀.Reads tokens reader ∧
        ∀ name fixity op, found = some (name, fixity, op) →
          Continuation ops limit p reader name fixity op := by
  refine (yields_peekToken h).bind ?_
  rintro token _ ⟨reader, rfl, hreads, next, hnext⟩
  refine ⟨reader, rfl, hreads, fun name fixity op hfound => ?_⟩
  obtain ⟨name', hname, hfound⟩ := Option.bind_eq_some_iff.mp hfound
  obtain ⟨fixity', hfixity, hfound⟩ := List.exists_of_findSome?_eq_some hfound
  obtain ⟨op', hop, hfound⟩ := Option.bind_eq_some_iff.mp hfound
  split at hfound
  · rename_i hle
    cases hfound
    obtain ⟨hlimit, hleft⟩ := Bool.and_eq_true_iff.mp hle
    refine ⟨⟨token, next, hnext, ?_⟩, by simpa using hfixity, hop, of_decide_eq_true hlimit,
      of_decide_eq_true hleft⟩
    split at hname <;> cases hname
    · exact .name _
    · exact .comma
    · exact .bar
  · cases hfound

theorem parsed_giveExpression (hops : ops.Coherent)
    (h : Awaits ops r₀ limit tokens occs { r with begun := .expression limit :: r.begun })
    (hoperand : Operand ops r₀.doubleQuotes r.store t p tokens occs) (hp : p ≤ limit) :
    Yields r (giveExpression ops limit t p) (Parsed ops r₀) := by
  obtain ⟨hbegun, hwaits, hreads, hs, hnamed⟩ := h
  refine (yields_continuation? (r := r) hreads limit p).bind ?_
  rintro found _ ⟨reader, rfl, hreads', hfound⟩
  -- An operator that follows is taken for the expression, which stays begun.
  have hnext : ∀ {token next}, reader.token? = some (token, next) →
      Awaits ops r₀ limit (tokens ++ [token]) occs
        ⟨next, r.store, r.names, .expression limit :: r.begun⟩ := fun htoken =>
    ⟨hbegun, hwaits, ⟨by rw [← List.append_assoc]; exact hreads'.next htoken, hs, hnamed⟩⟩
  split
  · exact .expression ⟨hbegun, hwaits, hreads', hs, hnamed⟩ hoperand hp
  · rename_i name op
    obtain ⟨⟨token, next, htoken, hname⟩, -, hop, hlimit, hleft⟩ := hfound _ _ _ rfl
    refine yields_nextToken.bind ?_
    rintro token' _ ⟨next', htoken', rfl⟩
    cases htoken.symm.trans htoken'
    exact yields_modify (parsed_enter (hnext htoken) (.between hname hop hlimit hoperand hleft))
  · rename_i name fixity op hfixity
    obtain ⟨⟨token, next, htoken, hname⟩, hcases, hop, hlimit, hleft⟩ := hfound _ _ _ rfl
    obtain rfl := hcases.resolve_left fun heq => hfixity heq
    obtain ⟨hafter, hpos⟩ := hops.of_find? hop
    obtain ⟨x, hx, hderives⟩ := hoperand
    refine yields_nextToken.bind ?_
    rintro token' _ ⟨next', htoken', rfl⟩
    cases htoken.symm.trans htoken'
    have hbuilt := awaits_building (f := (·.apply name [t])) (hnext htoken) fun hs =>
      hs.makes_apply name (.cons hx .nil) (List.cons_ne_nil t [])
    have hallows := op.allowsLeft_of_le hpos (hafter ▸ nofun) hleft
    exact .given hbuilt.1 ⟨_, hbuilt.2, .after hname hop hderives hallows⟩ hlimit

/-- A construct whose operands are complete. -/
theorem parsed_apply (h : Awaits ops r₀ limit tokens occs r) {ts : List Ref} {xs : List Term}
    (hts : DenotesAll r.store ts xs) (hne : ts ≠ [])
    (hderives : Derives ops r₀.doubleQuotes p tokens (.compound name xs) occs) (hp : p ≤ limit) :
    Yields r (do return .complete (← building (·.apply name ts)) p) (Parsed ops r₀) :=
  parsed_complete (awaits_building h fun hs => hs.makes_apply name hts hne) hderives hp

theorem parsed_giveOperand (hops : ops.Coherent)
    (h : Awaits ops r₀ limit (tokens ++ tokens') (occs ++ occs') r)
    (hconstruct : Begun ops r₀.doubleQuotes r.store limit construct limit' tokens occs)
    (hoperand : Operand ops r₀.doubleQuotes r.store t p tokens' occs') (hp : p ≤ limit') :
    Yields r (giveOperand ops construct t p) (Parsed ops r₀) := by
  cases hconstruct with
  | before hname hop hlimit =>
    obtain ⟨x, hx, hderives⟩ := hoperand
    obtain ⟨hbefore, hpos⟩ := hops.of_find? hop
    have hallows := Operator.allowsRight_of_le hpos (hbefore ▸ nofun) hp
    exact parsed_apply h (.cons hx .nil) (List.cons_ne_nil t [])
      (.before hname hop hderives hallows) hlimit
  | between hname hop hlimit hleft hp' =>
    obtain ⟨x, hx, hderives⟩ := hleft
    obtain ⟨y, hy, hderives'⟩ := hoperand
    obtain ⟨hbetween, hpos⟩ := hops.of_find? hop
    have hallows := Operator.allowsLeft_of_le hpos (hbetween ▸ nofun) hp'
    have hallows' := Operator.allowsRight_of_le hpos (hbetween ▸ nofun) hp
    rw [List.append_assoc, List.singleton_append] at h
    exact parsed_apply h (.cons hx (.cons hy .nil)) (List.cons_ne_nil _ _)
      (.between hname hop hderives hallows hderives' hallows') hlimit
  | @args name items spelled given _ hname hitems =>
    have hall := hitems.give hoperand hp
    rw [List.append_assoc, List.cons_append] at h
    refine (awaits_nextToken h).bind ?_
    rintro token _ ⟨reader, rfl, -, -, h'⟩
    split
    · rw [List.append_assoc, List.cons_append] at h'
      exact parsed_enter h' (.args hname (.comma hall))
    · obtain ⟨xs, hxs, hderives⟩ := hall
      exact parsed_apply h' hxs (by simp) (.compound hname hderives) (Nat.zero_le _)
    · trivial
  | group hbracket =>
    obtain ⟨x, hx, hderives⟩ := hoperand
    refine (awaits_expect h .close).bind ?_
    rintro _ _ ⟨reader, rfl, h'⟩
    exact .given h' ⟨x, hx, .group hbracket hderives hp⟩ (Nat.zero_le _)
  | list hitems =>
    have hall := hitems.give hoperand hp
    rw [List.cons_append] at h
    refine (awaits_nextToken h).bind ?_
    rintro token _ ⟨reader, rfl, -, -, h'⟩
    split
    · rw [List.cons_append] at h'
      exact parsed_enter h' (.list (.comma hall))
    · exact parsed_enter h' (.listTail hall)
    · obtain ⟨xs, hxs, hderives⟩ := hall
      exact parsed_complete (awaits_building h' fun hs => hs.makes_list hxs) (.list hderives)
        (Nat.zero_le _)
    · trivial
  | @listTail items given _ hitems =>
    obtain ⟨xs, hxs, hderives⟩ := hitems
    obtain ⟨x, hx, hderives'⟩ := hoperand
    rw [List.append_assoc, List.singleton_append] at h
    refine (awaits_expect h .closeList).bind ?_
    rintro _ _ ⟨reader, rfl, h'⟩
    exact parsed_complete (awaits_building h' fun hs => hs.makes_partialList hxs hx)
      (.listTail hderives hderives' hp) (Nat.zero_le _)
  | curly =>
    obtain ⟨x, hx, hderives⟩ := hoperand
    refine (awaits_expect h .closeCurly).bind ?_
    rintro _ _ ⟨reader, rfl, h'⟩
    exact parsed_apply h' (.cons hx .nil) (List.cons_ne_nil t []) (.curly hderives hp)
      (Nat.zero_le _)

/-! ## Steps -/

/-- **Every step of reading keeps the invariant.** -/
theorem parsed_step (hops : ops.Coherent) {phase : ReadPhase} (h : Parsed ops r₀ phase r) :
    Yields r (step ops phase) (Parsed ops r₀) := by
  obtain ⟨reader, store, names, begun⟩ := r
  cases h with
  | operand h => exact parsed_beginOperand h
  | given h hoperand hp =>
    obtain ⟨hbegun, hwaits, hholds⟩ := h
    subst hbegun
    exact parsed_giveExpression hops ⟨rfl, hwaits, hholds⟩ hoperand hp
  | expression h hoperand hp =>
    obtain ⟨hbegun, hwaits, hholds⟩ := h
    cases hbegun
    -- The expression was begun for the whole term or for an operand of a construct, and goes there.
    cases hwaits with
    | whole => exact .whole ⟨hholds.reads, hholds.wellFormed, hholds.named⟩ hoperand hp
    | operand hwaits hconstruct =>
      rw [List.append_assoc, List.append_assoc] at hholds
      refine parsed_giveOperand hops ⟨rfl, hwaits, ?_⟩ hconstruct hoperand hp
      exact ⟨hholds.reads, hholds.wellFormed, hholds.named⟩
  | whole h hoperand hp => exact .whole h hoperand hp

theorem parsed_steps (hops : ops.Coherent) (n : Nat) {phase : ReadPhase}
    (h : Parsed ops r₀ phase r) : Yields r (steps ops n phase) fun t => Parsed ops r₀ (.whole t) := by
  induction n generalizing r phase with
  | zero =>
    cases phase with
    | operand | complete t p => trivial
    | whole t => exact h
  | succ n ih =>
    cases phase with
    | whole t => exact h
    | operand | complete t p => exact (parsed_step hops h).bind fun _ _ => ih

/-- **What is read as a term derives it.** -/
theorem parsed_term (hops : ops.Coherent) (h : Parsed ops r₀ .operand r) :
    Yields r (term ops) fun t r' => ∃ tokens p occs, r₀.Takes (tokens ++ [.stop]) r'.reader ∧
      p ≤ 1200 ∧ Operand ops r₀.doubleQuotes r'.store t p tokens occs ∧
      Named r'.store r'.names occs := by
  refine yields_get ((parsed_steps hops _ h).bind ?_)
  rintro t r' (_ | _ | _ | ⟨hholds, hoperand, hp⟩)
  refine yields_expect.bind ?_
  rintro _ _ ⟨reader, htoken, rfl⟩
  exact ⟨_, _, _, hholds.reads.takes_of_token? htoken, hp, hoperand, hholds.named⟩

end Reading

namespace TermReader

variable {ops : OperatorTable} {reader reader' : TermReader} {s s' : Store} {t : Ref}

/-- **What is read as a term is one.**  The tokens up to the full stop derive the term at a priority of
at most 1200, and two variables among them stand for one cell exactly if they have one name other than
the underscore. -/
theorem read_derives (hops : ops.Reachable) (hreader : reader.Sound)
    (hplaceholders : reader.placeholders = none) (hs : s.WellFormed)
    (hread : reader.read ops s = (.ok t, reader', s')) :
    ∃ tokens p occs, reader.Takes (tokens ++ [.stop]) reader' ∧ p ≤ 1200 ∧
      Derives ops reader.doubleQuotes p tokens (s'.snapshot t) occs ∧
      occs.map (·.1) = tokens.filterMap Token.variable? ∧
      occs.Pairwise fun a b => a.2 = b.2 ↔ a.1 = b.1 ∧ a.1 ≠ "_" := by
  have hstart : Reading.Parsed ops reader .operand
      { reader, store := s, begun := [.expression 1200] } :=
    .operand ⟨rfl, .whole, .refl hreader hplaceholders, hs, Reading.named_nil s⟩
  have hterm := Reading.parsed_term hops.coherent hstart
  rw [read] at hread
  split at hread
  · rename_i t r hok
    cases hread
    obtain ⟨tokens, p, occs, htakes, hp, ⟨x, hx, hderives⟩, hnamed⟩ := hterm.of_ok hok
    rw [← hx.eq] at hderives
    exact ⟨tokens, p, occs, htakes, hp, hderives, hderives.variables, hnamed.apart⟩
  · cases hread

/-- The text reads as an equation between a variable and a compound that has the variable in it. -/
theorem read_derives_equation :
    let reader := ofInput (.ofText "X = f(Y, X).")
    ∃ reader' s', reader.read .standard {} = (.ok ⟨3⟩, reader', s') ∧
      ∃ tokens p occs, reader.Takes (tokens ++ [.stop]) reader' ∧ p ≤ 1200 ∧
        Derives .standard .chars p tokens (s'.snapshot ⟨3⟩) occs ∧
        occs.map (·.1) = tokens.filterMap Token.variable? ∧
        occs.Pairwise fun a b => a.2 = b.2 ↔ a.1 = b.1 ∧ a.1 ≠ "_" := by
  intro reader
  have hr : (reader.read .standard {}).1 = .ok ⟨3⟩ := by decide +kernel
  rcases hread : reader.read .standard {} with ⟨result, reader', s'⟩
  obtain rfl : result = .ok ⟨3⟩ := by rw [← hr, hread]
  exact ⟨reader', s', rfl, read_derives .standard (sound_ofInput _ _ nofun) rfl
    Store.wellFormed_empty hread⟩

end TermReader

end Clausal
