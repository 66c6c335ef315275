import Clausal.Proofs.Syntax.Legibility

/-! # What is written is read back

The pieces of a legible term give tokens that are a phrase for it, whatever comes after them that leaves
the operators in it their operands (`TermWriter.Worded`).  This is shown for each form in which a compound
is written, and then for all terms (`TermWriter.wording_compound`).

So the text of a legible term is read back as the term, under the standard operators
(`TermWriter.legible_reads_back`).  Without operators every term is legible, and its text is read back under
every table of operators, as long as a comma and a bar are no operators within arguments
(`TermWriter.reads_back`).
-/

namespace Clausal

namespace TermWriter

open Piece (Lays Edge)

variable {w : TermWriter} {ops : OperatorTable} {op : Operator} {limit : Nat} {spot : Spot}
  {name : String} {x y : Term} {xs : List Term} {ps : List Piece} {token : Token}

/-! ## Pieces -/

/-- Where something is written that ends in no operand, the pieces are laid out as tokens that are a phrase
for the term.  The given token comes first after layout. -/
def Worded (ops : OperatorTable) (limit : Nat) (spot : Spot) (ps : List Piece) (token : Token)
    (x : Term) : Prop :=
  ∀ e, e ≠ Edge.operand → ∃ tokens p e', p ≤ limit ∧ Lays e ps tokens e' ∧
    (e = .layout → tokens.head? = some token) ∧
    ∀ next, ops.Closes limit next → (ops.starts next = true → spot.followed = true) →
      Phrase ops spot.room p next tokens x

/-- The pieces are laid out as the arguments of a name. -/
def WordedAll (ops : OperatorTable) (ps : List Piece) (xs : List Term) : Prop :=
  ∀ e, e ≠ Edge.operand → ∃ tokens e', Lays e ps tokens e' ∧ PhraseAll ops tokens xs

/-- After an item, the pieces are laid out as the rest of a list. -/
def WordedTail (ops : OperatorTable) (ps : List Piece) (y : Term) : Prop :=
  ∀ e, ∃ next tokens e', Lays e ps tokens e' ∧ PhraseTail ops next tokens y

-- What is said of the constants below does not depend on their representation.
attribute [local irreducible] Literal.ofInt

theorem worded_natural (n : Nat) :
    Worded ops limit spot [.token (toString n)] (.literal (.ofInt n)) (.int n) := by
  intro e he
  refine ⟨_, 0, _, Nat.zero_le _, .operand he (Lexer.lexeme_natural n) (.nil _), fun _ => rfl, ?_⟩
  intro next _ _
  exact .number (Literal.isNumber_ofInt n) (Literal.ofInt_canonical n)

theorem worded_negative (n : Nat) :
    Worded ops limit spot [.token (toString (Int.negSucc n))] (.literal (.atom "-"))
      (.int (Int.negSucc n)) := by
  intro e he
  refine ⟨_, 0, _, Nat.zero_le _, .operand he (Lexer.lexeme_negative n) (.nil _), fun _ => rfl, ?_⟩
  intro next _ _
  have hphrase : Phrase ops spot.room 0 next _ _ := .minus (Literal.isNumber_ofInt (n + 1 : Nat))
  rw [Literal.neg_ofInt] at hphrase
  exact hphrase

theorem worded_name (hop : spot.followed = true → ∀ op, ops.find? name .before = some op →
      ¬ op.priority ≤ spot.room) :
    Worded ops limit spot [.token (Text.quotedName name)] (.ofName name) (.atom name) := by
  intro e he
  obtain ⟨rest, hspelling⟩ := Token.exists_spelling name
  refine ⟨_, 0, _, Nat.zero_le _, .operand he (Lexer.lexeme_name name) (.nil _), fun _ => ?_, ?_⟩
  · rw [hspelling]
    rfl
  · intro next hcloses hstarts
    rw [List.append_nil]
    refine .name (Token.spells_spelling name) (hcloses.detached name) fun op hfind hroom => ?_
    rw [Bool.eq_false_iff]
    exact fun hnext => hop (hstarts hnext) op hfind hroom

theorem lays_closing {e : Edge} {text : String} {c : Char} {t : Token} (htext : text.toList = [c])
    (hc : ∀ b, Lexer.punctuation? c b = some t) : Lays e [.plain text] [t] .mark :=
  .mark htext (hc _) (.nil _)

theorem worded_enclosed (h : Worded ops 1200 .inner ps token x) :
    Worded ops limit spot (.plain "(" :: (ps ++ [.plain ")"])) .openGroup x := by
  intro e he
  obtain ⟨tokens, p, e', -, hlays, -, hphrase⟩ := h .mark nofun
  have hopen : Lexer.punctuation? '(' e.isLayout =
      some (if e.isLayout then .openGroup else .openArgs) := rfl
  have hclose : Lays .mark (ps ++ [.plain ")"]) (tokens ++ [.close]) .mark :=
    hlays.append (lays_closing (c := ')') rfl fun b => by cases b <;> rfl)
  refine ⟨_, 0, _, Nat.zero_le _, .mark rfl hopen hclose, ?_, ?_⟩
  · rintro rfl
    rfl
  · intro next _ _
    refine .group ?_ (hphrase .close (OperatorTable.closes_closing (by simp)) nofun)
    cases e.isLayout with
    | true => exact .inl rfl
    | false => exact .inr rfl

theorem worded_curly (h : Worded ops 1200 .inner ps token x) :
    Worded ops limit spot (.plain "\x7b" :: (ps ++ [.plain "\x7d"])) .openCurly
      (.compound "\x7b\x7d" [x]) := by
  intro e he
  obtain ⟨tokens, p, e', -, hlays, -, hphrase⟩ := h .mark nofun
  have hclose : Lays .mark (ps ++ [.plain "\x7d"]) (tokens ++ [.closeCurly]) .mark :=
    hlays.append (lays_closing (c := '\x7d') rfl fun b => by cases b <;> rfl)
  refine ⟨_, 0, _, Nat.zero_le _, .mark (c := '\x7b') rfl rfl hclose, fun _ => rfl, ?_⟩
  intro next _ _
  exact .curly (hphrase .closeCurly (OperatorTable.closes_closing (by simp)) nofun)

/-! ### Lists and arguments -/

theorem wordedTail_nil : WordedTail ops [] (.atom "[]") :=
  fun e => ⟨.closeList, [], e, .nil e, .nil⟩

theorem wordedTail_bar (h : Worded ops 999 .item ps token x) : WordedTail ops (.plain "|" :: ps) x := by
  intro e
  obtain ⟨tokens, p, e', -, hlays, -, hphrase⟩ := h .mark nofun
  have hbar : Lexer.punctuation? '|' e.isLayout = some .bar := rfl
  refine ⟨.bar, _, _, .mark rfl hbar hlays, .bar (p := p) ?_⟩
  exact hphrase .closeList (OperatorTable.closes_closing (by simp)) nofun

theorem wordedTail_cons (hops : ops.Separates) {ps' : List Piece} (hx : Worded ops 999 .item ps token x)
    (hy : WordedTail ops ps' y) : WordedTail ops (.plain "," :: (ps ++ ps')) (.cons x y) := by
  intro e
  obtain ⟨tokens, p, e', -, hlays, -, hphrase⟩ := hx .mark nofun
  obtain ⟨next, tokens', e'', hlays', htail⟩ := hy e'
  obtain ⟨hcloses, hstarts⟩ := htail.closes hops
  have hcomma : Lexer.punctuation? ',' e.isLayout = some .comma := rfl
  refine ⟨.comma, _, _, .mark rfl hcomma (hlays.append hlays'), .cons (hphrase next hcloses ?_) htail⟩
  rw [hstarts]
  exact nofun

theorem worded_list (hops : ops.Separates) {ps' : List Piece} (hx : Worded ops 999 .item ps token x)
    (hy : WordedTail ops ps' y) :
    Worded ops limit spot (.plain "[" :: (ps ++ (ps' ++ [.plain "]"]))) .openList (.cons x y) := by
  intro e he
  obtain ⟨tokens, p, e', -, hlays, -, hphrase⟩ := hx .mark nofun
  obtain ⟨next, tokens', e'', hlays', htail⟩ := hy e'
  obtain ⟨hcloses, hstarts⟩ := htail.closes hops
  have hclose : Lays e' (ps' ++ [.plain "]"]) (tokens' ++ [.closeList]) .mark :=
    hlays'.append (lays_closing (c := ']') rfl fun b => by cases b <;> rfl)
  have hopen : Lexer.punctuation? '[' e.isLayout = some .openList := rfl
  refine ⟨_, 0, _, Nat.zero_le _, .mark rfl hopen (hlays.append hclose), fun _ => rfl, ?_⟩
  intro _ _ _
  refine .list (hphrase next hcloses ?_) htail
  rw [hstarts]
  exact nofun

/-- Arguments are written with commas between them. -/
theorem wordedAll_args (hops : ops.Separates) (hne : xs ≠ [])
    (hxs : ∀ x ∈ xs, ∃ token, Worded ops 999 .item (w.pieces (.operand 999) x) token x) :
    WordedAll ops ((xs.map (w.pieces (.operand 999))).intersperse [.plain ","]).flatten xs := by
  induction xs with
  | nil => exact absurd rfl hne
  | cons x xs ih =>
    rw [List.forall_mem_cons] at hxs
    obtain ⟨⟨token, hx⟩, hxs⟩ := hxs
    intro e he
    obtain ⟨tokens, p, e', -, hlays, -, hphrase⟩ := hx e he
    cases xs with
    | nil =>
      refine ⟨tokens, e', ?_, .one (hphrase .close (OperatorTable.closes_closing (by simp)) nofun)⟩
      rw [List.map_cons, List.map_nil, List.intersperse_singleton, List.flatten_singleton]
      exact hlays
    | cons y xs =>
      obtain ⟨tokens', e'', hlays', hall⟩ := ih (List.cons_ne_nil y xs) hxs .mark nofun
      have hcomma : Lexer.punctuation? ',' e'.isLayout = some .comma := rfl
      have hmore : Lays e' (.plain "," :: _) _ e'' := .mark rfl hcomma hlays'
      refine ⟨_, e'', hlays.append hmore, .more (p := p) ?_ hall⟩
      exact hphrase .comma (hops.bounds_comma.closes (Token.detached_mark (by simp))) nofun

theorem worded_call (h : WordedAll ops ps xs) :
    Worded ops limit spot (.token (Text.quotedName name) :: .plain "(" :: (ps ++ [.plain ")"]))
      (.ofName name) (.compound name xs) := by
  intro e he
  obtain ⟨tokens, e', hlays, hall⟩ := h .mark nofun
  obtain ⟨rest, hspelling⟩ := Token.exists_spelling name
  have hclose : Lays .mark (ps ++ [.plain ")"]) (tokens ++ [.close]) .mark :=
    hlays.append (lays_closing (c := ')') rfl fun b => by cases b <;> rfl)
  refine ⟨_, 0, _, Nat.zero_le _, .operand he (Lexer.lexeme_name name)
    (.mark (c := '(') rfl rfl hclose), fun _ => ?_, ?_⟩
  · rw [hspelling]
    rfl
  · intro next _ _
    exact .compound (Token.spells_spelling name) hall

/-! ### Operators -/

/-- An operator between its operands is one token, and no operand ends there. -/
theorem lays_separator (hops : ops.Regular) (hop : ops.find? name .between = some op) :
    ∃ e', e' ≠ Edge.operand ∧ ∀ e, Lays e [separator ⟨ops, true⟩ name op] [.between name] e' := by
  rw [separator, Token.between]
  split
  · exact ⟨.layout, by decide, fun e => .comma (.nil _)⟩
  · rename_i hcomma
    have hbare := (hops.bare hop).resolve_left hcomma
    split
    · exact ⟨.layout, by decide, fun e => .spaced hbare (.nil _)⟩
    · exact ⟨.mark, by decide, fun e => .operator hbare (.nil _)⟩

theorem worded_between (hops : ops.Regular) (hop : ops.find? name .between = some op)
    (hlimit : op.priority ≤ limit) (hroom : limit ≤ spot.room) {token' : Token} {ps' : List Piece}
    (hx : Worded ops op.leftMax ⟨spot.room, ops.starts (.between name)⟩ ps token x)
    (hy : Worded ops op.rightMax ⟨op.rightMax, spot.followed⟩ ps' token' y) :
    Worded ops limit spot (ps ++ separator ⟨ops, true⟩ name op :: ps') token (.compound name [x, y]) := by
  intro e he
  obtain ⟨e₁, he₁, hseparator⟩ := lays_separator hops hop
  obtain ⟨tokens, p, e', hp, hlays, hfirst, hphrase⟩ := hx e he
  obtain ⟨tokens', p', e'', -, hlays', -, hphrase'⟩ := hy e₁ he₁
  refine ⟨_, _, _, hlimit, hlays.append ((hseparator e').append hlays'), ?_, ?_⟩
  · intro hlayout
    rw [List.head?_append, hfirst hlayout]
    rfl
  · intro next hcloses hstarts
    have hleft := hphrase _ (hops.closes_between hop) id
    have hright := hphrase' next (hcloses.mono (Nat.le_trans op.rightMax_le hlimit)) hstarts
    exact .between (OperatorTable.joins_between name) hop (Nat.le_trans hlimit hroom) hleft hp hright
      (hcloses.bounds (by decide) hop hlimit)

theorem worded_before (hop : ops.find? name .before = some op) (hlimit : op.priority ≤ limit)
    (hroom : limit ≤ spot.room) (htoken : token.Detached name) (hstarts : ops.starts token = true)
    (hx : Worded ops op.rightMax ⟨op.rightMax, spot.followed⟩ ps token x) :
    Worded ops limit spot (.token (Text.quotedName name) :: .plain " " :: ps) (.ofName name)
      (.compound name [x]) := by
  intro e he
  obtain ⟨tokens, p, e', -, hlays, hfirst, hphrase⟩ := hx .layout nofun
  obtain ⟨rest, rfl⟩ := List.head?_eq_some_iff.mp (hfirst rfl)
  obtain ⟨rest', hspelling⟩ := Token.exists_spelling name
  refine ⟨_, _, _, hlimit, .operand he (Lexer.lexeme_name name) (.space hlays), fun _ => ?_, ?_⟩
  · rw [hspelling]
    rfl
  · intro next hcloses hnext
    have hoperand := hphrase next (hcloses.mono (Nat.le_trans op.rightMax_le hlimit)) hnext
    exact .before (Token.spells_spelling name) hop (Nat.le_trans hlimit hroom) htoken hstarts hoperand
      (hcloses.bounds (by decide) hop hlimit)

/-- Brackets are put around what has too high a priority, and within them every priority is allowed. -/
theorem worded_bracketed {priority : Nat} (hpriority : priority ≤ 1200) (hroom : limit ≤ spot.room)
    (h : ∀ {limit' spot'}, priority ≤ limit' → limit' ≤ spot'.room →
      spot' = (if limit < priority then .inner else spot) → Worded ops limit' spot' ps token x) :
    Worded ops limit spot (bracketed (limit < priority) ps) (if limit < priority then .openGroup else token)
      x := by
  by_cases hlt : limit < priority
  · rw [decide_eq_true hlt, if_pos hlt]
    exact worded_enclosed (h hpriority (Nat.le_refl 1200) (if_pos hlt).symm)
  · rw [decide_eq_false hlt, if_neg hlt]
    exact h (Nat.not_lt.mp hlt) hroom (if_neg hlt).symm

/-! ## Terms -/

/-- What is known of the pieces of a term, in both kinds of places. -/
structure Wording (ops : OperatorTable) (x : Term) : Prop where
  /-- As an operand, where the reader allows the priorities that the writer goes by. -/
  operand {limit : Nat} {spot : Spot} (hroom : limit ≤ spot.room)
    (h : legible ⟨ops, true⟩ limit spot x = true) :
    Worded ops limit spot (pieces ⟨ops, true⟩ (.operand limit) x) (first ⟨ops, true⟩ limit x) x
  /-- After the items of a list. -/
  tail (h : legible ⟨ops, true⟩ 999 .item x = true) : WordedTail ops (pieces ⟨ops, true⟩ .tail x) x

/-- What does not go on with a list is written after a bar. -/
theorem wording_of_operand (h : ∀ {limit spot}, limit ≤ spot.room → legible ⟨ops, true⟩ limit spot x = true →
      Worded ops limit spot (pieces ⟨ops, true⟩ (.operand limit) x) (first ⟨ops, true⟩ limit x) x)
    (htail : pieces ⟨ops, true⟩ .tail x = .plain "|" :: pieces ⟨ops, true⟩ (.operand 999) x) :
    Wording ops x := by
  refine ⟨h, fun hlegible => ?_⟩
  rw [htail]
  exact wordedTail_bar (h (Nat.le_refl _) hlegible)

theorem wording_int (ops : OperatorTable) (n : Int) : Wording ops (.int n) := by
  refine wording_of_operand ?_ ?_
  · intro limit spot _ _
    rw [Term.int, pieces, literal_ofInt, first_number (Literal.isNumber_ofInt n),
      Literal.isNegative_ofInt]
    cases n with
    | ofNat n =>
      have hn : ¬ Int.ofNat n < 0 := Int.not_lt.mpr (Int.natCast_nonneg n)
      rw [decide_eq_false hn, if_neg Bool.false_ne_true]
      exact worded_natural n
    | negSucc n =>
      rw [decide_eq_true (Int.negSucc_lt_zero n), if_pos rfl]
      exact worded_negative n
  · exact pieces_tail_literal (Literal.ofInt_ne_atom n "[]")

theorem wording_atom (ops : OperatorTable) (name : String) : Wording ops (.atom name) := by
  have hoperand : ∀ {limit spot}, limit ≤ spot.room → legible ⟨ops, true⟩ limit spot (.atom name) = true →
      Worded ops limit spot (pieces ⟨ops, true⟩ (.operand limit) (.atom name))
        (first ⟨ops, true⟩ limit (.atom name)) (.atom name) := by
    intro limit spot _ hlegible
    rw [Term.atom, first]
    rw [Term.atom, legible, Bool.or_assoc] at hlegible
    by_cases hencloses : encloses ⟨ops, true⟩ limit name = true
    · rw [if_pos hencloses]
      have hpieces : pieces ⟨ops, true⟩ (.operand limit) (.literal (.atom name)) =
          .plain "(" :: ([.token (Text.quotedName name)] ++ [.plain ")"]) := by
        rw [pieces, literal]
        exact if_pos hencloses
      rw [hpieces]
      exact worded_enclosed (worded_name fun h => absurd h Bool.false_ne_true)
    · have hpieces : pieces ⟨ops, true⟩ (.operand limit) (.literal (.atom name)) =
          [.token (Text.quotedName name)] := by
        rw [pieces, literal]
        exact if_neg hencloses
      rw [if_neg hencloses, hpieces]
      refine worded_name fun hfollowed op hop hle => ?_
      rw [Bool.not_eq_true] at hencloses
      rw [hencloses, hfollowed, hop] at hlegible
      simp [hle] at hlegible
  by_cases hnil : name = "[]"
  · subst hnil
    refine ⟨hoperand, fun _ => ?_⟩
    rw [Term.atom, pieces]
    exact wordedTail_nil
  · exact wording_of_operand hoperand (pieces_tail_literal fun h => hnil (Literal.atom.inj h))

theorem wording_cell (hops : ops.Separates) (hx : Wording ops x) (hy : Wording ops y)
    (hform : form ⟨ops, true⟩ "." [x, y] = .cell) : Wording ops (.cons x y) where
  operand := by
    intro limit spot _ hlegible
    rw [Term.cons, legible_cell hform, Bool.and_eq_true] at hlegible
    have hfirst : first ⟨ops, true⟩ limit (.compound "." [x, y]) = .openList := by
      rw [first, hform]
    rw [Term.cons, hfirst, pieces_cell hform]
    exact worded_list hops (hx.operand (Nat.le_refl _) hlegible.1) (hy.tail hlegible.2)
  tail := by
    intro hlegible
    rw [Term.cons, legible_cell hform, Bool.and_eq_true] at hlegible
    rw [Term.cons, pieces_tail_cell hform]
    exact wordedTail_cons hops (hx.operand (Nat.le_refl _) hlegible.1) (hy.tail hlegible.2)

/-- What is no cell of a list is written after a bar where the list goes on. -/
theorem wording_of_form (hform : form ⟨ops, true⟩ name xs ≠ .cell)
    (h : ∀ {limit spot}, limit ≤ spot.room → legible ⟨ops, true⟩ limit spot (.compound name xs) = true →
      Worded ops limit spot (pieces ⟨ops, true⟩ (.operand limit) (.compound name xs))
        (first ⟨ops, true⟩ limit (.compound name xs)) (.compound name xs)) :
    Wording ops (.compound name xs) :=
  wording_of_operand h (pieces_tail hform)

theorem wording_curly (hx : Wording ops x) (hform : form ⟨ops, true⟩ "\x7b\x7d" [x] = .curly) :
    Wording ops (.compound "\x7b\x7d" [x]) := by
  refine wording_of_form (by rw [hform]; exact nofun) ?_
  intro limit spot _ hlegible
  rw [legible_curly hform] at hlegible
  have hfirst : first ⟨ops, true⟩ limit (.compound "\x7b\x7d" [x]) = .openCurly := by
    rw [first, hform]
  rw [hfirst, pieces_curly hform]
  exact worded_curly (hx.operand (Nat.le_refl _) hlegible)

theorem wording_call (hops : ops.Separates) (hne : xs ≠ []) (hxs : ∀ x ∈ xs, Wording ops x)
    (hform : form ⟨ops, true⟩ name xs = .call) : Wording ops (.compound name xs) := by
  refine wording_of_form (by rw [hform]; exact nofun) ?_
  intro limit spot _ hlegible
  rw [legible_call hform, List.all_eq_true] at hlegible
  have hargs : WordedAll ops _ xs := wordedAll_args hops hne fun x hx =>
    ⟨_, (hxs x hx).operand (Nat.le_refl _) (hlegible x hx)⟩
  have hfirst : first ⟨ops, true⟩ limit (.compound name xs) = .ofName name := by
    cases xs with
    | nil => exact absurd rfl hne
    | cons x xs => rw [first, hform]
  rw [hfirst, pieces_call hform]
  exact worded_call hargs

theorem wording_between (hops : ops.Regular) (hop : ops.find? name .between = some op)
    (hx : Wording ops x) (hy : Wording ops y)
    (hform : form ⟨ops, true⟩ name [x, y] = .between op) : Wording ops (.compound name [x, y]) := by
  refine wording_of_form (by rw [hform]; exact nofun) ?_
  intro limit spot hroom hlegible
  rw [legible, hform, Bool.and_eq_true] at hlegible
  have hfirst : first ⟨ops, true⟩ limit (.compound name [x, y]) =
      if limit < op.priority then .openGroup else first ⟨ops, true⟩ op.leftMax x := by
    rw [first, hform]
  rw [hfirst, pieces_between hform]
  refine worded_bracketed (hops.priority_le hop) hroom ?_
  rintro limit' spot' hlimit' hroom' rfl
  have hleft := Nat.le_trans op.leftMax_le (Nat.le_trans hlimit' hroom')
  exact worded_between hops hop hlimit' hroom' (hx.operand hleft hlegible.1)
    (hy.operand (Nat.le_refl _) hlegible.2)

theorem wording_before (hops : ops.Regular) (hop : ops.find? name .before = some op)
    (hx : Wording ops x) (hform : form ⟨ops, true⟩ name [x] = .before op) :
    Wording ops (.compound name [x]) := by
  refine wording_of_form (by rw [hform]; exact nofun) ?_
  intro limit spot hroom hlegible
  rw [legible, hform, Bool.and_eq_true, Bool.and_eq_true] at hlegible
  obtain ⟨⟨hstarts, hsign⟩, hlegible⟩ := hlegible
  have hdetached : (first ⟨ops, true⟩ op.rightMax x).Detached name := by
    refine ⟨first_ne_openArgs _ _ _, fun hname => ?_⟩
    rw [decide_eq_true hname, Bool.true_and, Bool.not_eq_true'] at hsign
    exact hsign
  have hfirst : first ⟨ops, true⟩ limit (.compound name [x]) =
      if limit < op.priority then .openGroup else .ofName name := by
    rw [first, hform]
  rw [hfirst, pieces_before hform]
  refine worded_bracketed (hops.priority_le hop) hroom ?_
  rintro limit' spot' hlimit' hroom' rfl
  exact worded_before hop hlimit' hroom' hdetached hstarts (hx.operand (Nat.le_refl _) hlegible)

/-- A compound is worded if its arguments are, in each of the forms.  Of the operators something is asked
only if its name is one of them. -/
theorem wording_compound (hops : ops.Separates) (hname : ops.Regular ∨ ops.isOperator name = false)
    (hne : xs ≠ []) (hxs : ∀ x ∈ xs, Wording ops x) : Wording ops (.compound name xs) := by
  have hregular : ∀ {fixity op}, ops.find? name fixity = some op → ops.Regular := by
    intro fixity op hop
    refine hname.resolve_right fun hnone => ?_
    rw [OperatorTable.find?_of_isOperator hnone] at hop
    cases hop
  have hshaped := shaped_form ⟨ops, true⟩ name xs
  generalize hform : form ⟨ops, true⟩ name xs = form at hshaped
  cases hshaped with
  | cell x y =>
    rw [List.forall_mem_cons, List.forall_mem_singleton] at hxs
    exact wording_cell hops hxs.1 hxs.2 hform
  | curly x => exact wording_curly (hxs x List.mem_cons_self) hform
  | between hop x y =>
    rw [List.forall_mem_cons, List.forall_mem_singleton] at hxs
    exact wording_between (hregular hop) hop hxs.1 hxs.2 hform
  | before hop x => exact wording_before (hregular hop) hop (hxs x List.mem_cons_self) hform
  | after hop x =>
    rw [(hregular hop).after] at hop
    cases hop
  | call => exact wording_call hops hne hxs hform

theorem wording_symbolic (hops : ops.Regular) (hx : x.Symbolic) : Wording ops x := by
  induction hx with
  | atom name => exact wording_atom ops name
  | int n => exact wording_int ops n
  | compound hne _ ih => exact wording_compound hops.separates (.inl hops) hne ih

theorem wording_plain (hops : ops.Separates) (hx : Term.Plain ops x) : Wording ops x := by
  induction hx with
  | @atom name hname => exact wording_atom ops name
  | int n => exact wording_int ops n
  | compound hname hne _ ih => exact wording_compound hops (.inr hname) hne ih

/-- **The text of a legible term is read back**, if no word in it runs into the next one: the reader gives
the term and is at its end. -/
theorem read_of_wording (hops : ops.Separates) (hx : x.Symbolic) (hwording : Wording ops x)
    (hlegible : legible ⟨ops, true⟩ 1200 .inner x = true)
    (hruns : (pieces ⟨ops, true⟩ (.operand 1200) x).IsChain (Piece.runsInto · · = false))
    (quotes : DoubleQuotes) {s : Store} (hs : s.WellFormed) :
    ∃ t reader s',
      (TermReader.ofInput (.ofText (TermWriter.write ⟨ops, true⟩ x ++ " .")) quotes).read ops s =
        (.ok t, reader, s') ∧ s'.snapshot t = x ∧ reader.atEnd.1 = .ok true := by
  obtain ⟨tokens, p, e', -, hlays, -, hphrase⟩ :=
    hwording.operand (Nat.le_refl 1200) hlegible .mark (by decide)
  have hsound : ∀ q ∈ pieces ⟨ops, true⟩ (.operand 1200) x, q.Sound := by
    refine sound_pieces ?_ ops (.operand 1200)
    rw [hx.vars]
    exact List.forall_mem_nil _
  have hlexed := hlays.lexed hsound hruns none
  have hinput : Input.ofText (TermWriter.write ⟨ops, true⟩ x ++ " .") =
      (Piece.finished (Piece.textAfter none (pieces ⟨ops, true⟩ (.operand 1200) x))).map .char := by
    rw [Input.ofText, String.toList_append, TermWriter.write, Piece.toList_render]
    rfl
  rw [← hinput] at hlexed
  obtain ⟨final, htakes, hend⟩ := TermReader.takes_of_lexes (hlexed {}) quotes
  have hclosed := hphrase .stop (OperatorTable.closes_closing (by simp)) fun h =>
    absurd h Bool.false_ne_true
  obtain ⟨t, s', hread, hx'⟩ := TermReader.read_phrase hops hclosed ⟨htakes, rfl⟩ hs
  exact ⟨t, final, s', hread, hx', hend⟩

/-! ## Terms with operators -/

/-- **A legible term is read back from its text** under the standard operators: the reader gives the term
and is at its end.  The term is ground and has no floats, and every compound in it has an argument; apart
from the operators, no letter may run into the operator after it. -/
theorem legible_reads_back (hx : x.Symbolic) (hlegible : legible {} 1200 .inner x = true)
    (hruns : (pieces {} (.operand 1200) x).IsChain (Piece.runsInto · · = false)) (quotes : DoubleQuotes)
    {s : Store} (hs : s.WellFormed) :
    ∃ t reader s',
      (TermReader.ofInput (.ofText (TermWriter.write {} x ++ " .")) quotes).read .standard s =
        (.ok t, reader, s') ∧ s'.snapshot t = x ∧ reader.atEnd.1 = .ok true :=
  read_of_wording OperatorTable.separates_standard hx (wording_symbolic OperatorTable.regular_standard hx)
    hlegible hruns quotes hs

/-- A rule with operators before and between operands, brackets for priorities on both sides, an operator
as a constant, a negative integer, a name in quotes, a list with a tail and a term in braces.  It is written
`a :- \+ (b, c), [1-(2- -3),- (d is 2)|{e ; -}]='it\'s'`. -/
theorem legible_reads_back_rule :
    let x := Term.compound ":-" [.atom "a", .compound "," [
      .compound "\\+" [.compound "," [.atom "b", .atom "c"]],
      .compound "=" [
        .cons (.compound "-" [.int 1, .compound "-" [.int 2, .int (-3)]])
          (.cons (.compound "-" [.compound "is" [.atom "d", .int 2]])
            (.compound "\x7b\x7d" [.compound ";" [.atom "e", .atom "-"]])),
        .atom "it's"]]]
    x.Symbolic ∧ legible {} 1200 .inner x = true ∧
      (pieces {} (.operand 1200) x).IsChain (Piece.runsInto · · = false) ∧ ({} : Store).WellFormed ∧
      ∃ t reader s', (TermReader.ofInput (.ofText (TermWriter.write {} x ++ " .")) .codes).read
        .standard {} = (.ok t, reader, s') ∧ s'.snapshot t = x ∧ reader.atEnd.1 = .ok true := by
  intro x
  have hbody : Term.Symbolic (.compound "\\+" [.compound "," [.atom "b", .atom "c"]]) :=
    Term.symbolic_one (Term.symbolic_two (.atom "b") (.atom "c"))
  have hitem : Term.Symbolic (.compound "-" [.int 1, .compound "-" [.int 2, .int (-3)]]) :=
    Term.symbolic_two (.int 1) (Term.symbolic_two (.int 2) (.int (-3)))
  have hitem' : Term.Symbolic (.compound "-" [.compound "is" [.atom "d", .int 2]]) :=
    Term.symbolic_one (Term.symbolic_two (.atom "d") (.int 2))
  have htail : Term.Symbolic (.compound "\x7b\x7d" [.compound ";" [.atom "e", .atom "-"]]) :=
    Term.symbolic_one (Term.symbolic_two (.atom "e") (.atom "-"))
  have hlist : Term.Symbolic (.cons _ (.cons _ _)) :=
    Term.symbolic_two hitem (Term.symbolic_two hitem' htail)
  have hx : x.Symbolic :=
    Term.symbolic_two (.atom "a") (Term.symbolic_two hbody (Term.symbolic_two hlist (.atom "it's")))
  have hlegible : legible {} 1200 .inner x = true := by decide +kernel
  have hruns : (pieces {} (.operand 1200) x).IsChain (Piece.runsInto · · = false) := by decide +kernel
  exact ⟨hx, hlegible, hruns, Store.wellFormed_empty,
    legible_reads_back hx hlegible hruns .codes Store.wellFormed_empty⟩

/-! ## Terms without operators -/

theorem legible_plain (hx : Term.Plain ops x) (limit : Nat) (spot : Spot) :
    legible ⟨ops, true⟩ limit spot x = true := by
  induction hx generalizing limit spot with
  | @atom name hname =>
    rw [Term.atom, legible, OperatorTable.find?_of_isOperator hname]
    exact Bool.or_true _
  | int n => exact legible_number (Literal.isNumber_ofInt n) _ limit spot
  | @compound name args hname _ _ ih =>
    have hshaped := shaped_form ⟨ops, true⟩ name args
    generalize hform : form ⟨ops, true⟩ name args = form at hshaped
    cases hshaped with
    | cell x y =>
      rw [List.forall_mem_cons, List.forall_mem_singleton] at ih
      rw [legible_cell hform, ih.1, ih.2, Bool.and_self]
    | curly x =>
      rw [List.forall_mem_singleton] at ih
      rw [legible_curly hform, ih]
    | between hop | before hop | after hop =>
      rw [OperatorTable.find?_of_isOperator hname] at hop
      cases hop
    | call =>
      rw [legible_call hform, List.all_eq_true]
      exact fun x hx => ih x hx 999 .item

/-- A word does not run into what begins with punctuation. -/
theorem runs_append (h : ps.IsChain (Piece.runsInto · · = false)) {ps' : List Piece}
    (h' : ps'.IsChain (Piece.runsInto · · = false)) (hps' : ∀ p ∈ ps'.head?, ∃ text, p = .plain text) :
    (ps ++ ps').IsChain (Piece.runsInto · · = false) := by
  rw [List.isChain_append]
  refine ⟨h, h', fun p _ q hq => ?_⟩
  obtain ⟨text, rfl⟩ := hps' q hq
  cases p <;> rfl

theorem runs_plain (h : ps.IsChain (Piece.runsInto · · = false)) (text : String) :
    (.plain text :: ps).IsChain (Piece.runsInto · · = false) := by
  rw [List.isChain_cons]
  exact ⟨fun _ _ => rfl, h⟩

theorem runs_between (h : ps.IsChain (Piece.runsInto · · = false)) {ps' : List Piece}
    (h' : ps'.IsChain (Piece.runsInto · · = false)) (text : String) :
    (ps ++ .plain text :: ps').IsChain (Piece.runsInto · · = false) := by
  refine runs_append h (runs_plain h' text) fun p hp => ?_
  cases hp
  exact ⟨text, rfl⟩

theorem runs_intersperse {parts : List (List Piece)}
    (h : ∀ ps ∈ parts, ps.IsChain (Piece.runsInto · · = false)) (text : String) :
    ((parts.intersperse [.plain text]).flatten).IsChain (Piece.runsInto · · = false) := by
  induction parts with
  | nil => exact .nil
  | cons ps parts ih =>
    rw [List.forall_mem_cons] at h
    cases parts with
    | nil =>
      rw [List.intersperse_singleton, List.flatten_singleton]
      exact h.1
    | cons ps' parts =>
      rw [List.intersperse_cons_cons, List.flatten_cons, List.flatten_cons, List.singleton_append]
      exact runs_between h.1 (ih h.2) text

theorem runs_of_operand (h : ∀ limit, (w.pieces (.operand limit) x).IsChain (Piece.runsInto · · = false))
    (htail : w.pieces .tail x = .plain "|" :: w.pieces (.operand 999) x) (place : Place) :
    (w.pieces place x).IsChain (Piece.runsInto · · = false) := by
  cases place with
  | operand limit => exact h limit
  | tail =>
    rw [htail]
    exact runs_plain (h 999) "|"

theorem runs_literal (w : TermWriter) (place : Place) (l : Literal) :
    (w.pieces place (.literal l)).IsChain (Piece.runsInto · · = false) := by
  have hliteral : (w.literal place.limit l).IsChain (Piece.runsInto · · = false) := by
    cases l with
    | atom name =>
      rw [literal]
      split
      · exact runs_plain (runs_between (.singleton _) .nil ")") "("
      · exact .singleton _
    | small n | big n | float x => exact .singleton _
  rw [pieces]
  split
  · exact .nil
  · cases place with
    | operand limit => exact hliteral
    | tail => exact runs_plain hliteral "|"

/-- Without operators there is punctuation between words. -/
theorem runs_pieces (hx : Term.Plain ops x) (place : Place) :
    (pieces ⟨ops, true⟩ place x).IsChain (Piece.runsInto · · = false) := by
  induction hx generalizing place with
  | @atom name => exact runs_literal _ place (.atom name)
  | int n => exact runs_literal _ place (.ofInt n)
  | @compound name args hname _ _ ih =>
    have hshaped := shaped_form ⟨ops, true⟩ name args
    generalize hform : form ⟨ops, true⟩ name args = form at hshaped
    have htail : form ≠ .cell → pieces ⟨ops, true⟩ .tail (.compound name args) =
        .plain "|" :: pieces ⟨ops, true⟩ (.operand 999) (.compound name args) := by
      rw [← hform]
      exact pieces_tail
    cases hshaped with
    | cell x y =>
      rw [List.forall_mem_cons, List.forall_mem_singleton] at ih
      have hboth := runs_append (ih.1 (.operand 999)) (ih.2 .tail) (head?_pieces_tail _ y)
      cases place with
      | operand limit =>
        rw [pieces_cell hform, ← List.append_assoc]
        exact runs_plain (runs_between hboth .nil "]") "["
      | tail =>
        rw [pieces_tail_cell hform]
        exact runs_plain hboth ","
    | curly x =>
      refine runs_of_operand (fun limit => ?_) (htail nofun) place
      rw [pieces_curly hform]
      exact runs_plain (runs_between (ih x List.mem_cons_self (.operand 1200)) .nil "\x7d") "\x7b"
    | between hop | before hop | after hop =>
      rw [OperatorTable.find?_of_isOperator hname] at hop
      cases hop
    | call =>
      refine runs_of_operand (fun limit => ?_) (htail nofun) place
      have hargs : ∀ ps ∈ args.map (pieces ⟨ops, true⟩ (.operand 999)),
          ps.IsChain (Piece.runsInto · · = false) := by
        rw [List.forall_mem_map]
        exact fun x hx => ih x hx (.operand 999)
      rw [pieces_call hform, List.isChain_cons_cons]
      exact ⟨rfl, runs_plain (runs_between (runs_intersperse hargs ",") .nil ")") "("⟩

/-- **A term without operators is read back from its text**, under every table of operators in which a
comma and a bar do not go on with an argument: the reader gives the term and is at its end. -/
theorem reads_back (hops : ops.Separates) (hx : Term.Plain ops x) (quotes : DoubleQuotes) {s : Store}
    (hs : s.WellFormed) :
    ∃ t reader s',
      (TermReader.ofInput (.ofText (TermWriter.write ⟨ops, true⟩ x ++ " .")) quotes).read ops s =
        (.ok t, reader, s') ∧ s'.snapshot t = x ∧ reader.atEnd.1 = .ok true :=
  read_of_wording hops hx.symbolic (wording_plain hops hx) (legible_plain hx 1200 .inner)
    (runs_pieces hx (.operand 1200)) quotes hs

/-- Under the standard operators, with a name in quotes, a negative and a large integer, a list with a
tail in braces, and the empty list as the name of a compound. -/
theorem reads_back_standard :
    let x := Term.compound "foo" [.atom "it's", .cons (.int (-12)) (.cons (.int (10 ^ 20))
      (.compound "\x7b\x7d" [.atom "x"])), .compound "[]" [.atom "a"]]
    OperatorTable.standard.Separates ∧ Term.Plain .standard x ∧ ({} : Store).WellFormed ∧
      ∃ t reader s', (TermReader.ofInput
        (.ofText (TermWriter.write ⟨.standard, true⟩ x ++ " .")) .codes).read .standard {} =
          (.ok t, reader, s') ∧ s'.snapshot t = x ∧ reader.atEnd.1 = .ok true := by
  intro x
  have hops := OperatorTable.separates_standard
  have hatom : ∀ name ∈ ["it's", "x", "a"], Term.Plain .standard (.atom name) := by
    intro name hname
    refine .atom ?_
    revert name
    decide +kernel
  have hcompound : ∀ (name : String) {args : List Term}, name ∈ ["foo", ".", "\x7b\x7d", "[]"] → args ≠ [] →
      (∀ a ∈ args, Term.Plain .standard a) → Term.Plain .standard (.compound name args) := by
    intro name args hname
    refine .compound ?_
    revert name
    decide +kernel
  have hone : ∀ {y : Term}, Term.Plain .standard y → ∀ a ∈ [y], Term.Plain .standard a := by
    intro y hy
    exact List.forall_mem_singleton.mpr hy
  have hcurly := hcompound "\x7b\x7d" (by decide) (List.cons_ne_nil _ _)
    (hone (hatom "x" (by decide)))
  have hcons := hcompound "." (by decide) (List.cons_ne_nil _ _)
    (List.forall_mem_cons.mpr ⟨.int (10 ^ 20), hone hcurly⟩)
  have hlist := hcompound "." (by decide) (List.cons_ne_nil _ _)
    (List.forall_mem_cons.mpr ⟨.int (-12), hone hcons⟩)
  have hempty := hcompound "[]" (by decide) (List.cons_ne_nil _ _)
    (hone (hatom "a" (by decide)))
  have hx : Term.Plain .standard x := by
    refine hcompound "foo" (by decide) (List.cons_ne_nil _ _) (List.forall_mem_cons.mpr ⟨?_, ?_⟩)
    · exact hatom "it's" (by decide)
    · exact List.forall_mem_cons.mpr ⟨hlist, hone hempty⟩
  exact ⟨hops, hx, Store.wellFormed_empty, reads_back hops hx .codes Store.wellFormed_empty⟩

end TermWriter

end Clausal
