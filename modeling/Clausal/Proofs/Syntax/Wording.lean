import Clausal.Proofs.Syntax.Listing
import Clausal.Proofs.Syntax.Steps

/-! # The tokens of written pieces

What is written of a term is a list of pieces, and its text is lexed from the end, like that of a listing.
Here the tokens are told as well: `Piece.Lays e ps tokens e'` says that the pieces give the tokens when
they come after a text that ends in `e`, and that the text ends in `e'` then.  An operand may be a name
between quotes, so no other operand can come right after it, but an operator without quotes can.  A
bracket opens arguments or a term, and which of them it is depends on the layout before it.

The text of such pieces with a full stop is lexed into the tokens (`Piece.Lays.lexed`).
-/

namespace Clausal

/-! ## Words -/

namespace Lexer

open Text (isAlnum isSymbol)

variable {c : Char} {cs ws : List Char} {name : String} {t : Token} {tokens ts : List Token}
  {input rest : Input}

theorem stops_map {q : Char → Bool} (h : ∀ c ∈ cs.head?, q c = false) :
    Input.Stops q (cs.map Item.char) := by
  cases cs with
  | nil => trivial
  | cons c cs => exact h c rfl

/-- The characters are cut into the tokens in front of what begins apart from them, and neither with a
quote nor with a point. -/
structure Lexeme (ws : List Char) (ts : List Token) : Prop where
  /-- There is a token. -/
  ne_nil : ts ≠ []
  /-- No token depends on the layout before it. -/
  not_open : ∀ t ∈ ts, t ≠ .openGroup ∧ t ≠ .openArgs
  /-- The cut. -/
  cuts {cs : List Char} (hapart : Apart ws cs) (hcs : ∀ c ∈ cs.head?, c ≠ '\x27' ∧ c ≠ '.') :
    CutsAll ((ws ++ cs).map .char) ts (cs.map .char)

/-- The name is written without quotes, and it is neither the empty list nor the empty braces. -/
def Bare (name : String) : Prop :=
  Text.quotedName name = name ∧ ∀ c ∈ name.toList.head?, c ∉ ['\x27', '.', '[', '\x7b']

-- Only the first character is looked at, where the instance for characters would try all of them.
instance (name : String) : Decidable (Bare name) :=
  @instDecidableAnd _ _ inferInstance (Option.decidableForallMem _)

theorem Apart.endsName (hapart : Apart ws cs)
    (hquote : ws.head? = some '\x27' → ∀ c ∈ cs.head?, c ≠ '\x27') : EndsName .standard ws (cs.map .char) where
  small := by
    rintro c cs' rfl hc hcs
    exact stops_map (hapart.smallName hc hcs)
  symbolic := by
    rintro c cs' rfl hc hcs
    exact stops_map (hapart.symbolicName hc hcs)
  quoted htext := stops_map fun c hc => decide_eq_false (hquote htext c hc)

/-- A name is cut off what begins apart from it. -/
theorem cuts_name (hapart : Apart (Text.quotedName name).toList cs)
    (hquote : (Text.quotedName name).toList.head? = some '\x27' → ∀ c ∈ cs.head?, c ≠ '\x27') :
    CutsAll (((Text.quotedName name).toList ++ cs).map .char) (Token.spelling name) (cs.map .char) := by
  rw [← Text.Tables.quotedName_standard] at hapart hquote ⊢
  rw [List.map_append]
  exact (cutsUnder_quotedName Text.Tables.usual_standard name (hapart.endsName hquote)).cutsAll

/-- A name without quotes is cut off even from a quote. -/
theorem cuts_bare (hname : Bare name) (hapart : Apart (Text.quotedName name).toList cs) :
    CutsAll (((Text.quotedName name).toList ++ cs).map .char) [.literal (.atom name)] (cs.map .char) := by
  have hhead := hname.2
  have hlist : name ≠ "[]" := by
    rintro rfl
    exact absurd (hhead '[' rfl) (by decide)
  have hbraces : name ≠ "\x7b\x7d" := by
    rintro rfl
    exact absurd (hhead '\x7b' rfl) (by decide)
  rw [← Token.spelling_of_ne hlist hbraces]
  refine cuts_name hapart fun hquote => ?_
  rw [hname.1] at hquote
  exact absurd (hhead '\x27' hquote) (by decide)

/-- A name is cut into the tokens that spell it. -/
theorem lexeme_name (name : String) : Lexeme (Text.quotedName name).toList (Token.spelling name) where
  ne_nil := by
    obtain ⟨rest, hspelling⟩ := Token.exists_spelling name
    rw [hspelling]
    exact List.cons_ne_nil _ _
  not_open := Token.not_open_of_mem_spelling name
  cuts hapart hcs := cuts_name hapart fun _ c hc => (hcs c hc).1

/-- What neither a quote nor a point begins ends a number that it is apart from. -/
theorem Apart.endsNumber {n : Nat} (hapart : Apart ws cs) (hws : ∃ c ∈ ws.getLast?, isAlnum c = true)
    (hcs : ∀ c ∈ cs.head?, c ≠ '\x27' ∧ c ≠ '.') :
    EndsNumber (Nat.toDigits 10 n) (cs.map .char) where
  alnum := stops_map (hapart.alnum hws)
  point := by
    intro more heq
    cases cs with
    | nil => cases heq
    | cons c cs =>
      obtain ⟨hc, -⟩ := List.cons.inj heq
      exact absurd (Item.char.inj hc) (hcs c rfl).2
  quote := fun _ => stops_map fun c hc => decide_eq_false (hcs c hc).1

/-- An integer that is not negative is a number. -/
theorem lexeme_natural (n : Nat) : Lexeme (toString n).toList [.literal (.ofInt n)] := by
  refine ⟨List.cons_ne_nil _ _, Token.not_open_literal _, ?_⟩
  intro cs hapart hcs
  rw [toList_toString_nat] at hapart ⊢
  rw [List.map_append]
  exact (cuts_digits n (hapart.endsNumber (getLast?_toDigits n) hcs)).all

/-- A negative integer is a minus and a number. -/
theorem lexeme_negative (n : Nat) :
    Lexeme (toString (Int.negSucc n)).toList [.literal (.atom "-"), .literal (.ofInt (n + 1 : Nat))] := by
  have htext : (toString (Int.negSucc n)).toList = '-' :: Nat.toDigits 10 (n + 1) := by
    rw [toList_toString_int, if_pos (Int.negSucc_lt_zero n)]
    rfl
  refine ⟨List.cons_ne_nil _ _, ?_, ?_⟩
  · rw [List.forall_mem_cons, List.forall_mem_singleton]
    exact ⟨⟨nofun, nofun⟩, nofun, nofun⟩
  · intro cs hapart hcs
    rw [htext] at hapart ⊢
    have hlast : ∃ c ∈ ('-' :: Nat.toDigits 10 (n + 1)).getLast?, isAlnum c = true := by
      obtain ⟨c, hc, halnum⟩ := getLast?_toDigits (n + 1)
      refine ⟨c, ?_, halnum⟩
      rw [List.getLast?_cons, Option.mem_def.mp hc]
      rfl
    rw [List.cons_append, List.map_cons, List.map_append]
    exact .cons (cuts_minus (n + 1)) (cuts_digits (n + 1) (hapart.endsNumber hlast hcs)).all

/-- Tokens that are cut off come first, whether or not there is layout before them. -/
theorem Lexed.cutsAll (h : Lexed false rest tokens) (hcuts : CutsAll input ts rest) (hts : ts ≠ [])
    (hopen : ∀ t ∈ ts, t ≠ .openGroup ∧ t ≠ .openArgs) (b : Bool) : Lexed b input (ts ++ tokens) := by
  induction hcuts generalizing b with
  | nil => exact absurd rfl hts
  | @cons _ _ _ _ ts' hfirst hrest ih =>
    rw [List.forall_mem_cons] at hopen
    refine Lexed.word ?_ hfirst hopen.1 b
    by_cases hnil : ts' = []
    · subst hnil
      cases hrest
      exact h
    · exact ih h hnil hopen.2 false

end Lexer

/-! ## Pieces -/

namespace Piece

open Lexer (Lexeme Lexed CutsAll Bare)

/-- What a text ends with, as far as the tokens after it depend on that. -/
inductive Edge where
  /-- An operand, with which a quote or a point might go on. -/
  | operand
  /-- Layout. -/
  | layout
  /-- An operator, a bracket or nothing. -/
  | mark
  deriving DecidableEq

/-- Whether an opening bracket comes after layout. -/
def Edge.isLayout (e : Edge) : Bool := e = .layout

/-- After a text that ends in `e`, the pieces give the tokens, and the text ends in `e'`. -/
inductive Lays : (e : Edge) → List Piece → List Token → (e' : Edge) → Prop
  /-- Nothing. -/
  | nil (e : Edge) : Lays e [] [] e
  /-- An operand, or the name of a compound. -/
  | operand {e e' : Edge} {ps : List Piece} {ts tokens : List Token} {text : String} (he : e ≠ .operand)
    (h : Lexeme text.toList ts) (hrest : Lays .operand ps tokens e') :
    Lays e (.token text :: ps) (ts ++ tokens) e'
  /-- An operator. -/
  | operator {e e' : Edge} {ps : List Piece} {tokens : List Token} {name : String} (hname : Bare name)
    (hrest : Lays .mark ps tokens e') :
    Lays e (.token (Text.quotedName name) :: ps) (.literal (.atom name) :: tokens) e'
  /-- An operator between spaces. -/
  | spaced {e e' : Edge} {ps : List Piece} {tokens : List Token} {name : String} (hname : Bare name)
    (hrest : Lays .layout ps tokens e') :
    Lays e (.plain (" " ++ Text.quotedName name ++ " ") :: ps) (.literal (.atom name) :: tokens) e'
  /-- A bracket, a comma or a bar. -/
  | mark {e e' : Edge} {ps : List Piece} {t : Token} {tokens : List Token} {text : String} {c : Char}
    (htext : text.toList = [c]) (hc : Lexer.punctuation? c e.isLayout = some t)
    (hrest : Lays .mark ps tokens e') : Lays e (.plain text :: ps) (t :: tokens) e'
  /-- A comma and a space. -/
  | comma {e e' : Edge} {ps : List Piece} {tokens : List Token} (hrest : Lays .layout ps tokens e') :
    Lays e (.plain ", " :: ps) (.comma :: tokens) e'
  /-- A space. -/
  | space {e e' : Edge} {ps : List Piece} {tokens : List Token} (hrest : Lays .layout ps tokens e') :
    Lays e (.plain " " :: ps) tokens e'

variable {e e' e'' : Edge} {ps ps' : List Piece} {tokens tokens' : List Token} {text : String}
  {last : Option Char}

theorem Lays.append (h : Lays e ps tokens e') (h' : Lays e' ps' tokens' e'') :
    Lays e (ps ++ ps') (tokens ++ tokens') e'' := by
  induction h with
  | nil => exact h'
  | operand he hlexeme _ ih =>
    rw [List.append_assoc]
    exact .operand he hlexeme (ih h')
  | operator hname _ ih => exact .operator hname (ih h')
  | spaced hname _ ih => exact .spaced hname (ih h')
  | mark htext hc _ ih => exact .mark htext hc (ih h')
  | comma _ ih => exact .comma (ih h')
  | space _ ih => exact .space (ih h')

/-- The text with a full stop after it. -/
def finished (cs : List Char) : List Char := cs ++ [' ', '.']

/-- After an operand there is neither a quote nor a point. -/
theorem Lays.quiet (h : Lays .operand ps tokens e') (last : Option Char) :
    ∀ c ∈ (finished (textAfter last ps)).head?, c ≠ '\x27' ∧ c ≠ '.' := by
  intro d hd
  rw [finished] at hd
  cases h with
  | nil =>
    cases hd
    decide
  | operand he => exact absurd rfl he
  | @operator _ _ _ _ name hname =>
    obtain ⟨c, cs, htext⟩ := List.exists_cons_of_ne_nil (Lexer.word_quotedName name).ne_nil
    rw [textAfter_word (Lexer.word_quotedName name).ne_nil, htext] at hd
    split at hd
    · cases hd
      decide
    · cases hd
      rw [hname.1] at htext
      have hhead := hname.2 d (by rw [htext]; rfl)
      simp only [List.mem_cons, not_or] at hhead
      exact ⟨hhead.1, hhead.2.1⟩
  | spaced =>
    rw [textAfter_plain, String.toList_append, String.toList_append] at hd
    cases hd
    decide
  | mark htext hc =>
    rw [textAfter_plain, htext] at hd
    cases hd
    obtain ⟨-, hsymbol, hquote⟩ := Lexer.classes_of_punctuation hc
    refine ⟨hquote, ?_⟩
    rintro rfl
    exact absurd hsymbol (by decide)
  | comma | space =>
    rw [textAfter_plain] at hd
    cases hd
    decide

/-- A word that is cut into tokens gives them, with a space before it or without. -/
theorem lexed_word {ts : List Token} {cs : List Char} (h : Lexed false (cs.map .char) tokens)
    (hcuts : CutsAll ((text.toList ++ cs).map .char) ts (cs.map .char)) (hts : ts ≠ [])
    (hopen : ∀ t ∈ ts, t ≠ .openGroup ∧ t ≠ .openArgs) (joined b : Bool) :
    Lexed b (((if joined then [' '] else []) ++ (text.toList ++ cs)).map .char) (ts ++ tokens) := by
  cases joined with
  | true => exact (h.cutsAll hcuts hts hopen true).space b
  | false => exact h.cutsAll hcuts hts hopen b

/-- **The text of pieces is lexed into their tokens**, if none runs into the next one. -/
theorem Lays.lexed (h : Lays e ps tokens e') (hps : ∀ p ∈ ps, p.Sound)
    (hruns : ps.IsChain (runsInto · · = false)) (last : Option Char) :
    Lexed e.isLayout ((finished (textAfter last ps)).map .char) (tokens ++ [.stop]) := by
  induction h generalizing last with
  | nil e => exact (Lexer.lexed_stop true).space _
  | @operand e e' ps ts tokens text he hlexeme hrest ih =>
    rw [List.forall_mem_cons] at hps
    rw [List.isChain_cons] at hruns
    have hne : text.toList ≠ [] := by
      cases hps.1 with
      | token h => exact h.ne_nil
    have hapart := (apart_textAfter hps.2 hruns.1).append_space ['.']
    have hcuts := hlexeme.cuts hapart (hrest.quiet _)
    rw [textAfter_word hne, finished, List.append_assoc, List.append_assoc, List.append_assoc]
    exact lexed_word (ih hps.2 hruns.2 _) hcuts hlexeme.ne_nil hlexeme.not_open _ _
  | @operator e e' ps tokens name hname hrest ih =>
    rw [List.forall_mem_cons] at hps
    rw [List.isChain_cons] at hruns
    have hapart := (apart_textAfter hps.2 hruns.1).append_space ['.']
    have hcuts := Lexer.cuts_bare hname hapart
    rw [textAfter_word (Lexer.word_quotedName name).ne_nil, finished, List.append_assoc,
      List.append_assoc]
    exact lexed_word (ih hps.2 hruns.2 _) hcuts (List.cons_ne_nil _ _) (Token.not_open_literal _) _ _
  | @spaced e e' ps tokens name hname hrest ih =>
    rw [List.forall_mem_cons] at hps
    rw [List.isChain_cons] at hruns
    have hcuts := Lexer.cuts_bare hname (Lexer.apart_space _ (finished (textAfter (some ' ') ps)))
    have hlast : (' ' :: ((Text.quotedName name).toList ++ [' '])).getLast?.or last = some ' ' := by
      rw [← List.cons_append, List.getLast?_append]
      rfl
    have hword := ((ih hps.2 hruns.2 (some ' ')).space false).cutsAll hcuts (List.cons_ne_nil _ _)
      (Token.not_open_literal _) true
    rw [textAfter_plain, toList_spaced, hlast, finished, List.append_assoc, List.cons_append,
      List.append_assoc]
    exact hword.space _
  | mark htext hc _ ih =>
    rw [List.forall_mem_cons] at hps
    rw [List.isChain_cons] at hruns
    rw [textAfter_plain, htext]
    exact (ih hps.2 hruns.2 _).punctuation hc
  | @comma e e' ps tokens _ ih =>
    rw [List.forall_mem_cons] at hps
    rw [List.isChain_cons] at hruns
    rw [textAfter_plain]
    have hcomma : Lexer.punctuation? ',' e.isLayout = some .comma := by
      cases e.isLayout <;> rfl
    exact ((ih hps.2 hruns.2 _).space false).punctuation hcomma
  | space _ ih =>
    rw [List.forall_mem_cons] at hps
    rw [List.isChain_cons] at hruns
    rw [textAfter_plain]
    exact (ih hps.2 hruns.2 _).space _

end Piece

/-! ## Readers -/

namespace TermReader

open Lexer (Lexes)

variable {tokens : List Token}

/-- What the lexer gives up to the end, the reader gives, and it is at its end then. -/
theorem takes_of_lexes {lexer : Lexer} (h : Lexes lexer tokens) (quotes : DoubleQuotes) :
    ∃ final, Takes { lexer, doubleQuotes := quotes } tokens final ∧ final.atEnd.1 = .ok true := by
  induction h with
  | @done lexer lexer' hend =>
    refine ⟨_, .nil _, ?_⟩
    have hnone : ({ lexer, doubleQuotes := quotes } : TermReader).ahead.isSome = false := rfl
    rw [atEnd, hnone, if_neg Bool.false_ne_true, hend]
  | more htoken _ ih =>
    obtain ⟨final, htakes, hend⟩ := ih
    refine ⟨final, .cons ?_ htakes, hend⟩
    simp only [token?, htoken]

end TermReader

end Clausal
