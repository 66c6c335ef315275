import Clausal.Clause
import Clausal.Proofs.Syntax.Decimals
import Clausal.Proofs.Syntax.Lexemes
import Clausal.Proofs.Syntax.VariableNames
import Mathlib.Data.List.Chain

/-! # The full stop of a listing

A listing is a clause as it is written, with a point.  Here it is shown that the point is a full stop
unless the text before it ends in a symbol, and that then the last name takes it
(`Clause.lexes_listing`).

What is written of a term are words, which must not run into each other, and punctuation
(`Piece.Sound`).  A space is put between words where characters would join, but a zero in front of a quote
begins a character code, and a letter that is a number too goes on with the letters after it
(`Piece.runsInto`).  If neither comes up, then the text is lexed from its end, piece by piece
(`Piece.lexical_text`).
-/

namespace Clausal

namespace Lexer

open Text (isDigit FractionForm ExponentForm)

variable {c : Char} {cs ws : List Char}

/-! ## Words -/

/-- Characters that are put in front of a text as a word. -/
structure Word (ws : List Char) : Prop where
  /-- There are some. -/
  ne_nil : ws ≠ []
  /-- What begins with them is lexed if the rest is. -/
  lexical {cs : List Char} (h : Lexical cs) (hapart : Apart ws cs) : Lexical (ws ++ cs)

/-- Names are words. -/
theorem word_quotedName (name : String) : Word (Text.quotedName name).toList := by
  have hform := Text.nameForm_quotedName .standard name
  rw [Text.Tables.quotedName_standard] at hform
  generalize (Text.quotedName name).toList = text at hform
  cases hform with
  | small hc hcs => exact ⟨List.cons_ne_nil _ _, fun h => h.small hc hcs⟩
  | symbolic hc hcs => exact ⟨List.cons_ne_nil _ _, fun h => h.symbolic hc hcs⟩
  | solo hc => exact ⟨List.cons_ne_nil _ _, fun h _ => h.solo hc⟩
  | list =>
    refine ⟨List.cons_ne_nil _ _, fun h _ => ?_⟩
    exact (h.punctuation (c := ']') (fun b => by cases b <;> rfl)).punctuation
      (fun b => by cases b <;> rfl)
  | braces =>
    refine ⟨List.cons_ne_nil _ _, fun h _ => ?_⟩
    exact (h.punctuation (c := '\x7d') (fun b => by cases b <;> rfl)).punctuation
      (fun b => by cases b <;> rfl)
  | quoted => exact ⟨List.cons_ne_nil _ _, fun h _ => h.quotedName _⟩

/-- The characters of a variable. -/
inductive VariableForm : List Char → Prop
  /-- One that begins variables, and what continues names. -/
  | intro {c : Char} {cs : List Char} (hc : Text.isVariableStart c = true)
    (hcs : (c :: cs).all Text.isAlnum = true) : VariableForm (c :: cs)

theorem VariableForm.word (h : VariableForm ws) : Word ws := by
  cases h with
  | intro hc hcs => exact ⟨List.cons_ne_nil _ _, fun h => h.variable hc hcs⟩

theorem getLast?_toDigits (n : Nat) : ∃ c ∈ (Nat.toDigits 10 n).getLast?, Text.isAlnum c = true := by
  have hall := Text.all_isAlnum_of_all_isDigit (all_isDigit_toDigits n)
  obtain ⟨d, ds, hdigits⟩ := List.exists_cons_of_ne_nil (Nat.toDigits_ne_nil (b := 10) (n := n))
  rw [hdigits] at hall ⊢
  exact getLast?_of_all hall

/-- Digits are a word. -/
theorem word_digits (n : Nat) : Word (Nat.toDigits 10 n) := by
  have hall := all_isDigit_toDigits n
  have hlast := getLast?_toDigits n
  have hcuts : ∀ rest, EndsNumber (Nat.toDigits 10 n) rest →
      Cuts ((Nat.toDigits 10 n).map .char ++ rest) (.literal (.ofInt n)) rest :=
    fun _ => cuts_digits n
  obtain ⟨d, ds, hdigits⟩ := List.exists_cons_of_ne_nil (Nat.toDigits_ne_nil (b := 10) (n := n))
  rw [hdigits] at hall hlast hcuts ⊢
  rw [List.all_cons, Bool.and_eq_true] at hall
  exact ⟨List.cons_ne_nil _ _, fun h => h.number hall.1 hlast hcuts⟩

/-- A decimal ends in a digit. -/
theorem getLast?_fractionForm (h : FractionForm ws) : ∃ e ∈ ws.getLast?, Text.isAlnum e = true := by
  have hdigits : ∀ ds : List Char, ds.all isDigit = true → ds ≠ [] →
      ∃ e ∈ ds.getLast?, Text.isAlnum e = true := by
    intro ds hds hne
    obtain ⟨d, ds, rfl⟩ := List.exists_cons_of_ne_nil hne
    exact getLast?_of_all (Text.all_isAlnum_of_all_isDigit hds)
  have happend : ∀ {before ds : List Char}, (∃ e ∈ ds.getLast?, Text.isAlnum e = true) →
      ∃ e ∈ (before ++ ds).getLast?, Text.isAlnum e = true := by
    rintro before ds ⟨e, he, halnum⟩
    refine ⟨e, ?_, halnum⟩
    rw [List.getLast?_append, Option.mem_def.mp he]
    rfl
  cases h with
  | @intro whole fraction exponent _ _ hfraction hne' hexponent =>
  rw [List.append_cons]
  refine happend ?_
  cases hexponent with
  | none =>
    rw [List.append_nil]
    exact hdigits fraction hfraction hne'
  | some _ hds hne =>
    rw [List.append_cons, ← List.append_assoc]
    exact happend (hdigits _ hds hne)

/-- A decimal is a word. -/
theorem word_fractionForm (h : FractionForm ws) : Word ws := by
  have hlast := getLast?_fractionForm h
  obtain ⟨l, hcuts⟩ := cuts_fraction h
  cases h with
  | @intro whole fraction exponent hwhole hne hfraction hne' hexponent =>
  obtain ⟨d, ds, rfl⟩ := List.exists_cons_of_ne_nil hne
  rw [List.all_cons, Bool.and_eq_true] at hwhole
  exact ⟨List.cons_ne_nil _ _, fun h => h.number hwhole.1 hlast fun rest hrest => hcuts rest hrest.alnum⟩

/-- A minus before a word is a word of its own, and no space comes between them. -/
theorem Word.minus (h : Word ws) (hzero : ws ≠ ['0'])
    (hletter : ∀ c, ws = [c] → Text.isSmallLetter c = false)
    (hsymbol : ∀ c ∈ ws.head?, Text.isSymbol c = false) : Word ('-' :: ws) where
  ne_nil := List.cons_ne_nil _ _
  lexical := by
    intro cs hcs hapart
    obtain ⟨d, ds, rfl⟩ := List.exists_cons_of_ne_nil h.ne_nil
    have hrest : Apart (d :: ds) cs := by
      constructor
      · have hjoins := hapart.joins
        rwa [List.getLast?_cons_cons] at hjoins
      · exact fun heq => absurd heq hzero
      · intro c heq hc
        rw [hletter c heq] at hc
        cases hc
    have hminus : Apart ['-'] (d :: ds ++ cs) := by
      constructor
      · show (Text.isAlnum '-' && Text.isAlnum d || Text.isSymbol '-' && Text.isSymbol d) = false
        rw [hsymbol d rfl, Bool.and_false, Bool.or_false, show Text.isAlnum '-' = false by decide,
          Bool.false_and]
      · exact fun heq => nomatch heq
      · intro c heq hc
        obtain rfl := (List.cons.inj heq).1
        exact absurd hc (by decide)
    exact (h.lexical hcs hrest).symbolic (by decide) (by decide) hminus

/-- A minus before a number. -/
theorem Word.minus_number (h : Word ws) (hdigit : ∀ c ∈ ws.head?, isDigit c = true)
    (hzero : ws ≠ ['0']) : Word ('-' :: ws) := by
  refine h.minus hzero ?_ ?_
  · rintro c rfl
    exact (Text.classes_of_isDigit (hdigit c rfl)).1
  · intro c hc
    exact (Text.classes_of_isDigit (hdigit c hc)).2

/-- Integers are words. -/
theorem word_toString (n : Int) : Word (toString n).toList := by
  have hdigits := word_digits n.natAbs
  rw [toList_toString_int]
  by_cases hn : n < 0
  · rw [if_pos hn]
    refine hdigits.minus_number ?_ ?_
    · intro c hc
      exact isDigit_of_mem_toDigits (List.mem_of_mem_head? hc)
    · intro hzero
      obtain ⟨d, hd, hne⟩ := Binary64.exists_digit_ne_zero (n := n.natAbs) (by omega)
      rw [hzero] at hd
      exact hne (List.mem_singleton.mp hd)
  · rw [if_neg hn]
    exact hdigits

/-- Doubles are words. -/
theorem word_written (x : Binary64) : Word x.written.toList := by
  obtain hnan | ⟨sign, body, hsign, hbody, htext⟩ := x.written_cases
  · rw [hnan]
    have hform : VariableForm ['N', 'a', 'N'] := .intro (by decide) (by decide)
    exact hform.word
  · have hboth : Word body ∧ Word ('-' :: body) := by
      obtain rfl | hfraction := hbody
      · have hinf : Word ['i', 'n', 'f'] :=
          ⟨List.cons_ne_nil _ _, fun h => h.small (by decide) (by decide)⟩
        refine ⟨hinf, hinf.minus (by decide) (fun _ heq => nomatch heq) fun c hc => ?_⟩
        cases hc
        decide
      · refine ⟨word_fractionForm hfraction, (word_fractionForm hfraction).minus_number ?_ ?_⟩
        · cases hfraction with
          | intro hwhole hne =>
          obtain ⟨d, ds, rfl⟩ := List.exists_cons_of_ne_nil hne
          rw [List.all_cons, Bool.and_eq_true] at hwhole
          rintro c hc
          cases hc
          exact hwhole.1
        · intro hzero
          have hpoint : '.' ∈ body := by
            cases hfraction with
            | intro => exact List.mem_append_right _ List.mem_cons_self
          rw [hzero] at hpoint
          exact absurd hpoint (by decide)
    rw [htext]
    obtain rfl | rfl := hsign
    · exact hboth.1
    · exact hboth.2

end Lexer

/-! ## Pieces -/

namespace Piece

open Lexer (Word Lexical Apart)

variable {last : Option Char} {p : Piece} {ps ps' : List Piece} {text : String} {c : Char}

/-- The text of the pieces, after a text of which the last character is given. -/
def textAfter (last : Option Char) : List Piece → List Char
  | [] => []
  | p :: ps => (append ("", last) p).1.toList ++ textAfter (append ("", last) p).2 ps

theorem append_eq (out : String × Option Char) (p : Piece) :
    append out p = (out.1 ++ (append ("", out.2) p).1, (append ("", out.2) p).2) := by
  show _ = (out.1 ++ ("" ++ _), _)
  rw [String.empty_append]
  rfl

theorem toList_foldl_append (out : String × Option Char) (ps : List Piece) :
    (ps.foldl append out).1.toList = out.1.toList ++ textAfter out.2 ps := by
  induction ps generalizing out with
  | nil => exact (List.append_nil _).symm
  | cons p ps ih =>
    rw [List.foldl_cons, ih, append_eq, String.toList_append, List.append_assoc]
    rfl

theorem toList_render (ps : List Piece) : (render ps).toList = textAfter none ps :=
  toList_foldl_append ("", none) ps

/-- A word, or punctuation that needs no space around it. -/
inductive Sound : Piece → Prop
  /-- A word. -/
  | token {text : String} (h : Word text.toList) : Sound (.token text)
  /-- Punctuation, perhaps with a word between two spaces. -/
  | plain {text : String} (hfirst : ∃ c ∈ text.toList.head?,
      Text.isAlnum c = false ∧ Text.isSymbol c = false ∧ c ≠ '\x27')
    (h : ∀ {cs : List Char}, Lexical cs → Lexical (text.toList ++ cs)) : Sound (.plain text)

/-- Whether two pieces would read as one word although no space is put between them. -/
def runsInto : Piece → Piece → Bool
  | .token text, .token next =>
    !joins text.toList.getLast? next.toList.head? &&
      ((text = "0" && next.toList.head? = some '\x27') ||
        (text.toList.length = 1 && text.toList.head?.any Text.isSmallLetter &&
          next.toList.head?.any Text.isAlnum))
  | _, _ => false

theorem textAfter_token (text : String) (ps : List Piece) : textAfter last (.token text :: ps) =
    (if joins last text.toList.head? then ' ' :: text.toList else text.toList) ++
      textAfter ((if joins last text.toList.head? then ' ' :: text.toList else
        text.toList).getLast?.or last) ps := by
  have htext : (if joins last text.toList.head? then " " ++ text else text).toList =
      if joins last text.toList.head? then ' ' :: text.toList else text.toList := by
    split
    · rw [String.toList_append]
      rfl
    · rfl
  rw [← htext]
  show ("" ++ _ : String).toList ++ _ = _
  rw [String.empty_append]
  rfl

/-- A word is all that counts for what comes after it, and perhaps a space comes before it. -/
theorem textAfter_word (htext : text.toList ≠ []) (ps : List Piece) :
    textAfter last (.token text :: ps) =
      (if joins last text.toList.head? then [' '] else []) ++
        (text.toList ++ textAfter text.toList.getLast? ps) := by
  have hlast : (if joins last text.toList.head? then ' ' :: text.toList else
      text.toList).getLast?.or last = text.toList.getLast? := by
    obtain ⟨d, ds, hword⟩ := List.exists_cons_of_ne_nil htext
    rw [hword]
    split
    · rw [List.getLast?_cons_cons, List.getLast?_cons, Option.some_or]
    · rw [List.getLast?_cons, Option.some_or]
  rw [textAfter_token, hlast]
  split
  · rfl
  · rfl

theorem textAfter_plain (text : String) (ps : List Piece) : textAfter last (.plain text :: ps) =
    text.toList ++ textAfter (text.toList.getLast?.or last) ps := by
  show ("" ++ text : String).toList ++ _ = _
  rw [String.empty_append]
  rfl

/-- What comes first after a text is a space or punctuation, or else the word of the first piece, and that
does not join. -/
theorem head?_textAfter {d : Char} (hps : ∀ p ∈ ps, p.Sound) (hd : d ∈ (textAfter last ps).head?) :
    (Text.isAlnum d = false ∧ Text.isSymbol d = false ∧ d ≠ '\x27') ∨
      ∃ text, ps.head? = some (.token text) ∧ text.toList.head? = some d ∧ joins last (some d) = false := by
  cases ps with
  | nil => cases hd
  | cons p ps =>
    cases hps p List.mem_cons_self with
    | @token text h =>
      rw [textAfter_token] at hd
      by_cases hjoins : joins last text.toList.head? = true
      · rw [if_pos hjoins] at hd
        cases hd
        exact .inl (by decide)
      · obtain ⟨e, es, hword⟩ := List.exists_cons_of_ne_nil h.ne_nil
        rw [if_neg hjoins, hword] at hd
        cases hd
        have hhead : text.toList.head? = some d := by rw [hword, List.head?_cons]
        rw [hhead, Bool.not_eq_true] at hjoins
        exact .inr ⟨text, rfl, hhead, hjoins⟩
    | @plain text hfirst h =>
      obtain ⟨e, he, hfirst⟩ := hfirst
      obtain ⟨es, hes⟩ := List.head?_eq_some_iff.mp he
      rw [textAfter_plain, hes] at hd
      cases hd
      exact .inl hfirst

/-- A word is apart from what comes after it if it does not run into the next piece. -/
theorem apart_textAfter (hps : ∀ p ∈ ps, p.Sound)
    (hnext : ∀ q ∈ ps.head?, runsInto (.token text) q = false) :
    Apart text.toList (textAfter text.toList.getLast? ps) where
  joins := by
    cases hd : (textAfter text.toList.getLast? ps).head? with
    | none => cases text.toList.getLast? <;> rfl
    | some d =>
      obtain ⟨halnum, hsymbol, -⟩ | ⟨-, -, -, hjoins⟩ := head?_textAfter hps hd
      · cases text.toList.getLast? with
        | none => rfl
        | some e => rw [joins, halnum, hsymbol, Bool.and_false, Bool.and_false, Bool.or_self]
      · exact hjoins
  zero := by
    intro hzero hd
    obtain ⟨-, -, hne⟩ | ⟨next, hq, hhead, hjoins⟩ := head?_textAfter hps hd
    · exact hne rfl
    · have hruns := hnext _ hq
      have htext : text = "0" := String.toList_injective hzero
      rw [runsInto, hhead, hjoins, htext] at hruns
      cases hruns
  letter := by
    intro c hc hsmall d hd
    obtain ⟨halnum, -, -⟩ | ⟨next, hq, hhead, hjoins⟩ := head?_textAfter hps hd
    · exact halnum
    · have hruns := hnext _ hq
      have hlength : [c].length = 1 := rfl
      rw [runsInto, hhead, hjoins, hc, Bool.not_false, Bool.true_and, Bool.or_eq_false_iff] at hruns
      rw [List.head?_cons, Option.any_some, Option.any_some, hsmall, decide_eq_true hlength] at hruns
      exact hruns.2

/-- **The text of pieces is lexed**, if none runs into the next one. -/
theorem lexical_text (hps : ∀ p ∈ ps, p.Sound) (hruns : ps.IsChain (runsInto · · = false))
    (last : Option Char) : Lexical (textAfter last ps) := by
  induction ps generalizing last with
  | nil => exact Lexer.lexical_nil
  | cons p ps ih =>
    rw [List.forall_mem_cons] at hps
    rw [List.isChain_cons] at hruns
    cases hps.1 with
    | @token text h =>
      have htext := h.lexical (ih hps.2 hruns.2 text.toList.getLast?)
        (apart_textAfter hps.2 hruns.1)
      rw [textAfter_word h.ne_nil]
      split
      · exact htext.space
      · exact htext
    | @plain text hfirst h =>
      rw [textAfter_plain]
      exact h (ih hps.2 hruns.2 _)

/-! ## Punctuation -/

/-- A character that is a token by itself. -/
theorem sound_punctuation (htext : text.toList = [c])
    (hc : ∀ b, (Lexer.punctuation? c b).isSome = true) : Sound (.plain text) := by
  obtain ⟨t, ht⟩ := Option.isSome_iff_exists.mp (hc false)
  refine .plain ⟨c, ?_, Lexer.classes_of_punctuation ht⟩ fun h => ?_
  · rw [htext]
    rfl
  · rw [htext]
    exact h.punctuation hc

/-- Brackets, braces, commas and bars. -/
def marks : List String := ["(", ")", "[", "]", "\x7b", "\x7d", ",", "|"]

theorem sound_mark (h : text ∈ marks) : Sound (.plain text) := by
  have hmarks : (marks.all fun t => t.toList.length = 1 && t.toList.all fun c =>
      (Lexer.punctuation? c false).isSome && (Lexer.punctuation? c true).isSome) = true := by
    decide
  have hmark := List.all_eq_true.mp hmarks text h
  rw [Bool.and_eq_true, decide_eq_true_iff] at hmark
  obtain ⟨c, htext⟩ := List.length_eq_one_iff.mp hmark.1
  rw [htext, List.all_cons, List.all_nil, Bool.and_true, Bool.and_eq_true] at hmark
  refine sound_punctuation htext fun b => ?_
  cases b with
  | false => exact hmark.2.1
  | true => exact hmark.2.2

theorem sound_space : Sound (.plain " ") :=
  .plain ⟨' ', rfl, by decide⟩ fun h => h.space

theorem sound_comma : Sound (.plain ", ") :=
  .plain ⟨',', rfl, by decide⟩ fun h => h.space.punctuation fun b => by cases b <;> rfl

theorem toList_spaced (name : String) : (" " ++ Text.quotedName name ++ " ").toList =
    ' ' :: ((Text.quotedName name).toList ++ [' ']) := by
  rw [String.toList_append, String.toList_append]
  rfl

/-- A name between spaces. -/
theorem sound_spaced (name : String) : Sound (.plain (" " ++ Text.quotedName name ++ " ")) := by
  refine .plain ⟨' ', ?_, by decide⟩ fun {cs} h => ?_
  · rw [toList_spaced]
    rfl
  · have hname := (Lexer.word_quotedName name).lexical h.space (Lexer.apart_space _ cs)
    rw [toList_spaced, List.cons_append, List.append_assoc]
    exact hname.space

end Piece

/-! ## Terms -/

/-- The variable has no name, or one that is read as a variable. -/
def TermVar.Readable (v : TermVar) : Prop := ∀ name ∈ v.sourceName?, Lexer.VariableForm name.toList

namespace TermWriter

open Piece (Sound)

variable {v : TermVar} {ops : OperatorTable} {parts : List (List Piece)} {x : Term}

theorem word_variableName (h : v.Readable) : Lexer.Word (variableName v).toList := by
  rw [variableName_eq]
  cases hname : v.sourceName? with
  | some name => exact (h name hname).word
  | none =>
    have htext : ("_" ++ toString v.id).toList = '_' :: Nat.toDigits 10 v.id := by
      rw [String.toList_append, Lexer.toList_toString_nat]
      rfl
    have halnum := Text.all_isAlnum_of_all_isDigit (Lexer.all_isDigit_toDigits v.id)
    have hform : Lexer.VariableForm ('_' :: Nat.toDigits 10 v.id) := by
      refine .intro (by decide) ?_
      rw [List.all_cons, halnum, Bool.and_true]
      decide
    rw [Option.getD_none, htext]
    exact hform.word

theorem sound_opening (place : Place) : ∀ p ∈ place.opening, p.Sound := by
  cases place with
  | operand limit => exact List.forall_mem_nil _
  | tail => exact List.forall_mem_singleton.mpr (Piece.sound_mark (by decide))

theorem sound_literal (ops : OperatorTable) (limit : Nat) (l : Literal) :
    ∀ p ∈ TermWriter.literal ⟨ops, true⟩ limit l, p.Sound := by
  cases l with
  | small n => exact List.forall_mem_singleton.mpr (.token (Lexer.word_toString _))
  | big n => exact List.forall_mem_singleton.mpr (.token (Lexer.word_toString n))
  | float x => exact List.forall_mem_singleton.mpr (.token (Lexer.word_written x))
  | atom name =>
    have hname : Sound (.token (Text.quotedName name)) := .token (Lexer.word_quotedName name)
    rw [literal]
    split
    · simp only [List.forall_mem_cons]
      exact ⟨Piece.sound_mark (by decide), hname, Piece.sound_mark (by decide), List.forall_mem_nil _⟩
    · exact List.forall_mem_singleton.mpr hname

theorem sound_bracketed {ps : List Piece} (h : ∀ p ∈ ps, p.Sound) (enclosed : Bool) :
    ∀ p ∈ bracketed enclosed ps, p.Sound := by
  cases enclosed with
  | false => exact h
  | true =>
    rw [bracketed, if_pos rfl, List.cons_append, List.forall_mem_cons, List.forall_mem_append,
      List.forall_mem_singleton]
    exact ⟨Piece.sound_mark (by decide), h, Piece.sound_mark (by decide)⟩

theorem sound_separator (ops : OperatorTable) (name : String) (op : Operator) :
    (TermWriter.separator ⟨ops, true⟩ name op).Sound := by
  rw [separator]
  split
  · exact Piece.sound_comma
  split
  · exact Piece.sound_spaced name
  · exact .token (Lexer.word_quotedName name)

/-- Pieces between which others are put are sound if all are. -/
theorem sound_intersperse {separator : List Piece} (hseparator : ∀ p ∈ separator, p.Sound)
    (hparts : ∀ ps ∈ parts, ∀ p ∈ ps, p.Sound) :
    ∀ p ∈ (parts.intersperse separator).flatten, p.Sound := by
  induction parts with
  | nil => exact List.forall_mem_nil _
  | cons ps parts ih =>
    rw [List.forall_mem_cons] at hparts
    cases parts with
    | nil =>
      rw [List.intersperse_singleton, List.flatten_singleton]
      exact hparts.1
    | cons ps' parts =>
      rw [List.intersperse_cons_cons, List.flatten_cons, List.flatten_cons, List.forall_mem_append,
        List.forall_mem_append]
      exact ⟨hparts.1, hseparator, ih hparts.2⟩

theorem sound_assemble (hparts : ∀ ps ∈ parts, ∀ p ∈ ps, p.Sound) (ops : OperatorTable) (place : Place)
    (form : Form) (name : String) : ∀ p ∈ assemble ⟨ops, true⟩ place form name parts, p.Sound := by
  have hflatten : ∀ p ∈ parts.flatten, p.Sound := List.forall_mem_flatten.mpr hparts
  have hname : Sound (.token (TermWriter.name ⟨ops, true⟩ name)) := .token (Lexer.word_quotedName name)
  have hopening := sound_opening place
  have hmark : ∀ text ∈ Piece.marks, Sound (.plain text) := fun _ => Piece.sound_mark
  cases form with
  | cell =>
    cases place with
    | operand limit =>
      simp only [assemble, List.cons_append, List.forall_mem_cons, List.forall_mem_append]
      exact ⟨hmark _ (by decide), hflatten, hmark _ (by decide), List.forall_mem_nil _⟩
    | tail =>
      simp only [assemble, List.forall_mem_cons]
      exact ⟨hmark _ (by decide), hflatten⟩
  | curly =>
    simp only [assemble, List.append_assoc, List.cons_append, List.forall_mem_cons,
      List.forall_mem_append]
    exact ⟨hopening, hmark _ (by decide), hflatten, hmark _ (by decide), List.forall_mem_nil _⟩
  | between op =>
    have hseparator := List.forall_mem_singleton.mpr (sound_separator ops name op)
    rw [assemble, List.forall_mem_append]
    exact ⟨hopening, sound_bracketed (sound_intersperse hseparator hparts) _⟩
  | before op =>
    rw [assemble, List.forall_mem_append]
    refine ⟨hopening, sound_bracketed ?_ _⟩
    simp only [List.forall_mem_cons]
    exact ⟨hname, Piece.sound_space, hflatten⟩
  | after op =>
    rw [assemble, List.forall_mem_append]
    refine ⟨hopening, sound_bracketed ?_ _⟩
    simp only [List.forall_mem_append, List.forall_mem_cons]
    exact ⟨hflatten, Piece.sound_space, hname, List.forall_mem_nil _⟩
  | call =>
    have hseparator := List.forall_mem_singleton.mpr (hmark "," (by decide))
    simp only [assemble, List.append_assoc, List.cons_append, List.forall_mem_cons,
      List.forall_mem_append]
    exact ⟨hopening, hname, hmark _ (by decide), sound_intersperse hseparator hparts,
      hmark _ (by decide), List.forall_mem_nil _⟩

theorem sound_args {xs : List Term} {w : TermWriter}
    (h : ∀ x ∈ xs, ∀ place, ∀ p ∈ w.pieces place x, p.Sound) (form : Form) (index : Nat) :
    ∀ ps ∈ w.argPieces form index xs, ∀ p ∈ ps, p.Sound := by
  induction xs generalizing index with
  | nil =>
    rw [argPieces]
    exact List.forall_mem_nil _
  | cons x xs ih =>
    rw [List.forall_mem_cons] at h
    rw [argPieces, List.forall_mem_cons]
    exact ⟨h.1 _, ih h.2 _⟩

/-- **What is written of a term are words and punctuation.** -/
theorem sound_pieces (hx : ∀ v ∈ x.vars, v.Readable) (ops : OperatorTable) (place : Place) :
    ∀ p ∈ TermWriter.pieces ⟨ops, true⟩ place x, p.Sound := by
  induction x using Term.induct generalizing place with
  | literal l =>
    rw [pieces]
    split
    · exact List.forall_mem_nil _
    · rw [List.forall_mem_append]
      exact ⟨sound_opening place, sound_literal ops _ l⟩
  | compound name xs ih =>
    rw [Term.vars_compound] at hx
    rw [pieces]
    refine sound_assemble (sound_args (fun y hy place => ih y hy ?_ place) _ 0) ops place _ name
    exact fun v hv => hx v (List.mem_flatMap.mpr ⟨y, hy, hv⟩)
  | var v =>
    rw [Term.vars_var, List.forall_mem_singleton] at hx
    rw [pieces, List.forall_mem_append, List.forall_mem_singleton]
    exact ⟨sound_opening place, .token (word_variableName hx)⟩

end TermWriter

/-! ## Clauses -/

namespace Clause

open Lexer (Lexes Lexed)

/-- **The full stop of a listing is recognised if and only if the text before it does not end in a
symbol**: the listing of a clause gives the tokens that its text gives before a space, and a full stop.
After a symbol it gives no full stop, and the last name has a point more.

The variables have to be such as are read, and no two tokens may run into each other. -/
theorem lexes_listing {ops : OperatorTable} {s : Store} {c : Clause}
    (hvars : ∀ v ∈ (s.snapshot c.raw).vars, v.Readable)
    (hruns : (TermWriter.pieces { ops } (.operand 1200) (s.snapshot c.raw)).IsChain
      (Piece.runsInto · · = false)) :
    let text := TermWriter.write { ops } (s.snapshot c.raw)
    ∃ tokens, Lexes { input := .ofText (text ++ " ") } tokens ∧
      (Lexes { input := .ofText (c.listing ops s) } (tokens ++ [.stop]) ↔
        ∀ d ∈ text.toList.getLast?, Text.isSymbol d = false) ∧
      ∀ d ∈ text.toList.getLast?, Text.isSymbol d = true → ∃ before name,
        tokens = before ++ [.literal (.atom name)] ∧
        Lexes { input := .ofText (c.listing ops s) } (before ++ [.literal (.atom (name ++ "."))]) := by
  intro text
  have hlexical := Piece.lexical_text (TermWriter.sound_pieces hvars ops _) hruns none
  rw [← Piece.toList_render] at hlexical
  obtain ⟨tokens, last, last', hending, hspace, hpoint⟩ := hlexical.closes false
  have hfollowed : ∀ d : Char, Input.ofText (text ++ String.ofList [d]) =
      Lexer.followed text.toList d := by
    intro d
    rw [Input.ofText, String.toList_append, String.toList_ofList, Lexer.followed, List.map_append]
    rfl
  have hspace : Lexes { input := .ofText (text ++ " ") } (tokens ++ last) := by
    have hinput := hfollowed ' '
    exact hinput ▸ hspace {}
  have hpoint : Lexes { input := .ofText (c.listing ops s) } (tokens ++ last') := by
    have hinput := hfollowed '.'
    exact hinput ▸ hpoint {}
  refine ⟨tokens ++ last, hspace, ?_⟩
  cases hending with
  | stop h =>
    rw [List.append_nil]
    refine ⟨iff_of_true hpoint h, fun d hd hsymbol => ?_⟩
    rw [h d hd] at hsymbol
    cases hsymbol
  | joined name h =>
    obtain ⟨d, hd, hsymbol⟩ := h
    refine ⟨iff_of_false ?_ ?_, fun _ _ _ => ⟨tokens, name, rfl, hpoint⟩⟩
    · intro hstop
      have hlength := congrArg List.length (hstop.unique hpoint)
      simp at hlength
    · intro h
      rw [h d hd] at hsymbol
      cases hsymbol

/-- The fact `+` is listed without a full stop. -/
theorem lexes_listing_plus : ∃ s t c, compile s t = .ok c ∧
    ∃ tokens, Lexes { input := .ofText "+ " } tokens ∧
      ¬ Lexes { input := .ofText (c.listing .standard s) } (tokens ++ [.stop]) := by
  let built := ({} : Store).build (.atom "+")
  have hok : (match compile built.2 built.1 with
      | .ok c => c.raw == built.1
      | .error _ => false) = true := by decide +kernel
  rcases hc : compile built.2 built.1 with e | c
  · rw [hc] at hok
    cases hok
  · rw [hc, beq_iff_eq] at hok
    have hsnapshot : built.2.snapshot c.raw = .literal (.atom "+") := by
      rw [hok]
      rfl
    have hpieces : TermWriter.pieces {} (.operand 1200) (.literal (.atom "+")) = [.token "+"] := by
      decide +kernel
    have hvars : ∀ v ∈ (built.2.snapshot c.raw).vars, v.Readable := by
      rw [hsnapshot, Term.vars_literal]
      exact List.forall_mem_nil _
    have hruns : (TermWriter.pieces {} (.operand 1200) (built.2.snapshot c.raw)).IsChain
        (Piece.runsInto · · = false) := by
      rw [hsnapshot, hpieces]
      exact .singleton _
    obtain ⟨tokens, hspace, hstop, -⟩ := lexes_listing hvars hruns
    rw [hsnapshot, TermWriter.write, hpieces] at hspace hstop
    refine ⟨_, _, c, hc, tokens, hspace, fun hlexes => ?_⟩
    exact absurd (hstop.mp hlexes '+' rfl) (by decide)

end Clause

end Clausal
