import Clausal.TermWriter
import Clausal.Proofs.Actions
import Clausal.Proofs.Syntax.Grammar
import Clausal.Proofs.Syntax.Tables
import Mathlib.Data.Bool.AllAny
import Mathlib.Data.Nat.Digits.Defs

/-! # Words read back

A name is written bare, or between single quotes with escapes (`Text.quotedName`), and an integer in
decimal digits.  Here it is shown that a lexer that meets such a word cuts off just the tokens that the
word stands for, if what comes next does not continue the word (`Input.Stops`).  `Lexer.Cuts` says so of
one token, whatever place the lexer has reached, and `Lexer.CutsAll` of several.  A bracket, a comma, a
bar or a space continues no word (`Text.closing`).  For names this holds under any tables of characters
that know their ASCII, if the name is written under the same tables (`Lexer.CutsUnder`).

The results are `Lexer.cutsUnder_quotedName` and `Lexer.cuts_digits`.
-/

namespace Clausal

namespace Text

/-! ## Digits -/

theorem digitValue?_digitChar {radix k : Nat} (hradix : radix ≤ 16) (hk : k < radix) :
    digitValue? radix (Nat.digitChar k) = some k := by
  -- The letters come after the ten digits.
  have hcases : ∀ k < 16, (isDigit (Nat.digitChar k) = true ∧
      (Nat.digitChar k).toNat - '0'.toNat = k) ∨ (isDigit (Nat.digitChar k) = false ∧
      ('a' ≤ Nat.digitChar k && Nat.digitChar k ≤ 'f') = true ∧
      (Nat.digitChar k).toNat - 'a'.toNat + 10 = k) := by
    decide
  unfold digitValue?
  dsimp only
  obtain ⟨hdigit, hvalue⟩ | ⟨hdigit, hletter, hvalue⟩ := hcases k (Nat.lt_of_lt_of_le hk hradix)
  · rw [if_pos hdigit, hvalue, if_pos hk]
  · rw [hdigit, if_neg Bool.false_ne_true, if_pos hletter, hvalue, if_pos hk]

/-- The digits of a number are digits, and they denote it. -/
theorem digits_toDigits {radix : Nat} (hradix : 1 < radix) (hle : radix ≤ 16) (n : Nat) :
    (Nat.toDigits radix n).all (isDigitOf radix) = true ∧
      digitsValue radix (Nat.toDigits radix n) = n := by
  induction n using Nat.strongRecOn with
  | ind n ih =>
  by_cases hn : n < radix
  · have hvalue := digitValue?_digitChar hle hn
    rw [Nat.toDigits_of_lt_base hn]
    constructor
    · simp [isDigitOf, hvalue]
    · simp [digitsValue, hvalue]
  · have hlast := digitValue?_digitChar hle (Nat.mod_lt n (Nat.zero_lt_of_lt hradix))
    have hbase : radix ≤ n := Nat.le_of_not_lt hn
    obtain ⟨hall, hvalue⟩ := ih (n / radix) (Nat.div_lt_self (by omega) hradix)
    rw [Nat.toDigits_of_base_le hradix hbase]
    constructor
    · rw [List.all_append, hall]
      simp [isDigitOf, hlast]
    · rw [digitsValue, List.foldl_append]
      show digitsValue radix (Nat.toDigits radix (n / radix)) * radix +
        (digitValue? radix (Nat.digitChar (n % radix))).getD 0 = n
      rw [hvalue, hlast, Option.getD_some, Nat.mul_comm]
      exact Nat.div_add_mod n radix

end Text

namespace Input

/-- The input has ended, or goes on with a character that is not of the class. -/
def Stops (q : Char → Bool) : Input → Prop
  | [] => True
  | .char d :: _ => q d = false
  | .fault _ :: _ => False

/-- What is in no class that is larger is not in the class. -/
theorem Stops.mono {q q' : Char → Bool} {rest : Input} (h : rest.Stops q')
    (hle : ∀ d, q d = true → q' d = true) : rest.Stops q := by
  rcases rest with _ | ⟨d | fault, rest⟩
  · exact h
  · exact Bool.eq_false_iff.mpr fun hd => Bool.eq_false_iff.mp h (hle d hd)
  · exact h

end Input

namespace Lexer

variable {c d : Char} {b : Bool} {p : Position} {rest : Input} {t : Token}

/-- Characters of a class are taken up to the first that is not of the class. -/
theorem takeWhile_eq {q : Char → Bool} {cs : List Char} (hcs : cs.all q = true) (hrest : rest.Stops q)
    (p : Position) (b : Bool) :
    takeWhile q ⟨cs.map .char ++ rest, p, b⟩ = .ok cs ⟨rest, p.after cs, b⟩ := by
  have hspan : spanChars q (cs.map .char ++ rest) = (cs, rest) := by
    induction cs with
    | nil =>
      rcases rest with _ | ⟨d | fault, rest⟩
      · rfl
      · show (if q d = true then _ else _) = _
        rw [show q d = false from hrest]
        rfl
      · exact hrest.elim
    | cons c cs ih =>
      rw [List.all_cons, Bool.and_eq_true] at hcs
      rw [List.map_cons, List.cons_append, spanChars, if_pos hcs.1, ih hcs.2]
  rw [takeWhile]
  dsimp only
  rw [hspan]
  rcases rest with _ | ⟨d | fault, rest⟩
  · rfl
  · rfl
  · exact hrest.elim

/-- A character that does not come next is not skipped. -/
theorem skipIf_eq (hrest : rest.Stops (· = c)) (p : Position) (b : Bool) :
    skipIf c ⟨rest, p, b⟩ = .ok false ⟨rest, p, b⟩ := by
  rcases rest with _ | ⟨d | fault, rest⟩
  · rfl
  · have hd : some d ≠ some c := fun h => of_decide_eq_false hrest (Option.some.inj h)
    show (if some d = some c then _ else _ : Lexing Bool) _ = _
    rw [if_neg hd]
    rfl
  · exact hrest.elim

/-! ## Quoted names -/

theorem quotedPart_plain (hquote : c ≠ '\x27') (hescape : c ≠ '\\') (rest : Input) (p : Position)
    (b : Bool) : quotedPart '\x27' ⟨.char c :: rest, p, b⟩ = .ok (.char c) ⟨rest, p.next c, b⟩ := by
  have htake : take ⟨.char c :: rest, p, b⟩ = .ok c ⟨rest, p.next c, b⟩ := rfl
  rw [quotedPart, bind_eq_of_ok htake, if_neg hquote, if_neg hescape]
  rfl

/-- A character that is written as its code. -/
theorem quotedPart_code (c : Char) (rest : Input) (p : Position) (b : Bool) : ∃ p', quotedPart '\x27'
    ⟨(.char '\\' :: .char 'x' :: (Nat.toDigits 16 c.toNat).map .char) ++ .char '\\' :: rest, p, b⟩ =
      .ok (.char c) ⟨rest, p', b⟩ := by
  obtain ⟨hall, hvalue⟩ := Text.digits_toDigits (by decide) (Nat.le_refl 16) c.toNat
  have hstops : Input.Stops (Text.isDigitOf 16) (.char '\\' :: rest) :=
    (by decide : Text.isDigitOf 16 '\\' = false)
  have htake := takeWhile_eq hall hstops ((p.next '\\').next 'x') b
  have hchar : charOfDigits? 16 (Nat.toDigits 16 c.toNat) = some c := by
    have hvalid : c.toNat.isValidChar := c.valid
    have hne : (Nat.toDigits 16 c.toNat).isEmpty = false := by
      rw [List.isEmpty_eq_false_iff]
      exact Nat.toDigits_ne_nil
    rw [charOfDigits?, hne, if_neg Bool.false_ne_true, hvalue, Text.Utf8.scalar?, dif_pos hvalid]
    rfl
  have hlook : ∀ q, lookahead ⟨.char '\\' :: rest, q, b⟩ = .ok '\\' ⟨.char '\\' :: rest, q, b⟩ :=
    fun _ => rfl
  have hskip : ∀ q, skip '\\' ⟨.char '\\' :: rest, q, b⟩ = .ok () ⟨rest, q.next '\\', b⟩ :=
    fun _ => rfl
  have hescape : numericEscape 16
      ⟨(Nat.toDigits 16 c.toNat).map .char ++ .char '\\' :: rest, (p.next '\\').next 'x', b⟩ = .ok c
        ⟨rest, (((p.next '\\').next 'x').after (Nat.toDigits 16 c.toNat)).next '\\', b⟩ := by
    rw [numericEscape, bind_eq_of_ok htake, bind_eq_of_ok (hlook _), if_pos rfl,
      bind_eq_of_ok (hskip _), hchar]
    rfl
  exact ⟨_, map_eq_of_ok hescape⟩

/-- A character as it is written between single quotes is that part of the text. -/
theorem quotedPart_quotedChar (u : Text.Tables) (c : Char) (rest : Input) (p : Position) (b : Bool) :
    ∃ p', quotedPart '\x27' ⟨(u.quotedChar c).toList.map .char ++ rest, p, b⟩ =
      .ok (.char c) ⟨rest, p', b⟩ := by
  unfold Text.Tables.quotedChar
  split
  case h_11 hquote _ _ _ _ _ _ _ hescape _ =>
    split
    · have hcode := quotedPart_code c rest p b
      have htext : ("\\x" ++ Text.hexDigits c.toNat ++ "\\").toList =
          '\\' :: 'x' :: (Nat.toDigits 16 c.toNat ++ ['\\']) := by
        simp [Text.hexDigits]
      rw [htext, List.map_cons, List.map_cons, List.map_append, ← List.cons_append, ← List.cons_append,
        List.append_assoc]
      exact hcode
    · have hplain := quotedPart_plain hquote hescape rest p b
      rw [Char.toString, String.toList_singleton]
      exact ⟨_, hplain⟩
  all_goals exact ⟨_, rfl⟩

/-- The characters of a name between single quotes are read one after the other. -/
theorem quotedParts_quotedChars (u : Text.Tables) (cs before : List Char) (rest : Input)
    (p : Position) (b : Bool) :
    ∃ p', quotedParts '\x27' before
      ⟨(cs.flatMap fun c => (u.quotedChar c).toList).map .char ++ rest, p, b⟩ =
        quotedParts '\x27' (cs.reverse ++ before) ⟨rest, p', b⟩ := by
  induction cs generalizing before p with
  | nil => exact ⟨p, rfl⟩
  | cons c cs ih =>
    obtain ⟨p₁, hpart⟩ := quotedPart_quotedChar u c
      ((cs.flatMap fun c => (u.quotedChar c).toList).map .char ++ rest) p b
    obtain ⟨p', hparts⟩ := ih (c :: before) p₁
    refine ⟨p', ?_⟩
    rw [List.flatMap_cons, List.map_append, List.append_assoc, quotedParts_eq, hpart]
    dsimp only
    rw [hparts, List.reverse_cons, List.append_assoc, List.singleton_append]

/-- A quote ends the name, unless another one follows. -/
theorem quotedParts_close (before : List Char) (hrest : rest.Stops (· = '\x27')) (p : Position)
    (b : Bool) : quotedParts '\x27' before ⟨.char '\x27' :: rest, p, b⟩ =
      .ok before.reverse ⟨rest, p.next '\x27', b⟩ := by
  have htake : take ⟨.char '\x27' :: rest, p, b⟩ = .ok '\x27' ⟨rest, p.next '\x27', b⟩ := rfl
  have hclose : quotedPart '\x27' ⟨.char '\x27' :: rest, p, b⟩ =
      .ok .close ⟨rest, p.next '\x27', b⟩ := by
    rw [quotedPart, bind_eq_of_ok htake, if_pos rfl, bind_eq_of_ok (skipIf_eq hrest _ _)]
    rfl
  rw [quotedParts_eq, hclose]

/-- Two quotes are one within the name. -/
theorem quotedParts_doubled (before : List Char) (rest : Input) (p : Position) (b : Bool) :
    quotedParts '\x27' before ⟨.char '\x27' :: .char '\x27' :: rest, p, b⟩ =
      quotedParts '\x27' ('\x27' :: before) ⟨rest, (p.next '\x27').next '\x27', b⟩ := by
  rw [quotedParts_eq]
  rfl

/-! ## Tokens -/

/-- Whatever place was reached, the token is cut off the input, and the rest is left. -/
def Cuts (input : Input) (t : Token) (rest : Input) : Prop :=
  ∀ p, ∃ p', token ⟨input, p, false⟩ = .ok t ⟨rest, p', false⟩

/-- The tokens are cut off the input one after the other, and the rest is left. -/
inductive CutsAll : Input → List Token → Input → Prop
  /-- No token. -/
  | nil (input : Input) : CutsAll input [] input
  /-- One more token in front. -/
  | cons {input rest rest' : Input} {t : Token} {tokens : List Token} (h : Cuts input t rest)
    (htokens : CutsAll rest tokens rest') : CutsAll input (t :: tokens) rest'

theorem Cuts.all {input : Input} (h : Cuts input t rest) : CutsAll input [t] rest :=
  .cons h (.nil rest)

theorem CutsAll.append {input rest' : Input} {tokens tokens' : List Token}
    (h : CutsAll input tokens rest) (h' : CutsAll rest tokens' rest') :
    CutsAll input (tokens ++ tokens') rest' := by
  induction h with
  | nil => exact h'
  | cons h _ ih => exact .cons h (ih h')

/-- The token is cut off the input under the tables. -/
def CutsUnder (u : Text.Tables) (input : Input) (t : Token) (rest : Input) : Prop :=
  ∀ p, ∃ p', tokenUnder u ⟨input, p, false⟩ = .ok t ⟨rest, p', false⟩

/-- The tokens are cut off the input one after the other under the tables, and the rest is left. -/
inductive CutsAllUnder (u : Text.Tables) : Input → List Token → Input → Prop
  /-- No token. -/
  | nil (input : Input) : CutsAllUnder u input [] input
  /-- One more token in front. -/
  | cons {input rest rest' : Input} {t : Token} {tokens : List Token} (h : CutsUnder u input t rest)
    (htokens : CutsAllUnder u rest tokens rest') : CutsAllUnder u input (t :: tokens) rest'

theorem CutsUnder.all {u : Text.Tables} {input : Input} (h : CutsUnder u input t rest) :
    CutsAllUnder u input [t] rest :=
  .cons h (.nil rest)

theorem CutsAllUnder.append {u : Text.Tables} {input rest' : Input} {tokens tokens' : List Token}
    (h : CutsAllUnder u input tokens rest) (h' : CutsAllUnder u rest tokens' rest') :
    CutsAllUnder u input (tokens ++ tokens') rest' := by
  induction h with
  | nil => exact h'
  | cons h _ ih => exact .cons h (ih h')

theorem cutsUnder_standard {input : Input} : CutsUnder .standard input t rest ↔ Cuts input t rest := by
  rw [CutsUnder, tokenUnder_standard, Cuts]

theorem CutsAllUnder.cutsAll {input : Input} {tokens : List Token}
    (h : CutsAllUnder .standard input tokens rest) : CutsAll input tokens rest := by
  induction h with
  | nil input => exact .nil input
  | cons h _ ih => exact .cons (cutsUnder_standard.mp h) ih

/-- A character that is no layout and begins no comment is not skipped. -/
theorem scanLayout_stays (hlayout : Text.isLayout c = false) (hline : c ≠ '%')
    (hblock : c = '/' → rest.Stops (· = '*')) (p : Position) :
    ∃ p', scanLayout ⟨.char c :: rest, p, false⟩ = .ok false ⟨.char c :: rest, p', false⟩ := by
  have hskip : ∃ p', skipLayout .none false p (.char c :: rest) = (.ok false, p', .char c :: rest) := by
    rw [skipLayout_char, hlayout, if_neg Bool.false_ne_true, if_neg hline]
    by_cases hslash : c = '/'
    · have hstops := hblock hslash
      rw [if_pos hslash]
      split
      · exact absurd hstops (by simp [Input.Stops])
      · exact hstops.elim
      · exact ⟨_, rfl⟩
    · rw [if_neg hslash]
      exact ⟨_, rfl⟩
  obtain ⟨p', hskip⟩ := hskip
  refine ⟨p', ?_⟩
  rw [scanLayout]
  dsimp only
  rw [hskip]

/-- The character after the layout begins the token. -/
theorem tokenUnder_of_scanLayout {u : Text.Tables} {input : Input} {p' : Position}
    (hscan : scanLayout ⟨input, p, false⟩ = .ok b ⟨.char c :: rest, p', false⟩) :
    tokenUnder u ⟨input, p, false⟩ = tokenFromUnder u b c ⟨.char c :: rest, p', false⟩ := by
  show (do
    let seen ← scanLayout
    let c ← lookahead
    tokenFromUnder u (false || seen) c : Lexing Token) ⟨input, p, false⟩ = _
  rw [bind_eq_of_ok hscan]
  rfl

/-- The character begins a token, and is no layout and begins no comment. -/
theorem cutsUnder_of_tokenFromUnder {u : Text.Tables} {rest' : Input}
    (hlayout : Text.isLayout c = false) (hline : c ≠ '%') (hblock : c = '/' → rest.Stops (· = '*'))
    (h : ∀ p, ∃ p', tokenFromUnder u false c ⟨.char c :: rest, p, false⟩ = .ok t ⟨rest', p', false⟩) :
    CutsUnder u (.char c :: rest) t rest' := by
  intro p
  obtain ⟨p₁, hscan⟩ := scanLayout_stays hlayout hline hblock p
  rw [tokenUnder_of_scanLayout hscan]
  exact h p₁

/-- If it is an ASCII character that is no letter, the tables do not matter. -/
theorem cutsUnder_of_tokenFrom {u : Text.Tables} {rest' : Input} (hu : u.Usual)
    (hc : Text.Tables.Plain c) (hlayout : Text.isLayout c = false) (hline : c ≠ '%')
    (hblock : c = '/' → rest.Stops (· = '*'))
    (h : ∀ p, ∃ p', tokenFrom false c ⟨.char c :: rest, p, false⟩ = .ok t ⟨rest', p', false⟩) :
    CutsUnder u (.char c :: rest) t rest' := by
  rw [← tokenFromUnder_eq hu hc] at h
  exact cutsUnder_of_tokenFromUnder hlayout hline hblock h

theorem cuts_of_tokenFrom {rest' : Input} (hlayout : Text.isLayout c = false) (hline : c ≠ '%')
    (hblock : c = '/' → rest.Stops (· = '*'))
    (h : ∀ p, ∃ p', tokenFrom false c ⟨.char c :: rest, p, false⟩ = .ok t ⟨rest', p', false⟩) :
    Cuts (.char c :: rest) t rest' := by
  rw [← tokenFromUnder_standard] at h
  exact cutsUnder_standard.mp (cutsUnder_of_tokenFromUnder hlayout hline hblock h)

/-- A character that is a token by itself begins no other token, no layout and no comment. -/
theorem start_of_punctuation (h : punctuation? c b = some t) :
    Text.Tables.Plain c ∧ Text.isLayout c = false ∧ c ≠ '%' ∧ c ≠ '/' := by
  unfold punctuation? at h
  split at h
  case h_9 => cases h
  all_goals decide

/-- It continues none, either. -/
theorem classes_of_punctuation (h : punctuation? c b = some t) :
    Text.isAlnum c = false ∧ Text.isSymbol c = false ∧ c ≠ '\x27' := by
  unfold punctuation? at h
  split at h
  case h_9 => cases h
  all_goals decide

theorem cutsUnder_punctuation {u : Text.Tables} (hu : u.Usual) (h : punctuation? c false = some t) :
    CutsUnder u (.char c :: rest) t rest := by
  obtain ⟨hplain, hlayout, hline, hslash⟩ := start_of_punctuation h
  have hvariable : Text.isVariableStart c = false := hplain.2.2
  refine cutsUnder_of_tokenFrom hu hplain hlayout hline (fun heq => absurd heq hslash) ?_
  intro p
  refine ⟨p.next c, ?_⟩
  rw [tokenFrom, hvariable, if_neg Bool.false_ne_true, h]
  rfl

/-- A space and a point at the end are a full stop. -/
theorem cutsUnder_stop {u : Text.Tables} (hu : u.Usual) : CutsUnder u [.char ' ', .char '.'] .stop [] := by
  intro p
  have hscan : scanLayout ⟨[.char ' ', .char '.'], p, false⟩ =
      .ok true ⟨[.char '.'], p.next ' ', false⟩ := rfl
  refine ⟨(p.next ' ').next '.', ?_⟩
  rw [tokenUnder_of_scanLayout hscan, tokenFromUnder_eq hu (by decide)]
  rfl

theorem cuts_stop : Cuts [.char ' ', .char '.'] .stop [] :=
  cutsUnder_standard.mp (cutsUnder_stop Text.Tables.usual_standard)

end Lexer

namespace Text

/-- Characters that a class tells apart are different. -/
theorem ne_of_class {q : Char → Bool} {c e : Char} (hc : q c = true) (he : q e = false) : c ≠ e := by
  rintro rfl
  rw [hc] at he
  cases he

/-- The decimal digits. -/
def digits : List Char := ['0', '1', '2', '3', '4', '5', '6', '7', '8', '9']

theorem mem_of_isDigit {c : Char} (h : isDigit c = true) : c ∈ digits := by
  rw [isDigit, Bool.and_eq_true] at h
  have hle : 48 ≤ c.toNat := of_decide_eq_true h.1
  have hge : c.toNat ≤ 57 := of_decide_eq_true h.2
  have hmem : ∀ k < 10, Char.ofNat (48 + k) ∈ digits := by decide
  have hc := hmem (c.toNat - 48) (by omega)
  rwa [Nat.add_sub_cancel' hle, Char.ofNat_toNat] at hc

/-- Digits begin no names. -/
theorem classes_of_isDigit {c : Char} (h : isDigit c = true) :
    isSmallLetter c = false ∧ isSymbol c = false := by
  have hdigits : ∀ e ∈ digits, isSmallLetter e = false ∧ isSymbol e = false :=
    List.all_iff_forall_prop.mp (by decide)
  exact hdigits c (mem_of_isDigit h)

theorem isAlnum_of_isDigit {c : Char} (h : isDigit c = true) : isAlnum c = true := by
  rw [isAlnum, h, Bool.or_true]

theorem all_isAlnum_of_all_isDigit {cs : List Char} (h : cs.all isDigit = true) :
    cs.all isAlnum = true :=
  List.all_eq_true.mpr fun c hc => isAlnum_of_isDigit (List.all_eq_true.mp h c hc)

/-- Some characters of a text in a class are in the class. -/
theorem all_sublist {q : Char → Bool} {cs ds : List Char} (h : ds.Sublist cs) (hcs : cs.all q = true) :
    ds.all q = true :=
  List.all_eq_true.mpr fun d hd => List.all_eq_true.mp hcs d (h.mem hd)

/-- The characters that join into symbolic names. -/
def symbols : List Char :=
  ['#', '$', '&', '*', '+', '-', '.', '/', ':', '<', '=', '>', '?', '@', '^', '~', '\\']

theorem mem_of_isSymbol {c : Char} (h : isSymbol c = true) : c ∈ symbols :=
  List.contains_iff_mem.mp h

/-- Symbols begin no other names and no numbers, and continue neither. -/
theorem classes_of_isSymbol {c : Char} (h : isSymbol c = true) :
    isSmallLetter c = false ∧ isDigit c = false ∧ isAlnum c = false := by
  have hsymbols : ∀ e ∈ symbols, isSmallLetter e = false ∧ isDigit e = false ∧ isAlnum e = false :=
    List.all_iff_forall_prop.mp (by decide)
  exact hsymbols c (mem_of_isSymbol h)

theorem isSymbol_of_isAlnum {c : Char} (h : isAlnum c = true) : isSymbol c = false :=
  Bool.eq_false_iff.mpr fun hsymbol => ne_of_class h (classes_of_isSymbol hsymbol).2.2 rfl

/-- What needs no quotes because it is a symbolic name. -/
theorem isSymbolicName_cases {c : Char} {cs : List Char} (h : isSymbolicName c cs = true) :
    cs.all isSymbol = true ∧ (c = '.' → cs ≠ []) ∧ (c = '/' → ∀ more, cs ≠ '*' :: more) := by
  unfold isSymbolicName at h
  split at h
  · cases h
  · cases h
  · rename_i hblock hpoint
    refine ⟨h, ?_, ?_⟩
    · rintro rfl rfl
      exact hpoint rfl rfl
    · rintro rfl more rfl
      exact hblock more rfl rfl

/-- A point can be added. -/
theorem isSymbolicName_point {c : Char} {cs : List Char} (h : isSymbolicName c cs = true) :
    isSymbolicName c (cs ++ ['.']) = true := by
  obtain ⟨hall, -, hslash⟩ := isSymbolicName_cases h
  unfold isSymbolicName
  split
  · rename_i more heq
    cases cs with
    | nil => cases heq
    | cons d cs =>
      obtain rfl := (List.cons.inj heq).1
      exact absurd rfl (hslash rfl cs)
  · rename_i heq
    cases cs <;> cases heq
  · rw [List.all_append, hall]
    decide

/-- Some characters that can come right after a word. -/
def closing : List Char := ['(', ')', ',', '|', ']', '\x7d', ' ']

/-- They continue no name of letters, whatever the tables say of them. -/
theorem stopsUnder_closing (u : Tables) {d : Char} (hd : d ∈ closing) (rest : Input) :
    Input.Stops u.isAlnum (.char d :: rest) := by
  have hclosing : ∀ e ∈ closing, decide (e = '_') = false ∧ (isLayout e || isSolo e) = true ∧
      isDigit e = false :=
    List.all_iff_forall_prop.mp (by decide)
  obtain ⟨hunderscore, hclass, hdigit⟩ := hclosing d hd
  have hname : u.isNameChar d = false := by
    rw [Tables.isNameChar, hunderscore, Bool.false_or]
    rcases Bool.or_eq_true_iff.mp hclass with hlayout | hsolo
    · rw [hlayout, Bool.not_true, Bool.and_false, Bool.false_and, Bool.false_and]
    · rw [hsolo, Bool.not_true, Bool.and_false]
  show u.isAlnum d = false
  rw [Tables.isAlnum, hname, hdigit, Bool.or_self]

/-- They continue no word. -/
theorem stops_closing {d : Char} (hd : d ∈ closing) (rest : Input) :
    Input.Stops isAlnum (.char d :: rest) ∧ Input.Stops isSymbol (.char d :: rest) ∧
      Input.Stops (· = '\x27') (.char d :: rest) ∧ d ≠ '.' := by
  have hclosing : ∀ e ∈ closing, isAlnum e = false ∧ isSymbol e = false ∧ decide (e = '\x27') = false ∧
      e ≠ '.' :=
    List.all_iff_forall_prop.mp (by decide)
  exact hclosing d hd

/-! ## Names -/

/-- How a name is written: bare if it can be, and else between quotes. -/
inductive NameForm (u : Tables) : String → List Char → Prop
  /-- A small letter and what continues a name. -/
  | small {c : Char} {cs : List Char} (hc : u.isSmallLetter c = true) (hcs : cs.all u.isAlnum = true) :
    NameForm u (String.ofList (c :: cs)) (c :: cs)
  /-- Symbols. -/
  | symbolic {c : Char} {cs : List Char} (hc : isSymbol c = true) (hcs : isSymbolicName c cs = true) :
    NameForm u (String.ofList (c :: cs)) (c :: cs)
  /-- A character that is a name by itself. -/
  | solo {c : Char} (hc : c = '!' ∨ c = ';') : NameForm u (String.ofList [c]) [c]
  /-- The empty list. -/
  | list : NameForm u "[]" ['[', ']']
  /-- The empty braces. -/
  | braces : NameForm u "\x7b\x7d" ['\x7b', '\x7d']
  /-- Any name between quotes. -/
  | quoted (name : String) :
    NameForm u name ('\x27' :: (name.toList.flatMap fun c => (u.quotedChar c).toList) ++ ['\x27'])

theorem nameForm_quotedName (u : Tables) (name : String) :
    NameForm u name (u.quotedName name).toList := by
  obtain ⟨cs, rfl⟩ : ∃ cs, name = String.ofList cs := ⟨name.toList, String.ofList_toList.symm⟩
  rw [Tables.quotedName, String.toList_ofList]
  by_cases hbare : u.isBareName cs = true
  · rw [if_pos hbare, String.toList_ofList]
    cases cs with
    | nil => cases hbare
    | cons c cs =>
      -- The kind of the name is told by its first character.
      rw [Tables.isBareName] at hbare
      split at hbare
      · rename_i hc
        exact .small hc hbare
      split at hbare
      · rename_i hc
        exact .symbolic hc hbare
      split at hbare
      · rename_i hc
        obtain rfl := List.isEmpty_iff.mp hbare
        rw [Bool.or_eq_true, decide_eq_true_iff, decide_eq_true_iff] at hc
        exact .solo hc.symm
      split at hbare
      · rename_i hc
        obtain rfl := hc
        obtain rfl : cs = [']'] := of_decide_eq_true hbare
        exact .list
      split at hbare
      · rename_i hc
        obtain rfl := hc
        obtain rfl : cs = ['\x7d'] := of_decide_eq_true hbare
        exact .braces
      · cases hbare
  · have hquoted := NameForm.quoted (u := u) (String.ofList cs)
    rw [if_neg hbare]
    simpa [String.toList_join, List.flatMap_map] using hquoted

end Text

namespace Token

/-- The first token of a name. -/
def ofName (name : String) : Token :=
  if name = "[]" then .openList
  else if name = "\x7b\x7d" then .openCurly
  else .literal (.atom name)

/-- The tokens of a name. -/
def spelling (name : String) : List Token :=
  if name = "[]" then [.openList, .closeList]
  else if name = "\x7b\x7d" then [.openCurly, .closeCurly]
  else [.literal (.atom name)]

theorem spelling_of_ne {name : String} (hlist : name ≠ "[]") (hbraces : name ≠ "\x7b\x7d") :
    spelling name = [.literal (.atom name)] := by
  rw [spelling, if_neg hlist, if_neg hbraces]

theorem spells_spelling (name : String) : Spells (spelling name) name := by
  rw [spelling]
  split
  · rename_i hname
    subst hname
    exact .list
  split
  · rename_i hname
    subst hname
    exact .braces
  · exact .name name

theorem exists_spelling (name : String) : ∃ rest, spelling name = ofName name :: rest := by
  rw [spelling, ofName]
  split
  · exact ⟨_, rfl⟩
  split
  · exact ⟨_, rfl⟩
  · exact ⟨_, rfl⟩

theorem not_open_literal (l : Literal) : ∀ t ∈ [literal l], t ≠ .openGroup ∧ t ≠ .openArgs := by
  rw [List.forall_mem_singleton]
  exact ⟨nofun, nofun⟩

theorem not_open_of_mem_spelling (name : String) : ∀ t ∈ spelling name, t ≠ .openGroup ∧ t ≠ .openArgs := by
  rw [spelling]
  split
  · decide
  split
  · decide
  · exact not_open_literal (.atom name)

theorem ofName_ne_openArgs (name : String) : ofName name ≠ .openArgs := by
  rw [ofName]
  split
  · exact nofun
  split
  · exact nofun
  · exact nofun

end Token

namespace Lexer

variable {c d : Char} {b : Bool} {p : Position} {rest : Input} {t : Token} {cs : List Char}

/-- A character that begins no variable, no quoted text, no number and no other token begins a name. -/
theorem tokenFromUnder_name {u : Text.Tables} (hvariable : u.isVariableStart c = false)
    (hpunctuation : punctuation? c false = none) (hne : c ≠ '"' ∧ c ≠ '\x60' ∧ c ≠ '.')
    (hdigit : Text.isDigit c = false) : tokenFromUnder u false c = nameTokenUnder u c := by
  obtain ⟨hquote, hback, hpoint⟩ := hne
  rw [tokenFromUnder, hvariable, hpunctuation, if_neg Bool.false_ne_true]
  dsimp only
  rw [if_neg hquote, if_neg hback, if_neg hpoint, hdigit, if_neg Bool.false_ne_true]

theorem tokenFrom_name (hvariable : Text.isVariableStart c = false)
    (hpunctuation : punctuation? c false = none) (hne : c ≠ '"' ∧ c ≠ '\x60' ∧ c ≠ '.')
    (hdigit : Text.isDigit c = false) : tokenFrom false c = nameToken c := by
  rw [← tokenFromUnder_standard, ← nameTokenUnder_standard]
  exact tokenFromUnder_name hvariable hpunctuation hne hdigit

theorem cutsUnder_smallName {u : Text.Tables} (hu : u.Usual) (hc : u.isSmallLetter c = true)
    (hcs : cs.all u.isAlnum = true) (hrest : rest.Stops u.isAlnum) :
    CutsUnder u ((c :: cs).map .char ++ rest) (.literal (.atom (String.ofList (c :: cs)))) rest := by
  have hne : ∀ e : Char, e.toNat < 0x80 ∧ Text.isSmallLetter e = false → c ≠ e :=
    fun _ => hu.ne_of_isSmallLetter hc
  have hvariable : u.isVariableStart c = false := by
    have hupper : u.uppercase c = false := by
      rw [Text.Tables.isSmallLetter, Bool.and_eq_true, Bool.not_eq_true'] at hc
      exact hc.2
    rw [Text.Tables.isVariableStart, hupper, Bool.false_or, decide_eq_false (hne '_' (by decide))]
  have hpunctuation : punctuation? c false = none := by
    unfold punctuation?
    split
    case h_9 => rfl
    all_goals exact absurd rfl (hne _ (by decide))
  have hdigit : Text.isDigit c = false := by
    have hdigits : ∀ e ∈ Text.digits, e.toNat < 0x80 ∧ Text.isSmallLetter e = false :=
      List.all_iff_forall_prop.mp (by decide)
    exact Bool.eq_false_iff.mpr fun h => hne c (hdigits c (Text.mem_of_isDigit h)) rfl
  have hlayout : Text.isLayout c = false := by
    simp [Text.isLayout, hne ' ' (by decide), hne '\n' (by decide), hne '\r' (by decide),
      hne '\t' (by decide), hne '\x0b' (by decide), hne '\x0c' (by decide)]
  refine cutsUnder_of_tokenFromUnder hlayout (hne '%' (by decide))
    (fun h => absurd h (hne '/' (by decide))) ?_
  intro p
  have htake := takeWhile_eq hcs hrest (p.next c) false
  refine ⟨(p.next c).after cs, ?_⟩
  rw [tokenFromUnder_name hvariable hpunctuation
    ⟨hne _ (by decide), hne _ (by decide), hne _ (by decide)⟩ hdigit, nameTokenUnder]
  dsimp only
  rw [if_pos hc]
  exact bind_eq_of_ok (map_eq_of_ok htake)

theorem cuts_smallName (hc : Text.isSmallLetter c = true) (hcs : cs.all Text.isAlnum = true)
    (hrest : rest.Stops Text.isAlnum) :
    Cuts ((c :: cs).map .char ++ rest) (.literal (.atom (String.ofList (c :: cs)))) rest :=
  cutsUnder_standard.mp (cutsUnder_smallName Text.Tables.usual_standard hc hcs hrest)

/-- A variable goes on with what continues names. -/
theorem cuts_variable (hc : Text.isVariableStart c = true) (hcs : (c :: cs).all Text.isAlnum = true)
    (hrest : rest.Stops Text.isAlnum) :
    Cuts ((c :: cs).map .char ++ rest) (.var (String.ofList (c :: cs))) rest := by
  have hne : ∀ e, Text.isVariableStart e = false → c ≠ e := fun _ => Text.ne_of_class hc
  have hlayout : Text.isLayout c = false := by
    simp [Text.isLayout, hne ' ' (by decide), hne '\n' (by decide), hne '\r' (by decide),
      hne '\t' (by decide), hne '\x0b' (by decide), hne '\x0c' (by decide)]
  refine cuts_of_tokenFrom hlayout (hne '%' (by decide)) (fun h => absurd h (hne '/' (by decide))) ?_
  intro p
  have htake := takeWhile_eq hcs hrest p false
  refine ⟨p.after (c :: cs), ?_⟩
  rw [tokenFrom, if_pos hc]
  exact bind_eq_of_ok htake

/-- A symbolic name goes on to its last symbol, wherever it is begun. -/
theorem nameToken_symbolic (hcs : (c :: cs).all Text.isSymbol = true) (hrest : rest.Stops Text.isSymbol)
    (p : Position) : nameToken c ⟨(c :: cs).map .char ++ rest, p, false⟩ =
      .ok (.literal (.atom (String.ofList (c :: cs)))) ⟨rest, p.after (c :: cs), false⟩ := by
  have hc : Text.isSymbol c = true := by
    rw [List.all_cons, Bool.and_eq_true] at hcs
    exact hcs.1
  have hsmall := (Text.classes_of_isSymbol hc).1
  have htake := takeWhile_eq hcs hrest p false
  rw [nameToken]
  dsimp only
  rw [hsmall, if_neg Bool.false_ne_true, if_pos hc]
  exact bind_eq_of_ok (map_eq_of_ok htake)

theorem cutsUnder_symbolicName {u : Text.Tables} (hu : u.Usual) (hc : Text.isSymbol c = true)
    (hname : Text.isSymbolicName c cs = true) (hrest : rest.Stops Text.isSymbol) :
    CutsUnder u ((c :: cs).map .char ++ rest) (.literal (.atom (String.ofList (c :: cs)))) rest := by
  obtain ⟨hall, hpoint, hslash⟩ := Text.isSymbolicName_cases hname
  have hcs : (c :: cs).all Text.isSymbol = true := by rw [List.all_cons, hc, hall, Bool.and_self]
  have hclasses : ∀ e ∈ Text.symbols, Text.Tables.Plain e ∧ Text.isLayout e = false ∧
      e ≠ '%' ∧ punctuation? e false = none ∧ e ≠ '"' ∧ e ≠ '\x60' ∧ Text.isDigit e = false :=
    List.all_iff_forall_prop.mp (by decide)
  obtain ⟨hplain, hlayout, hline, hpunctuation, hquote, hback, hdigit⟩ :=
    hclasses c (Text.mem_of_isSymbol hc)
  have hvariable : Text.isVariableStart c = false := hplain.2.2
  refine cutsUnder_of_tokenFrom hu hplain hlayout hline ?_ ?_
  · intro heq
    cases cs with
    | nil => exact hrest.mono fun d hd => of_decide_eq_true hd ▸ rfl
    | cons e cs =>
      refine decide_eq_false ?_
      rintro rfl
      exact hslash heq cs rfl
  · intro p
    by_cases hstop : c = '.'
    · -- A point that is not alone is no full stop: what comes next is no layout.
      subst hstop
      cases cs with
      | nil => exact absurd rfl (hpoint rfl)
      | cons e cs =>
        rw [List.all_cons, Bool.and_eq_true] at hall
        obtain ⟨-, hlayout', hline', -⟩ := hclasses e (Text.mem_of_isSymbol hall.1)
        have hgoes : (Text.isLayout e || decide (e = '%')) = false := by
          rw [hlayout', decide_eq_false hline']
          rfl
        refine ⟨_, Eq.trans ?_ (nameToken_symbolic hcs hrest (p.next '.'))⟩
        show (if (Text.isLayout e || decide (e = '%')) = true then pure Token.stop
          else do
            putBack '.'
            nameToken '.' : Lexing Token) ⟨.char e :: cs.map .char ++ rest, p.next '.', false⟩ = _
        rw [hgoes, if_neg Bool.false_ne_true]
        rfl
    · refine ⟨_, Eq.trans ?_ (nameToken_symbolic hcs hrest p)⟩
      rw [tokenFrom_name hvariable hpunctuation ⟨hquote, hback, hstop⟩ hdigit]
      rfl

theorem cuts_symbolicName (hc : Text.isSymbol c = true) (hname : Text.isSymbolicName c cs = true)
    (hrest : rest.Stops Text.isSymbol) :
    Cuts ((c :: cs).map .char ++ rest) (.literal (.atom (String.ofList (c :: cs)))) rest :=
  cutsUnder_standard.mp (cutsUnder_symbolicName Text.Tables.usual_standard hc hname hrest)

theorem cutsUnder_soloName {u : Text.Tables} (hu : u.Usual) (hc : c = '!' ∨ c = ';') :
    CutsUnder u (.char c :: rest) (.literal (.atom (String.ofList [c]))) rest := by
  obtain rfl | rfl := hc
  · refine cutsUnder_of_tokenFrom hu (by decide) (by decide) (by decide) (fun h => absurd h (by decide)) ?_
    intro p
    exact ⟨_, rfl⟩
  · refine cutsUnder_of_tokenFrom hu (by decide) (by decide) (by decide) (fun h => absurd h (by decide)) ?_
    intro p
    exact ⟨_, rfl⟩

theorem cuts_soloName (hc : c = '!' ∨ c = ';') :
    Cuts (.char c :: rest) (.literal (.atom (String.ofList [c]))) rest :=
  cutsUnder_standard.mp (cutsUnder_soloName Text.Tables.usual_standard hc)

/-- A name between single quotes. -/
theorem cutsUnder_quoted {u : Text.Tables} (hu : u.Usual) (cs : List Char)
    (hrest : rest.Stops (· = '\x27')) :
    CutsUnder u (.char '\x27' :: (cs.flatMap fun c => (u.quotedChar c).toList).map .char ++
      .char '\x27' :: rest) (.literal (.atom (String.ofList cs))) rest := by
  refine cutsUnder_of_tokenFrom hu (by decide) (by decide) (by decide) (fun h => absurd h (by decide)) ?_
  intro p
  obtain ⟨p', hparts⟩ := quotedParts_quotedChars u cs [] (.char '\x27' :: rest) (p.next '\x27') false
  rw [List.append_nil, quotedParts_close _ hrest, List.reverse_reverse] at hparts
  refine ⟨p'.next '\x27', ?_⟩
  exact bind_eq_of_ok (m := quotedText '\x27') (map_eq_of_ok (f := String.ofList) hparts)

/-- What comes after the text of a name does not continue it, in the way in which a name of its kind would
go on. -/
structure EndsName (u : Text.Tables) (text : List Char) (rest : Input) : Prop where
  /-- No letter comes after letters. -/
  small {c : Char} {cs : List Char} (htext : text = c :: cs) (hc : u.isSmallLetter c = true)
    (hcs : cs.all u.isAlnum = true) : rest.Stops u.isAlnum
  /-- No symbol comes after symbols. -/
  symbolic {c : Char} {cs : List Char} (htext : text = c :: cs) (hc : Text.isSymbol c = true)
    (hcs : Text.isSymbolicName c cs = true) : rest.Stops Text.isSymbol
  /-- No quote comes after a quote. -/
  quoted (htext : text.head? = some '\x27') : rest.Stops (· = '\x27')

theorem endsName_closing (u : Text.Tables) (text : List Char) (hd : d ∈ Text.closing) (rest : Input) :
    EndsName u text (.char d :: rest) where
  small _ _ _ := Text.stopsUnder_closing u hd rest
  symbolic _ _ _ := (Text.stops_closing hd rest).2.1
  quoted _ := (Text.stops_closing hd rest).2.2.1

/-- **A name that is written with quotes where they are needed is read back**, under any tables of
characters that know their ASCII. -/
theorem cutsUnder_quotedName {u : Text.Tables} (hu : u.Usual) (name : String)
    (hends : EndsName u (u.quotedName name).toList rest) :
    CutsAllUnder u ((u.quotedName name).toList.map .char ++ rest) (Token.spelling name) rest := by
  by_cases hlist : name = "[]"
  · subst hlist
    rw [hu.quotedName_list]
    exact .cons (cutsUnder_punctuation hu rfl) (cutsUnder_punctuation (c := ']') hu rfl).all
  by_cases hbraces : name = "\x7b\x7d"
  · subst hbraces
    rw [hu.quotedName_braces]
    exact .cons (cutsUnder_punctuation hu rfl) (cutsUnder_punctuation (c := '\x7d') hu rfl).all
  rw [Token.spelling_of_ne hlist hbraces]
  have hform := Text.nameForm_quotedName u name
  generalize (u.quotedName name).toList = text at hform hends ⊢
  cases hform with
  | small hc hcs => exact (cutsUnder_smallName hu hc hcs (hends.small rfl hc hcs)).all
  | symbolic hc hcs => exact (cutsUnder_symbolicName hu hc hcs (hends.symbolic rfl hc hcs)).all
  | solo hc => exact (cutsUnder_soloName hu hc).all
  | list => exact absurd rfl hlist
  | braces => exact absurd rfl hbraces
  | quoted =>
    have hcuts := (cutsUnder_quoted hu name.toList (hends.quoted rfl)).all
    rw [String.ofList_toList] at hcuts
    rw [List.map_append, List.append_assoc]
    exact hcuts

/-! ## Integers -/

theorem isDigit_of_mem_toDigits {n : Nat} (h : c ∈ Nat.toDigits 10 n) : Text.isDigit c = true := by
  have hdigit := Nat.isDigit_of_mem_toDigits (by decide) (by decide) h
  rw [Char.isDigit, Bool.and_eq_true] at hdigit
  rw [Text.isDigit, Bool.and_eq_true]
  exact hdigit

theorem toList_toString_nat (n : Nat) : (toString n).toList = Nat.toDigits 10 n := by
  rw [Nat.toString_eq_ofList_toDigits, String.toList_ofList]

/-- An integer is written with a minus before its digits if it is negative. -/
theorem toList_toString_int (n : Int) :
    (toString n).toList = (if n < 0 then ['-'] else []) ++ Nat.toDigits 10 n.natAbs := by
  cases n with
  | ofNat n =>
    have hn : ¬ Int.ofNat n < 0 := Int.not_lt.mpr (Int.natCast_nonneg n)
    rw [if_neg hn]
    exact toList_toString_nat n
  | negSucc n =>
    rw [if_pos (Int.negSucc_lt_zero n)]
    show ("-" ++ toString (n + 1)).toList = _
    rw [String.toList_append, toList_toString_nat]
    rfl

theorem all_isDigit_toDigits (n : Nat) : (Nat.toDigits 10 n).all Text.isDigit = true :=
  List.all_eq_true.mpr fun _ => isDigit_of_mem_toDigits

/-- Nothing in the input continues a number of the digits.  A point needs a digit after it for that, and
a quote or a letter a zero before it. -/
structure EndsNumber (digits : List Char) (rest : Input) : Prop where
  /-- No digit comes next, and no letter. -/
  alnum : rest.Stops Text.isAlnum
  /-- No digit comes after a point. -/
  point : ∀ {more : Input}, rest = .char '.' :: more → more.Stops Text.isDigit
  /-- No quote comes after a zero. -/
  quote : digits = ['0'] → rest.Stops (· = '\x27')

theorem endsNumber_closing (hd : d ∈ Text.closing) (digits : List Char) (rest : Input) :
    EndsNumber digits (.char d :: rest) := by
  obtain ⟨halnum, -, hquote, hpoint⟩ := Text.stops_closing hd rest
  refine ⟨halnum, ?_, fun _ => hquote⟩
  intro more heq
  exact absurd (Item.char.inj (List.cons.inj heq).1) hpoint

/-- Digits that something else follows are a number. -/
theorem decimalToken_digits (hcs : cs.all Text.isDigit = true) (hrest : EndsNumber (c :: cs) rest)
    (p : Position) (b : Bool) : ∃ p', decimalToken c ⟨cs.map .char ++ rest, p, b⟩ =
      .ok (integerToken 10 (c :: cs)) ⟨rest, p', b⟩ := by
  have hdigit : rest.Stops Text.isDigit := hrest.alnum.mono fun _ => Text.isAlnum_of_isDigit
  have htake := takeWhile_eq hcs hdigit p b
  by_cases hpoint : ∃ more, rest = .char '.' :: more
  · obtain ⟨more, rfl⟩ := hpoint
    have hmore := hrest.point rfl
    have hskip : skipIf '.' ⟨.char '.' :: more, p.after cs, b⟩ =
        .ok true ⟨more, (p.after cs).next '.', b⟩ := rfl
    have hpeek : ∃ next, next.any Text.isDigit = false ∧
        peek? ⟨more, (p.after cs).next '.', b⟩ = .ok next ⟨more, (p.after cs).next '.', b⟩ := by
      rcases more with _ | ⟨d | fault, more⟩
      · exact ⟨none, rfl, rfl⟩
      · exact ⟨some d, hmore, rfl⟩
      · exact hmore.elim
    obtain ⟨next, hnext, hpeek⟩ := hpeek
    refine ⟨(p.after cs).next '.', ?_⟩
    rw [decimalToken, bind_eq_of_ok htake]
    dsimp only
    rw [bind_eq_of_ok hskip, if_pos rfl, bind_eq_of_ok hpeek, hnext]
    rfl
  · have hstops : rest.Stops (· = '.') := by
      rcases rest with _ | ⟨d | fault, rest⟩
      · exact hdigit
      · refine decide_eq_false ?_
        rintro rfl
        exact hpoint ⟨rest, rfl⟩
      · exact hdigit
    refine ⟨p.after cs, ?_⟩
    rw [decimalToken, bind_eq_of_ok htake]
    dsimp only
    rw [bind_eq_of_ok (skipIf_eq hstops _ _)]
    rfl

/-- A digit begins a number in decimal digits, unless it is a zero that a quote or a letter follows. -/
theorem numberToken_eq (hrest : c = '0' → rest.Stops fun d => d = '\x27' || (radix? d).isSome)
    (p : Position) (b : Bool) :
    numberToken c ⟨.char c :: rest, p, b⟩ = decimalToken c ⟨rest, p.next c, b⟩ := by
  have hskip : skip c ⟨.char c :: rest, p, b⟩ = .ok () ⟨rest, p.next c, b⟩ := rfl
  rw [numberToken, bind_eq_of_ok hskip]
  by_cases hzero : c = '0'
  · have hstops := hrest hzero
    rw [if_pos hzero]
    rcases rest with _ | ⟨d | fault, rest⟩
    · rfl
    · rw [Input.Stops, Bool.or_eq_false_iff, decide_eq_false_iff_not] at hstops
      have hpeek : peek? ⟨.char d :: rest, p.next c, b⟩ = .ok (some d) ⟨.char d :: rest, p.next c, b⟩ :=
        rfl
      rw [bind_eq_of_ok hpeek]
      refine congrFun ?_ _
      split
      · rename_i heq
        exact absurd (Option.some.inj heq) hstops.1
      · rename_i letter _ heq
        obtain rfl := Option.some.inj heq
        rw [Option.isNone_iff_eq_none.mp (Option.isSome_eq_false_iff.mp hstops.2)]
      · rfl
    · exact hstops.elim
  · rw [if_neg hzero]
    rfl

/-- A number in decimal digits. -/
theorem cuts_decimal {rest' : Input} (hc : Text.isDigit c = true)
    (hzero : c = '0' → rest.Stops fun d => d = '\x27' || (radix? d).isSome)
    (h : ∀ p, ∃ p', decimalToken c ⟨rest, p, false⟩ = .ok t ⟨rest', p', false⟩) :
    Cuts (.char c :: rest) t rest' := by
  have hclasses : ∀ e ∈ Text.digits, Text.isVariableStart e = false ∧ Text.isLayout e = false ∧
      e ≠ '%' ∧ e ≠ '/' ∧ punctuation? e false = none ∧ e ≠ '"' ∧ e ≠ '\x60' ∧ e ≠ '.' :=
    List.all_iff_forall_prop.mp (by decide)
  obtain ⟨hvariable, hlayout, hline, hslash, hpunctuation, hquote, hback, hpoint⟩ :=
    hclasses c (Text.mem_of_isDigit hc)
  refine cuts_of_tokenFrom hlayout hline (fun h => absurd h hslash) ?_
  intro p
  obtain ⟨p', hdecimal⟩ := h (p.next c)
  refine ⟨p', ?_⟩
  rw [← hdecimal, ← numberToken_eq hzero, tokenFrom, hvariable, hpunctuation,
    if_neg Bool.false_ne_true]
  dsimp only
  rw [if_neg hquote, if_neg hback, if_neg hpoint, if_pos hc]

/-- A letter or digit is none of the letters that announce a radix, unless it can continue a name. -/
theorem radix?_eq_none (hd : Text.isAlnum d = false) : radix? d = none := by
  unfold radix?
  split
  case h_4 => rfl
  all_goals exact absurd hd (by decide)

/-- A digit after a zero announces no radix and no character code. -/
theorem not_mark_of_isDigit (hd : Text.isDigit d = true) :
    (decide (d = '\x27') || (radix? d).isSome) = false := by
  have hdigits : ∀ e ∈ Text.digits, (decide (e = '\x27') || (radix? e).isSome) = false :=
    List.all_iff_forall_prop.mp (by decide)
  exact hdigits d (Text.mem_of_isDigit hd)

/-- **The decimal digits of a number are read back.** -/
theorem cuts_digits (n : Nat) (hrest : EndsNumber (Nat.toDigits 10 n) rest) :
    Cuts ((Nat.toDigits 10 n).map .char ++ rest) (.literal (.ofInt n)) rest := by
  obtain ⟨-, hvalue⟩ := Text.digits_toDigits (by decide) (by decide : 10 ≤ 16) n
  have hall := all_isDigit_toDigits n
  obtain ⟨c, cs, hdigits⟩ := List.exists_cons_of_ne_nil (Nat.toDigits_ne_nil (b := 10) (n := n))
  rw [hdigits] at hall hvalue hrest ⊢
  rw [List.all_cons, Bool.and_eq_true] at hall
  refine cuts_decimal hall.1 ?_ ?_
  · rintro rfl
    cases cs with
    | nil =>
      have hquote := hrest.quote rfl
      have halnum := hrest.alnum
      rcases rest with _ | ⟨d | fault, rest⟩
      · exact halnum
      · show (decide (d = '\x27') || (radix? d).isSome) = false
        rw [radix?_eq_none halnum]
        exact (Bool.or_false _).trans hquote
      · exact halnum
    | cons e cs =>
      rw [List.all_cons, Bool.and_eq_true] at hall
      exact not_mark_of_isDigit hall.2.1
  · intro p
    have hnumber := decimalToken_digits hall.2 hrest p false
    rwa [integerToken, hvalue] at hnumber

/-- A minus in front of digits is a name. -/
theorem cuts_minus (n : Nat) : Cuts (.char '-' :: (Nat.toDigits 10 n).map .char ++ rest)
    (.literal (.atom "-")) ((Nat.toDigits 10 n).map .char ++ rest) := by
  obtain ⟨c, cs, hdigits⟩ := List.exists_cons_of_ne_nil (Nat.toDigits_ne_nil (b := 10) (n := n))
  have hc : Text.isSymbol c = false := by
    have hmem : c ∈ Nat.toDigits 10 n := by
      rw [hdigits]
      exact List.mem_cons_self
    exact (Text.classes_of_isDigit (isDigit_of_mem_toDigits hmem)).2
  have hname : Text.isSymbolicName '-' [] = true := by decide
  rw [hdigits]
  exact cuts_symbolicName (by decide) hname hc

end Lexer

end Clausal
