import Clausal.ReadError
import Clausal.Text.CharClass
import Clausal.Token

/-! # Tokens from characters

A lexer holds what is still to be read and the place it has reached. The place counts every
character that was consumed, also those put back later, so columns can run ahead of the text after
a character was put back.

Layout and comments stand between tokens. They matter in one way only: an opening bracket right
after a name opens its arguments, and one after layout does not.
-/

namespace Clausal

/-- The state of a lexer. -/
structure Lexer where
  /-- What is still to be read. -/
  input : Input
  /-- The place reached. -/
  position : Position := {}
  /-- Whether layout was skipped since the last token. -/
  layoutSeen : Bool := false
  deriving Repr

/-- An action of a lexer. An error keeps the state in which it was met. -/
abbrev Lexing := EStateM ReadError Lexer

namespace Lexer

/-! ### Characters -/

/-- The next character, if the input has not ended. A fault is met once and then passed. -/
def peek? : Lexing (Option Char) := fun lx =>
  match lx.input with
  | [] => .ok none lx
  | .char c :: _ => .ok (some c) lx
  | .fault fault :: rest => .error (.input fault) { lx with input := rest }

/-- Passes `c`, the next character. -/
def skip (c : Char) : Lexing Unit := fun lx =>
  .ok () { lx with input := lx.input.tail, position := lx.position.next c }

/-- Puts a character back. -/
def putBack (c : Char) : Lexing Unit := fun lx =>
  .ok () { lx with input := .char c :: lx.input }

/-- Fails at the place reached. -/
def failHere {α : Type} (error : Position → ReadError) : Lexing α := fun lx =>
  .error (error lx.position) lx

/-- The next character; the input must not have ended. -/
def lookahead : Lexing Char := do
  match ← peek? with
  | some c => pure c
  | none => throw .endOfText

/-- Passes the next character and returns it. -/
def take : Lexing Char := do
  let c ← lookahead
  skip c
  pure c

/-- Passes the next character if it is `c`, and says whether it was. -/
def skipIf (c : Char) : Lexing Bool := do
  if (← peek?) = some c then
    skip c
    pure true
  else
    pure false

/-- The characters at the front of an input that satisfy `p`, and what follows them. -/
def spanChars (p : Char → Bool) : Input → List Char × Input
  | .char c :: rest =>
    if p c then
      let (cs, rest) := spanChars p rest
      (c :: cs, rest)
    else ([], .char c :: rest)
  | input => ([], input)

/-- Passes the characters that satisfy `p` and returns them. -/
def takeWhile (p : Char → Bool) : Lexing (List Char) := fun lx =>
  let (cs, rest) := spanChars p lx.input
  let lx := { lx with input := rest, position := lx.position.after cs }
  match rest with
  | .fault fault :: rest => .error (.input fault) { lx with input := rest }
  | _ => .ok cs lx

/-! ### Layout -/

/-- What surrounds the next character while layout is skipped. -/
inductive Surrounding where
  /-- No comment. -/
  | none
  /-- A comment up to the end of the line. -/
  | line
  /-- A bracketed comment; `star` says whether the last character was a star. -/
  | block (star : Bool)
  deriving DecidableEq, Repr

/-- Skips layout and comments. `seen` says whether there were any before. -/
def skipLayout (around : Surrounding) (seen : Bool) (p : Position) :
    Input → Except ReadError Bool × Position × Input
  | [] =>
    match around with
    | .block _ => (.error .endOfText, p, [])
    | _ => (.ok seen, p, [])
  | .fault fault :: rest => (.error (.input fault), p, rest)
  | .char c :: rest =>
    match around with
    | .line => skipLayout (if c = '\n' then .none else .line) true (p.next c) rest
    | .block star =>
      skipLayout (if star && c = '/' then .none else .block (c = '*')) true (p.next c) rest
    | .none =>
      if Text.isLayout c then skipLayout .none true (p.next c) rest
      else if c = '%' then skipLayout .line true (p.next c) rest
      else if c = '/' then
        match rest with
        | .char '*' :: rest => skipLayout (.block false) true ((p.next c).next '*') rest
        | .fault fault :: rest => (.error (.input fault), p.next c, rest)
        | _ => (.ok seen, p.next c, .char c :: rest)
      else (.ok seen, p, .char c :: rest)

/-- Skips layout and comments and says whether there were any. -/
def scanLayout : Lexing Bool := fun lx =>
  match skipLayout .none false lx.position lx.input with
  | (.ok seen, position, input) => .ok seen { lx with position, input }
  | (.error e, position, input) => .error e { lx with position, input }

/-- Whether nothing but layout and comments remains. -/
def atEnd : Lexing Bool := do
  let seen ← scanLayout
  modify fun lx => { lx with layoutSeen := lx.layoutSeen || seen }
  pure (← peek?).isNone

/-! ### Quoted text -/

/-- The character that the letter after a backslash stands for. -/
def escapeLetter? (c : Char) : Option Char :=
  match c with
  | 'a' => some '\x07'
  | 'b' => some '\x08'
  | 'v' => some '\x0b'
  | 'f' => some '\x0c'
  | 'e' => some '\x1b'
  | 't' => some '\t'
  | 'n' => some '\n'
  | 'r' => some '\r'
  | c => if Text.isMeta c then some c else none

/-- The character whose code the digits give, of which there must be at least one. -/
def charOfDigits? (radix : Nat) (digits : List Char) : Option Char :=
  if digits.isEmpty then none else Text.Utf8.scalar? (Text.digitsValue radix digits)

/-- The digits of a character code and the backslash after them. -/
def numericEscape (radix : Nat) : Lexing Char := do
  let digits ← takeWhile (Text.isDigitOf radix)
  let c ← lookahead
  if c = '\\' then
    skip c
    match charOfDigits? radix digits with
    | some c => pure c
    | none => failHere .badEscape
  else failHere .badEscape

/-- The character that an escape sequence stands for, of which `c` is the next character, after the
backslash. -/
def escape (c : Char) : Lexing Char := do
  match escapeLetter? c with
  | some escaped =>
    skip c
    pure escaped
  | none =>
    if Text.isOctalDigit c then numericEscape 8
    else if c = 'x' then
      skip c
      numericEscape 16
    else failHere .badEscape

/-- A part of quoted text. -/
inductive QuotedPart where
  /-- A character of the text. -/
  | char (c : Char)
  /-- An escaped end of line, which is no part of the text. -/
  | continuation
  /-- The closing quote. -/
  | close

/-- The next part of text in quotes. A doubled quote stands for itself. -/
def quotedPart (quote : Char) : Lexing QuotedPart := do
  let c ← take
  if c = quote then
    pure (if ← skipIf quote then .char quote else .close)
  else if c = '\\' then
    let c ← lookahead
    if c = '\n' then
      skip c
      pure .continuation
    else
      .char <$> escape c
  else
    pure (.char c)

/-! Every part takes at least one character, which bounds the number of parts. -/

/-- What is left after the action succeeds is no more than before. -/
def Keeps {α : Type} (m : Lexing α) : Prop :=
  ∀ lx a lx', m lx = .ok a lx' → lx'.input.length ≤ lx.input.length

/-- What is left after the action succeeds is less than before. -/
def Shortens {α : Type} (m : Lexing α) : Prop :=
  ∀ lx a lx', m lx = .ok a lx' → lx'.input.length < lx.input.length

section Progress

variable {α β : Type}

theorem bind_eq_ok {m : Lexing α} {f : α → Lexing β} {lx lx'' : Lexer} {b : β}
    (h : (m >>= f) lx = .ok b lx'') : ∃ a lx', m lx = .ok a lx' ∧ f a lx' = .ok b lx'' := by
  cases hm : m lx with
  | ok a lx' => exact ⟨a, lx', rfl, by simpa [bind, EStateM.bind, hm] using h⟩
  | error e lx' => simp [bind, EStateM.bind, hm] at h

theorem Keeps.bind {m : Lexing α} {f : α → Lexing β} (hm : Keeps m) (hf : ∀ a, Keeps (f a)) :
    Keeps (m >>= f) := by
  intro lx b lx'' h
  obtain ⟨a, lx', h₁, h₂⟩ := bind_eq_ok h
  exact Nat.le_trans (hf a _ _ _ h₂) (hm _ _ _ h₁)

theorem Shortens.bind {m : Lexing α} {f : α → Lexing β} (hm : Shortens m)
    (hf : ∀ a, Keeps (f a)) : Shortens (m >>= f) := by
  intro lx b lx'' h
  obtain ⟨a, lx', h₁, h₂⟩ := bind_eq_ok h
  exact Nat.lt_of_le_of_lt (hf a _ _ _ h₂) (hm _ _ _ h₁)

theorem keeps_pure (a : α) : Keeps (pure a) := by
  intro lx b lx' h
  cases h
  exact Nat.le_refl _

theorem keeps_throw (e : ReadError) : Keeps (throw e : Lexing α) := by
  intro lx b lx' h
  cases h

theorem keeps_failHere (e : Position → ReadError) : Keeps (failHere e : Lexing α) := by
  intro lx b lx' h
  cases h

theorem keeps_peek? : Keeps peek? := by
  intro lx a lx' h
  unfold peek? at h
  split at h <;> cases h <;> exact Nat.le_refl _

theorem keeps_skip (c : Char) : Keeps (skip c) := by
  intro lx a lx' h
  cases h
  simp

theorem keeps_lookahead : Keeps lookahead := by
  refine keeps_peek?.bind fun a => ?_
  split
  · exact keeps_pure _
  · exact keeps_throw _

theorem shortens_take : Shortens take := by
  intro ⟨input, position, layoutSeen⟩ a lx' h
  match input with
  | [] => cases h
  | .fault fault :: rest => cases h
  | .char c :: rest =>
    cases h
    exact Nat.lt_succ_self _

theorem keeps_skipIf (c : Char) : Keeps (skipIf c) := by
  refine keeps_peek?.bind fun a => ?_
  split
  · exact (keeps_skip c).bind fun _ => keeps_pure _
  · exact keeps_pure _

theorem length_spanChars_le (p : Char → Bool) (input : Input) :
    (spanChars p input).2.length ≤ input.length := by
  fun_induction spanChars p input with
  | case1 c rest h cs rest' heq ih =>
    simp only [heq] at ih
    simp only [List.length_cons]
    omega
  | case2 => simp
  | case3 => simp

theorem keeps_takeWhile (p : Char → Bool) : Keeps (takeWhile p) := by
  intro lx a lx' h
  have hle := length_spanChars_le p lx.input
  simp only [takeWhile] at h
  split at h
  · cases h
  · cases h
    exact hle

theorem keeps_numericEscape (radix : Nat) : Keeps (numericEscape radix) := by
  refine (keeps_takeWhile _).bind fun digits => keeps_lookahead.bind fun c => ?_
  split
  · refine (keeps_skip _).bind fun _ => ?_
    split
    · exact keeps_pure _
    · exact keeps_failHere _
  · exact keeps_failHere _

theorem keeps_escape (c : Char) : Keeps (escape c) := by
  unfold escape
  split
  · exact (keeps_skip _).bind fun _ => keeps_pure _
  · split
    · exact keeps_numericEscape 8
    · split
      · exact (keeps_skip _).bind fun _ => keeps_numericEscape 16
      · exact keeps_failHere _

theorem shortens_quotedPart (quote : Char) : Shortens (quotedPart quote) := by
  refine shortens_take.bind fun c => ?_
  split
  · exact (keeps_skipIf _).bind fun _ => keeps_pure _
  · split
    · refine keeps_lookahead.bind fun d => ?_
      split
      · exact (keeps_skip _).bind fun _ => keeps_pure _
      · exact (keeps_escape d).bind fun _ => keeps_pure _
    · exact keeps_pure _

end Progress

/-- The parts of text in quotes up to the closing one, after the characters in `before`, which come
last first. If the input ends before that, the quote is missing. -/
def quotedParts (quote : Char) (before : List Char) (lx : Lexer) :
    EStateM.Result ReadError Lexer (List Char) :=
  match _ : quotedPart quote lx with
  | .ok .close lx => .ok before.reverse lx
  | .ok .continuation lx => quotedParts quote before lx
  | .ok (.char c) lx => quotedParts quote (c :: before) lx
  | .error e lx => .error (if e.isEndOfText then .missingQuote lx.position else e) lx
  termination_by lx.input.length
  decreasing_by all_goals exact shortens_quotedPart quote _ _ _ ‹_›

/-- Text in quotes, of which `quote` is the next character. -/
def quotedText (quote : Char) : Lexing String := do
  skip quote
  String.ofList <$> quotedParts quote []

/-! ### Numbers -/

/-- The integer that digits denote. -/
def integerToken (radix : Nat) (digits : List Char) : Token :=
  .literal (.ofInt (Text.digitsValue radix digits))

/-- The code of the character after a quote. The quote itself may be doubled, and need not be. -/
def charCodeToken : Lexing Token := do
  skip '\x27'
  let c ← take
  let code ←
    if c = '\\' then escape (← lookahead)
    else if c = '\x27' then
      let _ ← skipIf '\x27'
      pure c
    else pure c
  pure (.literal (.ofInt code.toNat))

/-- The radix that the letter after a leading zero announces. -/
def radix? : Char → Option Nat
  | 'x' => some 16
  | 'o' => some 8
  | 'b' => some 2
  | _ => none

/-- An integer in the radix that `letter`, the next character, announces. Without a digit after it
the letter is not part of the number. -/
def radixToken (letter : Char) (radix : Nat) : Lexing Token := do
  skip letter
  if (← peek?).any (Text.isDigitOf radix) then
    integerToken radix <$> takeWhile (Text.isDigitOf radix)
  else
    putBack letter
    pure (integerToken 10 ['0'])

/-- The exponent of a float if there is a complete one, else zero. What was passed of an incomplete
one is put back. -/
def exponentPart : Lexing Int := do
  match (← peek?).filter fun c => c = 'e' || c = 'E' with
  | none => pure 0
  | some e =>
    skip e
    let sign := (← peek?).filter fun c => c = '-' || c = '+'
    sign.forM skip
    if (← peek?).any Text.isDigit then
      let n := Text.digitsValue 10 (← takeWhile Text.isDigit)
      pure (if sign = some '-' then -n else n)
    else
      sign.forM putBack
      putBack e
      pure 0

/-- A number in decimal digits of which the first has been passed. A point is part of the number
only if a digit follows it, and an exponent only after a fraction. -/
def decimalToken (first : Char) : Lexing Token := do
  let whole := first :: (← takeWhile Text.isDigit)
  if ← skipIf '.' then
    if (← peek?).any Text.isDigit then
      let fraction ← takeWhile Text.isDigit
      let exponent ← exponentPart
      let coefficient := Text.digitsValue 10 (whole ++ fraction)
      pure (.literal (.float (.ofDecimal coefficient (exponent - fraction.length))))
    else
      putBack '.'
      pure (integerToken 10 whole)
  else
    pure (integerToken 10 whole)

/-- A number that begins with the digit `c`, the next character. -/
def numberToken (c : Char) : Lexing Token := do
  skip c
  let mark ← if c = '0' then peek? else pure none
  match mark with
  | some '\x27' => charCodeToken
  | some letter =>
    match radix? letter with
    | some radix => radixToken letter radix
    | none => decimalToken c
  | none => decimalToken c

/-! ### Names and variables -/

/-- A name of which `c` is the next character. -/
def nameToken (c : Char) : Lexing Token := do
  let name ←
    if Text.isSmallLetter c then
      skip c
      (String.ofList <| c :: ·) <$> takeWhile Text.isAlnum
    else if Text.isSymbol c then String.ofList <$> takeWhile Text.isSymbol
    else if c = '!' || c = ';' then
      skip c
      pure c.toString
    else if c = '\x27' then quotedText c
    else failHere (.badCharacter c)
  pure (.literal (.atom name))

/-- A variable. It takes no character if it begins with a capital that cannot continue a name. -/
def variableToken : Lexing Token := do
  let name ← takeWhile Text.isAlnum
  pure (.var (String.ofList name))

/-- The full stop if nothing, layout or a comment follows the point, and else a name. -/
def stopToken : Lexing Token := do
  skip '.'
  match ← peek? with
  | some c =>
    if Text.isLayout c || c = '%' then pure .stop
    else
      putBack '.'
      nameToken '.'
  | none => pure .stop

/-- The token that is the single character `c`. -/
def punctuation? (c : Char) (afterLayout : Bool) : Option Token :=
  match c with
  | ',' => some .comma
  | '(' => some (if afterLayout then .openGroup else .openArgs)
  | ')' => some .close
  | '[' => some .openList
  | ']' => some .closeList
  | '\x7b' => some .openCurly
  | '\x7d' => some .closeCurly
  | '|' => some .bar
  | _ => none

/-- Skips layout and takes the next token. -/
def token : Lexing Token := do
  let before ← modifyGet fun lx => (lx.layoutSeen, { lx with layoutSeen := false })
  let seen ← scanLayout
  let c ← lookahead
  if Text.isVariableStart c then variableToken
  else
    match punctuation? c (before || seen) with
    | some t =>
      skip c
      pure t
    | none =>
      if c = '"' then .quoted <$> quotedText c
      else if c = '\x60' then .backQuoted <$> quotedText c
      else if c = '.' then stopToken
      else if Text.isDigit c then numberToken c
      else nameToken c

end Lexer

end Clausal
