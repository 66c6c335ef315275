import Clausal.Proofs.Inclusion.Lexing
import Clausal.Text.Quoted

/-! # Other tables of characters

Which characters are letters, capitals, numbers, white space and controls is said by tables, and scripts
are added to them over the years.  Here are the classes of characters, the writer of names and the lexer
under any tables (`Text.Tables`).  Under the tables of the library they are those of the library, by
definition (`Lexer.tokenUnder_standard`, `Text.Tables.quotedName_standard`).

Of all the functions of the lexer, only those for names, variables and points ask the tables anything.  So
a token that begins with an ASCII character that is no letter is the same under all tables that know their
ASCII (`Lexer.tokenFromUnder_eq`).
-/

namespace Clausal

namespace Text

/-! ## Classes -/

/-- What tables say of characters. -/
structure Tables where
  /-- Whether the character is a letter. -/
  alphabetic : Char → Bool
  /-- Whether it is a capital. -/
  uppercase : Char → Bool
  /-- Whether it is a number of any kind. -/
  numeric : Char → Bool
  /-- Whether it is white space. -/
  blank : Char → Bool
  /-- Whether it is a control character. -/
  control : Char → Bool

namespace Tables

variable (u : Tables)

/-- The tables of the library. -/
def standard : Tables := ⟨isAlphabetic, isUppercase, isNumeric, isBlank, isControl⟩

/-- The tables classify the ASCII characters as usual. -/
def Usual : Prop :=
  ∀ c : Char, c.toNat < 0x80 → u.alphabetic c = isAlphabetic c ∧ u.uppercase c = isUppercase c ∧
    u.numeric c = isNumeric c ∧ u.blank c = isBlank c ∧ u.control c = isControl c

/-- The characters of names other than digits. -/
def isNameChar (c : Char) : Bool :=
  c = '_' || (!u.numeric c && !u.blank c && !u.control c && !isSymbol c && !isLayout c &&
    !isMeta c && !isSolo c)

/-- The characters that continue a name. -/
def isAlnum (c : Char) : Bool := u.isNameChar c || isDigit c

/-- The characters that begin a variable. -/
def isVariableStart (c : Char) : Bool := u.uppercase c || c = '_'

/-- The characters that begin a name that needs no quotes. -/
def isSmallLetter (c : Char) : Bool := u.alphabetic c && !u.uppercase c

/-- Whether the name needs no quotes. -/
def isBareName : List Char → Bool
  | [] => false
  | first :: rest =>
    if u.isSmallLetter first then rest.all u.isAlnum
    else if isSymbol first then isSymbolicName first rest
    else if first = ';' || first = '!' then rest.isEmpty
    else if first = '[' then rest = [']']
    else if first = '\x7b' then rest = ['\x7d']
    else false

/-- The character as it is written between single quotes. -/
def quotedChar (c : Char) : String :=
  match c with
  | '\x27' => "\\'"
  | '\n' => "\\n"
  | '\r' => "\\r"
  | '\t' => "\\t"
  | '\x0b' => "\\v"
  | '\x0c' => "\\f"
  | '\x08' => "\\b"
  | '\x07' => "\\a"
  | '\\' => "\\\\"
  | ' ' => " "
  | c => if u.blank c || u.control c then "\\x" ++ hexDigits c.toNat ++ "\\" else c.toString

/-- The name as it is written. -/
def quotedName (name : String) : String :=
  if u.isBareName name.toList then name
  else "'" ++ String.join (name.toList.map u.quotedChar) ++ "'"

variable {u} {c e : Char}

theorem usual_standard : standard.Usual := fun _ _ => ⟨rfl, rfl, rfl, rfl, rfl⟩

theorem isBareName_standard (name : List Char) : standard.isBareName name = Text.isBareName name := by
  cases name <;> rfl

theorem quotedChar_standard : standard.quotedChar = Text.quotedChar := by
  funext c
  unfold quotedChar Text.quotedChar
  split
  case h_11 =>
    simp only [standard, *]
    rfl
  all_goals rfl

theorem quotedName_standard : standard.quotedName = Text.quotedName := by
  funext name
  rw [quotedName, isBareName_standard, quotedChar_standard, Text.quotedName]

theorem Usual.isSmallLetter_eq (hu : u.Usual) (hc : c.toNat < 0x80) :
    u.isSmallLetter c = Text.isSmallLetter c := by
  obtain ⟨halphabetic, huppercase, -⟩ := hu c hc
  rw [isSmallLetter, halphabetic, huppercase, Text.isSmallLetter]

theorem Usual.quotedName_list (hu : u.Usual) : u.quotedName "[]" = "[]" := by
  refine if_pos ?_
  show u.isBareName ['[', ']'] = true
  rw [isBareName, hu.isSmallLetter_eq (by decide)]
  rfl

theorem Usual.quotedName_braces (hu : u.Usual) : u.quotedName "\x7b\x7d" = "\x7b\x7d" := by
  refine if_pos ?_
  show u.isBareName ['\x7b', '\x7d'] = true
  rw [isBareName, hu.isSmallLetter_eq (by decide)]
  rfl

theorem Usual.isVariableStart_eq (hu : u.Usual) (hc : c.toNat < 0x80) :
    u.isVariableStart c = Text.isVariableStart c := by
  obtain ⟨-, huppercase, -⟩ := hu c hc
  rw [isVariableStart, huppercase, Text.isVariableStart]

/-- A letter is no ASCII character that is no letter. -/
theorem Usual.ne_of_isSmallLetter (hu : u.Usual) (hc : u.isSmallLetter c = true)
    (he : e.toNat < 0x80 ∧ Text.isSmallLetter e = false) : c ≠ e := by
  rintro rfl
  rw [hu.isSmallLetter_eq he.1, he.2] at hc
  cases hc

/-- An ASCII character that begins neither a name of letters nor a variable. -/
def Plain (c : Char) : Prop :=
  c.toNat < 0x80 ∧ Text.isSmallLetter c = false ∧ Text.isVariableStart c = false

instance (c : Char) : Decidable (Plain c) := inferInstanceAs (Decidable (_ ∧ _ ∧ _))

end Tables

end Text

/-! ## Tokens -/

namespace Lexer

variable (u : Text.Tables)

/-- A name of which `c` is the next character. -/
def nameTokenUnder (c : Char) : Lexing Token := do
  let name ←
    if u.isSmallLetter c then
      skip c
      (String.ofList <| c :: ·) <$> takeWhile u.isAlnum
    else if Text.isSymbol c then String.ofList <$> takeWhile Text.isSymbol
    else if c = '!' || c = ';' then
      skip c
      pure c.toString
    else if c = '\x27' then quotedText c
    else failHere (.badCharacter c)
  pure (.literal (.atom name))

/-- A variable. -/
def variableTokenUnder : Lexing Token := do
  let name ← takeWhile u.isAlnum
  pure (.var (String.ofList name))

/-- The full stop, or a name that begins with a point. -/
def stopTokenUnder : Lexing Token := do
  skip '.'
  match ← peek? with
  | some c =>
    if Text.isLayout c || c = '%' then pure .stop
    else
      putBack '.'
      nameTokenUnder u '.'
  | none => pure .stop

/-- The rest of a token of which `c` is the next character. -/
def tokenFromUnder (afterLayout : Bool) (c : Char) : Lexing Token :=
  if u.isVariableStart c then variableTokenUnder u
  else
    match punctuation? c afterLayout with
    | some t => do
      skip c
      pure t
    | none =>
      if c = '"' then .quoted <$> quotedText c
      else if c = '\x60' then .backQuoted <$> quotedText c
      else if c = '.' then stopTokenUnder u
      else if Text.isDigit c then numberToken c
      else nameTokenUnder u c

/-- Skips layout and takes the next token. -/
def tokenUnder : Lexing Token := do
  let before ← modifyGet fun lx => (lx.layoutSeen, { lx with layoutSeen := false })
  let seen ← scanLayout
  let c ← lookahead
  tokenFromUnder u (before || seen) c

variable {u} {c : Char}

theorem nameTokenUnder_standard : nameTokenUnder .standard = nameToken := by rfl

theorem stopTokenUnder_standard : stopTokenUnder .standard = stopToken := by
  rw [stopTokenUnder, nameTokenUnder_standard]
  rfl

theorem tokenFromUnder_standard : tokenFromUnder .standard = tokenFrom := by
  funext afterLayout c
  rw [tokenFromUnder, nameTokenUnder_standard, stopTokenUnder_standard, tokenFrom]
  rfl

theorem tokenUnder_standard : tokenUnder .standard = token := by
  rw [tokenUnder, tokenFromUnder_standard]
  rfl

/-- Where a token begins with an ASCII character that is no letter, the tables do not matter. -/
theorem tokenFromUnder_eq (hu : u.Usual) (hc : Text.Tables.Plain c) (afterLayout : Bool) :
    tokenFromUnder u afterLayout c = tokenFrom afterLayout c := by
  obtain ⟨hascii, hsmall, hvariable⟩ := hc
  have hname : ∀ {d : Char}, u.isSmallLetter d = false → Text.isSmallLetter d = false →
      nameTokenUnder u d = nameToken d := by
    intro d hd hd'
    simp only [nameTokenUnder, nameToken, hd, hd', Bool.false_eq_true, if_false]
  have hstop : stopTokenUnder u = stopToken := by
    have hpoint := hu.isSmallLetter_eq (c := '.') (by decide)
    rw [stopTokenUnder, hname (hpoint.trans (by decide)) (by decide)]
    rfl
  have hsame := hname ((hu.isSmallLetter_eq hascii).trans hsmall) hsmall
  rw [tokenFromUnder, hu.isVariableStart_eq hascii, hvariable, hstop, hsame, tokenFrom, hvariable]
  rfl

end Lexer

end Clausal
