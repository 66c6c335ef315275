import Clausal.Input
import Clausal.Text.Escaped

/-! # Errors of reading

Why no term could be read, the place where that was found, and what is said of it.
-/

namespace Clausal

/-- A place in a text. -/
structure Position where
  /-- How many lines end before it. -/
  line : Nat := 0
  /-- How many characters were consumed since. -/
  column : Nat := 0
  deriving DecidableEq, Repr

namespace Position

/-- The place after one more character. -/
def next (p : Position) (c : Char) : Position :=
  if c = '\n' then ⟨p.line + 1, 0⟩ else ⟨p.line, p.column + 1⟩

/-- The place after more characters. -/
def after (p : Position) (cs : List Char) : Position := cs.foldl next p

/-- Line and column as they are shown, counted from one. -/
def text (p : Position) : String := toString (p.line + 1) ++ ":" ++ toString (p.column + 1)

end Position

/-- Why no term could be read. -/
inductive ReadError where
  /-- The text ended inside a term. -/
  | endOfText
  /-- The input gave no character. -/
  | input (fault : InputFault)
  /-- An escape sequence is malformed. -/
  | badEscape (place : Position)
  /-- Quoted text does not end. -/
  | missingQuote (place : Position)
  /-- There are more placeholders than arguments for them. -/
  | missingArgument (place : Position)
  /-- A character that begins no token. -/
  | badCharacter (c : Char) (place : Position)
  /-- A token that cannot stand where it does. -/
  | unexpected (token : String) (place : Position)
  deriving DecidableEq, Repr

namespace ReadError

/-- Whether the input ended too early, inside a term or inside a character. -/
def isEndOfText : ReadError → Bool
  | endOfText | input .cutOff => true
  | _ => false

/-- Where the error was met, if it has a place. -/
def position? : ReadError → Option Position
  | endOfText | input _ => none
  | badEscape p | missingQuote p | missingArgument p | badCharacter _ p | unexpected _ p => some p

/-- The name of the error. -/
def name : ReadError → String
  | endOfText | input .cutOff => "unexpected_end_of_file"
  | input (.badBytes _) => "invalid_data"
  | input (.failure _) => "input_output_error"
  | badEscape _ => "invalid_escape_sequence"
  | missingQuote _ => "missing_quote"
  | missingArgument _ => "missing_placeholder_argument"
  | badCharacter _ _ => "non_prolog_character"
  | unexpected _ _ => "unexpected_token"

/-- The text of the error. -/
def message : ReadError → String
  | endOfText => "unexpected end of file"
  | input fault => fault.message
  | badCharacter c p => located ("unexpected character " ++ Text.escapedChar c) p
  | unexpected token p => located ("unexpected token \x60" ++ token ++ "\x60") p
  | badEscape p => located (badEscape p).name p
  | missingQuote p => located (missingQuote p).name p
  | missingArgument p => located (missingArgument p).name p
where
  /-- What was met and where. -/
  located (what : String) (p : Position) : String := "syntax error: " ++ what ++ " at " ++ p.text

end ReadError

end Clausal
