import Clausal.Text.Utf8

/-! # Character input

An input is the list of what its reads give from the front on: characters, and faults of the bytes
behind it. `Input.ofBytes` decodes bytes; `CharReader` adds looking ahead and putting characters
back.
-/

namespace Clausal

/-- Why a read gave no character although the input had not ended. -/
inductive InputFault where
  /-- The bytes are no character. -/
  | badBytes (bytes : List UInt8)
  /-- The input ended inside a character. -/
  | cutOff
  /-- The source of the bytes failed. -/
  | failure (message : String)
  deriving DecidableEq, Repr

namespace InputFault

/-- The text of the fault. -/
def message : InputFault → String
  | badBytes bytes =>
    "Bad UTF-8: [" ++ ", ".intercalate (bytes.map fun b => toString b.toNat) ++ "]"
  | cutOff => "failed to fill whole buffer"
  | failure message => message

end InputFault

/-- What one read gives before the end. -/
inductive Item where
  /-- The next character. -/
  | char (c : Char)
  /-- No character, for the given reason. -/
  | fault (fault : InputFault)
  deriving DecidableEq, Repr

/-- What the reads of an input give, in order. After the last item every read finds the end. -/
abbrev Input := List Item

namespace Input

/-- The characters of a text. -/
def ofText (text : String) : Input := text.toList.map .char

/-- Bytes as characters. Each item takes the bytes that its lead byte announces, or the lead byte
alone if no character begins with it. If the bytes are followed by a failing read, the failure
stands where the end would be. -/
def ofBytes (failure : Option String) : List UInt8 → Input
  | [] => (failure.map fun message => .fault (.failure message)).toList
  | lead :: rest =>
    match Text.Utf8.width? lead with
    | none => .fault (.badBytes [lead]) :: ofBytes failure rest
    | some width =>
      let more := rest.take (width - 1)
      if more.length < width - 1 then
        [.fault ((failure.map InputFault.failure).getD .cutOff)]
      else
        let item := match Text.Utf8.char? (lead :: more) with
          | some c => .char c
          | none => .fault (.badBytes (lead :: more))
        item :: ofBytes failure (rest.drop (width - 1))
  termination_by bytes => bytes.length

end Input

/-- An input of which some characters at the front have been looked at or put back. Those are held:
only a held character can be consumed. -/
structure CharReader where
  /-- What is still to be read, held characters first. -/
  input : Input
  /-- How many characters at the front are held. -/
  held : Nat := 0
  deriving Repr

namespace CharReader

/-- The next character, which is held from now on. A fault is met once and then passed. -/
def peek (r : CharReader) : Option Item × CharReader :=
  match r.input with
  | [] => (none, r)
  | .char c :: _ => (some (.char c), { r with held := max r.held 1 })
  | .fault fault :: rest => (some (.fault fault), { r with input := rest })

/-- Passes the held character at the front, if there is one. -/
def consume (r : CharReader) : CharReader :=
  if r.held = 0 then r else { input := r.input.tail, held := r.held - 1 }

/-- Puts a character back to the front. -/
def putBack (c : Char) (r : CharReader) : CharReader :=
  { input := .char c :: r.input, held := r.held + 1 }

/-- Takes the next character. -/
def read (r : CharReader) : Option Item × CharReader :=
  match r.peek with
  | (some (.char c), r) => (some (.char c), r.consume)
  | other => other

end CharReader

end Clausal
