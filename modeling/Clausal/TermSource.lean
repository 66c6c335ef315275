import Clausal.TermReader

/-! # Sources of terms

A source has a name and gives terms. A first line that begins with `#!` belongs to the shell and is
passed over, without counting as a line.
-/

namespace Clausal

namespace Input

/-- Drops the characters up to and including the first end of line. -/
def dropLine : Input → Except InputFault Input
  | [] => .ok []
  | .fault fault :: _ => .error fault
  | .char c :: rest => if c = '\n' then .ok rest else dropLine rest

/-- Drops the first line if it begins with `#!`. -/
def dropShebang : Input → Except InputFault Input
  | .fault fault :: _ => .error fault
  | .char '#' :: .fault fault :: _ => .error fault
  | .char '#' :: .char '!' :: rest => dropLine rest
  | input => .ok input

end Input

/-- A named source of terms. -/
structure TermSource where
  /-- The name. -/
  name : String
  /-- What is still to be read. -/
  reader : TermReader
  /-- Whether nothing was read so far. -/
  atStart : Bool := true
  deriving Repr

namespace TermSource

/-- Passes over the shell's line if nothing was read so far. -/
def started (source : TermSource) : Except ReadError TermSource :=
  if source.atStart then
    match source.reader.lexer.input.dropShebang with
    | .ok input =>
      .ok { source with
        atStart := false
        reader := { source.reader with lexer := { source.reader.lexer with input } } }
    | .error fault => .error (.input fault)
  else .ok source

/-- Reads the next term into a store, or finds that there is none. -/
def next? (ops : OperatorTable) (source : TermSource) (s : Store) :
    Except ReadError (Option Ref) × TermSource × Store :=
  match source.started with
  | .error e => (.error e, source, s)
  | .ok source =>
    let (result, reader, s) := source.reader.next? ops s
    (result, { source with reader }, s)

end TermSource

end Clausal
