import Clausal.Binary64.Text
import Clausal.Operator
import Clausal.Store.Snapshot
import Clausal.Text.Quoted

/-! # Terms as text

A term becomes a list of pieces, and `Piece.render` puts these together with a space wherever two
tokens would otherwise read as one. How a compound is written depends on its name, the number of its
arguments and the operators in force (`TermWriter.form`): as a list, in braces, as the application
of an operator, in brackets if its priority is too high for its place, or as a name with
arguments.
-/

namespace Clausal

/-- A piece of written text. -/
inductive Piece where
  /-- A token, which must not run into the text before it. -/
  | token (text : String)
  /-- Text that stands as it is. -/
  | plain (text : String)
  deriving DecidableEq, Repr

namespace Piece

/-- Whether two characters in a row could belong to one token. -/
def joins : Option Char → Option Char → Bool
  | some a, some b =>
    (Text.isAlnum a && Text.isAlnum b) || (Text.isSymbol a && Text.isSymbol b)
  | _, _ => false

/-- Adds a piece to a text, of which the last character is given too. -/
def append (out : String × Option Char) (piece : Piece) : String × Option Char :=
  let text := match piece with
    | plain text => text
    | token text => if joins out.2 text.toList.head? then " " ++ text else text
  (out.1 ++ text, text.toList.getLast?.or out.2)

/-- The pieces as one text. -/
def render (pieces : List Piece) : String := (pieces.foldl append ("", none)).1

end Piece

/-- Where a term is written. -/
inductive Place where
  /-- Where a term of at most the given priority can stand. -/
  | operand (limit : Nat)
  /-- After the items of a list. -/
  | tail
  deriving DecidableEq, Repr

namespace Place

/-- The highest priority that a term can have without brackets. -/
def limit : Place → Nat
  | operand limit => limit
  | tail => 999

/-- What goes before a term that does not continue a list. -/
def opening : Place → List Piece
  | operand _ => []
  | tail => [.plain "|"]

end Place

/-- How a compound is written. -/
inductive Form where
  /-- As a cell of a list. -/
  | cell
  /-- As a term in braces. -/
  | curly
  /-- With the operator between its operands. -/
  | between (op : Operator)
  /-- With the operator before its operand. -/
  | before (op : Operator)
  /-- With the operator after its operand. -/
  | after (op : Operator)
  /-- As a name with arguments in brackets. -/
  | call
  deriving DecidableEq, Repr

namespace Form

/-- Where the argument at an index is written. -/
def place : Form → Nat → Place
  | cell, 0 => .operand 999
  | cell, _ => .tail
  | curly, _ => .operand 1200
  | between op, 0 => .operand op.leftMax
  | between op, _ => .operand op.rightMax
  | before op, _ => .operand op.rightMax
  | after op, _ => .operand op.leftMax
  | call, _ => .operand 999

end Form

/-- The way to write terms. -/
structure TermWriter where
  /-- The operators in force. -/
  ops : OperatorTable := .standard
  /-- Whether names are quoted where they would not read back otherwise. -/
  quoted : Bool := true

namespace TermWriter

variable (w : TermWriter)

/-- The text of a name. -/
def name (name : String) : String := if w.quoted then Text.quotedName name else name

/-- A variable has the name that it had in the source, or else its number after an underscore. -/
def variableName (v : TermVar) : String :=
  match v.name with
  | some name => if name = "_" then "_" ++ toString v.id else name
  | none => "_" ++ toString v.id

/-- The pieces of a constant. A name that is an operator stands in brackets where an operand of an
operator is expected. -/
def literal (limit : Nat) : Literal → List Piece
  | .small n => [.token (toString n.toInt)]
  | .big n => [.token (toString n)]
  | .float x => [.token x.written]
  | .atom name =>
    if w.ops.isOperator name && limit < 999 && name ≠ "[]" && name ≠ "\x7b\x7d" then
      [.plain "(", .token (w.name name), .plain ")"]
    else [.token (w.name name)]

/-- How the compound is written. A sign before a number would be read as part of the number. -/
def form (name : String) (args : List Term) : Form :=
  match args with
  | [_, _] =>
    if name = "." then .cell
    else
      match w.ops.find? name .between with
      | some op => .between op
      | none => .call
  | [arg] =>
    if name = "\x7b\x7d" then .curly
    else
      let isNumber := match arg with
        | .literal l => l.isNumber
        | _ => false
      let isSign := name = "-" || name = "+"
      match w.ops.find? name .before, w.ops.find? name .after with
      | some op, after =>
        if isSign && isNumber then
          match after with
          | some op => .after op
          | none => .call
        else .before op
      | none, some op => .after op
      | none, none => .call
  | _ => .call

/-- The operator between two operands. -/
def separator (name : String) (op : Operator) : Piece :=
  if name = "," then .plain ", "
  else if 1000 ≤ op.priority then .plain (" " ++ w.name name ++ " ")
  else .token (w.name name)

/-- The pieces in brackets if `enclosed` says so. -/
def bracketed (enclosed : Bool) (pieces : List Piece) : List Piece :=
  if enclosed then .plain "(" :: pieces ++ [.plain ")"] else pieces

/-- The pieces of a compound from those of its arguments. -/
def assemble (place : Place) (form : Form) (name : String) (parts : List (List Piece)) :
    List Piece :=
  match form with
  | .cell =>
    match place with
    | .operand _ => .plain "[" :: parts.flatten ++ [.plain "]"]
    | .tail => .plain "," :: parts.flatten
  | .curly => place.opening ++ .plain "\x7b" :: parts.flatten ++ [.plain "\x7d"]
  | .between op =>
    place.opening ++ bracketed (place.limit < op.priority)
      (parts.intersperse [w.separator name op]).flatten
  | .before op =>
    place.opening ++ bracketed (place.limit < op.priority)
      (.token (w.name name) :: .plain " " :: parts.flatten)
  | .after op =>
    place.opening ++ bracketed (place.limit < op.priority)
      (parts.flatten ++ [.plain " ", .token (w.name name)])
  | .call =>
    place.opening ++ .token (w.name name) :: .plain "(" ::
      (parts.intersperse [.plain ","]).flatten ++ [.plain ")"]

mutual

/-- The pieces of a term at a place. -/
def pieces (place : Place) : Term → List Piece
  | .var v => place.opening ++ [.token (variableName v)]
  | .literal l =>
    if place = .tail && l = .atom "[]" then [] else place.opening ++ w.literal place.limit l
  | .compound name args =>
    let form := w.form name args
    w.assemble place form name (argPieces form 0 args)

/-- The pieces of each argument of a compound written in the given form, from the index on. -/
def argPieces (form : Form) (index : Nat) : List Term → List (List Piece)
  | [] => []
  | t :: ts => pieces (form.place index) t :: argPieces form (index + 1) ts

end

/-- The text of a term, with variables as they are numbered. -/
def write (t : Term) : String := Piece.render (w.pieces (.operand 1200) t)

end TermWriter

namespace Term

/-- The term as it comes out of an empty store after being put in: variables that differ have
different numbers. -/
def renumbered (t : Term) : Term :=
  let (t, s) := Store.build {} t
  s.snapshot t

/-- The text of a term by itself, under the standard operators. -/
def text (t : Term) : String := TermWriter.write {} t.renumbered

end Term

end Clausal
