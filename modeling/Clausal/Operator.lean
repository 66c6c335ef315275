/-! # Operators

A table holds at most one definition of a name in each position: between its operands, before its
operand, or after it. Definitions keep the order in which they were first made.
-/

namespace Clausal

/-- Where an operator stands relative to its operands. -/
inductive Fixity where
  /-- Between two operands. -/
  | between
  /-- After its operand. -/
  | after
  /-- Before its operand. -/
  | before
  deriving DecidableEq, Repr

/-- How an operator takes its operands: `f` is the operator, `y` an operand of at most its
priority, `x` one of a lower priority. -/
inductive Specifier where
  | xfx | xfy | yfx | xf | yf | fx | fy
  deriving DecidableEq, Repr

namespace Specifier

/-- Where an operator of this kind stands. -/
def fixity : Specifier → Fixity
  | xfx | xfy | yfx => .between
  | xf | yf => .after
  | fx | fy => .before

/-- The specifier as it is written. -/
def text : Specifier → String
  | xfx => "xfx"
  | xfy => "xfy"
  | yfx => "yfx"
  | xf => "xf"
  | yf => "yf"
  | fx => "fx"
  | fy => "fy"

/-- The specifier that is written so. -/
def ofText? (s : String) : Option Specifier :=
  [xfx, xfy, yfx, xf, yf, fx, fy].find? (·.text = s)

end Specifier

/-- The definition of an operator. -/
structure Operator where
  /-- The priority, which is positive in a table. -/
  priority : Nat
  /-- How it takes its operands. -/
  specifier : Specifier
  deriving DecidableEq, Repr

namespace Operator

/-- The highest priority of the operand on the left, and zero if there is none. -/
def leftMax (op : Operator) : Nat :=
  match op.specifier with
  | .yfx | .yf => op.priority
  | .xfx | .xfy | .xf => op.priority - 1
  | .fx | .fy => 0

/-- The highest priority of the operand on the right, and zero if there is none. -/
def rightMax (op : Operator) : Nat :=
  match op.specifier with
  | .xfy | .fy => op.priority
  | .xfx | .yfx | .fx => op.priority - 1
  | .xf | .yf => 0

/-- The definition as it is listed. -/
def text (op : Operator) : String := toString op.priority ++ " " ++ op.specifier.text

end Operator

/-- What a table knows an operator by. -/
structure OperatorKey where
  /-- The name. -/
  name : String
  /-- The position. -/
  fixity : Fixity
  deriving DecidableEq, Repr

/-- The operators in force, in the order in which they were defined. -/
structure OperatorTable where
  /-- The definitions; no key occurs twice. -/
  entries : List (OperatorKey × Operator) := []
  deriving Repr

namespace OperatorTable

/-- The definition of a name in one position. -/
def find? (table : OperatorTable) (name : String) (fixity : Fixity) : Option Operator :=
  table.entries.lookup ⟨name, fixity⟩

/-- Whether the name is an operator in any position. -/
def isOperator (table : OperatorTable) (name : String) : Bool :=
  table.entries.any (·.1.name = name)

/-- Sets the definition of a key, in its place if it has one and else at the end. -/
def set (key : OperatorKey) (op : Operator) :
    List (OperatorKey × Operator) → List (OperatorKey × Operator)
  | [] => [(key, op)]
  | entry :: rest => if entry.1 = key then (key, op) :: rest else entry :: set key op rest

/-- Defines an operator, in place of an earlier definition in the same position. Priority zero
takes the definition away. -/
def add (table : OperatorTable) (name : String) (priority : Nat) (specifier : Specifier) :
    OperatorTable :=
  let key : OperatorKey := ⟨name, specifier.fixity⟩
  if priority = 0 then ⟨table.entries.filter (·.1 ≠ key)⟩
  else ⟨set key ⟨priority, specifier⟩ table.entries⟩

/-- The standard operators, and those that begin declarations. -/
def standard : OperatorTable :=
  [(":-", 1200, .xfx), ("-->", 1200, .xfx), (":-", 1200, .fx), ("?-", 1200, .fx),
    ("dynamic", 1150, .fx), ("discontiguous", 1150, .fx), ("initialization", 1150, .fx),
    ("multifile", 1150, .fx), (";", 1100, .xfy), ("->", 1050, .xfy), ("*->", 1050, .xfy),
    (",", 1000, .xfy), ("\\+", 900, .fy), ("=", 700, .xfx), ("\\=", 700, .xfx),
    ("==", 700, .xfx), ("\\==", 700, .xfx), ("@<", 700, .xfx), ("@>", 700, .xfx),
    ("@=<", 700, .xfx), ("@>=", 700, .xfx), ("=..", 700, .xfx), ("is", 700, .xfx),
    ("=:=", 700, .xfx), ("=\\=", 700, .xfx), ("<", 700, .xfx), (">", 700, .xfx),
    ("=<", 700, .xfx), (">=", 700, .xfx), (":", 200, .xfy), ("+", 500, .yfx), ("-", 500, .yfx),
    ("/\\", 500, .yfx), ("\\/", 500, .yfx), ("xor", 500, .yfx), ("*", 400, .yfx),
    ("/", 400, .yfx), ("//", 400, .yfx), ("rem", 400, .yfx), ("mod", 400, .yfx),
    ("div", 400, .yfx), ("<<", 400, .yfx), (">>", 400, .yfx), ("**", 200, .xfx),
    ("^", 200, .xfy), ("-", 200, .fy), ("+", 200, .fy), ("\\", 200, .fy)].foldl
    (fun table (name, priority, specifier) => table.add name priority specifier) {}

end OperatorTable

end Clausal
