import Clausal.Literal

/-! # The term store

Every term that a machine reads or builds is a cell of the store, named by a `Ref`; cells are never
given back. A variable is a cell that is free or bound to another cell, and every binding is
recorded on the trail, so that it can be undone when the search turns back.

Binding chains and argument edges never form a cycle, because variables are bound only after an
occurs check. So the number of cells bounds the length of every path, and the functions that follow
edges count down from it.
-/

namespace Clausal

/-- The name of a cell: its place in the store. Older cells have lower places. -/
structure Ref where
  /-- The place of the cell. -/
  index : Nat
  deriving DecidableEq, Repr, Inhabited

/-- A cell of the store. -/
inductive Cell where
  /-- An atomic constant. -/
  | literal (l : Literal)
  /-- A name applied to one or more arguments. -/
  | compound (name : String) (args : List Ref)
  /-- A variable: its name in the source text, if it had one, and what it is bound to, if it is. -/
  | var (name : Option String) (binding : Option Ref)
  deriving DecidableEq, Repr

/-- What a term is once bindings are resolved. -/
inductive View where
  /-- A free variable. -/
  | var (v : Ref)
  /-- An atomic constant. -/
  | literal (l : Literal)
  /-- A name applied to arguments. -/
  | compound (name : String) (args : List Ref)
  deriving DecidableEq, Repr

/-- The term store. -/
structure Store where
  /-- The cells, oldest first. -/
  cells : Array Cell := #[]
  /-- The bound variables in the order in which they were bound. -/
  trail : Array Ref := #[]
  deriving Repr, Inhabited

namespace Store

/-- The number of cells. -/
def size (s : Store) : Nat := s.cells.size

/-- The cell at a place, if there is one. -/
def cell? (s : Store) (t : Ref) : Option Cell := s.cells[t.index]?

/-! ### Allocation -/

/-- Adds a cell. -/
def push (s : Store) (c : Cell) : Ref × Store :=
  (⟨s.cells.size⟩, { s with cells := s.cells.push c })

/-- Adds an atomic constant. -/
def literal (s : Store) (l : Literal) : Ref × Store := s.push (.literal l)

/-- Adds a name as a constant. -/
def atom (s : Store) (name : String) : Ref × Store := s.literal (.atom name)

/-- Adds a fresh variable. -/
def var (s : Store) (name : Option String) : Ref × Store := s.push (.var name none)

/-- Adds a name applied to arguments, which is the name itself if there are none. -/
def apply (s : Store) (name : String) (args : List Ref) : Ref × Store :=
  if args.isEmpty then s.atom name else s.push (.compound name args)

/-- Adds the list of the items that ends in `tail`, its last cell first. -/
def partialList (s : Store) (items : List Ref) (tail : Ref) : Ref × Store :=
  items.foldr (fun head (tail, s) => s.apply "." [head, tail]) (tail, s)

/-- Adds the list of the items, its end first. -/
def list (s : Store) (items : List Ref) : Ref × Store :=
  let (nil, s) := s.atom "[]"
  s.partialList items nil

/-- Adds constants, first to last. -/
def literals (s : Store) (ls : List Literal) : List Ref × Store :=
  let (refs, s) := ls.foldl (fun (refs, s) l => let (t, s) := s.literal l; (t :: refs, s)) ([], s)
  (refs.reverse, s)

/-! ### Resolving bindings -/

/-- Follows at most the given number of bindings. -/
def derefFrom (s : Store) : Nat → Ref → Ref
  | 0, t => t
  | n + 1, t =>
    match s.cell? t with
    | some (.var _ (some next)) => derefFrom s n next
    | _ => t

/-- The cell that `t` stands for, at the end of its chain of bindings. -/
def deref (s : Store) (t : Ref) : Ref := s.derefFrom s.size t

/-- What `t` stands for. -/
def view (s : Store) (t : Ref) : View :=
  let t := s.deref t
  match s.cell? t with
  | some (.literal l) => .literal l
  | some (.compound name args) => .compound name args
  | _ => .var t

/-- Whether `t` stands for a free variable. -/
def isVar (s : Store) (t : Ref) : Bool :=
  match s.view t with
  | .var _ => true
  | _ => false

/-- The source name of the variable that `t` stands for. -/
def varName? (s : Store) (t : Ref) : Option String :=
  match s.cell? (s.deref t) with
  | some (.var name _) => name
  | _ => none

/-- The name that `t` stands for, if it is one. -/
def atom? (s : Store) (t : Ref) : Option String :=
  match s.view t with
  | .literal (.atom name) => some name
  | _ => none

/-- The name and the number of arguments of an atom or compound. -/
def nameArity? (s : Store) (t : Ref) : Option (String × Nat) :=
  match s.view t with
  | .literal (.atom name) => some (name, 0)
  | .compound name args => some (name, args.length)
  | _ => none

/-- The arguments of a compound; any other term has none. -/
def args (s : Store) (t : Ref) : List Ref :=
  match s.view t with
  | .compound _ args => args
  | _ => []

/-! ### Binding -/

/-- Sets what the variable at a place is bound to. -/
def setBinding (cells : Array Cell) (v : Ref) (binding : Option Ref) : Array Cell :=
  cells.modify v.index fun
    | .var name _ => .var name binding
    | c => c

/-- Binds a free variable and records it on the trail. -/
def bind (s : Store) (v value : Ref) : Store :=
  let ⟨cells, trail⟩ := s
  ⟨setBinding cells v (some value), trail.push v⟩

/-- The length of the trail, to which it can be cut back later. -/
def mark (s : Store) : Nat := s.trail.size

/-- Frees every variable that was bound since the mark was taken. -/
def undoTo (s : Store) (mark : Nat) : Store :=
  let ⟨cells, trail⟩ := s
  ⟨trail.foldl (fun cells v => setBinding cells v none) cells mark, trail.shrink mark⟩

end Store

end Clausal
