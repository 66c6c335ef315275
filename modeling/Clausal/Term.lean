import Clausal.Literal

/-! # Terms

Terms of this kind own their structure, independent of any store. They carry culprits and thrown
terms out of a machine, and values into one.
-/

namespace Clausal

/-- A variable of a term. Two variables are the same if both the number and the name agree. -/
structure TermVar where
  /-- The number; for a variable taken from a store, its place there. -/
  id : Nat
  /-- The name in the source text, if it had one. -/
  name : Option String
  deriving DecidableEq, Repr

/-- A term. -/
inductive Term where
  /-- An atomic constant. -/
  | literal (l : Literal)
  /-- A name applied to one or more arguments. -/
  | compound (name : String) (args : List Term)
  /-- A variable. -/
  | var (v : TermVar)
  deriving Repr, Inhabited

namespace Term

/-- A name as a term. -/
def atom (name : String) : Term := literal (.atom name)

/-- An integer as a term. -/
def int (n : Int) : Term := literal (.ofInt n)

/-- A name applied to arguments, which is the name itself if there are none. -/
def apply (name : String) (args : List Term) : Term :=
  if args.isEmpty then atom name else compound name args

/-- The list cell of a head and a tail. -/
def cons (head tail : Term) : Term := compound "." [head, tail]

/-- The list of the items that ends in `tail`. -/
def partialList (items : List Term) (tail : Term) : Term := items.foldr cons tail

/-- The list of the items. -/
def list (items : List Term) : Term := partialList items (atom "[]")

/-- The term `name/arity`. -/
def indicator (name : String) (arity : Nat) : Term := compound "/" [atom name, int arity]

/-- The name and the number of arguments of an atom or compound. -/
def nameArity? : Term → Option (String × Nat)
  | literal (.atom name) => some (name, 0)
  | compound name args => some (name, args.length)
  | _ => none

/-- Matches two variables by the places where their numbers were first met, on the left and on the
right. Both may be new, in which case they are paired from now on. -/
def pairIds (left right : List Nat) (x y : Nat) : Option (List Nat × List Nat) :=
  match left.idxOf? x, right.idxOf? y with
  | none, none => some (left ++ [x], right ++ [y])
  | i, j => if i = j then some (left, right) else none

mutual

/-- Whether the terms differ at most in their variables, and where those stand in the pairing that
`left` and `right` give. The result is the pairing extended by the variables met. -/
def variantOf (left right : List Nat) : Term → Term → Option (List Nat × List Nat)
  | literal a, literal b => if a.same b then some (left, right) else none
  | compound f xs, compound g ys => if f = g then variantArgs left right xs ys else none
  | var x, var y => pairIds left right x.id y.id
  | _, _ => none

/-- The same for two lists of arguments. -/
def variantArgs (left right : List Nat) : List Term → List Term → Option (List Nat × List Nat)
  | [], [] => some (left, right)
  | x :: xs, y :: ys =>
    match variantOf left right x y with
    | some (left, right) => variantArgs left right xs ys
    | none => none
  | _, _ => none

end

/-- Whether the terms are equal up to a renaming of their variables, told apart by their numbers. -/
def isVariant (s t : Term) : Bool := (variantOf [] [] s t).isSome

end Term

end Clausal
