import Clausal.Load
import Clausal.Store.Order
import Clausal.Store.Unify

/-! # Built-in predicates

What the predicates of the machine do. Some of them prove goals or load sources in turn, by way of
`solve`.
-/

namespace Clausal

namespace Machine

variable (solve : Ref → MachineM Bool)

/-- Calls a predicate; the bindings of the first proof are kept. -/
def callWith (pi : Indicator) (args : List Ref) : MachineM Bool := do
  if args.length ≠ pi.arity then fail (.type .indicator pi.term)
  solve (← onStore (·.apply pi.name args))

end Machine

namespace Builtin

open Machine

variable (solve : Ref → MachineM Bool)

/-- Loads the text that a term is, under a context. -/
def compileText (c : Context) (t : Ref) : MachineM Bool := do
  match ← look (·.atom? t) with
  | some text =>
    Machine.compile solve c text []
    pure true
  | none => Machine.fail .instantiation

/-- Carries out a built-in predicate with its arguments. -/
def run (b : Builtin) (args : List Ref) : MachineM Bool := do
  match b, args with
  | .throw, t :: _ =>
    if ← look (·.isVar t) then Machine.fail .instantiation
    else Machine.fail (.thrown (← look (·.snapshot t)))
  | .unify, t :: u :: _ => onStore (·.unify t u)
  | .consult, t :: _ =>
    Machine.consult solve (← get).context t
    pure true
  | .succeed, _ => pure true
  | .fail, _ => pure false
  | .emit name, args =>
    let terms ← look fun s => args.map s.snapshot
    modify fun m => { m with log := .apply name terms :: m.log }
    pure true
  | .cancel, _ =>
    Machine.cancel (← get).request
    pure true
  | .compile, t :: _ => compileText solve (← get).request t
  | .compileDetached, t :: _ => compileText solve (← newContext) t
  | .once, args => callWith solve ⟨"call", 1⟩ args
  | .less, t :: u :: _ => look fun s => s.compare t u == .lt
  | .same, t :: u :: _ => look (·.same t u)
  | .copyTerm, t :: u :: _ =>
    let copy ← onStore (·.copy t)
    callWith solve ⟨"=", 2⟩ [copy, u]
  | .ground, t :: _ => look (·.isGround t)
  | .var, t :: _ => look (·.isVar t)
  | .defined, t :: _ =>
    let pi ← examine (Indicator.ofRef · t)
    pure ((← get).database.find? pi).isSome
  | .refuseInteger, t :: _ => Machine.fail (← look (·.typeError .integer t))
  | .refuseList, t :: _ => Machine.fail (← look (·.typeError .list t))
  | _, _ => pure false

end Builtin

end Clausal
