import Clausal.Indicator
import Clausal.ReadError
import Clausal.TermWriter

/-! # Errors of loads and calls

What can end a load or a call before it has an answer, as a term that a program can inspect and as
text. Most errors have a formal part that says what went wrong; those without one are reported as
errors of the system with their text.
-/

namespace Clausal

/-- A kind of term that was expected. -/
inductive Expected where
  /-- A name. -/
  | atom
  /-- A name or a compound. -/
  | callable
  /-- An integer. -/
  | integer
  /-- A list. -/
  | list
  /-- A term `Name/Arity`. -/
  | indicator
  deriving DecidableEq, Repr

namespace Expected

/-- The name of the kind. -/
def name : Expected → String
  | atom => "atom"
  | callable => "callable"
  | integer => "integer"
  | list => "list"
  | indicator => "predicate_indicator"

end Expected

/-- Why a load or a call was given up. -/
inductive Error where
  /-- A free variable stands where a term is needed. -/
  | instantiation
  /-- A term of another kind was expected. -/
  | type (expected : Expected) (culprit : Term)
  /-- No predicate of that indicator is defined. -/
  | noProcedure (pi : Indicator)
  /-- There is no source of that name. -/
  | noSource (name : String)
  /-- The predicate belongs to the machine and cannot be changed. -/
  | protectedProcedure (pi : Indicator)
  /-- The source is being loaded already. -/
  | cyclicSource (name : String)
  /-- The clauses of the predicate do not stand together. -/
  | discontiguous (pi : Indicator)
  /-- A term was thrown. -/
  | thrown (ball : Term)
  /-- A goal that stood as a directive failed. -/
  | failedDirective (goal : Term)
  /-- A goal that was to run after loading failed. -/
  | failedInitialization (goal : Term)
  /-- A source does not read as terms. -/
  | unreadable (e : ReadError)
  /-- A source could not be read at all. -/
  | input (message : String)
  /-- The context of the load was cancelled. -/
  | cancelled
  deriving Repr

namespace Error

/-- An error of reading as an error of the load: failures of the input are told from faults of the
text. -/
def ofRead : ReadError → Error
  | .endOfText => input ReadError.endOfText.message
  | .input fault => input fault.message
  | e => unreadable e

/-- The formal part of the error, if it has one. -/
def formal? : Error → Option Term
  | instantiation => some (.atom "instantiation_error")
  | type expected culprit => some (.apply "type_error" [.atom expected.name, culprit])
  | noProcedure pi => some (.apply "existence_error" [.atom "procedure", pi.term])
  | noSource name => some (.apply "existence_error" [.atom "source_sink", .atom name])
  | protectedProcedure pi =>
    some (.apply "permission_error" [.atom "modify", .atom "static_procedure", pi.term])
  | cyclicSource name =>
    some (.apply "permission_error" [.atom "open", .atom "source_sink", .atom name])
  | unreadable e => some (.apply "syntax_error" [.atom e.name])
  | _ => none

/-- The text of the error. -/
def message (error : Error) : String :=
  match error with
  | discontiguous pi => pi.text ++ " is discontiguous"
  | thrown ball => "unhandled exception: " ++ ball.text
  | failedDirective goal => "failed directive: " ++ goal.text
  | failedInitialization goal => "failed initialization goal: " ++ goal.text
  | unreadable e => e.message
  | input message => message
  | cancelled => "load cancelled"
  | error => (error.formal?.map Term.text).getD ""

/-- The error as a term: what was thrown, or else `error` of the formal part and a free variable. -/
def term : Error → Term
  | thrown ball => ball
  | error =>
    let formal := error.formal?.getD (.apply "system_error" [.atom error.message])
    .apply "error" [formal, .var ⟨0, none⟩]

end Error

end Clausal
