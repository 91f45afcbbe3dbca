import FanIn.Text

/-!
# Failures

A failure is a value that a callback may throw, a terminal call may carry and a signal may
deliver. `Failure.message` is the text a failure was built with, `Failure.what` the part of it
that a reader sees, and `Failure.describe` the diagnostic line made of its type and that part.

A `handlerFailed` failure embeds two further failures. Its message is built from their
*descriptions*, so a NUL inside an embedded message cuts only that embedded description.
-/

namespace FanIn

/-- The name of a type, as diagnostics print it. -/
structure TypeName where
  text : String
  plain : Text.IsPlain text
  deriving DecidableEq, Repr

/-- The failures of the standard hierarchy that carry nothing but a message. -/
inductive StandardKind where
  | runtimeError
  | logicError
  | invalidArgument
  | outOfRange
  | lengthError
  | domainError
  | rangeError
  | overflowError
  | underflowError
  /-- A type of a client's own. -/
  | other (name : TypeName)
  deriving DecidableEq, Repr

/-- The type name of a standard failure, as diagnostics print it. -/
def StandardKind.typeName : StandardKind → String
  | runtimeError => "std::runtime_error"
  | logicError => "std::logic_error"
  | invalidArgument => "std::invalid_argument"
  | outOfRange => "std::out_of_range"
  | lengthError => "std::length_error"
  | domainError => "std::domain_error"
  | rangeError => "std::range_error"
  | overflowError => "std::overflow_error"
  | underflowError => "std::underflow_error"
  | other name => name.text

/-- What can go wrong, in callbacks as well as in the library itself. -/
inductive Failure where
  | standard (kind : StandardKind) (message : String)
  /-- An operation that is valid in general but not in the present state. -/
  | illegalState (message : String)
  /-- The exception handler of a context failed on the failure it was given; `raised` is what it
  raised itself, if it raised anything. -/
  | handlerFailed (contextId : String) (given raised : Option Failure)
  | outOfMemory
  /-- A standard failure that says nothing about itself. -/
  | unspecified
  /-- A thrown value outside the standard hierarchy. -/
  | foreign
  deriving Repr, BEq

namespace Failure

def noFailure : String := "<no exception>"

/-- The description of a thrown value outside the standard hierarchy. -/
def outsideHierarchy : String := "<exception not derived from std::exception>"

/-- What the failure of an exception handler says, from the id of the context and the texts of
the failure it was given and of what it raised. -/
def handlerText (contextId given raised : String) : String :=
  "exception handler failed for context " ++ contextId ++ " while handling [" ++ given ++
    "]: " ++ raised

mutual

/-- One diagnostic line: the type of the failure and the visible part of its message. -/
def describe : Failure → String
  | .standard kind m => kind.typeName ++ ": " ++ Text.visible m
  | .illegalState m => "tributary::illegal_state_error: " ++ Text.visible m
  | .handlerFailed id given raised =>
    "tributary::handler_failure: " ++
      Text.visible (handlerText id (describe? given) (describeRaised raised))
  | .outOfMemory => "std::bad_alloc: std::bad_alloc"
  | .unspecified => "std::exception: std::exception"
  | .foreign => outsideHierarchy

def describe? : Option Failure → String
  | none => noFailure
  | some f => describe f

/-- What a handler raised, or that it gave no answer at all. -/
def describeRaised : Option Failure → String
  | none => "handler returned no signal"
  | some f => describe f

end

@[simp] theorem describe?_none : describe? none = noFailure := rfl

@[simp] theorem describe?_some (f : Failure) : describe? (some f) = f.describe := rfl

@[simp] theorem describeRaised_none : describeRaised none = "handler returned no signal" := rfl

@[simp] theorem describeRaised_some (f : Failure) : describeRaised (some f) = f.describe := rfl

/-- The text the failure was built with. -/
def message : Failure → String
  | .standard _ m => m
  | .illegalState m => m
  | .handlerFailed id given raised => handlerText id (describe? given) (describeRaised raised)
  | .outOfMemory => "std::bad_alloc"
  | .unspecified => "std::exception"
  | .foreign => ""

/-- The part of the message that a reader sees. -/
def what (f : Failure) : String := Text.visible f.message

/-- Whether the failure belongs to the standard hierarchy, so that it can say what went wrong. -/
def isStandard : Failure → Bool
  | .foreign => false
  | _ => true

/-- What is logged about an observer that threw. -/
def observerReport (f : Failure) : String :=
  if f.isStandard then "notification observer threw: " ++ f.what
  else "notification observer threw an exception not derived from std::exception"

/-- An argument that breaks a precondition. -/
def invalidArgument (message : String) : Failure := .standard .invalidArgument message

end Failure

end FanIn
