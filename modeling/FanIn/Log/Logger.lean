import FanIn.Failure
import FanIn.Log.Level

/-!
# The logger

A message goes to the sink in force, if its level passes the threshold. The standard sink prints
one line; a client's sink is some code of the client, which may throw. What it throws is reported
on the error output and goes no further, so logging never disturbs what is being logged.

Messages reach a sink as visible texts: up to their first NUL character.
-/

namespace FanIn.Log

/-- The code that receives the messages. -/
inductive Sink where
  | standard
  /-- Code of a client, with what it throws after having seen a message, if it throws. -/
  | client (name : String) (throws : Option Failure)
  deriving Repr, BEq

/-- A message as a client's sink saw it, with the text the sink was set up with. -/
structure Seen where
  level : Level
  message : String
  user : Option String
  deriving DecidableEq, Repr

/-- The threshold, the sink and everything they have put out so far. -/
structure Logger where
  threshold : Level := Level.warning
  sink : Sink := .standard
  user : Option String := none
  /-- The messages that clients' sinks saw, oldest first. -/
  seen : Array Seen := #[]
  out : String := ""
  err : String := ""
  deriving Repr

namespace Logger

/-- Whether messages of a level are let through at present. -/
def enabled (l : Logger) (level : Level) : Bool := level.passes l.threshold

/-- Installs a sink together with a text for it. The standard sink takes no text. -/
def install (l : Logger) (sink : Sink) (user : Option String) : Logger :=
  match sink with
  | .standard => { l with sink := .standard, user := none }
  | .client name throws => { l with sink := .client name throws, user := user }

/-- One line of the standard sink. -/
def line (level : Level) (message : String) : String :=
  "[tributary][" ++ level.name ++ "] " ++ Text.visible message ++ "\n"

/-- What the standard sink does with a message. -/
def print (l : Logger) (level : Level) (message : String) : Logger :=
  if level.isSevere then { l with err := l.err ++ line level message }
  else { l with out := l.out ++ line level message }

/-- What is printed about a failing sink. -/
def sinkFailure (f : Failure) : String :=
  "[tributary] log callback threw: " ++
    (if f.isStandard then f.what else "unknown exception") ++ "\n"

/-- Hands a message to the sink in force, if its level passes the threshold. -/
def log (l : Logger) (level : Level) (message : String) : Logger :=
  if !l.enabled level then l
  else match l.sink with
    | .standard => l.print level message
    | .client _ throws =>
      let l := { l with seen := l.seen.push ⟨level, Text.visible message, l.user⟩ }
      match throws with
      | none => l
      | some f => { l with err := l.err ++ sinkFailure f }

/-- Whatever a client's sink throws, it sees the same messages. -/
theorem seen_log_throws (l : Logger) (name : String) (t : Option Failure) (level : Level)
    (m : String) :
    ({ l with sink := .client name t }.log level m).seen =
      ({ l with sink := .client name none }.log level m).seen := by
  by_cases h : level.passes l.threshold
  · cases t <;> simp [log, enabled, h]
  · simp [log, enabled, h]

end Logger

end FanIn.Log
