import FanIn.Channel
import FanIn.Counter
import FanIn.Effort
import FanIn.Failure
import FanIn.Settings
import FanIn.Trail

/-!
# Contexts and signals

A *context* is a unit of work. Its outcome is decided once, by a terminal call, and published on
two channels, `before` and then `response`. It is *complete*, which its third channel tells, when
its own work is done, all its children are complete and its external link has been signaled; how
many of these are outstanding is what its counter counts.

A *signal* is a channel of its own, for the outcome of something that ends later: the handling of
an error, or whatever an external link stands for.

Contexts and signals are numbered in the order in which they were made, and numbers are not used
again. A child is therefore younger, and has the greater number, than its parent.
-/

namespace FanIn

abbrev ContextNo := Nat

abbrev SignalNo := Nat

/-- How far a context's outcome is decided. -/
inductive State where
  | pending
  | succeeded
  | failed
  deriving DecidableEq, Repr, Inhabited

def State.name : State → String
  | pending => "pending"
  | succeeded => "succeeded"
  | failed => "failed"

/-- The name of the state with a code; states are coded from zero. -/
def State.nameOfCode (code : Int) : String :=
  if code = 0 then pending.name
  else if code = 1 then succeeded.name
  else if code = 2 then failed.name
  else "unknown"

/-- Where a context was created: a container and the path of a component in it. -/
structure Location where
  container : String
  path : String
  deriving DecidableEq, Repr, Inhabited

/-- The outcome of a context: a result, which may be missing, or the error it failed with. -/
structure Response where
  result : Option Int := none
  error : Option Failure := none
  deriving Repr

def Response.isFailed (r : Response) : Bool := r.error.isSome

/-- What a signal delivers. -/
structure Resolution where
  failure : Option Failure := none
  /-- The signal answers a terminal call that came too late; no handler was asked. -/
  alreadyCompleted : Bool := false
  deriving Repr

/-- Whether what the signal stood for went well. -/
def Resolution.isSuccess (r : Resolution) : Bool := r.failure.isNone

/-- What any of the channels delivers. -/
inductive Value where
  | response (r : Response)
  | done
  | resolution (r : Resolution)
  deriving Repr

/-- A strong reference: it keeps alive what it refers to. -/
inductive Ref where
  | context (c : ContextNo)
  | signal (s : SignalNo)
  deriving DecidableEq, Repr

/-- Whoever waits at a channel. -/
inductive Observer where
  /-- Code of a client, known by a label, with the references it holds. -/
  | client (label : Nat) (keeps : List Ref)
  | empty
  /-- Gives up the slot that a context keeps for its external link. -/
  | settleLink (c : ContextNo)
  /-- Finishes the handling of a context's error and resolves the signal that stands for it. -/
  | settleError (c : ContextNo) (error : Failure) (result : SignalNo)
  deriving Repr

/-- What an observer keeps alive, in the order in which it lets go. -/
def Observer.refs : Observer → List Ref
  | client _ keeps => keeps
  | empty => []
  | settleLink c => [.context c]
  | settleError c _ result => [.signal result, .context c]

def Observer.isClients : Observer → Bool
  | client .. => true
  | empty => true
  | settleLink _ => false
  | settleError .. => false

/-- What a context keeps a slot for. -/
inductive Share where
  | own
  | link
  | child (c : ContextNo)
  /-- Someone a client has registered. -/
  | participant
  deriving DecidableEq, Repr

inductive ChannelRef where
  | before (c : ContextNo)
  | response (c : ContextNo)
  | completion (c : ContextNo)
  | signal (s : SignalNo)
  deriving DecidableEq, Repr

/-- What a channel belongs to. -/
def ChannelRef.owner : ChannelRef → Ref
  | before c => .context c
  | response c => .context c
  | completion c => .context c
  | signal s => .signal s

/-- What identifies a unit of work across systems, and whether it was given from outside. -/
structure Correlation where
  id : String
  isGiven : Bool
  deriving DecidableEq, Repr, Inhabited

/-- What the contexts of one tree have in common. -/
structure Tree where
  rootId : String
  /-- The number given to the latest descendant. -/
  numbered : UInt64 := 0
  /-- The time spent, if the tree collects it. -/
  effort : Option Effort := none
  deriving Repr, Inhabited

structure Context where
  id : String
  serverId : String
  correlation : Correlation
  location : Location
  /-- The exception handler, by its number. -/
  handler : Nat
  settings : Settings
  /-- The moment the root of the tree arrived, in contexts made before it. -/
  received : Nat
  parent : Option ContextNo := none
  /-- The parent, as long as this context keeps it alive: until it is complete. -/
  hold : Option ContextNo := none
  /-- The signal that has to fire before it is complete. -/
  link : Option SignalNo := none
  /-- The number of the tree it belongs to. -/
  tree : Nat
  state : State := .pending
  slots : Counter
  trail : Trail
  before : Channel Response Observer := .new
  response : Channel Response Observer := .new
  completion : Channel Unit Observer := .new
  holders : Nat := 0
  /-- Whether it still exists. A context that does not is kept for the record only. -/
  isLive : Bool := true
  deriving Repr

namespace Context

/-- Whether completion has been told. -/
def isComplete (x : Context) : Bool := x.completion.isFired

/-- Whether the outcome is decided. -/
def isTerminated (x : Context) : Bool := x.state != .pending

/-- What it keeps alive, in the order in which it lets go: what the observers waiting at its
channels hold, the latest channel first, and its parent. -/
def refs (x : Context) : List Ref :=
  (x.completion.observers.flatMap fun e => e.2.refs) ++
    (x.response.observers.flatMap fun e => e.2.refs) ++
    (x.before.observers.flatMap fun e => e.2.refs) ++ x.hold.toList.map Ref.context

/-- Whether it keeps something alive; the same as a look into `refs`, without making the list. -/
def keeps (x : Context) (r : Ref) : Bool :=
  x.hold.any (fun c => Ref.context c == r) ||
    x.completion.observers.any (fun e => e.2.refs.contains r) ||
    x.response.observers.any (fun e => e.2.refs.contains r) ||
    x.before.observers.any (fun e => e.2.refs.contains r)

theorem keeps_iff {x : Context} {r : Ref} : x.keeps r ↔ r ∈ x.refs := by
  cases h : x.hold <;> simp [keeps, refs, h] <;> grind

def weight (x : Context) : Nat := if x.isLive then 1 + x.refs.length else 0

/-- The context as diagnostics print it, given the id of its parent. -/
def print (x : Context) (parentId : Option String) : String :=
  "Event_context\x7bid=" ++ x.id ++ ", correlation_id=" ++ x.correlation.id ++
    (match parentId with
      | some id => ", parent=" ++ id
      | none => "") ++
    ", state=" ++ x.state.name ++ ", pending=" ++ toString x.slots.pending.toInt ++
    ", location=" ++ x.location.path ++ "\x7d"

end Context

structure Signal where
  channel : Channel Resolution Observer := .new
  holders : Nat := 0
  isLive : Bool := true
  deriving Repr

namespace Signal

/-- What the observers waiting at it keep alive. -/
def refs (x : Signal) : List Ref := x.channel.observers.flatMap fun e => e.2.refs

/-- Whether it keeps something alive; the same as a look into `refs`, without making the list. -/
def keeps (x : Signal) (r : Ref) : Bool :=
  x.channel.observers.any fun e => e.2.refs.contains r

theorem keeps_iff {x : Signal} {r : Ref} : x.keeps r ↔ r ∈ x.refs := by
  simp [keeps, refs]

def weight (x : Signal) : Nat := if x.isLive then 1 + x.refs.length else 0

end Signal

end FanIn
