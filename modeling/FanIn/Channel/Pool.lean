import FanIn.Channel
import FanIn.Failure
import FanIn.Log.Level

/-!
# Channels in use

A pool runs a number of channels whose observers are code of a client. While an observer runs it
is the client's turn: it may use any channel of the pool, firing, subscribing, unsubscribing or
destroying, before it returns or throws. All other work is the pool's own and is done one step at
a time by `Pool.advance`, so that every moment in between, in the middle of however many nested
notifications, is a value of type `Pool`.

The stack holds what is under way, innermost first. An observer that throws is reported in the
log, and the observers after it are notified all the same.

Channels are known by their numbers and observers by labels the client chose.

The client is one thread, which never blocks: waiting for a channel that has not fired answers that at
once. The log is a part of the history and calls nobody, and observers are dropped without any code of
the client being run.
-/

namespace FanIn.Channel

inductive Event (α : Type) where
  | fired (channel : Nat) (value : α)
  /-- An observer that was registered when the channel fired was called. -/
  | observed (channel label : Nat) (value : α)
  /-- An observer that subscribed after the channel had fired was called. -/
  | replayed (channel label : Nat) (value : α)
  | logged (level : Log.Level) (message : String)
  deriving Repr

inductive Reply where
  | done
  | flag (b : Bool)
  | channel (n : Nat)
  /-- What to unsubscribe by, unless the observer has been notified already. -/
  | subscription (channel : Nat) (number : Option UInt64)
  deriving DecidableEq, Repr

/-- Work under way. -/
inductive Frame (α : Type) where
  | observer (channel label : Nat) (value : α)
  /-- The observers of a channel still to be notified, because it fired or, in a replay, because
  they subscribed later. An empty observer has no label. -/
  | deliver (channel : Nat) (replay : Bool) (value : α) (todo : List (Option Nat))
  | returning (reply : Reply)
  deriving Repr

inductive Request (α : Type) where
  | create
  | destroy (channel : Nat)
  | subscribe (channel : Nat) (label : Option Nat)
  | unsubscribe (channel : Nat) (number : UInt64)
  | fire (channel : Nat) (value : α)
  | wait (channel : Nat)
  deriving Repr

/-- The channels, what is under way and what has happened. -/
structure Pool (α : Type) where
  /-- The channels by number; numbers are not used again. -/
  channels : Array (Option (Channel α (Option Nat))) := #[]
  stack : List (Frame α) := []
  /-- What the client's last call answered. -/
  reply : Reply := .done
  threshold : Log.Level := Log.Level.debug
  /-- Oldest first. -/
  history : Array (Event α) := #[]
  deriving Repr

namespace Pool

variable {α : Type}

/-- The channel with a number, unless it was destroyed. -/
def channel? (p : Pool α) (n : Nat) : Option (Channel α (Option Nat)) :=
  p.channels[n]?.join

/-- Whether it is the client's turn: nothing is under way, or an observer runs. -/
def isClientsTurn (p : Pool α) : Bool :=
  match p.stack with
  | [] => true
  | .observer .. :: _ => true
  | _ => false

/-- How many observers are running, each called from within the next. -/
def depth (p : Pool α) : Nat :=
  p.stack.countP fun
    | .observer .. => true
    | _ => false

/-- Puts a channel in the place of the one with the given number. -/
def setChannel (p : Pool α) (n : Nat) (c : Option (Channel α (Option Nat))) : Pool α :=
  { p with channels := p.channels.setIfInBounds n c }

def note (p : Pool α) (e : Event α) : Pool α := { p with history := p.history.push e }

/-- Logs a message if its level passes the threshold. -/
def log (p : Pool α) (level : Log.Level) (message : String) : Pool α :=
  if level.passes p.threshold then p.note (.logged level (Text.visible message)) else p

/-- A call that has nothing more to do answers. -/
def answer (p : Pool α) (r : Reply) : Pool α := { p with reply := r }

/-- Work to be done from now on, innermost first. -/
def push (p : Pool α) (frames : List (Frame α)) : Pool α :=
  { p with stack := frames ++ p.stack }

/-- The client calls. A channel that was destroyed is not there any more; calls on it do
nothing. -/
def call (p : Pool α) : Request α → Pool α
  | .create =>
    { p with channels := p.channels.push (some .new) }.answer (.channel p.channels.size)
  | .destroy n => (p.setChannel n none).answer .done
  | .subscribe n label =>
    match p.channel? n with
    | none => p.answer (.subscription n none)
    | some c =>
      match c.subscribe label with
      | (.registered k, c) => (p.setChannel n (some c)).answer (.subscription n (some k))
      | (.replayed v, _) => p.push [.deliver n true v [label], .returning (.subscription n none)]
  | .unsubscribe n k =>
    match p.channel? n with
    | none => p.answer .done
    | some c => (p.setChannel n (some (c.unsubscribe k))).answer .done
  | .fire n v =>
    match (p.channel? n).bind fun c => c.fire? v with
    | none => p.answer (.flag false)
    | some (observers, c) =>
      ((p.setChannel n (some c)).note (.fired n v)).push
        [.deliver n false v observers, .returning (.flag true)]
  -- the observer that opens the latch is not one of the client's
  | .wait n =>
    match p.channel? n with
    | none => p.answer (.flag false)
    | some c => (p.setChannel n (some (c.waitBriefly none))).answer (.flag c.isFired)

/-- The running observer of the client returns or throws. -/
def finish (p : Pool α) (thrown : Option Failure) : Pool α :=
  match p.stack with
  | .observer .. :: rest =>
    let p := { p with stack := rest }
    match thrown with
    | none => p
    | some f => p.log .error f.observerReport
  | _ => p

/-- One step of the pool's own work. On the client's turn nothing happens. -/
def advance (p : Pool α) : Pool α :=
  match p.stack with
  | [] => p
  | .observer .. :: _ => p
  | .deliver _ _ _ [] :: rest => { p with stack := rest }
  | .deliver n replay v (none :: todo) :: rest =>
    { p with stack := .deliver n replay v todo :: rest }
  | .deliver n replay v (some label :: todo) :: rest =>
    { p with stack := .observer n label v :: .deliver n replay v todo :: rest }.note
      (if replay then .replayed n label v else .observed n label v)
  | .returning r :: rest => { p with stack := rest, reply := r }

end Pool

end FanIn.Channel
