import FanIn.Log.Level
import FanIn.Registry
import FanIn.Tree.Context

/-!
# The world of all contexts

A `World` holds every context and signal made so far, the registry, and what is under way. While
code of a client runs, an observer or an exception handler, it is the client's turn: the client
may call anything before it returns. All other work belongs to the library. What is under way is
a stack of frames, innermost first, so every moment of a run, in the middle of however many
nested callbacks, is a value of this type.

All of it happens in one thread, and there is no clock: a context notes the moment at which its root
arrived by order only, and a branch that ends is counted without its time. Nobody blocks; waiting for a
channel answers at once. Whoever receives the log is no client here: a message is an event of the
history, and nobody calls back from it. Exception handlers hold no references, and what the observers
of a client hold is given up without any code of the client being run.

This module has the data, the small updates and the queries. Letting go of references is in
`FanIn.Tree.Release`, the library's own work in `FanIn.Tree.Advance`, the calls of clients in
`FanIn.Tree.Call`, and all that can happen to a world in `FanIn.Tree.Run`.
-/

namespace FanIn

inductive Reply where
  | done
  | flag (b : Bool)
  | context (c : ContextNo)
  | signal (s : SignalNo)
  /-- What to unsubscribe by, unless the observer was notified at once. -/
  | subscription (channel : ChannelRef) (number : Option UInt64)
  deriving DecidableEq, Repr

/-- The reference that an answer hands to the client. -/
def Reply.refs : Reply → List Ref
  | context c => [.context c]
  | signal s => [.signal s]
  | _ => []

inductive Frame where
  | observer (channel : ChannelRef) (label : Nat) (value : Value)
  /-- An exception handler runs on an error of a context; `result` will tell how it went. -/
  | handler (handler : Nat) (c : ContextNo) (error : Failure) (result : SignalNo)
  /-- Observers of a channel are notified of a value, because it fired or, in a replay, because
  they subscribed later: those still to come, and all that are let go of in the end. -/
  | deliver (channel : ChannelRef) (replay : Bool) (value : Value) (todo spent : List Observer)
  /-- The outcome of a context is to be published on its first channel. -/
  | respond (c : ContextNo) (r : Response)
  /-- The outcome of a context is to be published on its second channel. -/
  | answer (c : ContextNo) (r : Response)
  | giveUp (c : ContextNo) (share : Share)
  /-- The contexts in the queue are to be completed. -/
  | climb
  /-- A context has told its completion; its parent, no longer held by it, is to be told. -/
  | told (c : ContextNo) (parent : Option ContextNo)
  /-- The signal of an error is to be resolved; `failed` says that the handler failed, and with
  what if it raised anything. -/
  | conclude (c : ContextNo) (error : Failure) (failed : Option (Option Failure))
      (result : SignalNo)
  /-- A call is about to return and to let go of what it kept alive. -/
  | returning (reply : Reply) (kept : List Ref)
  /-- A failure is on its way to whoever catches it. -/
  | throwing (f : Failure)
  deriving Repr

namespace Frame

/-- What the frame keeps alive. -/
def refs : Frame → List Ref
  | handler _ c _ result => [.signal result, .context c]
  | deliver _ _ _ _ spent => spent.flatMap Observer.refs
  | told c parent => parent.toList.map Ref.context ++ [Ref.context c]
  | returning reply kept => reply.refs ++ kept
  | _ => []

/-- Whether code of a client runs in the frame. -/
def isClients : Frame → Bool
  | observer .. => true
  | handler .. => true
  | _ => false

end Frame

inductive Event where
  | logged (level : Log.Level) (message : String)
  /-- An observer of a client that was registered when its channel fired was called. -/
  | observed (channel : ChannelRef) (label : Nat) (value : Value)
  /-- An observer of a client that subscribed after its channel had fired was called. -/
  | replayed (channel : ChannelRef) (label : Nat) (value : Value)
  /-- An exception handler was called; the signal will tell how it went. -/
  | handling (handler : Nat) (c : ContextNo) (state : State) (error : Failure)
      (result : SignalNo)
  | created (c : ContextNo)
  /-- A child was not created because its id, already given out, was in use. -/
  | rejected (parent : ContextNo) (id : String)
  | destroyed (c : ContextNo)
  /-- A context began to keep a slot. -/
  | joined (c : ContextNo) (share : Share)
  | left (c : ContextNo) (share : Share)
  /-- The outcome of a context began to be published. -/
  | publishing (c : ContextNo) (r : Response)
  | drained (c : ContextNo)
  | fired (channel : ChannelRef) (value : Value)
  deriving Repr

structure World where
  contexts : Array Context := #[]
  signals : Array Signal := #[]
  trees : Array Tree := #[]
  registry : Registry := {}
  /-- The contexts that wait for their completion to be told, while that is under way. -/
  queue : Option (List ContextNo) := none
  /-- What is under way, innermost first. -/
  stack : List Frame := []
  /-- What the client's last call came to. -/
  reply : Except Failure Reply := .ok .done
  /-- The least severe level that is logged. -/
  threshold : Log.Level := Log.Level.debug
  /-- What has happened, oldest first. -/
  history : Array Event := #[]
  /-- How many points were passed at which other threads might interfere. -/
  points : Nat := 0

namespace World

/-! ## Updates -/

def modifyContext (w : World) (c : ContextNo) (f : Context → Context) : World :=
  { w with contexts := w.contexts.modify c f }

def modifySignal (w : World) (s : SignalNo) (f : Signal → Signal) : World :=
  { w with signals := w.signals.modify s f }

def note (w : World) (e : Event) : World := { w with history := w.history.push e }

/-- A point is passed at which other threads might interfere. -/
def point (w : World) : World := { w with points := w.points + 1 }

/-- Logs a message, if its level passes the threshold, up to its first NUL character. -/
def log (w : World) (level : Log.Level) (message : String) : World :=
  if level.passes w.threshold then w.note (.logged level (Text.visible message)) else w

/-- Adds work, the first frame innermost. -/
def push (w : World) (frames : List Frame) : World := { w with stack := frames ++ w.stack }

def answered (w : World) (r : Reply) : World := { w with reply := .ok r }

def refused (w : World) (f : Failure) : World := { w with reply := .error f }

def addSignal (w : World) (x : Signal) : SignalNo × World :=
  (w.signals.size, { w with signals := w.signals.push x })

/-! ## Queries -/

/-- Whether it is the client's turn: nothing is under way, or code of the client runs. -/
def isClientsTurn (w : World) : Bool :=
  match w.stack with
  | [] => true
  | f :: _ => f.isClients

/-- How many callbacks run, each called from within the next. -/
def depth (w : World) : Nat := w.stack.countP Frame.isClients

def isLive (w : World) (c : ContextNo) : Bool := w.contexts[c]?.any Context.isLive

def isLiveSignal (w : World) (s : SignalNo) : Bool := w.signals[s]?.any Signal.isLive

def idOf (w : World) (c : ContextNo) : String := (w.contexts[c]?).elim "" Context.id

def parent? (w : World) (x : Context) : Option ContextNo := x.parent.filter w.isLive

/-- The id of the context that a child was created from. -/
def parentId? (w : World) (x : Context) : Option String := x.parent.map w.idOf

def print (w : World) (c : ContextNo) : String :=
  (w.contexts[c]?).elim "" fun x => x.print (w.parentId? x)

def find? (w : World) (id : String) : Option ContextNo := w.registry.find? w.isLive id

def holders (w : World) : Ref → Nat
  | .context c => (w.contexts[c]?).elim 0 Context.holders
  | .signal s => (w.signals[s]?).elim 0 Signal.holders

/-! ## Channels -/

def value? (w : World) : ChannelRef → Option Value
  | .before c => (w.contexts[c]?).bind fun x => x.before.value?.map .response
  | .response c => (w.contexts[c]?).bind fun x => x.response.value?.map .response
  | .completion c => (w.contexts[c]?).bind fun x => x.completion.value?.map fun _ => .done
  | .signal s => (w.signals[s]?).bind fun x => x.channel.value?.map .resolution

def isFired (w : World) (ch : ChannelRef) : Bool := (w.value? ch).isSome

/-- The numbered observers registered at a channel. -/
def observers (w : World) : ChannelRef → List (UInt64 × Observer)
  | .before c => (w.contexts[c]?).elim [] fun x => x.before.observers
  | .response c => (w.contexts[c]?).elim [] fun x => x.response.observers
  | .completion c => (w.contexts[c]?).elim [] fun x => x.completion.observers
  | .signal s => (w.signals[s]?).elim [] fun x => x.channel.observers

/-- The first observer registered at a channel under a number. -/
def observer? (w : World) (ch : ChannelRef) (number : UInt64) : Option Observer :=
  ((w.observers ch).find? fun e => e.1 == number).map Prod.snd

/-- The number that the next observer of a waiting channel gets. -/
def nextNumber (w : World) : ChannelRef → UInt64
  | .before c => (w.contexts[c]?).elim 0 fun x => x.before.nextNumber
  | .response c => (w.contexts[c]?).elim 0 fun x => x.response.nextNumber
  | .completion c => (w.contexts[c]?).elim 0 fun x => x.completion.nextNumber
  | .signal s => (w.signals[s]?).elim 0 fun x => x.channel.nextNumber

/-- Changes the observers of a channel, in a way that does not depend on its values. -/
def modifyChannel (w : World) (ch : ChannelRef)
    (f : {α : Type} → Channel α Observer → Channel α Observer) : World :=
  match ch with
  | .before c => w.modifyContext c fun x => { x with before := f x.before }
  | .response c => w.modifyContext c fun x => { x with response := f x.response }
  | .completion c => w.modifyContext c fun x => { x with completion := f x.completion }
  | .signal s => w.modifySignal s fun x => { x with channel := f x.channel }

/-- Subscribes an observer: its number if it was registered, the value if the channel has
fired. -/
def subscribe (w : World) (ch : ChannelRef) (o : Observer) : Channel.Subscribed Value × World :=
  match w.value? ch with
  | some v => (.replayed v, w)
  | none => (.registered (w.nextNumber ch), w.modifyChannel ch fun c => (c.subscribe o).2)

/-- A channel that has just fired passes a point and lets its observers be notified. -/
def deliver (w : World) (ch : ChannelRef) (v : Value) (os : List Observer) : World :=
  ((w.note (.fired ch v)).point).push [.deliver ch false v os os]

/-- An observer that has just subscribed to a channel which has fired is to be notified. -/
def replay (w : World) (ch : ChannelRef) (v : Value) (o : Observer) : World :=
  w.push [.deliver ch true v [o] [o]]

/-- Fires the first channel of a context, unless it has fired. -/
def fireBefore (w : World) (c : ContextNo) (r : Response) : World :=
  match (w.contexts[c]?).bind fun x => x.before.fire? r with
  | none => w
  | some (os, ch) =>
    (w.modifyContext c fun x => { x with before := ch }).deliver (.before c) (.response r) os

/-- Fires the second channel of a context, unless it has fired. -/
def fireResponse (w : World) (c : ContextNo) (r : Response) : World :=
  match (w.contexts[c]?).bind fun x => x.response.fire? r with
  | none => w
  | some (os, ch) =>
    (w.modifyContext c fun x => { x with response := ch }).deliver (.response c) (.response r) os

/-- Fires the completion channel of a context, unless it has fired. -/
def fireCompletion (w : World) (c : ContextNo) : World :=
  match (w.contexts[c]?).bind fun x => x.completion.fire? () with
  | none => w
  | some (os, ch) =>
    (w.modifyContext c fun x => { x with completion := ch }).deliver (.completion c) .done os

/-- Fires a signal, unless it has fired. -/
def fireSignal (w : World) (s : SignalNo) (r : Resolution) : World :=
  match (w.signals[s]?).bind fun x => x.channel.fire? r with
  | none => w
  | some (os, ch) =>
    (w.modifySignal s fun x => { x with channel := ch }).deliver (.signal s) (.resolution r) os

end World

end FanIn
