import FanIn.Tree.Create
import FanIn.Tree.Terminal

/-!
# The calls of clients

`World.call` is what a client may do on its turn. A call that has nothing more to do answers at
once; any other leaves its work on the stack for `World.advance`.

References are explicit: a call that hands out a context or a signal gives the client a reference
to it, which the client gives back with `Call.drop`, and an exception handler that returns a
signal passes its reference on to the library.
-/

namespace FanIn

inductive Call where
  | createRoot (spec : RootSpec)
  | createChild (parent : ContextNo) (location : Option Location) (handler : Option Nat)
      (correlation : Option String)
  | success (c : ContextNo) (result : Option Int)
  | error (c : ContextNo) (failure : Option Failure)
  | addChild (c : ContextNo)
  | childCompleted (c : ContextNo)
  /-- Subscribes the observer with a label, which is to hold references, or an empty one. -/
  | subscribe (channel : ChannelRef) (label : Option Nat) (keeps : List Ref)
  | unsubscribe (channel : ChannelRef) (number : UInt64)
  | fireBefore (c : ContextNo) (r : Response)
  | fireResponse (c : ContextNo) (r : Response)
  | fireCompletion (c : ContextNo)
  | fireSignal (s : SignalNo) (r : Resolution)
  /-- Waits for a moment; answers whether the channel has fired. The observer that waits meanwhile
  opens a latch and nothing else, and is removed again before anything can happen, so that all there
  is to see of it is its number, as long as numbers have not come round
  (`Channel.waitBriefly_eq_takeNumber`). -/
  | wait (channel : ChannelRef)
  /-- Makes a signal, fired already if a resolution is given. -/
  | makeSignal (r : Option Resolution)
  | hold (r : Ref)
  | drop (r : Ref)
  | register (id : String) (c : ContextNo)
  | unregister (id : String) (c : ContextNo)
  | setThreshold (level : Log.Level)
  | addProcessor (c : ContextNo) (path : String)
  deriving Repr

namespace World

/-- Answers a call that fires a channel and leaves the notifications to be done. -/
def firing (w : World) (ch : ChannelRef) (fire : World → World) : World :=
  if w.isFired ch then w.answered (.flag false)
  else fire (w.push [.returning (.flag true) []])

/-- A client takes a reference of its own. -/
def hold (w : World) : Ref → World
  | .context c => w.modifyContext c fun x => { x with holders := x.holders + 1 }
  | .signal s => w.modifySignal s fun x => { x with holders := x.holders + 1 }

/-- A client gives a reference back. -/
def drop (w : World) (r : Ref) : World :=
  (match r with
    | .context c => w.modifyContext c fun x => { x with holders := x.holders - 1 }
    | .signal s => w.modifySignal s fun x => { x with holders := x.holders - 1 }).releaseAll [r]

def call (w : World) : Call → World
  | .createRoot spec => w.createRoot spec
  | .createChild parent location handler correlation =>
    w.createChild parent location handler correlation
  | .success c result => w.success c result
  | .error c failure => w.error c failure
  | .addChild c =>
    match w.takeSlot c .participant with
    | some w => w.answered .done
    | none => w.refuseSlot c
  | .childCompleted c => w.push [.giveUp c .participant, .returning .done []]
  | .subscribe ch label keeps =>
    let o := label.elim .empty fun label => .client label keeps
    match w.subscribe ch o with
    | (.registered n, w) => w.answered (.subscription ch (some n))
    | (.replayed v, w) => (w.push [.returning (.subscription ch none) []]).replay ch v o
  | .unsubscribe ch n =>
    ((w.modifyChannel ch fun c => c.unsubscribe n).releaseAll
      ((w.observer? ch n).elim [] Observer.refs)).answered .done
  | .fireBefore c r => w.firing (.before c) fun w => w.fireBefore c r
  | .fireResponse c r => w.firing (.response c) fun w => w.fireResponse c r
  | .fireCompletion c => w.firing (.completion c) fun w => w.fireCompletion c
  | .fireSignal s r => w.firing (.signal s) fun w => w.fireSignal s r
  | .wait ch => (w.modifyChannel ch fun c => c.takeNumber).answered (.flag (w.isFired ch))
  | .makeSignal r =>
    let (s, w) := w.makeSignal r
    w.push [.returning (.signal s) []]
  | .hold r => (w.hold r).answered .done
  | .drop r => (w.drop r).answered .done
  | .register id c =>
    match w.registry.register? w.isLive id c with
    | none => w.answered (.flag false)
    | some registry => { w with registry := registry }.answered (.flag true)
  | .unregister id c => { w with registry := w.registry.unregister id c }.answered .done
  | .setThreshold level => { w with threshold := level }.answered .done
  | .addProcessor c path =>
    (w.modifyContext c fun x => { x with trail := x.trail.add path }).answered .done

end World

end FanIn
