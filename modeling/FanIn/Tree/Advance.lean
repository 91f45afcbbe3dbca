import FanIn.Tree.Release

/-!
# The library's own work

`World.advance` does one step of what is under way. On the client's turn it does nothing.

An outcome is published on `before`, then on `response`, and only then the slot of the context's
own work is given up. The context whose last slot is given up enters the queue. Whoever finds the
queue inactive starts it and completes one context after the other, climbing to parents as their
counters reach zero; completions that observers cause meanwhile wait in the queue, so that none
is told in the middle of another.

A failure unwinds the stack frame by frame. Notifying observers stops it, with a message in the
log, and so does code of a client, which made the call that fails.
-/

namespace FanIn.World

def linkFailure (id : String) (f : Failure) : String :=
  "external completion link of context " ++ id ++ " failed, treating it as signaled: " ++
    f.describe

def completionNote (x : Context) : String :=
  "context " ++ x.id ++ " completed (" ++ x.state.name ++ ")"

/-- One more branch of a tree reports that it has ended. The world has no clock, so the branch
counts with a time of zero. -/
def reportBranch (w : World) (c : ContextNo) : World :=
  match w.contexts[c]? with
  | none => w
  | some x => { w with
      trees := w.trees.modify x.tree fun t => { t with effort := t.effort.map fun e => e.add 0 } }

/-- Calls an observer of a channel with a value. -/
def notify (w : World) (ch : ChannelRef) (replay : Bool) (v : Value) : Observer → World
  | .client label _ =>
    (w.push [.observer ch label v]).note
      (if replay then .replayed ch label v else .observed ch label v)
  | .empty => w
  | .settleLink c =>
    match v with
    | .resolution ⟨some f, _⟩ => (w.log .warning (linkFailure (w.idOf c) f)).push [.giveUp c .link]
    | _ => w.push [.giveUp c .link]
  | .settleError c e result =>
    match v with
    | .resolution ⟨some f, _⟩ =>
      w.push [.respond c ⟨none, some e⟩, .conclude c e (some (some f)) result]
    | _ => w.push [.respond c ⟨none, some e⟩, .conclude c e none result]

/-- Gives up one slot of a context. A context left without any is queued for completion; it starts
the queue if that is inactive. -/
def giveUpSlot (w : World) (c : ContextNo) (share : Share) : World :=
  match (w.contexts[c]?).bind fun x => x.slots.release with
  | none => w.push [.throwing Counter.overReleased]
  | some (last, slots) =>
    let w := ((w.modifyContext c fun x => { x with slots := slots }).point).note (.left c share)
    if last then
      let w := w.note (.drained c)
      match w.queue with
      | some q => { w with queue := some (q ++ [c]) }
      | none => { w with queue := some [c] }.push [.climb]
    else w

/-- Tells that the first context of the queue is complete. It lets go of its parent, which is
told when all observers have been notified. -/
def completeNext (w : World) : World :=
  match w.queue with
  | none => w
  | some [] => { w with queue := none }
  | some (c :: q) =>
    let x? := w.contexts[c]?
    let w := { w with queue := some q }
    let w := w.log .debug (x?.elim "" completionNote)
    let w := w.modifyContext c fun x => { x with hold := none }
    (w.push [.told c (x?.bind Context.hold), .climb]).fireCompletion c

/-- Tells the parent of a completed context, which queues it if that was its last slot. Both are
let go of, the parent only if it was not queued. If the parent's slot cannot be given up, the
queue is abandoned and the failure is thrown. -/
def tellParent (w : World) (c : ContextNo) (parent : Option ContextNo) : World :=
  match parent with
  | none => w.releaseAll [.context c]
  | some p =>
    match (w.contexts[p]?).bind fun x => x.slots.release with
    | none => (w.releaseAll [.context p, .context c]).push [.throwing Counter.overReleased]
    | some (last, slots) =>
      let w := ((w.modifyContext p fun x => { x with slots := slots }).point).note
        (.left p (.child c))
      if last then
        let w := w.note (.drained p)
        { w with queue := w.queue.map fun q => q ++ [p] }.releaseAll [.context c]
      else w.releaseAll [.context p, .context c]

/-- Gives up the queue, with the contexts still in it. -/
def abandonQueue (w : World) : World :=
  { w with queue := none }.releaseAll ((w.queue.getD []).map Ref.context)

/-- Resolves the signal of an error when both channels have told it. A failure of the handler is
logged and passed to the signal. -/
def resolveError (w : World) (c : ContextNo) (e : Failure) (failed : Option (Option Failure))
    (result : SignalNo) : World :=
  match failed with
  | none => w.fireSignal result {}
  | some h =>
    let f := Failure.handlerFailed (w.idOf c) (some e) h
    (w.log .error f.what).fireSignal result { failure := some f }

/-- A call returns: its answer reaches the client, and what the call kept alive is let go of. -/
def returnCall (w : World) (r : Reply) (kept : List Ref) : World :=
  let w := match r with
    | .context c => w.modifyContext c fun x => { x with holders := x.holders + 1 }
    | .signal s => w.modifySignal s fun x => { x with holders := x.holders + 1 }
    | _ => w
  (w.answered r).releaseAll kept

/-- A failure reaches the frame below. -/
def unwind (w : World) (f : Failure) : List Frame → World
  | [] => { w with stack := [] }.refused f
  | .observer ch l v :: rest => { w with stack := .observer ch l v :: rest }.refused f
  | .handler h c e s :: rest => { w with stack := .handler h c e s :: rest }.refused f
  | .deliver ch replay v todo spent :: rest =>
    { w with stack := .deliver ch replay v todo spent :: rest }.log .error f.observerReport
  | .climb :: rest => { w with stack := .throwing f :: rest }.abandonQueue
  | .told c parent :: rest =>
    { w with stack := .throwing f :: rest }.releaseAll
      (parent.toList.map Ref.context ++ [Ref.context c])
  | .returning r kept :: rest =>
    { w with stack := .throwing f :: rest }.releaseAll (r.refs ++ kept)
  | _ :: rest => { w with stack := .throwing f :: rest }

def advance (w : World) : World :=
  match w.stack with
  | [] => w
  | .observer .. :: _ => w
  | .handler .. :: _ => w
  | .deliver _ _ _ [] spent :: rest =>
    { w with stack := rest }.releaseAll (spent.flatMap Observer.refs)
  | .deliver ch replay v (o :: todo) spent :: rest =>
    { w with stack := .deliver ch replay v todo spent :: rest }.notify ch replay v o
  | .respond c r :: rest =>
    (({ w with stack := .answer c r :: rest }.note (.publishing c r)).reportBranch c).fireBefore c r
  | .answer c r :: rest => ({ w with stack := .giveUp c .own :: rest }.point).fireResponse c r
  | .giveUp c share :: rest => { w with stack := rest }.giveUpSlot c share
  | .climb :: rest => { w with stack := rest }.completeNext
  | .told c parent :: rest => { w with stack := rest }.tellParent c parent
  | .conclude c e failed result :: rest => { w with stack := rest }.resolveError c e failed result
  | .returning r kept :: rest => { w with stack := rest }.returnCall r kept
  | .throwing f :: rest => { w with stack := rest }.unwind f rest

end FanIn.World
