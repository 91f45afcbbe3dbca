import FanIn.Tree.Advance

/-!
# Terminal calls

The first terminal call on a context decides its outcome; later ones do nothing but say so in the
log. A success is published at once. An error is first given to the context's exception handler,
and published when the signal that the handler returned fires. The signal that the caller of
`World.error` receives fires after that, and carries a failure if the handler failed.
-/

namespace FanIn

/-- What an error without a failure is refused with. -/
def Failure.needsError : Failure := invalidArgument "error() requires an exception"

inductive Handled where
  /-- With a signal that fires when it is done. -/
  | signal (s : SignalNo)
  | nothing
  | threw (f : Failure)
  deriving Repr

namespace World

/-! ## Terminal calls -/

/-- What is logged about a terminal call that came too late. -/
def ignoredNote (x : Context) (what : String) : String :=
  "context " ++ x.id ++ " is already " ++ x.state.name ++ ", " ++ what

/-- Completes a context successfully, unless its outcome is decided. -/
def success (w : World) (c : ContextNo) (result : Option Int) : World :=
  let w := w.point
  match w.contexts[c]? with
  | none => w
  | some x =>
    if x.isTerminated then
      (w.log .warning (ignoredNote x "success() ignored")).answered (.flag false)
    else
      (w.modifyContext c fun x => { x with state := .succeeded }).push
        [.respond c ⟨result, none⟩, .returning (.flag true) [.context c]]

/-- Makes a signal, fired already if a resolution is given. -/
def makeSignal (w : World) (r : Option Resolution) : SignalNo × World :=
  match r with
  | none => w.addSignal {}
  | some r => w.point.addSignal { channel := .fired r }

/-- Completes a context with an error, unless its outcome is decided: its exception handler is
called. -/
def error (w : World) (c : ContextNo) (failure : Option Failure) : World :=
  match failure with
  | none => w.refused .needsError
  | some e =>
    let w := w.point
    match w.contexts[c]? with
    | none => w
    | some x =>
      if x.isTerminated then
        let w := w.log .warning (ignoredNote x ("error() ignored: " ++ e.describe))
        let (s, w) := w.makeSignal (some { alreadyCompleted := true })
        w.push [.returning (.signal s) []]
      else
        let w := w.modifyContext c fun x => { x with state := .failed }
        let (s, w) := w.makeSignal none
        (w.push [.handler x.handler c e s]).note (.handling x.handler c .failed e s)

/-! ## Returning from callbacks -/

/-- A running observer returns, or throws, which is logged and goes no further. -/
def finish (w : World) (thrown : Option Failure) : World :=
  match w.stack with
  | .observer .. :: rest =>
    let w := { w with stack := rest }
    match thrown with
    | none => w
    | some f => w.log .error f.observerReport
  | _ => w

/-- The error of a context is to be finished when a signal fires, which is kept, as is the context,
until the call returns with the signal handed out for it. -/
def settleBy (w : World) (s : SignalNo) (c : ContextNo) (e : Failure) (result : SignalNo) :
    World :=
  let w := w.push [.returning (.signal result) [.signal s, .context c]]
  match w.subscribe (.signal s) (.settleError c e result) with
  | (.registered _, w) => w
  | (.replayed v, w) => w.replay (.signal s) v (.settleError c e result)

/-- A running exception handler returns. The error is finished when the signal it returned fires,
at once if it returned none; what it threw is the failure of a signal made for it. The error keeps
the context, the signal and the one handed out for it until the call returns. -/
def handled (w : World) (h : Handled) : World :=
  match w.stack with
  | .handler _ c e result :: rest =>
    let w := { w with stack := rest }
    match h with
    | .nothing =>
      w.push [.respond c ⟨none, some e⟩, .conclude c e (some none) result,
        .returning (.signal result) [.context c]]
    | .threw f =>
      let (s, w) := w.makeSignal (some { failure := some f })
      w.settleBy s c e result
    | .signal s =>
      (w.modifySignal s fun x => { x with holders := x.holders - 1 }).settleBy s c e result
  | _ => w

end World

end FanIn
