import FanIn.Machine
import FanIn.Tree.Call

/-!
# Runs

What happens to a world is a list of moves: steps of the library's own work, and calls and returns
of the client. A run is *legal* if the client moves only on its turn, returns only from what is
running, uses only what it holds references to, and removes only observers of its own. Nothing
else is asked of a client, so the legal runs are those of all clients, however their callbacks
decide what to do.
-/

namespace FanIn

inductive Move where
  | advance
  | call (c : Call)
  | finish (thrown : Option Failure)
  | handled (h : Handled)
  deriving Repr

/-- What a call uses, which its client has to hold. -/
def Call.uses : Call → List Ref
  | createRoot spec => spec.link.toList.map Ref.signal
  | createChild parent _ _ _ => [.context parent]
  | success c _ => [.context c]
  | error c _ => [.context c]
  | addChild c => [.context c]
  | childCompleted c => [.context c]
  | subscribe ch _ keeps => ch.owner :: keeps
  | unsubscribe _ _ => []
  | fireBefore c _ => [.context c]
  | fireResponse c _ => [.context c]
  | fireCompletion c => [.context c]
  | fireSignal s _ => [.signal s]
  | wait ch => [ch.owner]
  | makeSignal _ => []
  | hold _ => []
  | drop r => [r]
  | register _ c => [.context c]
  | unregister _ _ => []
  | setThreshold _ => []
  | addProcessor c _ => [.context c]

/-- What a return from an exception handler uses. -/
def Handled.uses : Handled → List Ref
  | signal s => [.signal s]
  | nothing => []
  | threw _ => []

namespace World

/-- The world before anything has happened. -/
def start (threshold : Log.Level := Log.Level.debug) : World := { threshold := threshold }

/-- What one move makes of a world. -/
def move (w : World) : Move → World
  | .advance => w.advance
  | .call c => w.call c
  | .finish thrown => w.finish thrown
  | .handled h => w.handled h

/-- Whether clients hold all of some references. A reference may also be taken to anything that
exists: to the parent of a context, or to what was found in the registry. -/
def areHeld (w : World) (refs : List Ref) : Bool := refs.all fun r => 0 < w.holders r

def allows (w : World) : Move → Bool
  | .advance => !w.isClientsTurn
  | .call (.hold r) => w.isClientsTurn && w.isLiveRef r
  | .call (.unsubscribe ch n) => w.isClientsTurn && (w.observer? ch n).all Observer.isClients
  | .call c => w.isClientsTurn && w.areHeld c.uses
  | .finish _ =>
    match w.stack with
    | .observer .. :: _ => true
    | _ => false
  | .handled h =>
    match w.stack with
    | .handler .. :: _ => w.areHeld h.uses
    | _ => false

def machine : Machine World Move := ⟨move, allows⟩

/-- On the client's turn the library does nothing. -/
theorem advance_eq_self {w : World} (h : w.isClientsTurn) : w.advance = w := by
  unfold isClientsTurn at h
  unfold advance
  split <;> simp_all [Frame.isClients]

end World

end FanIn
