import FanIn.Fuzzer
import FanIn.Script.Run

/-!
# A client of the delay fuzzer

A session sets the controls of the fuzzer and passes points, its own and those of the library:
a counter passes one point for each participant added or released, a channel that fires passes
one, and a world of contexts counts its points itself. All of them are points of one thread.
-/

namespace FanIn.Fuzzer

inductive Request where
  | enable (on : Bool)
  | seed (seed : UInt64)
  | bounds (least most : UInt32)
  | rate (rate : UInt32)
  | points (n : Nat)
  | enterScope (seed : UInt64) (least most : UInt32)
  | leaveScope
  | counterAdd
  | counterRelease
  | subscribe (channel : String)
  | fire (channel : String)
  | context (id : String)
  | child
  | success
  | error
  | pattern (n : Nat)
  /-- The pattern of a thread that has just been started. -/
  | threadPattern (n : Nat)
  deriving Repr

inductive Answer where
  /-- How many sleeps were injected meanwhile, and whether the fuzzer is enabled now. -/
  | injected (n : Nat) (enabled : Bool)
  /-- For each point, whether a sleep was injected. -/
  | pattern (points : Array Bool)
  | failed (f : Failure)
  | unknown (name : String)
  deriving Repr

structure Session where
  controls : Controls := {}
  thread : Thread Random.MersenneTwister := { generator := Random.Source.twister.blank }
  /-- What each open scope found the enabled flag to be, innermost first. -/
  scopes : List Bool := []
  counter : Counter := .start 1000
  channels : List (String × Channel Unit Unit) := []
  contexts : Script.Session := Script.Session.start Log.Level.error

namespace Session

/-- The fuel that the few steps of a request are run with. -/
def fuel : Nat := 1000000000

def current : String := "context"

def location : Location := ⟨"flow", "flow/point"⟩

/-- A session with an exception handler that always succeeds. -/
def start : Session :=
  let s : Session := {}
  { s with contexts := (s.contexts.perform fuel
      [.handler "" (.resolves false) [] false]).getD s.contexts }

/-- Passes points on the thread of the session. -/
def pass (s : Session) (n : Nat) : Array Bool × Session :=
  let (ds, c, t) := Fuzzer.points Random.Source.twister n s.controls s.thread
  (ds, { s with controls := c, thread := t })

/-- Answers how many sleeps were injected since a state before. -/
def injectedSince (s before : Session) : Answer × Array Script.Entry × Session :=
  (.injected (s.controls.injections - before.controls.injections).toNat s.controls.enabled, #[], s)

/-- Answers a request that passes some points. -/
def passing (s : Session) (n : Nat) : Answer × Array Script.Entry × Session :=
  (s.pass n).2.injectedSince s

/-- Runs one step on the contexts and passes the points that they passed. -/
def onContexts (s : Session) (step : Script.Step) : Answer × Array Script.Entry × Session :=
  match s.contexts.perform fuel [step] with
  | none => (.injected 0 s.controls.enabled, #[], s)
  | some contexts =>
    let passed := contexts.world.points - s.contexts.world.points
    let (_, s') := { s with contexts := contexts }.pass passed
    let (answer, _, s') := s'.injectedSince s
    match contexts.records.back? with
    | none => (answer, #[], s')
    | some record =>
      (match record.result with
        | .failed f => .failed f
        | .unknown name => .unknown name
        | _ => answer, record.entries, s')

def serve (s : Session) : Request → Answer × Array Script.Entry × Session
  | .enable on => { s with controls := s.controls.enable on }.injectedSince s
  | .seed seed => { s with controls := s.controls.setSeed seed }.injectedSince s
  | .bounds least most => { s with controls := s.controls.setBounds least most }.injectedSince s
  | .rate rate => { s with controls := s.controls.setRate rate }.injectedSince s
  | .points n => s.passing n
  | .enterScope seed least most =>
    { s with
      controls := s.controls.enter seed least most
      scopes := s.controls.enabled :: s.scopes }.injectedSince s
  | .leaveScope =>
    match s.scopes with
    | [] => s.injectedSince s
    | on :: rest => { s with controls := s.controls.enable on, scopes := rest }.injectedSince s
  | .counterAdd =>
    match s.counter.tryAdd with
    | none => s.passing 0
    | some c => ({ s with counter := c }.pass 1).2.injectedSince s
  | .counterRelease =>
    match s.counter.release with
    | none => (.failed Counter.overReleased, #[], s)
    | some (_, c) => ({ s with counter := c }.pass 1).2.injectedSince s
  | .subscribe name =>
    let c := (s.channels.lookup name).getD .new
    { s with channels := Script.bind s.channels name (c.subscribe ()).2 }.injectedSince s
  | .fire name =>
    match ((s.channels.lookup name).getD .new).fire? () with
    | none => s.passing 0
    | some (_, c) =>
      ({ s with channels := Script.bind s.channels name c }.pass 1).2.injectedSince s
  | .context id =>
    s.onContexts (.bridge current id "" (some "") { location := some location })
  | .child => s.onContexts (.child current current (some location) none none)
  | .success => s.onContexts (.success current none)
  | .error => s.onContexts (.error current (some (.standard .runtimeError "x")) none)
  | .pattern n =>
    let (ds, s) := s.pass n
    (.pattern ds, #[], s)
  | .threadPattern n =>
    let (ds, c, _) := Fuzzer.points Random.Source.twister n s.controls
      { generator := Random.Source.twister.blank }
    (.pattern ds, #[], { s with controls := c })

end Session

end FanIn.Fuzzer
