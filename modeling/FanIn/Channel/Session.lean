import FanIn.Channel.Pool

/-!
# A client of channels

A session runs a script: a list of steps that use channels by name. An observer of the script may
have steps of its own, which run each time it is notified; a step that fails there ends the
observer with that failure if the observer passes failures on, and is only noted otherwise.

Every step of the script itself is answered by a record of its result and of what happened while
it ran.
-/

namespace FanIn.Channel

inductive Step where
  | create (channel : String)
  | destroy (channel : String)
  | subscribe (channel tag : String) (steps : List Step) (passesOn empty : Bool)
  | unsubscribe (tag : String)
  | fire (channel value : String)
  | isFired (channel : String)
  | value (channel : String)
  | count (channel : String)
  | wait (channel : String)
  | waitFor (channel : String)
  /-- Waits for the value that another thread is about to fire. -/
  | waitForThread (channel value : String)
  | throw (failure : Failure)
  deriving Repr

/-- The verb that a record calls a step by. -/
def Step.verb : Step → String
  | create _ => "new"
  | destroy _ => "destroy"
  | subscribe .. => "sub"
  | unsubscribe _ => "unsub"
  | fire .. => "fire"
  | isFired _ => "fired"
  | value _ => "value"
  | count _ => "count"
  | wait _ => "wait"
  | waitFor _ => "wait_for"
  | waitForThread .. => "wait_thread"
  | throw _ => "throw"

inductive Result where
  | done
  | flag (b : Bool)
  | number (n : Nat)
  | text (s : String)
  /-- Nothing has been fired that could be waited for. -/
  | wouldBlock
  | failed (f : Failure)
  | unknown (name : String)
  deriving Repr

/-- The failure that a step ended with. A name that nothing goes by is not one. -/
def Result.failure? : Result → Option Failure
  | failed f => some f
  | _ => none

/-- What a record tells to have happened. -/
inductive Entry where
  | logged (level : Log.Level) (message : String)
  | observed (tag value : String)
  | nested (verb : String) (result : Result)
  deriving Repr

/-- The record of one step of the script. -/
structure Record where
  result : Result
  entries : Array Entry
  deriving Repr

structure Observer where
  tag : String
  steps : List Step
  /-- Whether a failing step ends the observer with its failure. -/
  passesOn : Bool
  deriving Repr

/-- A list of steps being run: the script's own, or those of an observer. -/
structure Activation where
  /-- Whether failures are passed on; `none` for the script itself. -/
  passesOn : Option Bool
  steps : List Step
  /-- The step whose call is under way. -/
  doing : Option Step := none
  deriving Repr

structure Session where
  pool : Pool String := {}
  channels : List (String × Nat) := []
  /-- What each tag was last bound to: the channel and the observer to remove, or nothing. -/
  tags : List (String × Option (Nat × UInt64)) := []
  observers : Array Observer := #[]
  /-- The lists of steps being run, innermost first. -/
  running : List Activation
  /-- How much of the pool's history has been told. -/
  told : Nat := 0
  entries : Array Entry := #[]
  records : Array Record := #[]
  deriving Repr

namespace Session

def start (threshold : Log.Level) (steps : List Step) : Session :=
  { pool := { threshold := threshold }, running := [{ passesOn := none, steps := steps }] }

def bind {β : Type} (names : List (String × β)) (name : String) (b : β) : List (String × β) :=
  (name, b) :: names.filter fun e => e.1 != name

/-- What a record says about an event of the pool. -/
def entry? (s : Session) : Event String → Option Entry
  | .fired _ _ => none
  | .observed _ label v => (s.observers[label]?).map fun o => .observed o.tag v
  | .replayed _ label v => (s.observers[label]?).map fun o => .observed o.tag v
  | .logged level m => some (.logged level m)

/-- Tells what has happened in the pool since it was last told. -/
def tell (s : Session) : Session :=
  { s with
    entries := s.entries ++ (s.pool.history.extract s.told).filterMap s.entry?
    told := s.pool.history.size }

/-- The innermost list of steps ends a step with a result. -/
def conclude (s : Session) (step : Step) (r : Result) : Session :=
  let s := s.tell
  match s.running with
  | [] => s
  | a :: rest =>
    let a := { a with doing := none }
    match a.passesOn with
    | none =>
      { s with
        running := a :: rest
        records := s.records.push { result := r, entries := s.entries }
        entries := #[] }
    | some passesOn =>
      let s := { s with entries := s.entries.push (.nested step.verb r) }
      match passesOn, r.failure? with
      | true, some f => { s with running := rest, pool := s.pool.finish (some f) }
      | _, _ => { s with running := a :: rest }

/-- The innermost list of steps waits for a call. -/
def await (s : Session) (step : Step) (r : Request String) : Session :=
  match s.running with
  | [] => s
  | a :: rest =>
    { s with running := { a with doing := some step } :: rest, pool := s.pool.call r }

/-- Carries out a step on a channel, if there is one of that name. -/
def withChannel (s : Session) (step : Step) (name : String)
    (f : Nat → Channel String (Option Nat) → Session) : Session :=
  match s.channels.lookup name with
  | none => s.conclude step (.unknown name)
  | some n => f n ((s.pool.channel? n).getD .new)

def undertake (s : Session) (step : Step) : Session :=
  match step with
  | .create _ => s.await step .create
  | .destroy name => s.withChannel step name fun n _ =>
    { s with channels := s.channels.filter fun e => e.1 != name }.await step (.destroy n)
  | .subscribe name tag steps passesOn empty => s.withChannel step name fun n _ =>
    let label := s.observers.size
    { s with observers := s.observers.push ⟨tag, steps, passesOn⟩ }.await step
      (.subscribe n (if empty then none else some label))
  | .unsubscribe tag =>
    match s.tags.lookup tag with
    | none => s.conclude step (.unknown tag)
    | some none => s.conclude step .done
    | some (some (n, k)) => s.await step (.unsubscribe n k)
  | .fire name v => s.withChannel step name fun n _ => s.await step (.fire n v)
  | .isFired name => s.withChannel step name fun _ c => s.conclude step (.flag c.isFired)
  | .value name => s.withChannel step name fun _ c =>
    s.conclude step (match c.value? with
      | some v => .text v
      | none => .done)
  | .count name => s.withChannel step name fun _ c =>
    s.conclude step (.number c.observerCount)
  | .wait name => s.withChannel step name fun _ c =>
    s.conclude step (match c.value? with
      | some v => .text v
      | none => .wouldBlock)
  | .waitFor name => s.withChannel step name fun n _ => s.await step (.wait n)
  | .waitForThread name v => s.withChannel step name fun n c =>
    match c.value? with
    | some earlier => s.conclude step (.text earlier)
    | none => s.await step (.fire n v)
  | .throw f => s.conclude step (.failed f)

/-- Ends a step whose call has returned. -/
def finish (s : Session) (step : Step) : Session :=
  match step, s.pool.reply with
  | .create name, .channel n =>
    let old := s.channels.lookup name
    let s := { s with channels := bind s.channels name n }
    match old with
    | none => s.conclude step .done
    | some n => { s with pool := s.pool.call (.destroy n) }.conclude step .done
  | .subscribe _ tag _ _ _, .subscription n number =>
    { s with tags := bind s.tags tag (number.map fun k => (n, k)) }.conclude step .done
  | .fire _ _, .flag b => s.conclude step (.flag b)
  | .waitFor _, .flag b => s.conclude step (.flag b)
  | .waitForThread _ v, _ => s.conclude step (.text v)
  | _, _ => s.conclude step .done

/-- One step of the session: the pool's work comes first, then an observer that was just called
starts its steps, then the innermost list of steps goes on or ends. -/
def advance (s : Session) : Session :=
  if !s.pool.isClientsTurn then { s with pool := s.pool.advance }
  else if s.running.length ≤ s.pool.depth then
    match s.pool.stack with
    | .observer _ label _ :: _ =>
      let s := s.tell
      let steps := (s.observers[label]?).elim [] Observer.steps
      let passesOn := (s.observers[label]?).any Observer.passesOn
      { s with running := { passesOn := some passesOn, steps := steps } :: s.running }
    | _ => s
  else
    match s.running with
    | [] => s
    | a :: rest =>
      match a.doing, a.steps with
      | some step, _ => s.finish step
      | none, step :: steps =>
        { s with running := { a with steps := steps } :: rest }.undertake step
      | none, [] =>
        match a.passesOn with
        | none => { s with running := rest }
        | some _ => { s with running := rest, pool := s.pool.finish none }

/-- Runs a session to its end: the records of its steps, or `none` if the fuel does not last. -/
def run : Nat → Session → Option (Array Record)
  | 0, _ => none
  | fuel + 1, s => if s.running.isEmpty then some s.records else run fuel s.advance

end Session

end FanIn.Channel
