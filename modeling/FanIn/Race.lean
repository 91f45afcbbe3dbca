import FanIn.Script.Run

/-!
# Races

Several threads use one object at the same time. What is reported of a race is what every
interleaving must give, so it is found by letting the threads run one after the other.
-/

namespace FanIn.Race

/-- Each of `threads` threads does something `rounds` times. -/
def schedule (threads rounds : Nat) : List (Nat × Nat) :=
  (List.range threads).flatMap fun k => (List.range rounds).map fun i => (k, i)

/-! ## Processing time, trails, counters and channels -/

/-- Thread `k` reports `k - 1` nanoseconds in each round. -/
def effort (threads rounds : Nat) : Effort :=
  (schedule threads rounds).foldl (fun e (k, _) => e.add (Int64.ofInt (k - 1))) { flow := "" }

/-- Each thread notes its number and the round. -/
def trail (threads rounds : Nat) : Trail :=
  (schedule threads rounds).foldl
    (fun t (k, i) => t.add (toString k ++ "/" ++ toString i)) { enabled := true }

/-- A counter with a slot for each thread: each adds and releases a slot in each round, and
releases its own at last. How often zero was reported, and the counter in the end. -/
def counter (threads rounds : Nat) : Nat × Counter :=
  let own := (List.range threads).map fun _ => [Counter.Request.release]
  let turns := (List.replicate threads
    (List.replicate rounds [Counter.Request.add, .release]).flatten).flatten
  (turns ++ own.flatten).foldl
    (fun (zeros, c) r =>
      match r, c.serve r with
      | .release, (.ok true, c) => (zeros + 1, c)
      | _, (_, c) => (zeros, c))
    (0, Counter.start (Int32.ofNat threads))

/-- What is reported of a race for a channel. -/
structure Broadcast where
  deliveries : Nat
  wins : Nat
  observers : Nat
  deriving DecidableEq, Repr

/-- Every thread but the first subscribes in each round, and then every thread fires. -/
def channel (threads rounds : Nat) : Broadcast :=
  let subscribed := (schedule (threads - 1) rounds).foldl
    (fun c _ => (c.subscribe ()).2) (Channel.new : Channel Unit Unit)
  let (report, fired) := (List.range threads).foldl
    (fun (report, c) _ =>
      match c.fire? () with
      | some (os, c) => ((report.1 + os.length, report.2 + 1), c)
      | none => (report, c))
    ((0, 0), subscribed)
  ⟨report.1, report.2, fired.observerCount⟩

/-! ## Contexts -/

/-- The fuel that the steps of a race are run with. -/
def fuel : Nat := 1000000000000

def location : Location := ⟨"flow", "flow/race"⟩

/-- Makes a root with an exception handler that always succeeds. -/
def prelude : List Script.Step :=
  [.handler "handler" (.resolves false) [] false,
   .bridge "root" "root" "" (some "handler") { location := some location },
   .subscribe (.outlet "root" .before) "before" [] false false,
   .subscribe (.outlet "root" .response) "response" [] false false,
   .subscribe (.outlet "root" .completion) "completion" [] false false]

/-- What the records of a script tell, in order. -/
def entries (s : Script.Session) : List Script.Entry :=
  s.records.toList.flatMap fun r => r.entries.toList

def observed (s : Script.Session) (tag : String) : Nat :=
  (entries s).countP fun
    | .observed t _ => t == tag
    | _ => false

def handled (s : Script.Session) : Nat :=
  (entries s).countP fun
    | .handling .. => true
    | _ => false

inductive Mix where
  | success
  | error
  /-- Threads with an odd number succeed, the others fail. -/
  | both
  deriving DecidableEq, Repr

def Mix.step (m : Mix) (k : Nat) (name : String) : Script.Step :=
  match m with
  | success => .success name none
  | error => .error name (some (.standard .runtimeError "race")) none
  | both => if k % 2 = 1 then .success name none
    else .error name (some (.standard .runtimeError "race")) none

/-- What is reported of a race between terminal calls. -/
structure Terminal where
  wins : Nat
  before : Nat
  responses : Nat
  completions : Nat
  handlerRanForWinner : Bool
  pending : Int
  /-- The state in the end, unless it depends on the winner. -/
  state : Option State
  deriving DecidableEq, Repr

/-- Whether a terminal call was the effective one, by its result. -/
def isWin : Script.Result → Bool
  | .flag b => b
  | .view ⟨_, some (.resolution r)⟩ => !r.alreadyCompleted
  | .view ⟨_, none⟩ => true
  | _ => false

/-- Each thread makes one terminal call on the same context. -/
def terminal (mix : Mix) (threads : Nat) : Option Terminal :=
  let calls := (List.range threads).map fun k => mix.step k "root"
  ((Script.Session.start Log.Level.error).perform fuel (prelude ++ calls)).bind fun s =>
    (s.world.contexts[0]?).map fun x =>
      let results := (s.records.toList.drop prelude.length).map Script.Record.result
      { wins := results.countP isWin
        before := observed s "before"
        responses := observed s "response"
        completions := observed s "completion"
        handlerRanForWinner := handled s == if x.state == .failed then 1 else 0
        pending := x.slots.pending.toInt
        state := if mix = .both then none else some x.state }

/-- What is reported of a race between the children of one root. -/
structure Children where
  done : Nat
  completeBefore : Bool
  early : Bool
  complete : Bool
  deriving DecidableEq, Repr

/-- Each thread creates and finishes a child of one root in each round; children with an odd
number succeed, the others fail. Then the root succeeds. -/
def children (threads rounds : Nat) : Option Children :=
  let steps := (schedule threads rounds).flatMap fun (_, i) =>
    [Script.Step.child "root" "child" (some location) none none,
     .subscribe (.outlet "child" .completion) "child" [.view (.outlet "root" .completion)]
       false false,
     Mix.both.step i "child"]
  let isComplete (s : Script.Session) : Bool := s.world.isFired (.completion 0)
  ((Script.Session.start Log.Level.error).perform fuel (prelude ++ steps)).bind fun s =>
    (s.perform fuel [.success "root" none]).map fun t =>
      { done := observed s "child"
        completeBefore := isComplete s
        early := (entries s).any fun
          | .nested _ (.view v) => v.value.isSome
          | _ => false
        complete := isComplete t }

end FanIn.Race
