import FanIn.Script.Step

/-!
# The state of a session

A session runs a script on a world of contexts. It keeps the client's names, the exception
handlers and observers of the script, and the lists of steps being run: the script's own and, for
each callback under way, the steps of that callback.

A name is one reference to a context. A step refers to the contexts it names until it ends.

The roots that a script creates for flows get generated ids, which are new to the script as long
as its own texts are quoted (`ContextId.quoted`).
-/

namespace FanIn.Script

structure Handler where
  name : String
  conduct : Conduct
  steps : List Step
  passesOn : Bool
  deriving Repr

/-- What an observer does when it is called. -/
inductive Reaction where
  | script (tag : String) (steps : List Step) (passesOn : Bool)
  /-- It tells a context, which it holds, that a child of it has completed. -/
  | tell (c : ContextNo)
  | note (n : Nat)
  deriving Repr

/-- How far a step has come whose call is under way. -/
inductive Stage where
  /-- The step ends with its call. -/
  | only
  /-- A chain waits for the child of a context; so many more are to come. -/
  | chainChild (left : Nat) (current : ContextNo)
  /-- A chain waits for a context to succeed that has a child already. -/
  | chainSuccess (left : Nat) (current child : ContextNo)
  /-- A chain of roots waits for its next root; the roots so far, latest first. -/
  | nextRoot (index : Nat) (roots : List ContextNo)
  /-- A chain of roots links its latest root to the one before. -/
  | linkRoot (index : Nat) (roots : List ContextNo) (left : List Call)
  /-- A chain of roots waits for its last call; so many roots were complete before it. -/
  | lastRoot (roots : List ContextNo) (before : Nat)
  deriving Repr

/-- The references that a chain holds at a stage, in the order in which it gives them up. -/
def Stage.refs : Stage → List Ref
  | only => []
  | chainChild _ current => [.context current]
  | chainSuccess _ current child => [.context child, .context current]
  | nextRoot _ roots => roots.reverse.map Ref.context
  | linkRoot _ roots _ => roots.reverse.map Ref.context
  | lastRoot roots _ => roots.reverse.map Ref.context

/-- A step whose call is under way. -/
structure Doing where
  step : Step
  stage : Stage := .only
  /-- The references given up when the step ends, besides those of its stage. -/
  kept : List Ref := []
  deriving Repr

/-- Whose steps are being run. -/
inductive Owner where
  | script
  | observer (passesOn : Bool)
  /-- An observer that makes one call of its own. -/
  | teller
  /-- An exception handler, by its number, with what the name of the failing context meant
  before. -/
  | handler (number : Nat) (saved : Option ContextNo)
  deriving Repr

structure Activation where
  owner : Owner
  steps : List Step := []
  doing : Option Doing := none
  /-- Whether the steps are done and the exception handler makes the signal it returns. -/
  leaving : Bool := false
  deriving Repr

structure Session where
  world : World := {}
  names : List (String × ContextNo) := []
  /-- The id of the context each name was last bound to. -/
  ids : List (String × String) := []
  signals : List (String × SignalNo) := []
  flows : List (String × Flow) := []
  handlerNames : List (String × Nat) := []
  handlers : Array Handler := #[]
  /-- For each exception handler, the signals it has returned and keeps. -/
  queues : Array (List SignalNo) := #[]
  tags : List (String × (ChannelRef × Option UInt64)) := []
  observers : Array Reaction := #[]
  /-- How many roots were created for flows. -/
  generated : Nat := 0
  /-- The numbers noted, latest first. -/
  noted : List Nat := []
  /-- The lists of steps being run, innermost first. -/
  running : List Activation := []
  /-- How much of the world's history has been told. -/
  told : Nat := 0
  entries : Array Entry := #[]
  /-- What the names were like when the last record was made. -/
  shown : List (String × String) := []
  records : Array Record := #[]

/-- The name by which the steps of an exception handler know the failing context. -/
def failingName : String := "$ctx"

def unbind {β : Type} (names : List (String × β)) (name : String) : List (String × β) :=
  names.filter fun e => e.1 != name

def bind {β : Type} (names : List (String × β)) (name : String) (b : β) : List (String × β) :=
  (name, b) :: unbind names name

namespace Session

/-! ## Names -/

def call (s : Session) (c : Call) : Session := { s with world := s.world.call c }

/-- Gives references back, one after the other. -/
def giveBack (s : Session) (refs : List Ref) : Session :=
  refs.foldl (fun s r => s.call (.drop r)) s

/-- Binds a name to a context, with the client's reference to it, and gives up what the name
referred to before. -/
def bindContext (s : Session) (name : String) (c : ContextNo) : Session :=
  let old := s.names.lookup name
  let s := { s with
    names := bind s.names name c
    ids := bind s.ids name (s.world.idOf c) }
  s.giveBack (old.toList.map Ref.context)

def unbindContext (s : Session) (name : String) : Session :=
  let old := s.names.lookup name
  { s with names := unbind s.names name }.giveBack (old.toList.map Ref.context)

/-- Binds a name to a signal, with the client's reference to it, and gives up what the name
referred to before. -/
def bindSignal (s : Session) (name : String) (n : SignalNo) : Session :=
  let old := s.signals.lookup name
  { s with signals := bind s.signals name n }.giveBack (old.toList.map Ref.signal)

/-! ## What is told -/

def summary (x : Context) : String :=
  x.state.name ++ " " ++ toString x.slots.pending.toInt ++
    (if x.isComplete then " complete" else " open")

/-- What all names are like. -/
def summaries (s : Session) : List (String × String) :=
  s.names.filterMap fun (name, c) => (s.world.contexts[c]?).map fun x => (name, summary x)

/-- What has changed between two states of the names. -/
def changes (before after : List (String × String)) : List (String × Option String) :=
  (after.filter fun e => before.lookup e.1 != some e.2).map (fun e => (e.1, some e.2)) ++
    (before.filter fun e => (after.lookup e.1).isNone).map fun e => (e.1, none)

/-- What a record says about a call of an observer. Those that make a call of their own, or only
note something, are not told. -/
def sighting? (s : Session) (label : Nat) (v : Value) : Option Entry :=
  match s.observers[label]? with
  | some (.script tag _ _) => some (.observed tag v)
  | _ => none

/-- What a record says about an event of the world. -/
def entry? (s : Session) : Event → Option Entry
  | .logged level m => some (.logged level m)
  | .observed _ label v => s.sighting? label v
  | .replayed _ label v => s.sighting? label v
  | .handling h c state e _ =>
    some (.handling ((s.handlers[h]?).elim "" Handler.name) (s.world.idOf c) state e.describe)
  | _ => none

/-- Tells what has happened in the world since it was last told. -/
def tell (s : Session) : Session :=
  { s with
    entries := s.entries ++ (s.world.history.extract s.told).filterMap s.entry?
    told := s.world.history.size }

/-- Everything a context tells about itself. -/
def infoOf (s : Session) (x : Context) : Info :=
  let parent := (s.world.parent? x).bind fun p => s.world.contexts[p]?
  { context := x
    parentId := s.world.parentId? x
    liveParent := parent.map Context.id
    arrivedWithParent := parent.map fun p => p.received == x.received
    handler := (s.handlers[x.handler]?).elim "" Handler.name
    effort := (s.world.trees[x.tree]?).bind Tree.effort }

/-- A channel as anyone may look at it. -/
def view (s : Session) (ch : ChannelRef) : View :=
  ⟨(s.world.observers ch).length, s.world.value? ch⟩

/-! ## Ending steps -/

/-- The innermost callback ends: an observer by returning or throwing, an exception handler by
throwing. -/
def leave (s : Session) (owner : Owner) (thrown : Option Failure) : Session :=
  match owner, thrown with
  | .script, _ => s
  | .observer _, _ => { s with world := s.world.finish thrown }
  | .teller, _ => { s with world := s.world.finish thrown }
  | .handler _ _, some f => { s with world := s.world.handled (.threw f) }
  | .handler _ _, none => { s with world := s.world.handled .nothing }

/-- The name of the failing context means again what it meant before. -/
def restoreFailing (s : Session) (saved : Option ContextNo) : Session :=
  let s := s.unbindContext failingName
  match saved with
  | none => s
  | some c => { s with names := bind s.names failingName c }

/-- Whether a callback passes the failures of its steps on. -/
def passesOn (s : Session) : Owner → Bool
  | .observer passesOn => passesOn
  | .handler n _ => (s.handlers[n]?).any Handler.passesOn
  | .script => false
  | .teller => true

/-- The innermost list of steps ends a step: what the step kept is given up and its result
told. -/
def conclude (s : Session) (step : Step) (kept : List Ref) (r : Result) : Session :=
  let s := (s.giveBack kept).tell
  match s.running with
  | [] => s
  | a :: rest =>
    let a := { a with doing := none }
    match a.owner with
    | .script =>
      let now := s.summaries
      { s with
        running := a :: rest
        records := s.records.push
          { result := r, entries := s.entries, changes := changes s.shown now }
        entries := #[]
        shown := now }
    | owner =>
      let s := { s with entries := s.entries.push (.nested step.verb r) }
      match s.passesOn owner, r.failure? with
      | true, some f =>
        let s := { s with running := rest }
        let s := match owner with
          | .handler _ saved => s.restoreFailing saved
          | _ => s
        s.leave owner (some f)
      | _, _ => { s with running := a :: rest }

/-- The innermost list of steps waits for a call. -/
def await (s : Session) (d : Doing) (c : Call) : Session :=
  match s.running with
  | [] => s
  | a :: rest => { s with running := { a with doing := some d } :: rest }.call c

end Session

end FanIn.Script
