import FanIn.Script.Session

/-!
# Running scripts

A session goes on step by step. The world's own work comes first; a callback that was just
entered starts its steps; otherwise the innermost list of steps goes on, by ending the step whose
call has returned, by beginning the next one, or by returning from its callback.

`Session.run` carries a script to its end, unless its fuel does not last.
-/

namespace FanIn.Script.Session

/-! ## Looking names up -/

/-- Looks up a name, or ends the step because nothing goes by it. -/
def withName {β : Type} (s : Session) (step : Step) (names : List (String × β)) (name : String)
    (f : β → Session) : Session :=
  match names.lookup name with
  | some b => f b
  | none => s.conclude step [] (.unknown name)

/-- Looks up a name that may be missing. -/
def withName? {β : Type} (s : Session) (step : Step) (names : List (String × β))
    (name : Option String) (f : Option β → Session) : Session :=
  match name with
  | none => f none
  | some name => s.withName step names name fun b => f (some b)

/-- Looks up a context and makes a call on it, holding it until the step ends. -/
def callOn (s : Session) (step : Step) (name : String) (c : ContextNo → Call) : Session :=
  s.withName step s.names name fun n =>
    (s.call (.hold (.context n))).await { step := step, kept := [.context n] } (c n)

/-- Looks up a channel and goes on with it and with what keeps it there. -/
def withTarget (s : Session) (step : Step) (t : Target)
    (f : ChannelRef → List Ref → Session) : Session :=
  match t with
  | .outlet name outlet => s.withName step s.names name fun c => f (outlet.of c) [.context c]
  | .signal name => s.withName step s.signals name fun n => f (.signal n) [.signal n]

/-- Takes references until the step ends. -/
def keep (s : Session) (refs : List Ref) : Session :=
  refs.foldl (fun s r => s.call (.hold r)) s

/-- Takes the oldest signal an exception handler keeps. -/
def takeQueued (s : Session) (handler : Nat) : Option (SignalNo × Session) :=
  match s.queues[handler]? with
  | some (n :: rest) => some (n, { s with queues := s.queues.setIfInBounds handler rest })
  | _ => none

/-! ## Chains -/

def chainLocation : Location := ⟨"flow", "flow/chain"⟩

def rootLocation : Location := ⟨"flow", "flow/oc"⟩

/-- A chain goes on from its latest context, or ends there. -/
def growChain (s : Session) (step : Step) (name : String) (kept : List Ref) (left : Nat)
    (current : ContextNo) : Session :=
  match left with
  | 0 =>
    (s.bindContext name current).conclude step kept (.text (s.world.idOf current))
  | left + 1 =>
    s.await { step := step, stage := .chainChild left current, kept := kept }
      (.createChild current (some chainLocation) none none)

def countComplete (s : Session) (roots : List ContextNo) : Nat :=
  roots.countP fun c => s.world.isFired (.completion c)

/-- A chain of roots goes on with its next root, or with its last call. -/
def growRoots (s : Session) (step : Step) (stem : String) (depth : Nat) (handler : Option Nat)
    (index : Nat) (roots : List ContextNo) : Session :=
  if index < depth then
    s.await { step := step, stage := .nextRoot index roots }
      (.createRoot
        { origin := .bridge (stem ++ toString index) "" handler, location := some rootLocation })
  else
    match roots with
    | [] => s.conclude step [] (.chained 0 0 [])
    | last :: _ =>
      s.await { step := step, stage := .lastRoot roots (s.countComplete roots) }
        (.success last none)

/-- The calls that link a root to the one before it, which the link holds, and let it be noted at
the ends of the chain. The observers they subscribe are added to those of the session. -/
def linkCalls (s : Session) (depth index : Nat) (c : ContextNo) (before : Option ContextNo) :
    List Call × Session :=
  let ch := ChannelRef.completion c
  let (links, s) : List Call × Session := match before with
    | none => ([], s)
    | some p =>
      ([.addChild p, .subscribe ch (some s.observers.size) [.context p], .success p none],
        { s with observers := s.observers.push (.tell p) })
  if index < 3 || depth ≤ index + 3 then
    (links ++ [.subscribe ch (some s.observers.size) []],
      { s with observers := s.observers.push (.note index) })
  else (links, s)

def handlerOf (s : Session) (name : Option String) : Option Nat :=
  name.bind fun name => s.handlerNames.lookup name

/-- A chain of roots makes its next call to link its latest root, or goes on. -/
def linkRoots (s : Session) (step : Step) (stem : String) (depth : Nat) (handler : Option Nat)
    (index : Nat) (roots : List ContextNo) : List Call → Session
  | [] => s.growRoots step stem depth handler (index + 1) roots
  | c :: left => s.await { step := step, stage := .linkRoot index roots left } c

/-! ## Beginning steps -/

/-- What a root is created from, once its names have been looked up. -/
def rootSpec (origin : Origin) (args : RootArgs) (link : Option SignalNo) : RootSpec where
  origin := origin
  location := args.location
  correlation := args.correlation
  link := link
  settings := args.settings

def undertake (s : Session) (step : Step) : Session :=
  match step with
  | .handler name conduct steps passesOn =>
    { s with
      handlerNames := bind s.handlerNames name s.handlers.size
      handlers := s.handlers.push ⟨name, conduct, steps, passesOn⟩
      queues := s.queues.push [] }.conclude step [] .done
  | .flow name label handler statistics =>
    s.withName? step s.handlerNames handler fun handler =>
      { s with flows := bind s.flows name ⟨label, handler, statistics⟩ }.conclude step [] .done
  | .create _ flow args =>
    s.withName? step s.flows flow fun flow =>
    s.withName? step s.signals args.link fun link =>
      s.await { step := step }
        (.createRoot (rootSpec (.flow flow (ContextId.generated (s.generated + 1))) args link))
  | .bridge _ id serverId handler args =>
    s.withName? step s.handlerNames handler fun handler =>
    s.withName? step s.signals args.link fun link =>
      s.await { step := step } (.createRoot (rootSpec (.bridge id serverId handler) args link))
  | .child parent _ location handler correlation =>
    s.withName step s.names parent fun _ =>
    s.withName? step s.handlerNames handler fun handler =>
      s.callOn step parent fun c => .createChild c location handler correlation
  | .chain source name depth _ =>
    s.withName step s.names source fun c =>
      (s.keep [.context c, .context c]).growChain step name [.context c] depth c
  | .observerChain stem depth handler =>
    s.withName? step s.handlerNames handler fun handler =>
      { s with noted := [] }.growRoots step stem depth handler 0 []
  | .success name result => s.callOn step name fun c => .success c result
  | .error name failure _ => s.callOn step name fun c => .error c failure
  | .addChild name => s.callOn step name .addChild
  | .childCompleted name => s.callOn step name .childCompleted
  | .subscribe target tag steps passesOn empty =>
    s.withTarget step target fun ch refs =>
      let label := s.observers.size
      ({ s with observers := s.observers.push (.script tag steps passesOn) }.keep refs).await
        { step := step, kept := refs } (.subscribe ch (if empty then none else some label) [])
  | .unsubscribe tag =>
    s.withName step s.tags tag fun
      | (_, none) => s.conclude step [] .done
      | (ch, some n) => s.await { step := step } (.unsubscribe ch n)
  | .view target => s.withTarget step target fun ch _ => s.conclude step [] (.view (s.view ch))
  | .wait target =>
    s.withTarget step target fun ch refs =>
      (s.keep refs).await { step := step, kept := refs } (.wait ch)
  | .fire name outlet r =>
    s.callOn step name fun c =>
      match outlet with
      | .before => .fireBefore c r
      | .response => .fireResponse c r
      | .completion => .fireCompletion c
  | .fireSignal name r =>
    s.withName step s.signals name fun n =>
      (s.keep [.signal n]).await { step := step, kept := [.signal n] } (.fireSignal n r)
  | .signal _ fired => s.await { step := step } (.makeSignal fired)
  | .rethrow name =>
    s.withName step s.signals name fun n =>
      s.conclude step [] (match s.world.value? (.signal n) with
        | some (.resolution ⟨some f, _⟩) => .failed f
        | some _ => .flag true
        | none => .flag false)
  | .dropSignal name =>
    s.withName step s.signals name fun n =>
      ({ s with signals := unbind s.signals name }.giveBack [.signal n]).conclude step [] .done
  | .resolve handler r =>
    s.withName step s.handlerNames handler fun h =>
      match s.takeQueued h with
      | none => s.conclude step [] .done
      | some (n, s) => s.await { step := step, kept := [.signal n] } (.fireSignal n r)
  | .discard handler =>
    s.withName step s.handlerNames handler fun h =>
      match s.takeQueued h with
      | none => s.conclude step [] .done
      | some (n, s) => s.conclude step [.signal n] (.text "discarded")
  | .queue handler =>
    s.withName step s.handlerNames handler fun h =>
      s.conclude step [] (.number ((s.queues[h]?).getD []).length)
  | .drop name =>
    s.withName step s.names name fun _ => (s.unbindContext name).conclude step [] .done
  | .sameAs source name =>
    s.withName step s.names source fun c =>
      ((s.keep [.context c]).bindContext name c).conclude step [] (.text (s.world.idOf c))
  | .parent source name =>
    s.withName step s.names source fun c =>
      match ((s.world.contexts[c]?).bind s.world.parent?) with
      | none => s.conclude step [] .done
      | some p =>
        ((s.keep [.context c, .context p]).bindContext name p).conclude step [.context c]
          (.text (s.world.idOf p))
  | .find query =>
    let lookUp (id : String) : Session :=
      s.conclude step [] (match (s.world.find? id).bind fun c => s.world.contexts[c]? with
        | some x => .found x.id x.state
        | none => .done)
    match query with
    | .id id => lookUp id
    | .idOf name extra => s.withName step s.ids name fun id => lookUp (id ++ extra)
  | .registrySize => s.conclude step [] (.number s.world.registry.size)
  | .register id name => s.callOn step name fun c => .register id c
  | .unregister id name => s.callOn step name fun c => .unregister id c
  | .info name =>
    s.withName step s.names name fun c =>
      s.conclude step [] (match s.world.contexts[c]? with
        | some x => .info (s.infoOf x)
        | none => .done)
  | .print name =>
    s.withName step s.names name fun c => s.conclude step [] (.text (s.world.print c))
  | .processor name path => s.callOn step name fun c => .addProcessor c path
  | .level level => s.await { step := step } (.setThreshold level)
  | .throw f => s.conclude step [] (.failed f)

/-! ## Ending steps whose call has returned -/

/-- Goes on with a step whose call has answered. -/
def proceed (s : Session) (d : Doing) (r : Reply) : Session :=
  let ends := s.conclude d.step d.kept
  match d.stage, d.step, r with
  | .chainChild left current, .chain _ name _ succeed, .context child =>
    if succeed then
      s.await { d with stage := .chainSuccess left current child } (.success current none)
    else (s.giveBack [.context current]).growChain d.step name d.kept left child
  | .chainSuccess left current child, .chain _ name _ _, _ =>
    (s.giveBack [.context current]).growChain d.step name d.kept left child
  | .nextRoot index roots, .observerChain stem depth handler, .context c =>
    let (calls, s) := s.linkCalls depth index c roots.head?
    s.linkRoots d.step stem depth (s.handlerOf handler) index (c :: roots) calls
  | .linkRoot index roots left, .observerChain stem depth handler, _ =>
    s.linkRoots d.step stem depth (s.handlerOf handler) index roots left
  | .lastRoot roots before, _, _ =>
    s.conclude d.step (d.stage.refs ++ d.kept)
      (.chained before (s.countComplete roots) s.noted.reverse)
  | _, .create name _ _, .context c =>
    ({ s with generated := s.generated + 1 }.bindContext name c).conclude d.step d.kept
      (.text (s.world.idOf c))
  | _, .bridge name _ _ _ _, .context c =>
    (s.bindContext name c).conclude d.step d.kept (.text (s.world.idOf c))
  | _, .child _ name _ _ _, .context c =>
    (s.bindContext name c).conclude d.step d.kept (.text (s.world.idOf c))
  | _, .error _ _ bindAs, .signal n =>
    let v := s.view (.signal n)
    match bindAs with
    | some name => (s.bindSignal name n).conclude d.step d.kept (.view v)
    | none => s.conclude d.step (.signal n :: d.kept) (.view v)
  | _, .subscribe _ tag _ _ _, .subscription ch n =>
    { s with tags := bind s.tags tag (ch, n) }.conclude d.step d.kept .done
  | _, .wait (.outlet name outlet), _ =>
    match s.names.lookup name with
    | some c => ends (.waited (s.view (outlet.of c)))
    | none => ends .done
  | _, .wait (.signal name), _ =>
    match s.signals.lookup name with
    | some n => ends (.waited (s.view (.signal n)))
    | none => ends .done
  | _, .signal name _, .signal n => (s.bindSignal name n).conclude d.step d.kept .done
  | _, .processor name _, _ =>
    ends (.number (((s.names.lookup name).bind fun c => s.world.contexts[c]?).elim 0
      fun x => x.trail.size))
  | _, _, .flag b => ends (.flag b)
  | _, _, _ => ends .done

def finish (s : Session) (d : Doing) : Session :=
  match s.world.reply with
  | .ok r => s.proceed d r
  | .error f => s.conclude d.step (d.stage.refs ++ d.kept) (.failed f)

/-! ## Callbacks -/

/-- Begins to run the steps of an observer or exception handler that was just called. -/
def enter (s : Session) : Session :=
  match s.world.stack with
  | .observer _ label _ :: _ =>
    match s.observers[label]? with
    | some (.script _ steps passesOn) =>
      let s := s.tell
      { s with running := { owner := .observer passesOn, steps := steps } :: s.running }
    | some (.tell c) =>
      { s with running := { owner := .teller, leaving := true } :: s.running }.call
        (.childCompleted c)
    | some (.note n) => { s with noted := n :: s.noted, world := s.world.finish none }
    | none => { s with world := s.world.finish none }
  | .handler h c _ _ :: _ =>
    let s := s.tell
    let steps := (s.handlers[h]?).elim [] Handler.steps
    let saved := s.names.lookup failingName
    let s := (s.keep [.context c])
    { s with
      names := bind s.names failingName c
      ids := bind s.ids failingName (s.world.idOf c)
      running := { owner := .handler h saved, steps := steps } :: s.running }
  | _ => s

/-- The steps of a callback are done: an observer returns, an exception handler does what it is
there for. -/
def exit (s : Session) (a : Activation) (rest : List Activation) : Session :=
  match a.owner with
  | .script => { s with running := rest }
  | .observer _ => { s with running := rest, world := s.world.finish none }
  | .teller =>
    let thrown := match s.world.reply with
      | .error f => some f
      | .ok _ => none
    { s with running := rest, world := s.world.finish thrown }
  | .handler h saved =>
    if a.leaving then
      match s.world.reply with
      | .ok (.signal n) =>
        let s := match (s.handlers[h]?).map Handler.conduct with
          | some .defers =>
            { s.keep [.signal n] with queues := s.queues.modify h fun q => q ++ [n] }
          | _ => s
        { s with running := rest, world := s.world.handled (.signal n) }
      | _ => { s with running := rest, world := s.world.handled .nothing }
    else
      let s := s.restoreFailing saved
      let make (r : Option Resolution) : Session :=
        { s with running := { a with leaving := true } :: rest }.call (.makeSignal r)
      match (s.handlers[h]?).map Handler.conduct with
      | some (.resolves already) => make (some { alreadyCompleted := already })
      | some .defers => make none
      | some (.fails f) => make (some { failure := f })
      | some (.throws f) => { s with running := rest, world := s.world.handled (.threw f) }
      | some (.returns name) =>
        match s.signals.lookup name with
        | some n =>
          let s := s.keep [.signal n]
          { s with running := rest, world := s.world.handled (.signal n) }
        | none => { s with running := rest, world := s.world.handled .nothing }
      | _ => { s with running := rest, world := s.world.handled .nothing }

/-! ## Running -/

def advance (s : Session) : Session :=
  if !s.world.isClientsTurn then { s with world := s.world.advance }
  else if s.running.length ≤ s.world.depth then s.enter
  else
    match s.running with
    | [] => s
    | a :: rest =>
      match a.doing, a.steps with
      | some d, _ => s.finish d
      | none, step :: steps =>
        { s with running := { a with steps := steps } :: rest }.undertake step
      | none, [] => s.exit a rest

/-- Goes on until the script is done, or gives up when the fuel is used up. -/
def run : Nat → Session → Option Session
  | 0, _ => none
  | fuel + 1, s => if s.running.isEmpty then some s else run fuel s.advance

/-- Runs more steps of a script, in a session that has done all it had to do. -/
def perform (s : Session) (fuel : Nat) (steps : List Step) : Option Session :=
  { s with running := [{ owner := .script, steps := steps }] }.run fuel

/-- A session in which nothing has been done, with a threshold for the log. -/
def start (threshold : Log.Level) : Session := { world := { threshold := threshold } }

end FanIn.Script.Session
