import FanIn.ContextId
import FanIn.Tree.Advance

/-!
# Creating contexts

A root is created for a flow, under a fresh id, or stands for work that came in under an id of its
own. A child is created from its parent and has from it all that is not given. A context is
registered under its id before anyone sees it. If the id is in use, the context has been made in vain:
it is destroyed again and the call fails.

Arguments that are missing or empty are refused before anything is done. A child whose id is in use
has been given a slot of its parent and a number by then. The slot is given up again, the number stays
used.
-/

namespace FanIn

/-- The engine that work is done for. -/
structure Flow where
  name : String
  handler : Option Nat
  /-- Whether contexts created for it collect the time spent. -/
  statistics : Bool := false
  deriving DecidableEq, Repr

/-- Where a root comes from. -/
inductive Origin where
  /-- It is created for a flow, under a fresh id. -/
  | flow (flow : Option Flow) (freshId : String)
  /-- It stands for work that came in under an id of its own. -/
  | bridge (id serverId : String) (handler : Option Nat)
  deriving DecidableEq, Repr

structure RootSpec where
  origin : Origin
  location : Option Location
  correlation : Option String := none
  /-- A signal that has to fire before the context is complete. -/
  link : Option SignalNo := none
  settings : Settings := {}
  deriving DecidableEq, Repr

/-! ## What creating a context fails with -/

namespace Failure

def needsFlow : Failure := invalidArgument "an event context requires a flow"

def needsLocation : Failure := invalidArgument "an event context requires a component location"

def needsHandler : Failure := invalidArgument "an event context requires an exception handler"

def needsId : Failure := invalidArgument "an explicit event context id must not be empty"

def idInUse (id : String) : Failure :=
  invalidArgument ("event context id '" ++ id ++ "' is in use by another live context")

def alreadyCompleted (id : String) : Failure :=
  .illegalState ("event context " ++ id ++
    " has already completed, no more children can be added")

end Failure

/-! ## What contexts are made from -/

/-- The correlation of a context: the one given, if it is not empty, and otherwise the default. -/
def Correlation.ofGiven (given : Option String) (default : Correlation) : Correlation :=
  match given with
  | some id => if id.isEmpty then default else ⟨id, true⟩
  | none => default

namespace RootSpec

/-- What is wrong with the arguments a root is created from, whatever the world is like. -/
def fault? (spec : RootSpec) : Option Failure :=
  match spec.origin with
  | .flow none _ => some .needsFlow
  | .flow (some flow) _ =>
    if spec.location.isNone then some .needsLocation
    else if flow.handler.isNone then some .needsHandler
    else none
  | .bridge id _ handler =>
    if spec.location.isNone then some .needsLocation
    else if handler.isNone then some .needsHandler
    else if id.isEmpty then some .needsId
    else none

def id (spec : RootSpec) : String :=
  match spec.origin with
  | .flow _ fresh => fresh
  | .bridge id _ _ => id

/-- The server id of the root: its own one, or else the configured one. -/
def serverId (spec : RootSpec) : String :=
  match spec.origin with
  | .bridge _ own _ => if own.isEmpty then spec.settings.serverId else own
  | .flow _ _ => spec.settings.serverId

def handler (spec : RootSpec) : Option Nat :=
  match spec.origin with
  | .flow flow _ => flow.bind Flow.handler
  | .bridge _ _ handler => handler

/-- The tree of the root. Time is collected for flows that ask for it, and for nothing else. -/
def tree (spec : RootSpec) : Tree where
  rootId := spec.id
  effort := match spec.origin with
    | .flow (some flow) _ => if flow.statistics then some { flow := flow.name } else none
    | _ => none

/-- The root, made from valid arguments. A link takes a slot of its own. -/
def build (spec : RootSpec) (received tree : Nat) : Context where
  id := spec.id
  serverId := spec.serverId
  correlation := .ofGiven spec.correlation ⟨spec.id, false⟩
  location := spec.location.getD default
  handler := spec.handler.getD 0
  settings := spec.settings
  received := received
  link := spec.link
  tree := tree
  slots := .start (if spec.link.isSome then 2 else 1)
  trail := { enabled := spec.settings.trace }

end RootSpec

/-- A child of a context, made from valid arguments. What is not given is its parent's. -/
def Context.child (parent : ContextNo) (p : Context) (id : String) (location : Location)
    (handler : Option Nat) (correlation : Option String) : Context where
  id := id
  serverId := p.serverId
  correlation := .ofGiven correlation p.correlation
  location := location
  handler := handler.getD p.handler
  settings := p.settings
  received := p.received
  parent := some parent
  hold := some parent
  tree := p.tree
  slots := .start 1
  trail := { enabled := p.settings.trace }

namespace World

/-! ## Creating contexts -/

/-- Enters a context that has just come to be, registered under its id. -/
def enter (w : World) (x : Context) (registry : Registry) : World :=
  let c := w.contexts.size
  let w := { w with contexts := w.contexts.push x, registry := registry }.note (.created c)
  let w := w.note (.joined c .own)
  w.log .debug ("created " ++ w.print c)

def createRoot (w : World) (spec : RootSpec) : World :=
  match spec.fault? with
  | some f => w.refused f
  | none =>
    let c := w.contexts.size
    let x := spec.build c w.trees.size
    match w.registry.register? w.isLive x.id c with
    | none => (w.discard c x (spec.link.toList.map Ref.signal)).refused (.idInUse x.id)
    | some registry =>
      let w := { w with trees := w.trees.push spec.tree }.enter x registry
      let w := w.push [.returning (.context c) []]
      match spec.link with
      | none => w
      | some s =>
        match (w.note (.joined c .link)).subscribe (.signal s) (.settleLink c) with
        | (.registered _, w) => w
        | (.replayed v, w) => w.replay (.signal s) v (.settleLink c)

/-- Takes one more slot of a context, unless the context has been left without any. -/
def takeSlot (w : World) (c : ContextNo) (share : Share) : Option World :=
  ((w.contexts[c]?).bind fun x => x.slots.tryAdd).map fun slots =>
    ((w.modifyContext c fun x => { x with slots := slots }).point).note (.joined c share)

/-- A slot is refused because the context has been left without any. -/
def refuseSlot (w : World) (c : ContextNo) : World :=
  let id := w.idOf c
  (w.log .warning ("context " ++ id ++ " has completed, cannot add a child")).refused
    (.alreadyCompleted id)

/-- The next number in a tree, and the world after it was given out. -/
def nextDescendant (w : World) (tree : Nat) : String × World :=
  let t := (w.trees[tree]?).getD default
  let n := t.numbered + 1
  (ContextId.child t.rootId n,
    { w with trees := w.trees.modify tree fun t => { t with numbered := n } })

/-- Creates a child. The slot taken for a child whose id turns out to be in use is given up
again; the number stays used. -/
def createChild (w : World) (parent : ContextNo) (location : Option Location)
    (handler : Option Nat) (correlation : Option String) : World :=
  match location, w.contexts[parent]? with
  | none, _ => w.refused .needsLocation
  | some _, none => w
  | some location, some p =>
    let c := w.contexts.size
    match w.takeSlot parent (.child c) with
    | none => w.refuseSlot parent
    | some w =>
      let (id, w) := w.nextDescendant p.tree
      let x := Context.child parent p id location handler correlation
      match w.registry.register? w.isLive x.id c with
      | none =>
        ((w.discard c x [.context parent]).note (.rejected parent id)).push
          [.giveUp parent (.child c), .throwing (.idInUse id)]
      | some registry => (w.enter x registry).push [.returning (.context c) []]

/-! ## Contexts made in vain

Nothing is left of them, so that a call which fails on an id in use comes to what it would have come to
had it made no context at all. -/

/-- Nobody has subscribed to a root that was just made, and it has no parent. -/
theorem discard_build (w : World) (c : ContextNo) (spec : RootSpec) (received tree : Nat)
    (given : List Ref) : w.discard c (spec.build received tree) given = w :=
  discard_eq (List.nil_subset given) c

/-- A child that was just made holds on to its parent, which its creator holds as well. -/
theorem discard_child (w : World) (c parent : ContextNo) (p : Context) (id : String)
    (location : Location) (handler : Option Nat) (correlation : Option String) :
    w.discard c (.child parent p id location handler correlation) [.context parent] = w :=
  discard_eq (fun _ hr => hr) c

theorem createRoot_eq (w : World) (spec : RootSpec) :
    w.createRoot spec =
      match spec.fault? with
      | some f => w.refused f
      | none =>
        let c := w.contexts.size
        match w.registry.register? w.isLive spec.id c with
        | none => w.refused (.idInUse spec.id)
        | some registry =>
          let x := spec.build c w.trees.size
          let w := { w with trees := w.trees.push spec.tree }.enter x registry
          let w := w.push [.returning (.context c) []]
          match spec.link with
          | none => w
          | some s =>
            match (w.note (.joined c .link)).subscribe (.signal s) (.settleLink c) with
            | (.registered _, w) => w
            | (.replayed v, w) => w.replay (.signal s) v (.settleLink c) := by
  have hid : (spec.build w.contexts.size w.trees.size).id = spec.id := rfl
  simp only [createRoot, discard_build, hid]

theorem createChild_eq (w : World) (parent : ContextNo) (location : Option Location)
    (handler : Option Nat) (correlation : Option String) :
    w.createChild parent location handler correlation =
      match location, w.contexts[parent]? with
      | none, _ => w.refused .needsLocation
      | some _, none => w
      | some location, some p =>
        let c := w.contexts.size
        match w.takeSlot parent (.child c) with
        | none => w.refuseSlot parent
        | some w =>
          let (id, w) := w.nextDescendant p.tree
          match w.registry.register? w.isLive id c with
          | none =>
            (w.note (.rejected parent id)).push [.giveUp parent (.child c), .throwing (.idInUse id)]
          | some registry =>
            (w.enter (.child parent p id location handler correlation) registry).push
              [.returning (.context c) []] := by
  have hid : ∀ (p : Context) (id : String) (location : Location),
      (Context.child parent p id location handler correlation).id = id := fun _ _ _ => rfl
  simp only [createChild, discard_child, hid]

end World

end FanIn
