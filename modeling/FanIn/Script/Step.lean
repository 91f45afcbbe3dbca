import FanIn.Tree.Call

/-!
# Scripts

A script is a list of steps by which a client uses contexts, signals, exception handlers and flows
under names of its own. Observers and exception handlers may have steps too, which run each time
they are called. `Record` is what a session tells about one step of the script.
-/

namespace FanIn.Script

/-- One of the three channels of a context. -/
inductive Outlet where
  | before
  | response
  | completion
  deriving DecidableEq, Repr

/-- The channel of the context with a given number. -/
def Outlet.of (o : Outlet) (c : ContextNo) : ChannelRef :=
  match o with
  | before => .before c
  | response => .response c
  | completion => .completion c

/-- A channel, by the name of the context it belongs to or by its own. -/
inductive Target where
  | outlet (context : String) (outlet : Outlet)
  | signal (name : String)
  deriving DecidableEq, Repr

/-- What an exception handler does when its steps are done. -/
inductive Conduct where
  /-- Returns a signal that has fired. -/
  | resolves (alreadyCompleted : Bool)
  /-- Returns a new signal and keeps it in a queue. -/
  | defers
  | throws (f : Failure)
  | returnsNothing
  /-- Returns a signal that has failed, or fired without a failure if none is given. -/
  | fails (f : Option Failure)
  | returns (signal : String)
  deriving Repr

/-- What both kinds of roots are created from. -/
structure RootArgs where
  location : Option Location
  correlation : Option String := none
  link : Option String := none
  settings : Settings := {}
  deriving DecidableEq, Repr

inductive Query where
  | id (id : String)
  /-- The id last bound to a name, and something after it. -/
  | idOf (name extra : String)
  deriving DecidableEq, Repr

inductive Step where
  | handler (name : String) (conduct : Conduct) (steps : List Step) (passesOn : Bool)
  | flow (name label : String) (handler : Option String) (statistics : Bool)
  | create (name : String) (flow : Option String) (args : RootArgs)
  | bridge (name id serverId : String) (handler : Option String) (args : RootArgs)
  | child (parent name : String) (location : Option Location) (handler correlation : Option String)
  /-- A chain of children, each the child of the one before; each but the last succeeds as soon
  as it has a child, if the flag says so. -/
  | chain (source name : String) (depth : Nat) (succeed : Bool)
  /-- A chain of roots, each counting the next as its child through an observer. -/
  | observerChain (stem : String) (depth : Nat) (handler : Option String)
  | success (context : String) (result : Option Int)
  | error (context : String) (failure : Option Failure) (bindAs : Option String)
  | addChild (context : String)
  | childCompleted (context : String)
  | subscribe (target : Target) (tag : String) (steps : List Step) (passesOn empty : Bool)
  | unsubscribe (tag : String)
  | view (target : Target)
  | wait (target : Target)
  | fire (context : String) (outlet : Outlet) (r : Response)
  | fireSignal (signal : String) (r : Resolution)
  | signal (name : String) (fired : Option Resolution)
  /-- Throws the failure that a signal has fired with. -/
  | rethrow (signal : String)
  | dropSignal (signal : String)
  | resolve (handler : String) (r : Resolution)
  | discard (handler : String)
  | queue (handler : String)
  | drop (context : String)
  | sameAs (context name : String)
  | parent (context name : String)
  | find (query : Query)
  | registrySize
  | register (id context : String)
  | unregister (id context : String)
  | info (context : String)
  | print (context : String)
  | processor (context path : String)
  | level (level : Log.Level)
  | throw (f : Failure)
  deriving Repr

/-- The verb that a record calls a step by. -/
def Step.verb : Step → String
  | handler .. => "handler"
  | flow .. => "flow"
  | create .. => "create"
  | bridge .. => "bridge"
  | child .. => "child"
  | chain .. => "chain"
  | observerChain .. => "observer_chain"
  | success .. => "success"
  | error .. => "error"
  | addChild _ => "add_child"
  | childCompleted _ => "child_completed"
  | subscribe (.outlet _ _) .. => "sub"
  | subscribe (.signal _) .. => "sub_sig"
  | unsubscribe _ => "unsub"
  | view (.outlet _ _) => "channel"
  | view (.signal _) => "sig"
  | wait (.outlet _ _) => "wait"
  | wait (.signal _) => "wait_sig"
  | fire .. => "fire"
  | fireSignal .. => "fire_sig"
  | signal .. => "signal"
  | rethrow _ => "rethrow"
  | dropSignal _ => "drop_sig"
  | resolve .. => "resolve"
  | discard _ => "discard"
  | queue _ => "queue"
  | drop _ => "drop"
  | sameAs .. => "alias"
  | parent .. => "parent"
  | find _ => "find"
  | registrySize => "registry_size"
  | register .. => "registry_add"
  | unregister .. => "registry_remove"
  | info _ => "info"
  | print _ => "print"
  | processor .. => "processor"
  | level _ => "level"
  | throw _ => "throw"

/-- A channel as anyone may look at it. -/
structure View where
  observers : Nat
  /-- The value it has fired with. -/
  value : Option Value
  deriving Repr

/-- Everything a context tells about itself. -/
structure Info where
  context : Context
  parentId : Option String
  /-- The id of the parent, as long as the parent exists. -/
  liveParent : Option String
  /-- Whether it arrived together with its parent, as long as the parent exists. -/
  arrivedWithParent : Option Bool
  handler : String
  effort : Option Effort
  deriving Repr

inductive Result where
  | done
  | flag (b : Bool)
  | number (n : Nat)
  | text (s : String)
  | found (id : String) (state : State)
  | view (v : View)
  /-- A moment passed; the channel has fired, with the value, or not, with so many observers. -/
  | waited (v : View)
  | info (i : Info)
  /-- How many roots of a chain were complete before and after its last call, and the order in
  which those at its ends completed. -/
  | chained (before after : Nat) (order : List Nat)
  | failed (f : Failure)
  | unknown (name : String)
  deriving Repr

/-- The failure that a step ended with. A name that nothing goes by is not one. -/
def Result.failure? : Result → Option Failure
  | failed f => some f
  | _ => none

/-- What a record tells to have happened. -/
inductive Entry where
  | logged (level : Log.Level) (message : String)
  | observed (tag : String) (value : Value)
  | handling (handler id : String) (state : State) (error : String)
  | nested (verb : String) (result : Result)
  deriving Repr

/-- The record of one step of the script. -/
structure Record where
  result : Result
  entries : Array Entry
  /-- For each name whose context has changed, what it is like now, or that the name is gone. -/
  changes : List (String × Option String)
  deriving Repr

end FanIn.Script
