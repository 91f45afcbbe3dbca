import FanIn.Log.Stream

/-!
# A client of the logger

A session is a sequence of requests to one logger and to the streams it opened, which the client
tells apart by name. Opening a stream under a name that is taken closes the earlier one, after
the new one exists. When the session ends, the streams still open are closed, the greatest name
first.
-/

namespace FanIn.Log

inductive Request where
  | setLevel (level : Level)
  | isEnabled (level : Level)
  | log (level : Level) (message : Option String)
  | print (level : Level) (message : Option String)
  | install (sink : Sink) (user : Option String)
  | sink
  | openStream (name : String) (level : Level) (active : Bool) (tail : String)
  | write (name : String) (pieces : List Piece)
  | moveNew (source target : String)
  | moveInto (source target : String)
  | close (name : String)
  deriving Repr

inductive Answer where
  | done
  | level (level : Level)
  | flag (b : Bool)
  | sink (sink : Sink) (user : Option String)
  | noStream (name : String)
  deriving Repr

/-- The logger and the open streams by name. -/
structure Session where
  logger : Logger
  streams : List (String × Stream) := []
  deriving Repr

namespace Session

def stream? (s : Session) (name : String) : Option Stream := s.streams.lookup name

/-- The session without the stream of a name, which is not closed. -/
def forget (s : Session) (name : String) : Session :=
  { s with streams := s.streams.filter fun e => e.1 != name }

/-- Puts a stream in the place of the one with its name, which is not closed. -/
def put (s : Session) (name : String) (x : Stream) : Session :=
  { s with streams := (name, x) :: (s.forget name).streams }

/-- Closes the stream with a name, if there is one. -/
def closeNamed (s : Session) (name : String) : Session :=
  match s.stream? name with
  | some x => { s.forget name with logger := x.close s.logger }
  | none => s

/-- Enters a new stream under a name and closes the one that had the name. -/
def enter (s : Session) (name : String) (x : Stream) : Session :=
  (s.closeNamed name).put name x

def serve (s : Session) : Request → Answer × Session
  | .setLevel level =>
    (.level level, { s with logger := { s.logger with threshold := level } })
  | .isEnabled level => (.flag (s.logger.enabled level), s)
  | .log _ none => (.done, s)
  | .log level (some m) => (.done, { s with logger := s.logger.log level m })
  | .print _ none => (.done, s)
  | .print level (some m) => (.done, { s with logger := s.logger.print level m })
  | .install sink user => (.done, { s with logger := s.logger.install sink user })
  | .sink => (.sink s.logger.sink s.logger.user, s)
  | .openStream name level active tail =>
    (.done, s.enter name (Stream.openOn s.logger level active tail))
  | .write name pieces =>
    match s.stream? name with
    | some x => (.done, s.put name (pieces.foldl Stream.write x))
    | none => (.noStream name, s)
  | .moveNew source target =>
    match s.stream? source with
    | some x => (.done, (s.put source x.emptied).enter target x)
    | none => (.noStream source, s)
  | .moveInto source target =>
    match s.stream? source, s.stream? target with
    | some x, some _ =>
      if source == target then (.done, s)
      else (.done, (s.put source x.emptied).put target x)
    | none, _ => (.noStream source, s)
    | some _, none => (.noStream target, s)
  | .close name =>
    match s.stream? name with
    | some _ => (.done, s.closeNamed name)
    | none => (.noStream name, s)

/-- The names of the open streams, the greatest first. -/
def names (s : Session) : List String :=
  (s.streams.map Prod.fst).mergeSort fun a b => b ≤ a

def finish (s : Session) : Session := s.names.foldl closeNamed s

end Session

end FanIn.Log
