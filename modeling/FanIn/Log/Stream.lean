import FanIn.Log.Logger

/-!
# Log streams

A stream collects the pieces of one message and hands the message over when it is closed. It is
active if its level was let through when it was opened; an inactive one ignores what is written
and hands over nothing. What it holds, with its level and its tail, can be moved to another
stream; the stream it was taken from is inactive from then on.
-/

namespace FanIn.Log

inductive Piece where
  | text (s : String)
  | number (n : Int)
  | flag (b : Bool)
  deriving DecidableEq, Repr

/-- The text of a piece; a flag is written as one or zero. -/
def Piece.render : Piece → String
  | .text s => s
  | .number n => toString n
  | .flag true => "1"
  | .flag false => "0"

structure Stream where
  level : Level
  active : Bool
  /-- What is written last, when the stream is closed. -/
  tail : String := ""
  text : String := ""
  deriving DecidableEq, Repr

namespace Stream

/-- A stream for one message of the given level. -/
def openOn (l : Logger) (level : Level) (active : Bool := true) (tail : String := "") : Stream :=
  { level := level, active := active && l.enabled level, tail := tail }

def write (s : Stream) (p : Piece) : Stream :=
  if s.active then { s with text := s.text ++ p.render } else s

/-- What is left of a stream whose content was moved away. -/
def emptied (s : Stream) : Stream := { s with active := false, tail := "", text := "" }

/-- The message a closed stream hands over, if it hands over any. -/
def message? (s : Stream) : Option String :=
  if s.active then
    let text := s.text ++ s.tail
    if text.isEmpty then none else some text
  else none

/-- Closes a stream: its message goes to the logger. -/
def close (l : Logger) (s : Stream) : Logger :=
  match s.message? with
  | some m => l.log s.level m
  | none => l

end Stream

end FanIn.Log
