/-!
# Log levels

A level is a number; the smaller it is, the more severe. Four of them have names, and every
other number is a legal level called `unknown`.
-/

namespace FanIn.Log

structure Level where
  code : Int
  deriving DecidableEq, Repr, Inhabited

namespace Level

def error : Level := ⟨0⟩
def warning : Level := ⟨1⟩
def info : Level := ⟨2⟩
def debug : Level := ⟨3⟩

def name (l : Level) : String :=
  if l = error then "error"
  else if l = warning then "warning"
  else if l = info then "info"
  else if l = debug then "debug"
  else "unknown"

def ofName? (s : String) : Option Level :=
  [error, warning, info, debug].find? fun l => l.name == s

/-- Whether a message of this level passes a threshold. -/
def passes (l threshold : Level) : Bool := l.code ≤ threshold.code

/-- Whether messages of this level go to the error output of the standard sink. -/
def isSevere (l : Level) : Bool := l = error || l = warning

end Level

end FanIn.Log
