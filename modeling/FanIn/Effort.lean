/-!
# Processing time

The effort of a context tree is the time its branches have spent, in nanoseconds, and the number
of branches that have reported. A report counts as a branch whatever time it gives; a negative
time counts as none. The sum is a 64-bit word and is read as a signed number.

A time is given in some unit. `TimeUnit.nanoseconds` converts it, dropping fractions of a
nanosecond.
-/

namespace FanIn

/-- A unit of time: `num / den` nanoseconds. -/
structure TimeUnit where
  num : Int
  den : Int
  deriving DecidableEq, Repr

namespace TimeUnit

def nanosecond : TimeUnit := ⟨1, 1⟩
def microsecond : TimeUnit := ⟨1000, 1⟩
def millisecond : TimeUnit := ⟨1000000, 1⟩
def second : TimeUnit := ⟨1000000000, 1⟩
def minute : TimeUnit := ⟨60000000000, 1⟩
def hour : TimeUnit := ⟨3600000000000, 1⟩
def picosecond : TimeUnit := ⟨1, 1000⟩
def thirdOfNanosecond : TimeUnit := ⟨1, 3⟩

/-- A number of units in whole nanoseconds, in 64-bit arithmetic, truncated toward zero. -/
def nanoseconds (u : TimeUnit) (value : Int64) : Int64 :=
  value * Int64.ofInt u.num / Int64.ofInt u.den

end TimeUnit

/-- The time spent by the branches that have reported so far. -/
structure Effort where
  flow : String
  total : UInt64 := 0
  branches : UInt64 := 0
  deriving DecidableEq, Repr, Inhabited

namespace Effort

/-- One more branch reports, with the given nanoseconds; a negative time counts as none. -/
def add (e : Effort) (elapsed : Int64) : Effort :=
  { e with
    total := e.total + (if 0 < elapsed then elapsed.toUInt64 else 0)
    branches := e.branches + 1 }

/-- The total as a signed number of nanoseconds. -/
def totalNanoseconds (e : Effort) : Int64 := e.total.toInt64

theorem branches_add (e : Effort) (elapsed : Int64) :
    (e.add elapsed).branches = e.branches + 1 := rfl

end Effort

end FanIn
