/-!
# Trails

The trail of a context lists the paths of the processors it went through, in the order in which
they were noted. A trail that is switched off ignores what is noted and stays empty.
-/

namespace FanIn

/-- The processors a context went through. -/
structure Trail where
  enabled : Bool := false
  noted : List String := []
  deriving DecidableEq, Repr, Inhabited

namespace Trail

/-- Notes one more processor, if the trail is switched on. -/
def add (t : Trail) (path : String) : Trail :=
  if t.enabled then { t with noted := t.noted ++ [path] } else t

def paths (t : Trail) : List String := if t.enabled then t.noted else []

def size (t : Trail) : Nat := t.paths.length

theorem paths_add (t : Trail) (path : String) :
    (t.add path).paths = if t.enabled then t.paths ++ [path] else [] := by
  unfold add paths; split <;> simp_all

end Trail

end FanIn
