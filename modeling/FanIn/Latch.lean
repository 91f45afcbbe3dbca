/-!
# Latches

A latch holds back whoever waits at it until it is released, and never closes again.
-/

namespace FanIn

/-- A gate that opens once. -/
structure Latch where
  released : Bool := false
  deriving DecidableEq, Repr, Inhabited

namespace Latch

/-- The latch opened; opening it again changes nothing. -/
def release (_ : Latch) : Latch := ⟨true⟩

/-- How many of `n` waiting parties a latch lets pass: all of them once it is released. -/
def pass (l : Latch) (n : Nat) : Nat := if l.released then n else 0

theorem release_release (l : Latch) : l.release.release = l.release := rfl

end Latch

end FanIn
