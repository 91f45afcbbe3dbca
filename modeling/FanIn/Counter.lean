import FanIn.Failure

/-!
# Completion counters

A counter holds the number of participants that something still has to wait for. It is *open*
while the number is positive. Adding a participant is possible only while it is open; releasing
one reports whether it was the last. A counter that has closed never opens again.

The number is a signed 32-bit word, and adding one to the largest of them wraps around.
-/

namespace FanIn

/-- The number of participants not yet released. -/
structure Counter where
  pending : Int32
  deriving DecidableEq, Repr, Inhabited

namespace Counter

/-- A counter with the given number of participants; one, the owner's own, unless stated. -/
def start (slots : Int32 := 1) : Counter := ⟨slots⟩

/-- Whether participants may still be added and released. -/
def isOpen (c : Counter) : Bool := 0 < c.pending

def reachedZero (c : Counter) : Bool := c.pending == 0

/-- One participant more, or `none` if the counter has closed. -/
def tryAdd (c : Counter) : Option Counter :=
  if c.isOpen then some ⟨c.pending + 1⟩ else none

/-- What releasing a participant that was never registered fails with. -/
def overReleased : Failure :=
  .illegalState "completion counter released more often than registered"

/-- One participant less, and whether it was the last; `none` if the counter has closed. -/
def release (c : Counter) : Option (Bool × Counter) :=
  if c.isOpen then some (c.pending == 1, ⟨c.pending - 1⟩) else none

inductive Request where
  | add
  | release
  deriving DecidableEq, Repr

/-- Carries out one request: what it reports, or that releasing failed, and the counter after
it. Adding reports whether it succeeded, releasing whether it was the last. -/
def serve (c : Counter) : Request → Except Failure Bool × Counter
  | .add =>
    match c.tryAdd with
    | some c' => (.ok true, c')
    | none => (.ok false, c)
  | .release =>
    match c.release with
    | some (last, c') => (.ok last, c')
    | none => (.error overReleased, c)

/-- Carries out one request `n` times, up to the first failure: the last report, which is `last`
if nothing is carried out, and the counter after it. -/
def serveTimes (c : Counter) (r : Request) (n : Nat) (last : Option Bool := none) :
    Except Failure (Option Bool) × Counter :=
  match n with
  | 0 => (.ok last, c)
  | n + 1 =>
    match c.serve r with
    | (.error e, c) => (.error e, c)
    | (.ok b, c) => serveTimes c r n (some b)

theorem tryAdd_eq_none_iff {c : Counter} : c.tryAdd = none ↔ c.isOpen = false := by
  unfold tryAdd; split <;> simp_all

theorem release_eq_none_iff {c : Counter} : c.release = none ↔ c.isOpen = false := by
  unfold release; split <;> simp_all

end Counter

end FanIn
