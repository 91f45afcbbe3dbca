import FanIn.Channel.Pool
import FanIn.Machine

/-!
# Runs of channels

What happens to a pool is a list of moves: steps of the pool's own work, and calls and returns of
the client, which come on the client's turn. The legal runs are those of all clients, whatever
their observers decide to do.
-/

namespace FanIn.Channel

/-- One thing that happens to a pool. -/
inductive Move (α : Type) where
  | advance
  | call (r : Request α)
  | finish (thrown : Option Failure)
  deriving Repr

namespace Pool

variable {α : Type}

/-- What one move makes of a pool. -/
def move (p : Pool α) : Move α → Pool α
  | .advance => p.advance
  | .call r => p.call r
  | .finish thrown => p.finish thrown

def allows (p : Pool α) : Move α → Bool
  | .advance => !p.isClientsTurn
  | .call _ => p.isClientsTurn
  | .finish _ =>
    match p.stack with
    | .observer .. :: _ => true
    | _ => false

def machine : Machine (Pool α) (Move α) := ⟨move, allows⟩

/-- On the client's turn the pool does nothing. -/
theorem advance_eq_self {p : Pool α} (h : p.isClientsTurn) : p.advance = p := by
  unfold isClientsTurn at h
  unfold advance
  split <;> simp_all

end Pool

end FanIn.Channel
