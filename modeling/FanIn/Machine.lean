/-!
# Machines and their runs

A machine has states and moves, and says which moves are due in which state. A run is a list of
moves; it is *legal* if every move is due when it is made. `Machine.invariant` proves a property
of every state that a legal run reaches from what single moves do.
-/

namespace FanIn

/-- States `σ` that change by moves `μ`. -/
structure Machine (σ μ : Type) where
  /-- What a move makes of a state. -/
  move : σ → μ → σ
  allows : σ → μ → Bool

namespace Machine

variable {σ μ : Type} (m : Machine σ μ)

/-- What a list of moves makes of a state. -/
def run (s : σ) (moves : List μ) : σ := moves.foldl m.move s

/-- Whether every move is due when it is made. -/
def legal (s : σ) : List μ → Bool
  | [] => true
  | x :: moves => m.allows s x && legal (m.move s x) moves

/-- The same machine for those who keep to more than is asked. -/
def restrict (keepsTo : σ → μ → Bool) : Machine σ μ where
  move := m.move
  allows s x := m.allows s x && keepsTo s x

@[simp] theorem run_nil (s : σ) : m.run s [] = s := rfl

@[simp] theorem run_cons (s : σ) (x : μ) (moves : List μ) :
    m.run s (x :: moves) = m.run (m.move s x) moves := rfl

theorem run_append (s : σ) (first second : List μ) :
    m.run s (first ++ second) = m.run (m.run s first) second := by
  simp [run]

theorem legal_append (s : σ) (first second : List μ) :
    m.legal s (first ++ second) = (m.legal s first && m.legal (m.run s first) second) := by
  induction first generalizing s with
  | nil => simp [legal]
  | cons x first ih => simp [legal, ih, Bool.and_assoc]

/-- What was done by some moment of a legal run was legal. -/
theorem legal_take {s : σ} {moves : List μ} (h : m.legal s moves = true) (n : Nat) :
    m.legal s (moves.take n) = true := by
  rw [← List.take_append_drop n moves, legal_append, Bool.and_eq_true] at h
  exact h.1

/-- A run that is not legal has a first move that was not due. -/
theorem exists_undue {s : σ} {moves : List μ} (h : m.legal s moves = false) :
    ∃ first x rest, moves = first ++ x :: rest ∧ m.legal s first = true ∧
      m.allows (m.run s first) x = false := by
  induction moves generalizing s with
  | nil => cases h
  | cons x moves ih =>
    cases hx : m.allows s x with
    | false => exact ⟨[], x, moves, rfl, rfl, hx⟩
    | true =>
      rw [legal, hx, Bool.true_and] at h
      obtain ⟨first, y, rest, rfl, hfirst, hy⟩ := ih h
      exact ⟨x :: first, y, rest, rfl, by rw [legal, hx, hfirst]; rfl, hy⟩

/-- Whoever keeps to more than is asked makes a run that is legal for anyone. -/
theorem legal_of_restrict {keepsTo : σ → μ → Bool} {s : σ} {moves : List μ}
    (h : (m.restrict keepsTo).legal s moves = true) : m.legal s moves = true := by
  induction moves generalizing s with
  | nil => rfl
  | cons x moves ih =>
    obtain ⟨hx, hm⟩ := Bool.and_eq_true_iff.1 h
    exact Bool.and_eq_true_iff.2 ⟨(Bool.and_eq_true_iff.1 hx).1, ih hm⟩

/-- What holds at the start and is kept by every move that is due holds wherever a legal run
leads. -/
theorem invariant {P : σ → Prop} (keep : ∀ s x, P s → m.allows s x → P (m.move s x)) {s : σ}
    (start : P s) {moves : List μ} (h : m.legal s moves) : P (m.run s moves) := by
  induction moves generalizing s with
  | nil => exact start
  | cons x moves ih =>
    obtain ⟨hx, hm⟩ := Bool.and_eq_true_iff.1 h
    exact ih (keep s x start hx) hm

/-- The same for a property that speaks of the moves made so far as well. -/
theorem run_induction {P : List μ → σ → Prop} {s : σ} (start : P [] s)
    (keep : ∀ moves x, P moves (m.run s moves) → m.allows (m.run s moves) x →
      P (moves ++ [x]) (m.move (m.run s moves) x))
    {moves : List μ} (h : m.legal s moves) : P moves (m.run s moves) := by
  suffices go : ∀ later earlier : List μ, P earlier (m.run s earlier) →
      m.legal (m.run s earlier) later → P (earlier ++ later) (m.run s (earlier ++ later)) by
    exact go moves [] start h
  intro later
  induction later with
  | nil => intro earlier hp _; simpa using hp
  | cons x later ih =>
    intro earlier hp hl
    obtain ⟨hx, hl⟩ := Bool.and_eq_true_iff.1 hl
    have hr : m.run s (earlier ++ [x]) = m.move (m.run s earlier) x := by simp [run_append]
    have := ih (earlier ++ [x]) (hr ▸ keep earlier x hp hx) (hr ▸ hl)
    simpa using this

end Machine

end FanIn
