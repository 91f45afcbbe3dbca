import Mathlib.Logic.Function.Iterate
import FanIn.Proofs.Tree.Orderly

/-!
# Turns

Clients see a run as a sequence of turns: what a client does on its turn, and all that the library does
until it is a client's turn again. The library does nothing on a client's turn, so a turn leads to one
world, and every run that ends on a client's turn is made of turns.

Main statements: `Turn.unique` and `plays_of_legal`.
-/

namespace FanIn.World

variable {t : Terms} {w w' w'' : World} {m : Move}

/-- What a client's move on its turn leads to, when it is a client's turn again. -/
def Turn (w : World) (m : Move) (w' : World) : Prop :=
  w.isClientsTurn = true ∧ w.allows m = true ∧ w'.isClientsTurn = true ∧
    ∃ n, advance^[n] (w.move m) = w'

/-- The library stays where it is a client's turn. -/
theorem iterate_of_turn (h : w.isClientsTurn = true) (n : Nat) : advance^[n] w = w := by
  induction n with
  | zero => rfl
  | succ n ih => rw [Function.iterate_succ_apply, advance_eq_self h, ih]

theorem iterate_le {n k : Nat} (h : (advance^[n] w).isClientsTurn = true) (hnk : n ≤ k) :
    advance^[k] w = advance^[n] w := by
  obtain ⟨d, rfl⟩ := Nat.exists_eq_add_of_le' hnk
  rw [Function.iterate_add_apply, iterate_of_turn h]

/-- The library comes to a client's turn in one world only. -/
theorem iterate_unique {n k : Nat} (hn : (advance^[n] w).isClientsTurn = true)
    (hk : (advance^[k] w).isClientsTurn = true) : advance^[n] w = advance^[k] w := by
  rcases Nat.le_total n k with hle | hle
  · exact (iterate_le hn hle).symm
  · exact iterate_le hk hle

theorem Turn.unique (h : w.Turn m w') (h' : w.Turn m w'') : w' = w'' := by
  obtain ⟨-, -, hw, n, rfl⟩ := h
  obtain ⟨-, -, hw', k, rfl⟩ := h'
  exact iterate_unique hw hw'

theorem Turn.ne_advance (h : w.Turn m w') : m ≠ .advance := by
  rintro rfl
  have hbusy : (!w.isClientsTurn) = true := h.2.1
  rw [h.1] at hbusy
  cases hbusy

/-- What turns of clients that keep to terms lead to. -/
inductive Plays (t : Terms) (w : World) : World → Prop
  | refl : Plays t w w
  | turn {v v' : World} {m : Move} (h : Plays t w v) (hm : v.keepsTo t m = true) (hturn : v.Turn m v') :
      Plays t w v'

theorem Plays.clientsTurn (h : Plays t w w') (hw : w.isClientsTurn = true) :
    w'.isClientsTurn = true := by
  cases h with
  | refl => exact hw
  | turn _ _ hturn => exact hturn.2.2.1

/-- A move that a client makes is made on its turn. -/
theorem turn_of_allows (h : w.allows m = true) (hm : m ≠ .advance) : w.isClientsTurn = true := by
  cases m with
  | advance => exact absurd rfl hm
  | call call => exact turn_of_call h
  | finish thrown =>
    obtain ⟨ch, l, v, rest, hs⟩ := observer_of_finish h
    unfold isClientsTurn
    rw [hs]
    rfl
  | handled a =>
    obtain ⟨⟨n, c, e, s, rest, hs⟩, -⟩ := handler_of_handled h
    unfold isClientsTurn
    rw [hs]
    rfl

/-- A run from a client's turn to a client's turn is made of turns. -/
theorem plays_of_legal {moves : List Move} (hw : w.isClientsTurn = true)
    (h : (within t).legal w moves = true) (hturn : ((within t).run w moves).isClientsTurn = true) :
    Plays t w ((within t).run w moves) := by
  -- between two client's turns the run is so many steps after the latest turn began
  let Since (w' : World) : Prop := ∃ v, Plays t w v ∧ (w' = v ∨ ∃ m n,
    v.allows m = true ∧ v.keepsTo t m = true ∧ advance^[n] (v.move m) = w')
  have hplays : ∀ w' : World, Since w' → w'.isClientsTurn = true → Plays t w w' := by
    rintro w' ⟨v, hv, rfl | ⟨m, n, hallows, hkeeps, hn⟩⟩ hw'
    · exact hv
    · exact hv.turn hkeeps ⟨hv.clientsTurn hw, hallows, hw', n, hn⟩
  refine hplays _ ((within t).invariant (P := Since) (fun w' m hw' hm => ?_)
    ⟨_, .refl, .inl rfl⟩ h) hturn
  obtain ⟨hallows, hkeeps⟩ := Bool.and_eq_true_iff.1 hm
  by_cases hadvance : m = .advance
  · subst hadvance
    obtain ⟨v, hv, rfl | ⟨m, n, hallows', hkeeps', hn⟩⟩ := hw'
    · have hbusy : (!w'.isClientsTurn) = true := hallows
      rw [hv.clientsTurn hw] at hbusy
      cases hbusy
    · refine ⟨v, hv, .inr ⟨m, n + 1, hallows', hkeeps', ?_⟩⟩
      rw [Function.iterate_succ_apply', hn]
      rfl
  · exact ⟨w', hplays w' hw' (turn_of_allows hallows hadvance), .inr ⟨m, 0, hallows, hkeeps, rfl⟩⟩

end FanIn.World
