import Mathlib.Algebra.GroupWithZero.Nat
import FanIn.Channel.Run

/-!
# Every call on a channel returns

How much a pool has still to do, if its client makes no further calls, can be told from what is under
way: every observer that waits to be notified is called and returns, and every call returns. Each move
that is not a call takes something off that, and leaves what lies under the innermost frame as it is. So
whatever is under way goes on until it is over, an observer that throws included, and a call made in the
middle of another returns to that one.

Main statements: `stack_move`, which says so of one move, `length_le` and `returns`.
-/

namespace FanIn.Channel

variable {α : Type}

/-- How many moves it takes to be done with a frame. -/
def Frame.work : Frame α → Nat
  | .observer .. => 1
  | .deliver _ _ _ todo => 1 + 2 * todo.length
  | .returning _ => 1

/-- Whether a move is a call of the client. -/
def Move.isCall : Move α → Bool
  | .call _ => true
  | _ => false

namespace Pool

variable {p : Pool α}

/-- What is left to do. -/
def work (p : Pool α) : Nat := (p.stack.map Frame.work).sum

theorem stack_log (l : Log.Level) (m : String) : (p.log l m).stack = p.stack := by
  unfold log
  split <;> rfl

/-- A move that is not a call leaves less to do of the innermost frame, and all others as they are. -/
theorem stack_move {f : Frame α} {rest : List (Frame α)} (hs : p.stack = f :: rest) {m : Move α}
    (hm : p.allows m = true) (hcall : m.isCall = false) :
    ∃ above, (p.move m).stack = above ++ rest ∧ (above.map Frame.work).sum < f.work := by
  cases m with
  | call r => cases hcall
  | advance =>
    have hadvance : p.move .advance = p.advance := rfl
    rw [hadvance]
    unfold advance
    rw [hs]
    match f with
    | .observer .. => simp [allows, isClientsTurn, hs] at hm
    | .returning r => exact ⟨[], rfl, Nat.one_pos⟩
    | .deliver n replay v [] => exact ⟨[], rfl, Nat.one_pos⟩
    | .deliver n replay v (none :: todo) =>
      refine ⟨[.deliver n replay v todo], rfl, ?_⟩
      simp only [Frame.work, List.map_cons, List.map_nil, List.sum_cons, List.sum_nil, List.length_cons]
      omega
    | .deliver n replay v (some label :: todo) =>
      refine ⟨[.observer n label v, .deliver n replay v todo], rfl, ?_⟩
      simp only [Frame.work, List.map_cons, List.map_nil, List.sum_cons, List.sum_nil, List.length_cons]
      omega
  | finish thrown =>
    have hfinish : p.move (.finish thrown) = p.finish thrown := rfl
    rw [hfinish]
    unfold finish
    rw [hs]
    match f with
    | .observer .. =>
      refine ⟨[], ?_, Nat.one_pos⟩
      cases thrown with
      | none => rfl
      | some failure => exact stack_log _ _
    | .deliver .. => simp [allows, hs] at hm
    | .returning _ => simp [allows, hs] at hm

/-- A move that is not a call finds something under way. -/
theorem exists_frame {m : Move α} (hm : p.allows m = true) (hcall : m.isCall = false) :
    ∃ f rest, p.stack = f :: rest := by
  cases hs : p.stack with
  | cons f rest => exact ⟨f, rest, rfl⟩
  | nil =>
    cases m with
    | call r => cases hcall
    | advance => simp [allows, isClientsTurn, hs] at hm
    | finish thrown => simp [allows, hs] at hm

theorem work_move {m : Move α} (hm : p.allows m = true) (hcall : m.isCall = false) :
    (p.move m).work < p.work := by
  obtain ⟨f, rest, hs⟩ := exists_frame hm hcall
  obtain ⟨above, heq, hless⟩ := stack_move hs hm hcall
  rw [work, work, heq, hs, List.map_append, List.sum_append, List.map_cons, List.sum_cons]
  exact Nat.add_lt_add_right hless _

/-- Without further calls there are at most as many moves as there is left to do. -/
theorem length_le {moves : List (Move α)} (hlegal : machine.legal p moves = true)
    (hcalls : ∀ m ∈ moves, m.isCall = false) :
    moves.length + (machine.run p moves).work ≤ p.work := by
  induction moves generalizing p with
  | nil => exact Nat.le_of_eq (Nat.zero_add _)
  | cons m moves ih =>
    obtain ⟨hm, hlegal⟩ := Bool.and_eq_true_iff.1 hlegal
    have hone := work_move hm (hcalls m List.mem_cons_self)
    have hrest := ih hlegal fun m' hm' => hcalls m' (List.mem_cons_of_mem m hm')
    rw [List.length_cons, Machine.run_cons]
    show moves.length + 1 + (machine.run (p.move m) moves).work ≤ _
    have hrest : moves.length + (machine.run (p.move m) moves).work ≤ (p.move m).work := hrest
    omega

/-- As long as something is under way, it can go on without a call. -/
theorem exists_move (busy : p.stack ≠ []) : ∃ m : Move α, m.isCall = false ∧ p.allows m = true := by
  cases hs : p.stack with
  | nil => exact absurd hs busy
  | cons f rest =>
    cases f with
    | observer n l v => exact ⟨.finish none, rfl, by simp [allows, hs]⟩
    | deliver n replay v todo => exact ⟨.advance, rfl, by simp [allows, isClientsTurn, hs]⟩
    | returning r => exact ⟨.advance, rfl, by simp [allows, isClientsTurn, hs]⟩

/-- Without further calls whatever is under way is over at last, down to any depth. -/
theorem returns {below : List (Frame α)} (h : below <:+ p.stack) :
    ∃ moves, machine.legal p moves = true ∧ (∀ m ∈ moves, m.isCall = false) ∧
      (machine.run p moves).stack = below := by
  induction hn : p.work using Nat.strongRecOn generalizing p with
  | _ n ih =>
    cases hs : p.stack with
    | nil => exact ⟨[], rfl, nofun, hs.trans (List.suffix_nil.1 (hs ▸ h)).symm⟩
    | cons f rest =>
      rw [hs] at h
      rcases List.suffix_cons_iff.1 h with heq | hrest
      · exact ⟨[], rfl, nofun, hs.trans heq.symm⟩
      · obtain ⟨m, hcall, hm⟩ := exists_move (p := p) (by simp [hs])
        obtain ⟨above, heq, -⟩ := stack_move hs hm hcall
        have hbelow : below <:+ (p.move m).stack := heq ▸ hrest.trans (List.suffix_append _ _)
        obtain ⟨moves, hlegal, hcalls, hover⟩ := ih _ (hn ▸ work_move hm hcall) hbelow rfl
        refine ⟨m :: moves, Bool.and_eq_true_iff.2 ⟨hm, hlegal⟩, ?_, hover⟩
        intro m' hm'
        rcases List.mem_cons.1 hm' with rfl | hm'
        · exact hcall
        · exact hcalls m' hm'

end Pool

end FanIn.Channel
