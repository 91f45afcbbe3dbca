import FanIn.Proofs.Tree.Footing
import FanIn.Proofs.Tree.Traffic

/-!
# Where failures go

On strict terms a slot that is to be given up is always there. The only failure under way is then that of
a child whose id is in use, and it goes to the client that wanted the child: it reaches none of the frames
that the library has still to work off. On other terms it may reach the frame that is to resolve the signal
of an error, which is then *withheld*.

Main statements: `Reachable.clients_of_throwing` and `fails_of_withheld`.
-/

namespace FanIn

namespace World

open Stack

variable {t : Terms} {w : World}

/-- On strict terms no slot fails to be given up. -/
theorem Orderly.sure (h : w.Orderly t) (ht : t.strict = true) : w.fails = false := by
  refine Bool.eq_false_iff.2 fun hfails => ?_
  rcases of_fails hfails with ⟨c, share, rest, hs, hnone⟩ | ⟨c, p, rest, hs, hnone⟩
  · exact h.due_ne_none ht hs rfl (h.order.live_of_giveUp h.tidy hs) hnone
  · exact h.release_ne_none hs ht hnone

theorem Reachable.footed (h : w.Reachable t) : Footed t.strict w.stack :=
  h.keeps (P := fun w => Footed t.strict w.stack) (fun _ => .inl trivial)
    fun _ _ hv hm hw => footed_move hw (Bool.and_eq_true_iff.1 hm).1 hv.sure

/-- On strict terms a failure goes to a client. -/
theorem Reachable.clients_of_throwing (h : w.Reachable t) (ht : t.strict = true) {f : Failure}
    {rest : List Frame} (hs : w.stack = .throwing f :: rest) : Clients rest := by
  have hfooted := h.footed
  rw [ht, hs] at hfooted
  exact hfooted.leans (f := .throwing f) rfl

/-! ## Signals that are withheld -/

/-- Whether a failure is about to take the frame that is to resolve a signal. -/
def withholds (w : World) (s : SignalNo) : Bool :=
  match w.stack with
  | .throwing _ :: .conclude _ _ _ s' :: _ => s' == s
  | _ => false

/-- Whether a failure takes that frame in the course of some moves. -/
def withheld (w : World) (s : SignalNo) : List Move → Bool
  | [] => false
  | m :: moves => w.withholds s || (w.move m).withheld s moves

theorem withheld_concat (w : World) (s : SignalNo) (moves : List Move) (m : Move) :
    w.withheld s (moves ++ [m]) = (w.withheld s moves || (machine.run w moves).withholds s) := by
  induction moves generalizing w with
  | nil => simp [withheld]
  | cons x moves ih => simp [withheld, ih, Bool.or_assoc, machine]

theorem of_withholds {s : SignalNo} (h : w.withholds s = true) :
    ∃ f c e failed rest, w.stack = .throwing f :: .conclude c e failed s :: rest := by
  unfold withholds at h
  split at h
  · rename_i f c e failed s' rest hs
    obtain rfl := beq_iff_eq.1 h
    exact ⟨f, c, e, failed, rest, hs⟩
  · cases h

theorem withholds_of_throwing {f : Failure} {c : ContextNo} {e : Failure} {failed : Option (Option Failure)}
    {s : SignalNo} {rest : List Frame} (hs : w.stack = .throwing f :: .conclude c e failed s :: rest) :
    w.withholds s = true := by
  simp only [withholds, hs, beq_self_eq_true]

/-- On strict terms no failure does so. -/
theorem Reachable.withholds_of_strict (h : w.Reachable t) (ht : t.strict = true) (s : SignalNo) :
    w.withholds s = false := by
  refine Bool.eq_false_iff.2 fun hwithholds => ?_
  obtain ⟨f, c, e, failed, rest, hs⟩ := of_withholds hwithholds
  cases h.clients_of_throwing ht hs

/-- A signal is withheld only after a slot could not be given up. -/
theorem fails_of_withheld {s : SignalNo} {moves : List Move} (h : Footed true w.stack)
    (hlegal : (within t).legal w moves = true) (hlost : w.withheld s moves = true) :
    ∃ earlier later, moves = earlier ++ later ∧ (machine.run w earlier).fails = true := by
  induction moves generalizing w with
  | nil => cases hlost
  | cons m moves ih =>
    obtain ⟨hm, hlegal⟩ := Bool.and_eq_true_iff.1 hlegal
    cases hfails : w.fails with
    | true => exact ⟨[], m :: moves, rfl, hfails⟩
    | false =>
      rcases Bool.or_eq_true_iff.1 hlost with hwithholds | hlost
      · -- as long as every slot could be given up, a failure lies on the code of a client
        obtain ⟨f, c, e, failed, rest, hs⟩ := of_withholds hwithholds
        rw [hs] at h
        have hclients : Clients (.conclude c e failed s :: rest) := h.leans (f := .throwing f) rfl
        cases hclients
      · have hnext := footed_move h (Bool.and_eq_true_iff.1 hm).1 fun _ => hfails
        obtain ⟨earlier, later, rfl, hearlier⟩ := ih hnext hlegal hlost
        exact ⟨m :: earlier, later, rfl, hearlier⟩

end World

end FanIn
