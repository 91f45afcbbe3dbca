import FanIn.Proofs.Hushing
import FanIn.Proofs.Tree.Retelling

/-!
# Thresholds of the log

A threshold says which messages are logged. A world is *hushed* to a level by forgetting the messages whose
levels do not pass it, and by lowering the threshold to it.

Main statements: `move_hushed` and `run_hushed`, which are those of `Retelling`. A world that is hushed goes
the way that it would have gone with the lower threshold.
-/

namespace FanIn

/-- Whether an event is told at a threshold: a message is if its level passes, and all else always. -/
def Event.isHeard (t : Log.Level) : Event → Bool
  | logged level _ => level.passes t
  | _ => true

/-- Only the messages up to a level are told. -/
def Retelling.upTo (t : Log.Level) : Retelling where
  history h := h.filter (Event.isHeard t)
  threshold := fun threshold => threshold.capped t
  plain h e he := by
    have hheard : e.isHeard t = true := by cases e <;> first | rfl | cases he
    simp [hheard]
  message h l threshold m := by
    rw [Log.Level.passes_capped]
    cases hl : l.passes t with
    | false => simp [Event.isHeard, hl]
    | true => simp [Event.isHeard, hl]

namespace World

variable {t : Log.Level} {w : World}

/-- The world as it is if only the messages up to a level have been logged. -/
def hushed (t : Log.Level) (w : World) : World :=
  { w with history := w.history.filter (Event.isHeard t), threshold := w.threshold.capped t }

theorem hushed_start {low high : Log.Level} (h : low.code ≤ high.code) :
    (start high).hushed low = start low := by
  have hcapped := Log.Level.capped_of_le h
  simp [hushed, start, hcapped]

theorem move_hushed {m : Move} (hm : ∀ l, m ≠ .call (.setThreshold l)) :
    (w.hushed t).move m = (w.move m).hushed t :=
  move_retold (.upTo t) w fun l hl => absurd hl (hm l)

theorem run_hushed {moves : List Move} (h : ∀ l, .call (.setThreshold l) ∉ moves) :
    machine.run (w.hushed t) moves = (machine.run w moves).hushed t :=
  show machine.run (w.retold (.upTo t)) moves = _ from run_retold h

theorem legal_hushed {moves : List Move} (h : ∀ l, .call (.setThreshold l) ∉ moves) :
    machine.legal (w.hushed t) moves = machine.legal w moves :=
  show machine.legal (w.retold (.upTo t)) moves = _ from legal_retold h

end World

end FanIn
