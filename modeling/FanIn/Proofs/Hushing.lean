import FanIn.Log.Level

/-!
# Messages that are not told

Histories have messages in them, which are logged if their levels pass the threshold. To *hush* something is
to lower its threshold and to leave out the messages that do not pass it any more. Those who tell a history
keep count of how much they have told; once it is hushed they have told what is left of that.
-/

namespace FanIn

/-- What a threshold becomes if it is lowered to a level. -/
def Log.Level.capped (threshold t : Log.Level) : Log.Level :=
  if threshold.code ≤ t.code then threshold else t

theorem Log.Level.passes_capped (l threshold t : Log.Level) :
    l.passes (threshold.capped t) = (l.passes threshold && l.passes t) := by
  have hle : l.code ≤ (threshold.capped t).code ↔ l.code ≤ threshold.code ∧ l.code ≤ t.code := by
    unfold capped
    split <;> omega
  rw [Bool.eq_iff_iff, Bool.and_eq_true]
  simpa only [passes, decide_eq_true_eq] using hle

theorem Log.Level.capped_of_le {threshold t : Log.Level} (h : t.code ≤ threshold.code) :
    threshold.capped t = t := by
  unfold capped
  split
  · exact congrArg Log.Level.mk (Int.le_antisymm ‹_› h)
  · rfl

namespace Hushing

variable {ε η : Type} {p : ε → Bool} {q : η → Bool} {f : ε → Option η} {h : Array ε} {n : Nat}

/-- How much has been told, of all that is left of a history. -/
def told (p : ε → Bool) (h : Array ε) (n : Nat) : Nat := (h.toList.take n).countP p

/-- What happens later has not been told. -/
theorem told_append (hn : n ≤ h.size) (new : Array ε) : told p (h ++ new) n = told p h n := by
  rw [told, told, Array.toList_append, List.take_append_of_le_length (by rwa [Array.length_toList])]

/-- Once everything has been told, all that is left has been. -/
theorem told_size : told p h h.size = (h.filter p).size := by
  calc told p h h.size
      = (h.toList.take h.toList.length).countP p := rfl
    _ = (h.toList.filter p).length := by rw [List.take_length, List.countP_eq_length_filter]
    _ = (h.filter p).size := by rw [← Array.toList_filter, Array.length_toList]

theorem toList_extract_size (h : Array ε) (n : Nat) : (h.extract n).toList = h.toList.drop n := by
  rw [Array.toList_extract, List.extract_eq_take_drop]
  exact List.take_of_length_le (by simp)

/-- What is still to be told is what is left of it. -/
theorem filter_extract_told : (h.filter p).extract (told p h n) = (h.extract n).filter p := by
  have hsplit : h.toList.filter p = (h.toList.take n).filter p ++ (h.toList.drop n).filter p := by
    rw [← List.filter_append, List.take_append_drop]
  refine Array.toList_inj.1 ?_
  rw [toList_extract_size, Array.toList_filter, Array.toList_filter, toList_extract_size, hsplit, told,
    List.countP_eq_length_filter, List.drop_left]

/-- What is told of what is left is left of what is told. -/
theorem filterMap_filter (hf : ∀ e, (if p e then f e else none) = (f e).filter q) (h : Array ε) :
    (h.filter p).filterMap f = (h.filterMap f).filter q := by
  rw [Array.filterMap_filter, Array.filter_filterMap]
  exact congrArg (Array.filterMap · h) (funext hf)

end Hushing

end FanIn
