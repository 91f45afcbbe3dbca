import FanIn.Proofs.Tree.Chronicle

/-!
# What is told

A channel tells its value when it fires and when it notifies an observer. Every move tells at most
one thing: a channel fires that has not fired, or the next observer of a frame that notifies is
called.

Main statement: `tellings_move`.
-/

namespace FanIn

/-- Whether a channel tells its value. -/
def Event.isTelling : Event → Bool
  | fired .. => true
  | observed .. => true
  | replayed .. => true
  | _ => false

namespace World

/-- What has been told, oldest first. -/
def tellings (w : World) : List Event := w.history.toList.filter Event.isTelling

/-- What can be told next. -/
def Tells (w : World) : Event → Prop
  | .fired ch _ => w.Waits ch
  | .observed ch l v => ∃ keeps todo spent rest,
      w.stack = .deliver ch false v (.client l keeps :: todo) spent :: rest
  | .replayed ch l v => ∃ keeps todo spent rest,
      w.stack = .deliver ch true v (.client l keeps :: todo) spent :: rest
  | _ => False

/-- At most one thing more has been told. -/
def Appends (w w' : World) : Prop :=
  w'.tellings = w.tellings ∨ ∃ e, w.Tells e ∧ w'.tellings = w.tellings ++ [e]

variable {w w' : World}

/-- What is told is in the chronicle. -/
theorem tellings_eq (w : World) : w.tellings = w.chronicle.filter Event.isTelling := by
  unfold tellings chronicle
  rw [List.filter_filter]
  apply List.filter_congr
  intro e _
  cases e <;> rfl

/-- What is noted tells at most one thing. -/
def NotesOne (w : World) (es : List Event) : Prop :=
  es.filter Event.isTelling = [] ∨ ∃ e, w.Tells e ∧ es.filter Event.isTelling = [e]

theorem notesOne_firing (ch : ChannelRef) (v : Value) : w.NotesOne (w.firingNotes ch v) := by
  by_cases hwaits : w.Waits ch
  · rw [firingNotes_eq hwaits]
    exact .inr ⟨.fired ch v, hwaits, rfl⟩
  · rw [firingNotes_eq_nil hwaits]
    exact .inl rfl

theorem notesOne_leaving (c : ContextNo) (share : Share) : w.NotesOne (w.leavingNotes c share) := by
  left
  unfold leavingNotes
  split
  · rfl
  · rename_i last _ _
    cases last <;> rfl

theorem notesOne_work : w.NotesOne w.workNotes := by
  unfold workNotes
  split
  · rename_i ch replay v label keeps todo spent rest hs
    right
    cases replay with
    | false => exact ⟨.observed ch label v, ⟨keeps, todo, spent, rest, hs⟩, rfl⟩
    | true => exact ⟨.replayed ch label v, ⟨keeps, todo, spent, rest, hs⟩, rfl⟩
  · exact notesOne_firing (.before _) _
  · exact notesOne_firing _ _
  · exact notesOne_leaving _ _
  · split
    · exact notesOne_firing _ _
    · exact .inl rfl
  · exact notesOne_leaving _ _
  · exact notesOne_firing _ _
  · exact .inl rfl

theorem notesOne_call (call : Call) : w.NotesOne (w.callNotes call) := by
  unfold callNotes
  split
  · left
    split
    · rename_i spec _
      cases spec.link <;> rfl
    · rfl
  · left
    split
    · unfold birthNotes
      split
      · rfl
      · split
        · rfl
        · dsimp only
          split <;> rfl
    · rfl
  · left
    split
    · split <;> rfl
    · rfl
  · left
    split <;> rfl
  · exact notesOne_firing _ _
  · exact notesOne_firing _ _
  · exact notesOne_firing _ _
  · exact notesOne_firing _ _
  · exact .inl rfl

/-- What a move notes tells at most one thing. -/
theorem notesOne_notes (m : Move) : w.NotesOne (w.notes m) := by
  cases m with
  | advance => exact notesOne_work
  | call call => exact notesOne_call call
  | finish thrown => exact .inl rfl
  | handled a => exact .inl rfl

/-- Every move tells at most one thing. -/
theorem tellings_move (m : Move) : w.Appends (w.move m) := by
  unfold Appends
  rw [tellings_eq, tellings_eq, chronicle_move, List.filter_append]
  rcases notesOne_notes (w := w) m with hnone | ⟨e, he, hone⟩
  · exact .inl (by rw [hnone, List.append_nil])
  · exact .inr ⟨e, he, by rw [hone]⟩

theorem NotesOne.tells {es : List Event} (h : w.NotesOne es) {e : Event} (he : e ∈ es)
    (ht : e.isTelling = true) : w.Tells e ∧ es.filter Event.isTelling = [e] := by
  have hmem : e ∈ es.filter Event.isTelling := List.mem_filter.2 ⟨he, ht⟩
  rcases h with hnone | ⟨e', he', hone⟩
  · rw [hnone] at hmem
    cases hmem
  · rw [hone] at hmem
    obtain rfl := List.mem_singleton.1 hmem
    exact ⟨he', hone⟩

end World

end FanIn
