import Mathlib.Data.List.Induction
import FanIn.Proofs.Tree.Chronicle

/-!
# What channels carry

A channel that is there carries a value because it has fired, and it was noted when it did. So what the
channels of contexts carry can be read off the chronicle; a signal may also be made with a value.

Main statements: `value?_move` and `value?_run`.
-/

namespace FanIn

/-- The value with which an event says that a channel has fired. -/
def Event.carries? (ch : ChannelRef) : Event → Option Value
  | fired ch' v => if ch' = ch then some v else none
  | _ => none

/-- The value that a channel fires with, if that is what it is used for. -/
def Use.fires? (ch : ChannelRef) : Option (ChannelRef × Use) → Option Value
  | some (ch', .fire v) => if ch' = ch then some v else none
  | _ => none

namespace World

variable {w w' : World}

/-! ## What notes say of firing -/

theorem carries?_firingNotes (ch' : ChannelRef) (v : Value) (ch : ChannelRef) :
    (w.firingNotes ch' v).findSome? (Event.carries? ch) =
      if w.Waits ch then Use.fires? ch (some (ch', .fire v)) else none := by
  by_cases hch : ch' = ch
  · subst hch
    by_cases hwaits : w.Waits ch'
    · simp [firingNotes_eq hwaits, hwaits, Event.carries?, Use.fires?]
    · simp [firingNotes_eq_nil hwaits, hwaits]
  · by_cases hwaits : w.Waits ch'
    · simp [firingNotes_eq hwaits, hch, Event.carries?, Use.fires?]
    · simp [firingNotes_eq_nil hwaits, hch, Use.fires?]

theorem carries?_leavingNotes (c : ContextNo) (share : Share) (ch : ChannelRef) :
    (w.leavingNotes c share).findSome? (Event.carries? ch) = none := by
  unfold leavingNotes
  split
  · rfl
  · rename_i last _ _
    cases last <;> rfl

theorem carries?_workNotes (ch : ChannelRef) : w.workNotes.findSome? (Event.carries? ch) =
    if w.Waits ch then Use.fires? ch w.workUse? else none := by
  have silent : (if w.Waits ch then Use.fires? ch none else none) = none := by simp [Use.fires?]
  unfold workNotes workUse?
  cases hs : w.stack with
  | nil => exact silent.symm
  | cons f rest =>
    cases f with
    | deliver ch' replay v todo spent =>
      cases todo with
      | nil => exact silent.symm
      | cons o todo => cases o <;> cases replay <;> exact silent.symm
    | respond c r => exact carries?_firingNotes (.before c) (.response r) ch
    | answer c r => exact carries?_firingNotes (.response c) (.response r) ch
    | giveUp c share => exact (carries?_leavingNotes c share ch).trans silent.symm
    | climb =>
      cases hq : w.queue with
      | none => exact silent.symm
      | some q =>
        cases q with
        | nil => exact silent.symm
        | cons c q => exact carries?_firingNotes (.completion c) .done ch
    | told c p =>
      cases p with
      | none => exact silent.symm
      | some p => exact (carries?_leavingNotes p (.child c) ch).trans silent.symm
    | conclude c e failed result => exact carries?_firingNotes (.signal result) _ ch
    | _ => exact silent.symm

theorem carries?_callNotes (call : Call) (ch : ChannelRef) :
    (w.callNotes call).findSome? (Event.carries? ch) =
      if w.Waits ch then Use.fires? ch (w.callUse? call) else none := by
  have silent : ∀ {u : Option (ChannelRef × Use)} {es : List Event},
      es.findSome? (Event.carries? ch) = none → Use.fires? ch u = none →
        es.findSome? (Event.carries? ch) = if w.Waits ch then Use.fires? ch u else none := by
    intro u es hes hu
    rw [hes, hu]
    simp
  cases call with
  | createRoot spec =>
    refine silent ?_ ?_
    · simp only [callNotes]
      split
      · cases spec.link <;> rfl
      · rfl
    · simp only [callUse?]
      split
      · cases spec.link <;> rfl
      · rfl
  | createChild parent location handler correlation =>
    refine silent ?_ rfl
    simp only [callNotes, birthNotes]
    split
    · split
      · rfl
      · split
        · rfl
        · split <;> rfl
    · rfl
  | error c failure =>
    refine silent ?_ rfl
    cases failure with
    | none => rfl
    | some e =>
      simp only [callNotes]
      split
      · split <;> rfl
      · rfl
  | addChild c =>
    refine silent ?_ rfl
    simp only [callNotes]
    split <;> rfl
  | fireBefore c r => exact carries?_firingNotes (.before c) (.response r) ch
  | fireResponse c r => exact carries?_firingNotes (.response c) (.response r) ch
  | fireCompletion c => exact carries?_firingNotes (.completion c) .done ch
  | fireSignal s r => exact carries?_firingNotes (.signal s) (.resolution r) ch
  | _ => exact silent rfl rfl

/-- It is noted that a channel has fired if that is what it is used for, and it waited for it. -/
theorem carries?_notes (m : Move) (ch : ChannelRef) : (w.notes m).findSome? (Event.carries? ch) =
    if w.Waits ch then Use.fires? ch (w.use? m) else none := by
  cases m with
  | advance => exact carries?_workNotes ch
  | call call => exact carries?_callNotes call ch
  | finish thrown => simp [notes, use?, Use.fires?]
  | handled a =>
    have hsilent : Use.fires? ch (w.handledUse? a) = none := by
      unfold handledUse?
      split <;> rfl
    simp [notes, use?, hsilent]

/-! ## What channels carry -/

/-- A channel that is used carries what it carried, or what it fires with. -/
theorem value?_at? (u : Option (ChannelRef × Use)) (ch : ChannelRef) (k : Channel Value Observer) :
    (Use.at? u ch k).value? = k.value?.or (Use.fires? ch u) := by
  unfold Use.at?
  split
  · rename_i ch' u
    by_cases hch : ch' = ch
    · rw [if_pos hch]
      cases k with
      | fired v => rw [Use.apply_fired]; rfl
      | waiting n os =>
        cases u with
        | fire v => simp [Use.apply, Channel.fire?, Channel.value?, Use.fires?, hch]
        | _ => rfl
    · rw [if_neg hch]
      cases u <;> simp [Use.fires?, hch]
  · simp [Use.fires?]

/-- A channel that is there carries what it carried before, or what it fires with. -/
theorem value?_use (m : Move) {ch : ChannelRef} (hold : ∀ s, ch = .signal s → s < w.signals.size) :
    (w.move m).value? ch =
      (w.value? ch).or (if w.Waits ch then Use.fires? ch (w.use? m) else none) := by
  rw [value?_eq (w.move m), value?_eq w]
  cases hk : w.channel? ch with
  | some k =>
    rw [(handles_move m).old ch k hk, Option.bind_some, Option.bind_some, value?_at?]
    cases k with
    | waiting n os => rw [if_pos (waits_iff.2 ⟨n, os, hk⟩)]
    | fired v => rfl
  | none =>
    have hnot : ¬ w.Waits ch := fun h => by
      obtain ⟨k, hk'⟩ := known_iff.1 h.1
      cases hk.symm.trans hk'
    rw [if_neg hnot]
    cases hk' : (w.move m).channel? ch with
    | none => rfl
    | some k =>
      rcases (handles_move m).fresh ch k hk' hk with rfl | ⟨s, v, rfl, _⟩
      · rfl
      · obtain ⟨k, hk'⟩ := known_iff.1 (show w.Known (ChannelRef.signal s).owner from hold s rfl)
        cases hk.symm.trans hk'

/-- When a channel fires, that is noted. -/
theorem value?_move (m : Move) {ch : ChannelRef} (hold : ∀ s, ch = .signal s → s < w.signals.size) :
    (w.move m).value? ch = (w.value? ch).or ((w.notes m).findSome? (Event.carries? ch)) := by
  rw [carries?_notes]
  exact value?_use m hold

/-- Only a channel that is there carries something. -/
theorem known_of_value? {ch : ChannelRef} {v : Value} (h : w.value? ch = some v) :
    w.Known ch.owner := by
  rw [value?_eq] at h
  obtain ⟨k, hk, _⟩ := Option.bind_eq_some_iff.1 h
  exact known_iff.2 ⟨k, hk⟩

/-- A channel that has fired carries its value for good. -/
theorem value?_lasts {ch : ChannelRef} {v : Value} (h : w.value? ch = some v) (m : Move) :
    (w.move m).value? ch = some v := by
  rw [value?_use m fun s hs => by subst hs; exact known_of_value? h, h]
  rfl

theorem isFired_lasts {ch : ChannelRef} (h : w.isFired ch = true) (m : Move) :
    (w.move m).isFired ch = true := by
  obtain ⟨v, hv⟩ := Option.isSome_iff_exists.1 h
  exact Option.isSome_iff_exists.2 ⟨v, value?_lasts hv m⟩

/-- A channel that is used to be fired has fired then. -/
theorem isFired_of_use {m : Move} {ch : ChannelRef} {v : Value} (hu : w.use? m = some (ch, .fire v))
    (hk : w.Known ch.owner) : (w.move m).isFired ch = true := by
  cases hv : w.value? ch with
  | some u => exact isFired_lasts (Option.isSome_iff_exists.2 ⟨u, hv⟩) m
  | none =>
    have hwaits : w.Waits ch := ⟨hk, hv⟩
    unfold isFired
    rw [value?_use m fun s hs => by subst hs; exact hk, hv, hu, if_pos hwaits]
    simp [Use.fires?]

/-- A channel fires because it is used for that, and with the value it is used with. -/
theorem use_of_value? {m : Move} {ch : ChannelRef} {v : Value} (h : (w.move m).value? ch = some v)
    (hnone : w.value? ch = none) (hold : ∀ s, ch = .signal s → s < w.signals.size) :
    w.use? m = some (ch, .fire v) := by
  rw [value?_use m hold, hnone, Option.none_or] at h
  split at h
  · unfold Use.fires? at h
    split at h
    · rename_i ch' u hu
      split at h
      · rename_i hch
        rw [hu, hch, Option.some.inj h]
      · cases h
    · cases h
  · cases h

/-- After any run, what a channel of a context carries is what it fired with, if it has fired. -/
theorem value?_run (threshold : Log.Level) (moves : List Move) (ch : ChannelRef)
    (hch : ∀ s, ch ≠ .signal s) : (machine.run (start threshold) moves).value? ch =
      (machine.run (start threshold) moves).chronicle.findSome? (Event.carries? ch) := by
  induction moves using List.reverseRecOn with
  | nil =>
    cases ch with
    | signal s => exact absurd rfl (hch s)
    | _ => simp [value?, start, chronicle]
  | append_singleton moves m ih =>
    rw [Machine.run_append]
    show (World.move _ m).value? ch = (World.move _ m).chronicle.findSome? _
    rw [value?_move m fun s hs => absurd hs (hch s), chronicle_move, List.findSome?_append, ih]

end World

end FanIn
