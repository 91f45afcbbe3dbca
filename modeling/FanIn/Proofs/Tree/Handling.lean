import FanIn.Proofs.Tree.Publication
import FanIn.Proofs.Tree.Verdict

/-!
# Errors that are being handled

From the moment a context fails until the signal of its error is resolved, the error is somewhere: its
handler runs, or has returned a signal that it waits for, or that signal has fired and the error is to be
told, or the outcome is published before the signal of the error is resolved. It is handed on from one
place to the next. It comes into the world only by the call that decides the outcome of the context, with
a signal made for it.

Main statements: `handling_move`, `Reachable.handlings_nil` and `handlings_of_failed`.
-/

namespace FanIn

/-- Whether a handler is called on an error of a context. -/
def Event.isHandlingOf (c : ContextNo) : Event → Bool
  | handling _ d _ _ _ => d == c
  | _ => false

namespace World

/-- An error of a context is being handled, and a signal is to tell how that went. -/
inductive Handling (w : World) (c : ContextNo) (e : Failure) (s : SignalNo) : Prop
  /-- The handler runs. -/
  | asked {n : Nat} : .handler n c e s ∈ w.stack → Handling w c e s
  /-- The signal that the handler has returned has not fired. -/
  | waiting {ch : ChannelRef} {k : UInt64} : (k, .settleError c e s) ∈ w.observers ch → Handling w c e s
  /-- That signal has fired. -/
  | notified {ch : ChannelRef} {replay : Bool} {v : Value} {todo spent : List Observer} :
      .deliver ch replay v todo spent ∈ w.stack → .settleError c e s ∈ todo → Handling w c e s
  /-- The outcome is published first. -/
  | concluding {failed : Option (Option Failure)} : .conclude c e failed s ∈ w.stack → Handling w c e s

/-- The call with which the handling of an error begins. -/
structure Begins (w : World) (m : Move) (c : ContextNo) (e : Failure) (s : SignalNo) : Prop where
  call : m = .call (.error c (some e))
  signal : s = w.signals.size
  pending : ∃ x, w.contexts[c]? = some x ∧ x.state = .pending

variable {t : Terms} {w : World} {m : Move}

/-- The outcome of the context is not decided before. -/
theorem Begins.undecided {c : ContextNo} {e : Failure} {s : SignalNo} (h : w.Begins m c e s) :
    w.stateOf c = .pending := by
  obtain ⟨x, hx, hpending⟩ := h.pending
  rw [stateOf_of_getElem? hx, hpending]

/-- A handler comes to run with that call only. -/
theorem begins_of_comes {n : Nat} {c : ContextNo} {e : Failure} {s : SignalNo}
    (h : w.Comes m (.handler n c e s)) : w.Begins m c e s := by
  cases h with
  | fails hx hopen => exact ⟨rfl, rfl, _, hx, by simpa [Context.isTerminated] using hopen⟩
  | settles _ hf => simp [Observer.work] at hf
  | resigns _ hf => simp at hf
  | aside ha => cases ha

/-- An error comes to wait for a signal when its handler returns that. -/
theorem settleError_of_use {ch : ChannelRef} {c : ContextNo} {e : Failure} {s : SignalNo}
    (hu : w.use? m = some (ch, .subscribe (.settleError c e s))) :
    ∃ n rest s', w.stack = .handler n c e s :: rest ∧ m = .handled (.signal s') ∧ ch = .signal s' := by
  rcases subscribe_of_use hu with ⟨label, keeps, _, ho⟩ | ⟨_, _, _, _, _, ho⟩ |
    ⟨n, c', e', s', rest, i, hs, hm, hch, ho⟩
  · cases label <;> cases ho
  · cases ho
  · cases ho
    exact ⟨n, rest, i, hs, hm, hch⟩

/-- An error is handed on, or has come into the world with the move. -/
theorem handling_move {c : ContextNo} {e : Failure} {s : SignalNo} (h : (w.move m).Handling c e s) :
    w.Handling c e s ∨ w.Begins m c e s := by
  cases h with
  | asked hmem =>
    rcases mem_stack_move hmem with hold | hcome
    · exact .inl (.asked hold)
    · exact .inr (begins_of_comes hcome)
  | waiting hmem =>
    rcases observers_move hmem with hold | hnew
    · exact .inl (.waiting hold)
    · obtain ⟨n, rest, _, hs, _⟩ := settleError_of_use hnew
      exact .inl (.asked (hs ▸ List.mem_cons_self))
  | notified hmem ho =>
    rcases mem_stack_move hmem with hold | hcome
    · exact .inl (.notified hold ho)
    · cases hcome with
      | fires _ _ =>
        obtain ⟨⟨k, o⟩, hk, rfl⟩ := List.mem_map.1 ho
        exact .inl (.waiting hk)
      | replays hu _ =>
        obtain rfl := List.mem_singleton.1 ho
        obtain ⟨n, rest, _, hs, _⟩ := settleError_of_use hu
        exact .inl (.asked (hs ▸ List.mem_cons_self))
      | next hs => exact .inl (.notified (hs ▸ List.mem_cons_self) (List.mem_cons_of_mem _ ho))
      | throws hs =>
        cases List.mem_singleton.1 ho
        exact .inl (.asked (hs ▸ List.mem_cons_self))
      | settles _ hf => simp [Observer.work] at hf
      | resigns _ hf => simp at hf
      | aside ha => cases ha
  | concluding hmem =>
    rcases mem_stack_move hmem with hold | hcome
    · exact .inl (.concluding hold)
    · cases hcome with
      | settles hs hf =>
        simp only [Observer.work, List.mem_cons, List.not_mem_nil, or_false, reduceCtorEq, false_or] at hf
        cases hf
        exact .inl (.notified (hs ▸ List.mem_cons_self) List.mem_cons_self)
      | resigns hs hf =>
        simp only [List.mem_cons, List.not_mem_nil, or_false, reduceCtorEq, false_or] at hf
        cases hf
        exact .inl (.asked (hs ▸ List.mem_cons_self))
      | aside ha => cases ha

/-- What publishes an outcome comes with a success, or on top of what resolves the signal of an error. -/
theorem conclude_of_respond {c : ContextNo} {r : Response} (h : w.Comes m (.respond c r)) :
    (∃ x, w.contexts[c]? = some x ∧ x.isTerminated = false) ∨
      ∃ e failed s, .conclude c e failed s ∈ (w.move m).stack ∧ w.Handling c e s := by
  cases h with
  | succeeds hx hopen => exact .inl ⟨_, hx, hopen⟩
  | settles hs hf =>
    rename_i ch replay v c' e s todo spent rest
    simp only [Observer.work, List.mem_cons, List.not_mem_nil, or_false, reduceCtorEq] at hf
    cases hf
    refine .inr ⟨e, v.failed, s, ?_, .notified (hs ▸ List.mem_cons_self) List.mem_cons_self⟩
    rw [stack_move]
    simp [shift, shiftWork, hs, Observer.work]
  | resigns hs hf =>
    rename_i n c' e s rest
    simp only [List.mem_cons, List.not_mem_nil, or_false, reduceCtorEq] at hf
    cases hf
    refine .inr ⟨e, some none, s, ?_, .asked (hs ▸ List.mem_cons_self)⟩
    rw [stack_move]
    simp [shift, shiftHandled, hs]
  | aside ha => cases ha

/-! ## The call that begins it -/

theorem Begins.verdict {c : ContextNo} {e : Failure} {s : SignalNo} (h : w.Begins m c e s) :
    m.verdict? = some (c, ⟨none, some e⟩) := by
  rw [h.call]
  rfl

/-- The context has failed then. -/
theorem Begins.failed {c : ContextNo} {e : Failure} {s : SignalNo} (h : w.Begins m c e s) :
    (w.move m).stateOf c = .failed := by
  obtain ⟨x, hx, hpending⟩ := h.pending
  exact stateOf_decided h.verdict hx hpending

/-- One signal has been made, and has not fired. -/
theorem Begins.signals {c : ContextNo} {e : Failure} {s : SignalNo} (h : w.Begins m c e s) :
    (w.move m).signals = w.signals.push {} := by
  obtain ⟨rfl, rfl, x, hx, hpending⟩ := h
  have hx' : w.point.contexts[c]? = some x := hx
  have hopen : x.isTerminated = false := by simp [Context.isTerminated, hpending]
  show (w.error c (some e)).signals = _
  unfold World.error
  simp only [hx', hopen, Bool.false_eq_true, if_false]
  rfl

theorem Begins.known {c : ContextNo} {e : Failure} {s : SignalNo} (h : w.Begins m c e s) :
    s < (w.move m).signals.size := by
  rw [h.signals, h.signal, Array.size_push]
  exact Nat.lt_succ_self _

theorem Begins.unfired {c : ContextNo} {e : Failure} {s : SignalNo} (h : w.Begins m c e s) :
    (w.move m).value? (.signal s) = none := by
  show ((w.move m).signals[s]?).bind _ = none
  rw [h.signals, h.signal, Array.getElem?_push_size]
  rfl

/-- A context that has failed stays failed. -/
theorem Orderly.failed_lasts (h : w.Orderly t) (hm : (within t).allows w m = true) {c : ContextNo}
    (hc : w.stateOf c = .failed) : (w.move m).stateOf c = .failed := by
  have hrules := (h.steps hm).rules c
  rw [stateOf_ledger, stateOf_ledger, hc] at hrules
  rcases hrules with heq | ⟨hpending, _⟩
  · exact heq
  · cases hpending

/-- Whose error is being handled has failed, and the signal that is to tell has been made. -/
theorem Reachable.of_handling (h : w.Reachable t) : ∀ c e s, w.Handling c e s →
    w.stateOf c = .failed ∧ s < w.signals.size := by
  refine h.keeps (P := fun w => ∀ c e s, w.Handling c e s →
    w.stateOf c = .failed ∧ s < w.signals.size) ?_ ?_
  · rintro threshold c e s (hmem | hmem | ⟨hmem, _⟩ | hmem)
    · cases hmem
    · rename_i ch k
      cases ch <;> cases hmem
    · cases hmem
    · cases hmem
  · intro v m hv hm ih c e s hnew
    rcases handling_move hnew with hold | hbegins
    · obtain ⟨hc, hs⟩ := ih c e s hold
      exact ⟨hv.failed_lasts hm hc, signals_grow m hs⟩
    · exact ⟨hbegins.failed, hbegins.known⟩

/-! ## How often handlers are called -/

/-- The calls of handlers on errors of a context. -/
def handlings (w : World) (c : ContextNo) : List Event :=
  w.history.toList.filter (Event.isHandlingOf c)

theorem handlings_eq (w : World) (c : ContextNo) :
    w.handlings c = w.chronicle.filter (Event.isHandlingOf c) := by
  unfold handlings chronicle
  rw [List.filter_filter]
  apply List.filter_congr
  intro e _
  cases e <;> simp [Event.isHandlingOf, Event.isNotable]

theorem handlings_move (m : Move) (c : ContextNo) : (w.move m).handlings c =
    w.handlings c ++ (w.notes m).filter (Event.isHandlingOf c) := by
  rw [handlings_eq, handlings_eq, chronicle_move, List.filter_append]

theorem not_isHandlingOf_firing {ch : ChannelRef} {v : Value} {c : ContextNo} {ev : Event}
    (h : ev ∈ w.firingNotes ch v) : ev.isHandlingOf c = false := by
  unfold firingNotes at h
  split at h
  · rw [List.mem_singleton.1 h]
    rfl
  · cases h

theorem not_isHandlingOf_leaving {d : ContextNo} {share : Share} {c : ContextNo} {ev : Event}
    (h : ev ∈ w.leavingNotes d share) : ev.isHandlingOf c = false := by
  rcases mem_leavingNotes h with rfl | rfl <;> rfl

/-- The library calls no handler on its own. -/
theorem not_isHandlingOf_work {c : ContextNo} {ev : Event} (h : ev ∈ w.workNotes) :
    ev.isHandlingOf c = false := by
  unfold workNotes at h
  split at h
  · rename_i replay _ _ _ _ _ _ _
    cases replay <;> rw [List.mem_singleton.1 h] <;> rfl
  · rcases List.mem_cons.1 h with rfl | h
    · rfl
    · exact not_isHandlingOf_firing h
  · exact not_isHandlingOf_firing h
  · exact not_isHandlingOf_leaving h
  · split at h
    · exact not_isHandlingOf_firing h
    · cases h
  · exact not_isHandlingOf_leaving h
  · exact not_isHandlingOf_firing h
  · cases h

/-- No other call than one that reports an error calls a handler. -/
theorem not_isHandlingOf_call {call : Call} (hcall : ∀ d failure, call ≠ .error d failure)
    {c : ContextNo} {ev : Event} (h : ev ∈ w.callNotes call) : ev.isHandlingOf c = false := by
  suffices hall : (w.callNotes call).all (fun ev => !ev.isHandlingOf c) = true by
    simpa using List.all_eq_true.1 hall ev h
  have hfiring : ∀ ch v, (w.firingNotes ch v).all (fun ev => !ev.isHandlingOf c) = true :=
    fun ch v => List.all_eq_true.2 fun ev hev => by simp [not_isHandlingOf_firing hev]
  cases call with
  | error d failure => exact absurd rfl (hcall d failure)
  | createRoot spec =>
    simp only [callNotes]
    split
    · cases spec.link <;> rfl
    · rfl
  | createChild parent location handler correlation =>
    simp only [callNotes, birthNotes]
    split
    · split
      · rfl
      · split
        · rfl
        · split <;> rfl
    · rfl
  | addChild d =>
    simp only [callNotes]
    split <;> rfl
  | fireBefore d r => exact hfiring _ _
  | fireResponse d r => exact hfiring _ _
  | fireCompletion d => exact hfiring _ _
  | fireSignal s r => exact hfiring _ _
  | _ => rfl

/-- A handler is called by the call that decides the outcome. -/
theorem begins_of_notes {c : ContextNo} {ev : Event} (h : ev ∈ w.notes m)
    (hc : ev.isHandlingOf c = true) : ∃ e s, w.Begins m c e s := by
  cases m with
  | advance => cases hc.symm.trans (not_isHandlingOf_work h)
  | finish thrown => cases h
  | handled a => cases h
  | call call =>
    by_cases hcall : ∀ d failure, call ≠ .error d failure
    · cases hc.symm.trans (not_isHandlingOf_call hcall h)
    · simp only [not_forall, not_not] at hcall
      obtain ⟨d, failure, rfl⟩ := hcall
      replace h : ev ∈ w.callNotes (.error d failure) := h
      cases failure with
      | none => cases h
      | some e =>
        simp only [callNotes] at h
        split at h
        · rename_i x hx
          split at h
          · cases h
          · rename_i hopen
            rw [List.mem_singleton.1 h] at hc
            obtain rfl := beq_iff_eq.1 hc
            exact ⟨e, _, rfl, rfl, x, hx, by simpa [Context.isTerminated] using hopen⟩
        · cases h

/-- As long as the outcome of a context is undecided, no handler has been called. -/
theorem Reachable.handlings_nil (h : w.Reachable t) (c : ContextNo) :
    w.stateOf c = .pending → w.handlings c = [] := by
  refine h.keeps (P := fun w => w.stateOf c = .pending → w.handlings c = []) (fun _ _ => rfl) ?_
  intro v m hv hm ih hpending
  have hbefore : v.stateOf c = .pending := by
    have hrules := (hv.steps hm).rules c
    rw [stateOf_ledger, stateOf_ledger, hpending] at hrules
    rcases hrules with heq | ⟨heq, _⟩
    · exact heq.symm
    · exact heq
  rw [handlings_move, ih hbefore, List.nil_append, List.filter_eq_nil_iff]
  intro ev hev hc
  obtain ⟨e, s, hbegins⟩ := begins_of_notes hev hc
  cases hpending.symm.trans hbegins.failed

/-- A context that has failed is not given to a handler again. -/
theorem handlings_of_failed {c : ContextNo} (h : w.stateOf c = .failed) (m : Move) :
    (w.move m).handlings c = w.handlings c := by
  rw [handlings_move, List.filter_eq_nil_iff.2, List.append_nil]
  intro ev hev hc
  obtain ⟨e, s, hbegins⟩ := begins_of_notes hev hc
  cases hbegins.undecided.symm.trans h

/-- The call that decides the outcome calls the handler of the context. -/
theorem Begins.notes {c : ContextNo} {e : Failure} {s : SignalNo} (h : w.Begins m c e s) {x : Context}
    (hx : w.contexts[c]? = some x) : w.notes m = [.handling x.handler c .failed e s] := by
  obtain ⟨rfl, rfl, y, hy, hpending⟩ := h
  obtain rfl := Option.some.inj (hy.symm.trans hx)
  have hopen : y.isTerminated = false := by simp [Context.isTerminated, hpending]
  simp [World.notes, callNotes, hy, hopen]

theorem Begins.stack {c : ContextNo} {e : Failure} {s : SignalNo} (h : w.Begins m c e s) {x : Context}
    (hx : w.contexts[c]? = some x) : (w.move m).stack = .handler x.handler c e s :: w.stack := by
  obtain ⟨rfl, rfl, y, hy, hpending⟩ := h
  obtain rfl := Option.some.inj (hy.symm.trans hx)
  have hopen : y.isTerminated = false := by simp [Context.isTerminated, hpending]
  rw [stack_move]
  simp [shift, callFrames, hy, hopen]

end World

end FanIn
