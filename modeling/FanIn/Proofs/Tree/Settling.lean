import FanIn.Proofs.Tree.Handling

/-!
# What the handler of an error answers

A handler returns a signal, or none, or throws. From this, and from what the signal delivers when it
fires, it is known how the handling of the error has ended. Nothing is done about the outcome of the
context before.

Main statement: `Settling.move`.
-/

namespace FanIn

namespace World

variable {t : Terms} {w : World} {m : Move}

/-! ## What handlers return -/

/-- What the handler of an error of a context returns, if a move is that. -/
def answers? (w : World) (c : ContextNo) : Move → Option Handled
  | .handled a =>
    match w.stack with
    | .handler _ d _ _ :: _ => if d = c then some a else none
    | _ => none
  | _ => none

/-- What the handler of an error of a context has returned in the course of some moves. -/
def answer? (w : World) (c : ContextNo) : List Move → Option Handled
  | [] => none
  | m :: moves => (w.answers? c m).or ((w.move m).answer? c moves)

theorem answer?_concat (w : World) (c : ContextNo) (moves : List Move) (m : Move) :
    w.answer? c (moves ++ [m]) =
      (w.answer? c moves).or ((machine.run w moves).answers? c m) := by
  induction moves generalizing w with
  | nil => simp [answer?]
  | cons x moves ih => simp [answer?, ih, Option.or_assoc, machine]

/-- How the handling of an error has ended, given what the handler has returned: whether it failed, and
with what if it raised anything. That is not known before the signal that the handler returned fires. -/
def outcome? (w : World) : Handled → Option (Option (Option Failure))
  | .nothing => some (some none)
  | .threw f => some (some (some f))
  | .signal s => (w.value? (.signal s)).map Value.failed

/-- The same, as long as the handler may not have returned. -/
def report? (w : World) (a? : Option Handled) : Option (Option (Option Failure)) := a?.bind w.outcome?

theorem answers?_of_top {n : Nat} {c : ContextNo} {e : Failure} {s : SignalNo} {rest : List Frame}
    (hs : w.stack = .handler n c e s :: rest) (a : Handled) :
    w.answers? c (.handled a) = some a := by
  simp [answers?, hs]

theorem of_answers? {c : ContextNo} {a : Handled} (h : w.answers? c m = some a) :
    m = .handled a ∧ ∃ n e s rest, w.stack = .handler n c e s :: rest := by
  unfold answers? at h
  split at h
  · split at h
    · rename_i n d e s rest hs
      split at h
      · rename_i hd
        subst hd
        cases h
        exact ⟨rfl, n, e, s, rest, hs⟩
      · cases h
    · cases h
  · cases h

/-- What is known of an outcome stays known. -/
theorem report?_lasts {a? : Option Handled} {failed : Option (Option Failure)}
    (h : w.report? a? = some failed) (m : Move) (b? : Option Handled) :
    (w.move m).report? (a?.or b?) = some failed := by
  obtain ⟨a, rfl, ha⟩ := Option.bind_eq_some_iff.1 h
  show (w.move m).outcome? a = some failed
  cases a with
  | nothing => exact ha
  | threw f => exact ha
  | signal s =>
    obtain ⟨v, hv, hfailed⟩ := Option.map_eq_some_iff.1 ha
    simp only [outcome?, value?_lasts hv m, Option.map_some, hfailed]

/-- The handler that is about to return has not returned before. -/
theorem Orderly.handler_once (h : w.Orderly t) {n n' : Nat} {c : ContextNo} {e e' : Failure}
    {s s' : SignalNo} {a : Handled} {rest : List Frame} (hs : w.stack = .handler n c e s :: rest) :
    .handler n' c e' s' ∉ (w.move (.handled a)).stack := by
  intro hmem
  have hrest : .handler n' c e' s' ∈ rest := by
    rw [stack_move] at hmem
    simp only [shift, shiftHandled, hs] at hmem
    cases a with
    | nothing => simpa using hmem
    | threw f => simpa using hmem
    | signal i =>
      rcases List.mem_append.1 hmem with hmem | hmem
      · unfold replayFrames at hmem
        split at hmem <;> simp at hmem
      · simpa using hmem
  have hzero := h.untold_below (c := c) hs (Frame.untold_pos (Multiset.mem_singleton_self _)) hrest
  have hpos : 0 < (Frame.handler n' c e' s').untold c :=
    Frame.untold_pos (Multiset.mem_singleton_self _)
  omega

/-! ## How far the handling is -/

/-- What is done about the error of a context goes with what its handler has returned. -/
structure Settling (w : World) (c : ContextNo) (a? : Option Handled) : Prop where
  asked : ∀ n e s, .handler n c e s ∈ w.stack → a? = none
  waiting : ∀ ch k e s, (k, .settleError c e s) ∈ w.observers ch →
    ∃ s', ch = .signal s' ∧ a? = some (.signal s')
  notified : ∀ ch replay v todo spent e s, .deliver ch replay v todo spent ∈ w.stack →
    .settleError c e s ∈ todo → w.report? a? = some v.failed
  concluding : ∀ e failed s, .conclude c e failed s ∈ w.stack → w.report? a? = some failed
  /-- Nothing is published before the outcome of the handling is known. -/
  published : (∃ r, .respond c r ∈ w.stack) ∨ w.isFired (.before c) = true →
    ∃ failed, w.report? a? = some failed

/-- The handler is on top when it returns. -/
theorem Settling.unanswered {c : ContextNo} {a? : Option Handled} (h : w.Settling c a?) {n : Nat}
    {e : Failure} {s : SignalNo} {rest : List Frame} (hs : w.stack = .handler n c e s :: rest) :
    a? = none := h.asked n e s (hs ▸ List.mem_cons_self)

/-- What the handler has returned with the move. -/
theorem Settling.or_answers {c : ContextNo} {a? : Option Handled} (h : w.Settling c a?) {n : Nat}
    {e : Failure} {s : SignalNo} {rest : List Frame} (hs : w.stack = .handler n c e s :: rest)
    (a : Handled) : a?.or (w.answers? c (.handled a)) = some a := by
  rw [h.unanswered hs, answers?_of_top hs a, Option.none_or]

/-- Every move keeps it so. -/
theorem Settling.move {c : ContextNo} {a? : Option Handled} (h : w.Settling c a?) (ho : w.Orderly t)
    (hc : w.stateOf c = .failed) (hm : (within t).allows w m = true) :
    (w.move m).Settling c (a?.or (w.answers? c m)) where
  asked := by
    intro n e s hmem
    cases hans : w.answers? c m with
    | none =>
      rw [Option.or_none]
      rcases mem_stack_move hmem with hold | hcome
      · exact h.asked n e s hold
      · cases (begins_of_comes hcome).undecided.symm.trans hc
    | some a =>
      obtain ⟨rfl, n', e', s', rest, hs⟩ := of_answers? hans
      exact absurd hmem (ho.handler_once hs)
  waiting := by
    intro ch k e s hmem
    rcases observers_move hmem with hold | hnew
    · obtain ⟨s', rfl, rfl⟩ := h.waiting ch k e s hold
      exact ⟨s', rfl, rfl⟩
    · obtain ⟨n, rest, s', hs, rfl, rfl⟩ := settleError_of_use hnew
      exact ⟨s', rfl, h.or_answers hs _⟩
  notified := by
    intro ch replay v todo spent e s hmem ho
    rcases mem_stack_move hmem with hold | hcome
    · exact report?_lasts (h.notified ch replay v todo spent e s hold ho) m _
    · cases hcome with
      | fires hu hwaits =>
        obtain ⟨⟨k, o⟩, hk, rfl⟩ := List.mem_map.1 ho
        obtain ⟨s', rfl, rfl⟩ := h.waiting ch k e s hk
        have hv : (w.move m).value? (.signal s') = some v := by
          rw [value?_use m fun i hi => by cases hi; exact hwaits.1, hwaits.2, hu, if_pos hwaits]
          simp [Use.fires?]
        simp [report?, outcome?, hv]
      | replays hu hv =>
        obtain rfl := List.mem_singleton.1 ho
        obtain ⟨n, rest, s', hs, rfl, rfl⟩ := settleError_of_use hu
        rw [h.or_answers hs]
        simp [report?, outcome?, value?_lasts hv]
      | next hs =>
        exact report?_lasts (h.notified _ _ _ _ _ e s (hs ▸ List.mem_cons_self)
          (List.mem_cons_of_mem _ ho)) _ _
      | throws hs =>
        cases List.mem_singleton.1 ho
        rw [h.or_answers hs]
        rfl
      | settles _ hf => simp [Observer.work] at hf
      | resigns _ hf => simp at hf
      | aside ha => cases ha
  concluding := by
    intro e failed s hmem
    rcases mem_stack_move hmem with hold | hcome
    · exact report?_lasts (h.concluding e failed s hold) m _
    · cases hcome with
      | settles hs hf =>
        simp only [Observer.work, List.mem_cons, List.not_mem_nil, or_false, reduceCtorEq, false_or] at hf
        cases hf
        exact report?_lasts (h.notified _ _ _ _ _ e s (hs ▸ List.mem_cons_self) List.mem_cons_self) _ _
      | resigns hs hf =>
        simp only [List.mem_cons, List.not_mem_nil, or_false, reduceCtorEq, false_or] at hf
        cases hf
        rw [h.or_answers hs]
        rfl
      | aside ha => cases ha
  published := by
    have hlasts : (∃ failed, w.report? a? = some failed) →
        ∃ failed, (w.move m).report? (a?.or (w.answers? c m)) = some failed :=
      Exists.imp fun _ hf => report?_lasts hf m _
    rintro (⟨r, hmem⟩ | hfired)
    · rcases mem_stack_move hmem with hold | hcome
      · exact hlasts (h.published (.inl ⟨r, hold⟩))
      · cases hcome with
        | succeeds hx hopen =>
          rw [isTerminated_of_getElem? hx, hc] at hopen
          cases hopen
        | settles hs hf =>
          simp only [Observer.work, List.mem_cons, List.not_mem_nil, or_false, reduceCtorEq] at hf
          cases hf
          exact hlasts ⟨_, h.notified _ _ _ _ _ _ _ (hs ▸ List.mem_cons_self) List.mem_cons_self⟩
        | resigns hs hf =>
          simp only [List.mem_cons, List.not_mem_nil, or_false, reduceCtorEq] at hf
          cases hf
          rw [h.or_answers hs]
          exact ⟨some none, rfl⟩
        | aside ha => cases ha
    · exact hlasts (h.published (before_of_move hm hfired))

/-- What an observer of a signal stands for is due when the signal fires. -/
theorem mem_dues_of_observers {s : SignalNo} {k : UInt64} {o : Observer} {d : Due}
    (h : (k, o) ∈ w.observers (.signal s)) (hd : d ∈ o.dues) : d ∈ w.ledger.dues := by
  cases hx : w.signals[s]? with
  | none => simp [observers, hx] at h
  | some x =>
    have hwaits : (k, o) ∈ x.channel.observers := by simpa [observers, hx] using h
    have hpledge : x.pledge ∈ w.ledger.pledges :=
      List.mem_map.2 ⟨x, by simpa using Array.mem_of_getElem? hx, rfl⟩
    have hdue : d ∈ x.pledge.dues := mem_sum_map.2 ⟨(k, o), hwaits, hd⟩
    exact Multiset.mem_add.2 (.inl (mem_sum_map.2 ⟨_, hpledge, hdue⟩))

/-- Once the outcome of a context has been told, nothing is left of its error but what resolves the signal. -/
theorem Settling.conclude_of_told {c : ContextNo} {a? : Option Handled} (h : w.Settling c a?)
    (ho : w.Orderly t) (htold : w.isFired (.response c) = true) {e : Failure} {s : SignalNo}
    (hh : w.Handling c e s) : ∃ failed, .conclude c e failed s ∈ w.stack := by
  have hframe : ∀ f ∈ w.stack, .outcome c ⟨none, some e⟩ ∉ f.dues := by
    intro f hf hdue
    cases htold.symm.trans (ho.of_untold hf (Frame.untold_pos hdue)).1
  cases hh with
  | asked hmem => exact absurd (Multiset.mem_singleton_self _) (hframe _ hmem)
  | waiting hmem =>
    obtain ⟨i, rfl, _⟩ := h.waiting _ _ _ _ hmem
    have hdue := mem_dues_of_observers hmem (Multiset.mem_singleton_self _)
    cases htold.symm.trans (ho.unfired_of_due hdue)
  | notified hmem hwaits =>
    have hdue : .outcome c ⟨none, some e⟩ ∈ (Observer.settleError c e s).dues := Multiset.mem_singleton_self _
    exact absurd (mem_sum_map.2 ⟨_, hwaits, hdue⟩) (hframe _ hmem)
  | concluding hmem => exact ⟨_, hmem⟩

end World

end FanIn
