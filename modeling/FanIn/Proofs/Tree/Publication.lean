import FanIn.Proofs.Tree.Queue
import FanIn.Proofs.Tree.Traffic

/-!
# How an outcome is published

The outcome of a context fires its first channel, then its second, and then the context gives up the slot
that it kept for its own work. Where the outcome is an error, the frame that resolves the signal of the
error lies under the frames that do all this, and under none of them any more when its turn comes. By then
both channels have fired, and everybody who had registered at them has been notified.

Main statements: `Reachable.published` and `Orderly.told_of_conclude`.
-/

namespace FanIn

/-- How often a frame is to publish the outcome of a context. -/
def Frame.untold (c : ContextNo) (f : Frame) : Nat := f.dues.countP fun d => d.isOutcomeOf c

theorem Frame.untold_pos {c : ContextNo} {r : Response} {f : Frame} (h : .outcome c r ∈ f.dues) :
    0 < f.untold c := Multiset.countP_pos.2 ⟨_, h, beq_self_eq_true c⟩

theorem Frame.of_publishes {c : ContextNo} {f : Frame} (h : f.publishes c = true) :
    0 < f.untold c ∨ f = .giveUp c .own := by
  cases f with
  | respond d r =>
    obtain rfl := beq_iff_eq.1 h
    exact .inl (untold_pos (Multiset.mem_singleton_self _))
  | answer d r =>
    obtain rfl := beq_iff_eq.1 h
    exact .inl (untold_pos (Multiset.mem_singleton_self _))
  | giveUp d share =>
    obtain ⟨hd, hshare⟩ := Bool.and_eq_true_iff.1 h
    obtain rfl := beq_iff_eq.1 hd
    obtain rfl := beq_iff_eq.1 hshare
    exact .inr rfl
  | _ => cases h

/-- Whether the frame notifies those who had registered at a channel when it fired. -/
def Frame.delivers (ch : ChannelRef) : Frame → Bool
  | deliver ch' replay _ _ _ => ch' == ch && !replay
  | _ => false

namespace World

open Stack

variable {t : Terms} {w : World} {m : Move}

/-! ## An outcome is published once -/

/-- What the stack is to publish is part of what is to be published at all. -/
theorem sum_untold_le (w : World) (c : ContextNo) :
    (w.stack.map (Frame.untold c)).sum ≤ w.ledger.untold c := by
  have hwork : w.ledger.work.countP (fun d => d.isOutcomeOf c) =
      (w.stack.map (Frame.untold c)).sum := by
    show ((w.stack.map Frame.dues).sum).countP _ = _
    induction w.stack with
    | nil => rfl
    | cons f rest ih => simp only [List.map_cons, List.sum_cons, Multiset.countP_add, ih, Frame.untold]
  unfold Ledger.untold Ledger.dues
  rw [Multiset.countP_add, hwork]
  exact Nat.le_add_left _ _

/-- The outcome of a context is undecided, to be published, or published. -/
theorem Orderly.outcome_once (h : w.Orderly t) {c : ContextNo} {x : Context}
    (hx : w.contexts[c]? = some x) : (if x.state = .pending then 1 else 0) +
      (w.stack.map (Frame.untold c)).sum + (if w.isFired (.response c) then 1 else 0) ≤ 1 := by
  have hsane := h.sound.sane.outcome c x.account (account_of hx)
  have hle := w.sum_untold_le c
  have hfired : w.isFired (.response c) = x.account.response.isSome := by
    simp [isFired, value?, hx, Context.account]
  rw [hfired]
  have hstate : x.account.state = x.state := rfl
  rw [hstate] at hsane
  omega

/-- Who has an outcome to publish is a context. -/
theorem Orderly.exists_of_untold (h : w.Orderly t) {c : ContextNo} {f : Frame} (hf : f ∈ w.stack)
    (hpos : 0 < f.untold c) : ∃ x, w.contexts[c]? = some x := by
  obtain ⟨d, hd, hc⟩ := Multiset.countP_pos.1 hpos
  have hdue : d ∈ w.ledger.dues := by
    refine Multiset.mem_add.2 (.inr ?_)
    show d ∈ (w.stack.map Frame.dues).sum
    exact mem_sum_map.2 ⟨f, hf, hd⟩
  have howner := h.sound.sane.owners d hdue
  cases d with
  | outcome d r =>
    obtain rfl : d = c := by simpa [Due.isOutcomeOf] using hc
    exact ⟨_, Array.getElem?_eq_getElem (by simpa [Due.owner] using howner)⟩
  | slot d share => cases hc

/-- As long as an outcome is to be published, it has been decided, and has not been told. -/
theorem Orderly.of_untold (h : w.Orderly t) {c : ContextNo} {f : Frame} (hf : f ∈ w.stack)
    (hpos : 0 < f.untold c) : w.isFired (.response c) = false ∧
      ∃ x, w.contexts[c]? = some x ∧ x.state ≠ .pending := by
  obtain ⟨x, hx⟩ := h.exists_of_untold hf hpos
  have honce := h.outcome_once hx
  obtain ⟨above, below, hs⟩ := List.append_of_mem hf
  rw [hs] at honce
  simp only [List.map_append, List.map_cons, List.sum_append, List.sum_cons] at honce
  refine ⟨?_, x, hx, ?_⟩
  · refine Bool.eq_false_iff.2 fun hfired => ?_
    rw [if_pos hfired] at honce
    omega
  · intro hpending
    rw [if_pos hpending] at honce
    omega

/-- Whose outcome is due, be it when a signal fires, has not told it. -/
theorem Orderly.unfired_of_due (h : w.Orderly t) {c : ContextNo} {r : Response}
    (hd : .outcome c r ∈ w.ledger.dues) : w.isFired (.response c) = false := by
  have howner : c < w.contexts.size := by simpa [Due.owner] using h.sound.sane.owners _ hd
  have hx : w.contexts[c]? = some w.contexts[c] := Array.getElem?_eq_getElem howner
  have honce := h.sound.sane.outcome c _ (account_of hx)
  have hpos : 0 < w.ledger.untold c := Multiset.countP_pos.2 ⟨_, hd, beq_self_eq_true c⟩
  have hfired : w.isFired (.response c) = w.contexts[c].account.response.isSome := by
    simp [isFired, value?, howner, Context.account]
  rw [hfired]
  refine Bool.eq_false_iff.2 fun htold => ?_
  rw [htold] at honce
  simp only [if_true] at honce
  omega

/-- Under a frame that is to publish an outcome no other frame is. -/
theorem Orderly.untold_below (h : w.Orderly t) {c : ContextNo} {f g : Frame} {rest : List Frame}
    (hs : w.stack = f :: rest) (hpos : 0 < f.untold c) (hg : g ∈ rest) : g.untold c = 0 := by
  obtain ⟨x, hx⟩ := h.exists_of_untold (hs ▸ List.mem_cons_self) hpos
  have honce := h.outcome_once hx
  obtain ⟨above, below, rfl⟩ := List.append_of_mem hg
  rw [hs] at honce
  simp only [List.map_append, List.map_cons, List.sum_append, List.sum_cons] at honce
  omega

/-! ## What fires a channel -/

/-- How a channel comes to fire, if clients fire none of a context. -/
inductive Fires (w : World) : Move → ChannelRef → Value → Prop
  | before {c : ContextNo} {r : Response} {rest : List Frame} : w.stack = .respond c r :: rest →
      Fires w .advance (.before c) (.response r)
  | response {c : ContextNo} {r : Response} {rest : List Frame} : w.stack = .answer c r :: rest →
      Fires w .advance (.response c) (.response r)
  | completion {c : ContextNo} {rest : List Frame} : w.stack = .climb :: rest →
      Fires w .advance (.completion c) .done
  | signal {c : ContextNo} {e : Failure} {failed : Option (Option Failure)} {result : SignalNo}
      {rest : List Frame} : w.stack = .conclude c e failed result :: rest →
      Fires w .advance (.signal result) (.resolution
        { failure := failed.map (Failure.handlerFailed (w.idOf c) (some e)) })
  | call {s : SignalNo} {r : Resolution} :
      Fires w (.call (.fireSignal s r)) (.signal s) (.resolution r)

theorem fires_of_use (hm : (within t).allows w m = true) {ch : ChannelRef} {v : Value}
    (hu : w.use? m = some (ch, .fire v)) : w.Fires m ch v := by
  cases m with
  | advance =>
    simp only [use?, workUse?] at hu
    split at hu
    · rename_i hs
      cases hu
      exact .before hs
    · rename_i hs
      cases hu
      exact .response hs
    · rename_i hs
      split at hu
      · cases hu
        exact .completion hs
      · cases hu
    · rename_i hs
      cases hu
      exact .signal hs
    · cases hu
  | call call =>
    have hkeeps := fires_not_of_keepsTo (Bool.and_eq_true_iff.1 hm).2
    cases call with
    | fireBefore c r => exact absurd rfl (hkeeps c r).1
    | fireResponse c r => exact absurd rfl (hkeeps c r).2.1
    | fireCompletion c => exact absurd rfl (hkeeps c {}).2.2
    | fireSignal s r =>
      cases hu
      exact .call
    | createRoot spec =>
      simp only [use?, callUse?] at hu
      split at hu
      · obtain ⟨s, _, heq⟩ := Option.map_eq_some_iff.1 hu
        cases heq
      · cases hu
    | _ => cases hu
  | finish thrown => cases hu
  | handled a =>
    simp only [use?, handledUse?] at hu
    split at hu <;> cases hu

/-- A channel of a context fires because of what is on top of the stack. -/
theorem fires_of_value? (hm : (within t).allows w m = true) {ch : ChannelRef} {v : Value}
    (h : (w.move m).value? ch = some v) (hnone : w.value? ch = none)
    (hold : ∀ s, ch = .signal s → s < w.signals.size) : w.Fires m ch v :=
  fires_of_use hm (use_of_value? h hnone hold)

/-- A channel that has fired had done so before the move, or fires with it. -/
theorem fires_of_isFired (hm : (within t).allows w m = true) {ch : ChannelRef}
    (h : (w.move m).isFired ch = true) (hold : ∀ s, ch = .signal s → s < w.signals.size) :
    w.isFired ch = true ∨ ∃ v, w.Fires m ch v := by
  obtain ⟨v, hv⟩ := Option.isSome_iff_exists.1 h
  cases hbefore : w.value? ch with
  | some u => exact .inl (Option.isSome_iff_exists.2 ⟨u, hbefore⟩)
  | none => exact .inr ⟨v, fires_of_value? hm hv hbefore hold⟩

/-- The first channel of an outcome fires when the outcome is published. -/
theorem before_of_move (hm : (within t).allows w m = true) {c : ContextNo}
    (h : (w.move m).isFired (.before c) = true) :
    (∃ r, .respond c r ∈ w.stack) ∨ w.isFired (.before c) = true := by
  rcases fires_of_isFired hm h (by simp) with hold | ⟨v, hfires⟩
  · exact .inr hold
  · cases hfires with
    | before hs => exact .inl ⟨_, hs ▸ List.mem_cons_self⟩

/-- The second one fires after it. -/
theorem response_of_move (hm : (within t).allows w m = true) {c : ContextNo}
    (h : (w.move m).isFired (.response c) = true) :
    (∃ r, .answer c r ∈ w.stack) ∨ w.isFired (.response c) = true := by
  rcases fires_of_isFired hm h (by simp) with hold | ⟨v, hfires⟩
  · exact .inr hold
  · cases hfires with
    | response hs => exact .inl ⟨_, hs ▸ List.mem_cons_self⟩

/-! ## In which order -/

/-- What has been done about outcomes, and what is still to be done. -/
structure Published (w : World) : Prop where
  before : ∀ c, (∃ r, .answer c r ∈ w.stack) ∨ w.isFired (.response c) = true →
    w.isFired (.before c) = true
  response : ∀ c, .giveUp c .own ∈ w.stack ∨ .left c .own ∈ w.chronicle →
    w.isFired (.response c) = true
  concluding : ∀ c, (∃ f ∈ w.stack, f.concludes c = true) → w.isFired (.response c) = true ∨
    ∃ r, .respond c r ∈ w.stack ∨ .answer c r ∈ w.stack
  /-- The frame that resolves the signal of an error lies on nothing that publishes its outcome, and on no
  other such frame. -/
  beneath : ∀ c, w.stack.Pairwise fun f g =>
    f.concludes c = true → g.publishes c = false ∧ g.concludes c = false

theorem exists_publishing {c : ContextNo} {r : Response}
    (h : .respond c r ∈ w.stack ∨ .answer c r ∈ w.stack) :
    ∃ f ∈ w.stack, f.publishes c = true ∧ 0 < f.untold c := by
  rcases h with h | h <;>
    exact ⟨_, h, beq_self_eq_true c, Frame.untold_pos (Multiset.mem_singleton_self _)⟩

/-- A frame that is about to publish an outcome stays until it is on top: no failure reaches it. -/
theorem Orderly.stays (h : w.Orderly t) {f : Frame} (hf : f ∈ w.stack) (hcalm : f.isCalm = false)
    (hclimb : f.isClimb = false) (m : Move) :
    f ∈ (w.move m).stack ∨ ∃ rest, w.stack = f :: rest := by
  rcases mem_of_mem_stack hf m with hmem | htop | ⟨g, rest, hs, _⟩
  · exact .inl hmem
  · exact .inr htop
  · have hfits : Calm (f :: rest) ∨ t.strict = false ∧ ∃ below, f :: rest = .climb :: below :=
      h.order.fits hs rfl
    rcases hfits with hfits | ⟨_, below, heq⟩
    · cases hcalm.symm.trans hfits
    · cases heq
      cases hclimb

/-! ## Step by step -/

/-- An outcome that is published fires the first channel. -/
theorem Orderly.fires_before (h : w.Orderly t) {c : ContextNo} {r : Response} {rest : List Frame}
    (hs : w.stack = .respond c r :: rest) : (w.move .advance).isFired (.before c) = true := by
  obtain ⟨x, hx⟩ := h.exists_of_untold (hs ▸ List.mem_cons_self)
    (Frame.untold_pos (Multiset.mem_singleton_self _))
  refine isFired_of_use (v := .response r) ?_ (lt_of_getElem?_eq_some hx)
  simp only [use?, workUse?, hs]

/-- Then it fires the second. -/
theorem Orderly.fires_response (h : w.Orderly t) {c : ContextNo} {r : Response} {rest : List Frame}
    (hs : w.stack = .answer c r :: rest) : (w.move .advance).isFired (.response c) = true := by
  obtain ⟨x, hx⟩ := h.exists_of_untold (hs ▸ List.mem_cons_self)
    (Frame.untold_pos (Multiset.mem_singleton_self _))
  refine isFired_of_use (v := .response r) ?_ (lt_of_getElem?_eq_some hx)
  simp only [use?, workUse?, hs]

theorem mem_leavingNotes {c : ContextNo} {share : Share} {e : Event}
    (h : e ∈ w.leavingNotes c share) : e = .left c share ∨ e = .drained c := by
  unfold leavingNotes at h
  split at h
  · cases h
  · rcases List.mem_cons.1 h with h | h
    · exact .inl h
    · split at h
      · exact .inr (List.mem_singleton.1 h)
      · cases h

/-- The slot for a context's own work is given up by the frame that is there for it. -/
theorem own_of_left (hm : (within t).allows w m = true) {c : ContextNo}
    (h : .left c .own ∈ w.notes m) : ∃ rest, w.stack = .giveUp c .own :: rest := by
  cases m with
  | call call => cases isOfCall_of_mem (Bool.and_eq_true_iff.1 hm).2 _ h
  | finish thrown => cases h
  | handled a => cases h
  | advance =>
    have hfiring : ∀ ch v, .left c .own ∉ w.firingNotes ch v := by
      intro ch v hmem
      unfold firingNotes at hmem
      split at hmem <;> simp at hmem
    replace h : .left c .own ∈ w.workNotes := h
    unfold workNotes at h
    split at h
    · rename_i replay _ _ _ _ _ _ _
      cases replay <;> simp at h
    · rcases List.mem_cons.1 h with h | h
      · cases h
      · exact absurd h (hfiring _ _)
    · exact absurd h (hfiring _ _)
    · rename_i hs
      rcases mem_leavingNotes h with heq | heq
      · cases heq
        exact ⟨_, hs⟩
      · cases heq
    · split at h
      · exact absurd h (hfiring _ _)
      · cases h
    · rcases mem_leavingNotes h with heq | heq <;> cases heq
    · exact absurd h (hfiring _ _)
    · cases h

/-- What finishes the handling of an error comes in one piece. -/
theorem respond_of_conclude {c : ContextNo} {e : Failure} {failed : Option (Option Failure)}
    {result : SignalNo} (h : w.Comes m (.conclude c e failed result)) :
    .respond c ⟨none, some e⟩ ∈ (w.move m).stack ∧
      ∃ f rest, w.stack = f :: rest ∧ 0 < f.untold c ∧ f.publishes c = false := by
  cases h with
  | settles hs hf =>
    simp only [Observer.work, List.mem_cons, List.not_mem_nil, or_false, reduceCtorEq, false_or] at hf
    cases hf
    refine ⟨?_, _, _, hs,
      Frame.untold_pos (r := ⟨none, some e⟩) (by simp [Frame.dues, Observer.dues]), rfl⟩
    rw [stack_move]
    simp [shift, shiftWork, hs, Observer.work]
  | resigns hs hf =>
    simp only [List.mem_cons, List.not_mem_nil, or_false, reduceCtorEq, false_or] at hf
    cases hf
    refine ⟨?_, _, _, hs, Frame.untold_pos (Multiset.mem_singleton_self _), rfl⟩
    rw [stack_move]
    simp [shift, shiftHandled, hs]
  | aside ha => cases ha

/-- The second publication of an outcome follows the first. -/
theorem respond_of_answer {c : ContextNo} {r : Response} (h : w.Comes m (.answer c r)) :
    m = .advance ∧ ∃ rest, w.stack = .respond c r :: rest := by
  cases h with
  | answers hs => exact ⟨rfl, _, hs⟩
  | settles hs hf => simp [Observer.work] at hf
  | resigns hs hf => simp at hf
  | aside ha => cases ha

/-- What has been published, and what is on the stack, stays in step. -/
theorem Published.move (hp : w.Published) (h : w.Orderly t) (hm : (within t).allows w m = true) :
    (w.move m).Published where
  before := by
    rintro c (⟨r, hmem⟩ | hfired)
    · rcases mem_stack_move hmem with hold | hcome
      · exact isFired_lasts (hp.before c (.inl ⟨r, hold⟩)) m
      · obtain ⟨rfl, rest, hs⟩ := respond_of_answer hcome
        exact h.fires_before hs
    · exact isFired_lasts (hp.before c (response_of_move hm hfired)) m
  response := by
    rintro c (hmem | hleft)
    · rcases mem_stack_move hmem with hold | hcome
      · exact isFired_lasts (hp.response c (.inl hold)) m
      · cases hcome with
        | leaves hs => exact h.fires_response hs
        | settles hs hf => simp [Observer.work] at hf
        | resigns hs hf => simp at hf
        | aside ha => cases ha
    · rw [chronicle_move] at hleft
      rcases List.mem_append.1 hleft with hold | hnew
      · exact isFired_lasts (hp.response c (.inr hold)) m
      · obtain ⟨rest, hs⟩ := own_of_left hm hnew
        exact isFired_lasts (hp.response c (.inl (hs ▸ List.mem_cons_self))) m
  concluding := by
    rintro c ⟨f, hmem, hf⟩
    rcases mem_stack_move hmem with hold | hcome
    · rcases hp.concluding c ⟨f, hold, hf⟩ with hfired | ⟨r, hr | hr⟩
      · exact .inl (isFired_lasts hfired m)
      · rcases h.stays hr rfl rfl m with hstays | ⟨rest, hs⟩
        · exact .inr ⟨r, .inl hstays⟩
        · obtain rfl := eq_advance hm hs rfl
          refine .inr ⟨r, .inr ?_⟩
          rw [stack_move]
          simp [shift, shiftWork, hs]
      · rcases h.stays hr rfl rfl m with hstays | ⟨rest, hs⟩
        · exact .inr ⟨r, .inr hstays⟩
        · obtain rfl := eq_advance hm hs rfl
          exact .inl (h.fires_response hs)
    · cases f with
      | conclude d e failed result =>
        obtain rfl := beq_iff_eq.1 hf
        exact .inr ⟨_, .inl (respond_of_conclude hcome).1⟩
      | _ => cases hf
  beneath := by
    intro c
    obtain ⟨gone, fresh, base, hs, hs', _, harr⟩ := traffic_move w m
    have hbase := hp.beneath c
    rw [hs] at hbase
    rw [hs', List.pairwise_append]
    refine ⟨harr.2 c, (List.pairwise_append.1 hbase).2.1, ?_⟩
    intro f hf g hg hc
    -- the frame that comes takes the place of one that is to publish the outcome, and no other is
    cases f with
    | conclude d e failed result =>
      obtain rfl := beq_iff_eq.1 hc
      obtain ⟨_, f', rest, htop, hpos, hquiet⟩ := respond_of_conclude (harr.1 _ hf)
      have hopen := (h.of_untold (htop ▸ List.mem_cons_self) hpos).1
      have hmem : g ∈ w.stack := hs ▸ List.mem_append_right gone hg
      have honly : ∀ k ∈ w.stack, k.publishes d = true → k.untold d = 0 := by
        intro k hk hpub
        rw [htop] at hk
        rcases List.mem_cons.1 hk with rfl | hbelow
        · cases hquiet.symm.trans hpub
        · exact h.untold_below htop hpos hbelow
      constructor
      · refine Bool.eq_false_iff.2 fun hpub => ?_
        rcases Frame.of_publishes hpub with hdue | rfl
        · have hzero := honly g hmem hpub
          omega
        · cases hopen.symm.trans (hp.response d (.inl hmem))
      · refine Bool.eq_false_iff.2 fun hconcludes => ?_
        rcases hp.concluding d ⟨g, hmem, hconcludes⟩ with hfired | ⟨r, hr⟩
        · cases hopen.symm.trans hfired
        · obtain ⟨k, hk, hpub, hdue⟩ := exists_publishing hr
          have hzero := honly k hk hpub
          omega
    | _ => cases hc

theorem Reachable.published (h : w.Reachable t) : w.Published := by
  refine h.keeps (P := Published) (fun threshold => ?_) fun v m hv hm hp => hp.move hv hm
  constructor
  · rintro c (⟨r, hmem⟩ | hfired)
    · cases hmem
    · cases hfired
  · rintro c (hmem | hmem) <;> cases hmem
  · rintro c ⟨f, hmem, _⟩
    cases hmem
  · exact fun c => .nil

/-! ## When the signal of an error fires -/

/-- A channel carries a value, and everybody who had registered when it fired has been notified. -/
def HasTold (w : World) (ch : ChannelRef) (v : Value) : Prop :=
  w.value? ch = some v ∧ ∀ f ∈ w.stack, f.delivers ch = false

/-- What has been told stays told. -/
theorem HasTold.move {ch : ChannelRef} {v : Value} (h : w.HasTold ch v) (m : Move) :
    (w.move m).HasTold ch v := by
  refine ⟨value?_lasts h.1 m, fun f hf => ?_⟩
  rcases mem_stack_move hf with hold | hcome
  · exact h.2 f hold
  · cases hcome with
    | fires _ hwaits =>
      refine Bool.eq_false_iff.2 fun hch => ?_
      obtain rfl := beq_iff_eq.1 (Bool.and_eq_true_iff.1 hch).1
      cases hwaits.2.symm.trans h.1
    | next hs =>
      have hbefore := h.2 _ (hs ▸ List.mem_cons_self)
      exact hbefore
    | replays => simp [Frame.delivers]
    | throws => simp [Frame.delivers]
    | aside ha => cases f <;> first | rfl | cases ha
    | settles _ hf =>
      simp only [Observer.work, List.mem_cons, List.not_mem_nil, or_false] at hf
      rcases hf with rfl | rfl <;> rfl
    | resigns _ hf =>
      simp only [List.mem_cons, List.not_mem_nil, or_false] at hf
      rcases hf with rfl | rfl <;> rfl
    | _ => rfl

/-- Under the frame that resolves the signal of an error nothing publishes its outcome, and no other such
frame is. -/
theorem Published.below (hp : w.Published) {c : ContextNo} {e : Failure}
    {failed : Option (Option Failure)} {result : SignalNo} {above rest : List Frame}
    (hs : w.stack = above ++ .conclude c e failed result :: rest) :
    ∀ g ∈ rest, g.publishes c = false ∧ g.concludes c = false := by
  have hover := hp.beneath c
  rw [hs, List.pairwise_append] at hover
  exact fun g hg => (List.pairwise_cons.1 hover.2.1).1 g hg (beq_self_eq_true c)

/-- When only the signal of an error is left to be resolved, both channels have told the outcome. -/
theorem Orderly.told_of_conclude (h : w.Orderly t) (hp : w.Published) {c : ContextNo} {e : Failure}
    {failed : Option (Option Failure)} {result : SignalNo} {above rest : List Frame}
    (hs : w.stack = above ++ .conclude c e failed result :: rest)
    (habove : ∀ g ∈ above, g.publishes c = false) {ch : ChannelRef}
    (hch : ch = .before c ∨ ch = .response c) : ∃ v, w.HasTold ch v := by
  have hquiet : ∀ g ∈ w.stack, g.publishes c = false := by
    intro g hg
    rw [hs] at hg
    rcases List.mem_append.1 hg with hg | hg
    · exact habove g hg
    · rcases List.mem_cons.1 hg with rfl | hg
      · rfl
      · exact (hp.below hs g hg).1
  have hanswered : w.isFired (.response c) = true := by
    rcases hp.concluding c ⟨.conclude c e failed result, by simp [hs], beq_self_eq_true c⟩ with
      hfired | ⟨r, hr⟩
    · exact hfired
    · obtain ⟨k, hk, hpub, _⟩ := exists_publishing hr
      cases hpub.symm.trans (hquiet k hk)
  have hfired : w.isFired ch = true := by
    rcases hch with rfl | rfl
    · exact hp.before c (.inr hanswered)
    · exact hanswered
  obtain ⟨v, hv⟩ := Option.isSome_iff_exists.1 hfired
  refine ⟨v, hv, fun f hf => Bool.eq_false_iff.2 fun hdelivers => ?_⟩
  -- whoever notifies lies on a frame that publishes, and there is none
  cases f with
  | deliver ch' replay u todo spent =>
    obtain ⟨heq, hreplay⟩ := Bool.and_eq_true_iff.1 hdelivers
    obtain rfl := beq_iff_eq.1 heq
    obtain rfl : replay = false := by simpa using hreplay
    obtain ⟨front, below, hs'⟩ := List.append_of_mem hf
    have hfits : _ ∧ LiesOn ch' below :=
      World.Ordered.fits_of_mem h.order (f := .deliver ch' false u todo spent) hs' rfl
    rcases hch with rfl | rfl
    · obtain ⟨r, below, rfl⟩ := hfits.2
      have hnot := hquiet (.answer c r) (by simp [hs'])
      simp [Frame.publishes] at hnot
    · obtain ⟨below, rfl⟩ := hfits.2
      have hnot := hquiet (.giveUp c .own) (by simp [hs'])
      simp [Frame.publishes] at hnot
  | _ => cases hdelivers

end World

end FanIn
