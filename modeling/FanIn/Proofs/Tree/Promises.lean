import Mathlib.Algebra.BigOperators.Group.Finset.Basic
import FanIn.Proofs.Tree.Orderly
import FanIn.Proofs.Tree.Record
import FanIn.Proofs.Tree.Traffic
import FanIn.Proofs.Tree.Verdict

/-!
# Outcomes that are still to be published

A terminal call that decides an outcome leaves a promise that the outcome will be published. Who has to
keep it changes: the handler of the error, whoever waits at the signal that the handler returned, the
delivery that notifies it, and in the end the frame that publishes the outcome. No move loses a promise or
doubles it, whatever clients do. A promise that is kept is noted in the history.

Main statements: `promises_move` for a move, and `faithful_of_legal` for a run: whatever outcome has been
decided is promised or has been published, once.
-/

namespace FanIn

/-- Whether an observer promises that a context comes to a state. -/
def Observer.promises (p : ContextNo × State) : Observer → Bool
  | settleError c _ _ => p == (c, .failed)
  | _ => false

/-- How often a frame promises that a context comes to a state. -/
def Frame.promises (p : ContextNo × State) : Frame → Nat
  | handler _ c _ _ => if p = (c, .failed) then 1 else 0
  | deliver _ _ _ todo _ => todo.countP (Observer.promises p)
  | respond c r => if p = (c, r.state) then 1 else 0
  | _ => 0

/-- Whether an event is that the outcome of a context, with a state, began to be published. -/
def Event.publishes (p : ContextNo × State) : Event → Bool
  | publishing c r => p == (c, r.state)
  | _ => false

/-- Whether a frame is to publish an outcome on the first channel. -/
def Frame.isRespond : Frame → Bool
  | respond .. => true
  | _ => false

theorem Observer.promises_of_isClients {o : Observer} (h : o.isClients = true) (p : ContextNo × State) :
    o.promises p = false := by
  cases o <;> first | rfl | cases h

namespace World

/-- The promises of frames. -/
def promised (p : ContextNo × State) (stack : List Frame) : Nat := (stack.map (Frame.promises p)).sum

/-- The promises of those who wait at a channel. -/
def pledgedAt (w : World) (p : ContextNo × State) (ch : ChannelRef) : Nat :=
  (w.observers ch).countP fun e => e.2.promises p

/-- The promises of those who wait at signals. -/
def pledged (w : World) (p : ContextNo × State) : Nat :=
  ∑ s ∈ Finset.range w.signals.size, w.pledgedAt p (.signal s)

/-- How often it is promised that a context comes to a state. -/
def promises (w : World) (p : ContextNo × State) : Nat := promised p w.stack + w.pledged p

/-- How often the outcome of a context, with a state, began to be published. -/
def publications (w : World) (p : ContextNo × State) : Nat := w.chronicle.countP (Event.publishes p)

/-- How often a move decides that a context comes to a state. -/
def decisions (w : World) (p : ContextNo × State) (m : Move) : Nat :=
  (w.decision? m).elim 0 fun v => if p = (v.1, v.2.state) then 1 else 0

/-- Only at signals does anyone else than clients wait. -/
def Reserved (w : World) : Prop := ∀ ch e, e ∈ w.observers ch → e.2.isClients = true ∨ ∃ s, ch = .signal s

/-- No frame lies on one that is to publish an outcome. -/
def Prompt (stack : List Frame) : Prop := ∀ f ∈ stack.tail, f.isRespond = false

variable {w : World} {m : Move} {p : ContextNo × State}

/-! ## Frames -/

@[simp] theorem promised_nil : promised p [] = 0 := rfl

@[simp] theorem promised_cons (f : Frame) (rest : List Frame) :
    promised p (f :: rest) = f.promises p + promised p rest := rfl

@[simp] theorem promised_append (above rest : List Frame) :
    promised p (above ++ rest) = promised p above + promised p rest := by
  simp [promised]

/-- Whoever waits at a channel that fires is to be notified. -/
@[simp] theorem promised_firing (ch : ChannelRef) (v : Value) :
    promised p (w.firingFrames ch v) = w.pledgedAt p ch := by
  by_cases hwaits : w.Waits ch
  · rw [firingFrames_eq hwaits]
    simp [Frame.promises, pledgedAt, List.countP_map, Function.comp_def]
  · rw [firingFrames_eq_nil hwaits]
    have hnobody : w.observers ch = [] := by
      rw [observers_eq]
      cases hk : w.channel? ch with
      | none => rfl
      | some k =>
        cases k with
        | fired v => rfl
        | waiting n os => exact absurd (waits_iff.2 ⟨n, os, hk⟩) hwaits
    simp [pledgedAt, hnobody]

theorem promised_replay (ch : ChannelRef) (o : Observer) : promised p (w.replayFrames ch o) =
    if w.isFired ch ∧ o.promises p = true then 1 else 0 := by
  unfold replayFrames isFired
  cases w.value? ch with
  | none => simp
  | some v => simp [Frame.promises, List.countP_cons]

/-- An observer that is notified passes its promise on. -/
@[simp] theorem promised_notified (o : Observer) (ch : ChannelRef) (v : Value) :
    promised p (o.work ch v) = if o.promises p then 1 else 0 := by
  cases o <;> simp [Observer.work, Frame.promises, Observer.promises, Response.state, Response.isFailed]

@[simp] theorem promised_leaving (c : ContextNo) : promised p (w.leavingFrames c) = 0 := by
  unfold leavingFrames
  split
  · rfl
  · split <;> rfl

@[simp] theorem promised_telling (c : ContextNo) : promised p (w.tellingFrames c) = 0 := by
  unfold tellingFrames
  split <;> rfl

@[simp] theorem promised_birth (parent : ContextNo) : promised p (w.birthFrames parent) = 0 := by
  unfold birthFrames
  split
  · rfl
  · split
    · rfl
    · dsimp only
      split <;> rfl

/-- A failure on its way takes no promise with it. -/
theorem promised_caught {f : Failure} {rest : List Frame} (h : Prompt (.throwing f :: rest)) :
    promised p (caught f rest) = promised p rest := by
  cases rest with
  | nil => rfl
  | cons g rest =>
    have hg : g.isRespond = false := h g List.mem_cons_self
    cases g <;> first | rfl | cases hg

/-! ## Where promises are -/

theorem Reserved.move (h : w.Reserved) (m : Move) : (w.move m).Reserved := by
  intro ch e he
  rcases observers_move he with hold | hnew
  · exact h ch e hold
  · rcases subscribe_of_use hnew with ⟨label, keeps, -, ho⟩ | ⟨spec, s, -, -, hch, -⟩ |
      ⟨n, c, err, result, rest, s, -, -, hch, -⟩
    · rw [ho]
      cases label <;> exact .inl rfl
    · exact .inr ⟨s, hch⟩
    · exact .inr ⟨s, hch⟩

theorem Reserved.pledgedAt_eq_zero (h : w.Reserved) {ch : ChannelRef} (hch : ∀ s, ch ≠ .signal s) :
    w.pledgedAt p ch = 0 := by
  refine List.countP_eq_zero.2 fun e he => ?_
  rcases h ch e he with hclient | ⟨s, hs⟩
  · simp [Observer.promises_of_isClients hclient]
  · exact absurd hs (hch s)

/-- Frames none of which is to publish an outcome. -/
def Calm (stack : List Frame) : Prop := ∀ f ∈ stack, f.isRespond = false

theorem calm_cons {f : Frame} {rest : List Frame} (hf : f.isRespond = false) (h : Calm rest) :
    Calm (f :: rest) := List.forall_mem_cons.2 ⟨hf, h⟩

theorem calm_append {above rest : List Frame} (habove : Calm above) (h : Calm rest) :
    Calm (above ++ rest) := List.forall_mem_append.2 ⟨habove, h⟩

theorem Calm.prompt {stack : List Frame} (h : Calm stack) : Prompt stack := fun f hf =>
  h f (List.mem_of_mem_tail hf)

theorem calm_firing (ch : ChannelRef) (v : Value) : Calm (w.firingFrames ch v) := by
  unfold firingFrames
  split <;> simp [Calm, Frame.isRespond]

theorem calm_replay (ch : ChannelRef) (o : Observer) : Calm (w.replayFrames ch o) := by
  unfold replayFrames
  split <;> simp [Calm, Frame.isRespond]

theorem calm_leaving (c : ContextNo) : Calm (w.leavingFrames c) := by
  unfold leavingFrames
  split
  · simp [Calm, Frame.isRespond]
  · split <;> simp [Calm, Frame.isRespond]

theorem calm_telling (c : ContextNo) : Calm (w.tellingFrames c) := by
  unfold tellingFrames
  split <;> simp [Calm, Frame.isRespond]

theorem calm_climbing : Calm w.climbingFrames := by
  unfold climbingFrames
  split
  · exact calm_append (calm_firing _ _) (by simp [Calm, Frame.isRespond])
  · exact nofun

theorem calm_caught {f : Failure} {rest : List Frame} (h : Calm rest) : Calm (caught f rest) := by
  cases rest with
  | nil => exact h
  | cons g rest =>
    cases g <;> first | exact h | exact calm_cons rfl fun f hf => h f (List.mem_cons_of_mem _ hf)

/-- A call puts nothing over what publishes an outcome. -/
theorem prompt_call (call : Call) {rest : List Frame} (h : Calm rest) :
    Prompt (w.callFrames call ++ rest) := by
  by_cases hsuccess : ∃ c result, call = .success c result
  · obtain ⟨c, result, rfl⟩ := hsuccess
    simp only [callFrames]
    split
    · split
      · exact h.prompt
      · exact calm_cons rfl h
    · exact h.prompt
  · refine (calm_append (fun f hf => ?_) h).prompt
    have hcomes := (arrives_callFrames call).1 f hf
    cases hcomes with
    | succeeds => exact absurd ⟨_, _, rfl⟩ hsuccess
    | aside hf => cases f <;> first | rfl | cases hf
    | _ => rfl

theorem prompt_work (h : Prompt w.stack) : Prompt w.shiftWork := by
  unfold shiftWork
  split <;> rename_i hs <;> rw [hs] at h
  · exact h
  · exact h
  · exact h
  · exact Calm.prompt h
  · rename_i ch replay v o todo spent rest
    have hrest : Calm (.deliver ch replay v todo spent :: rest) := calm_cons rfl h
    cases o with
    | client label keeps => exact hrest
    | empty => exact Calm.prompt hrest
    | settleLink c => exact hrest
    | settleError c e result => exact calm_cons rfl hrest
  · exact (calm_append (calm_firing _ _) (calm_cons rfl h)).prompt
  · exact (calm_append (calm_firing _ _) (calm_cons rfl h)).prompt
  · exact (calm_append (calm_leaving _) h).prompt
  · exact (calm_append calm_climbing h).prompt
  · exact Calm.prompt h
  · exact (calm_append (calm_telling _) h).prompt
  · exact (calm_append (calm_firing _ _) h).prompt
  · exact Calm.prompt h
  · exact (calm_caught h).prompt

/-- What publishes an outcome comes on top, and leaves with the next move. -/
theorem Prompt.move (h : Prompt w.stack) (hm : w.allows m = true) : Prompt (w.move m).stack := by
  rw [stack_move]
  cases m with
  | advance => exact prompt_work h
  | call call =>
    refine prompt_call call fun f hf => ?_
    have hclients := clients_of_turn (turn_of_call hm)
    cases hs : w.stack with
    | nil => simp [hs] at hf
    | cons g rest =>
      rw [hs] at hf hclients h
      rcases List.mem_cons.1 hf with rfl | hf
      · cases f <;> first | rfl | cases hclients
      · exact h f hf
  | finish thrown =>
    obtain ⟨ch, l, v, rest, hs⟩ := observer_of_finish hm
    simp only [shift, shiftFinish, hs] at h ⊢
    exact Calm.prompt h
  | handled a =>
    obtain ⟨⟨n, c, e, s, rest, hs⟩, -⟩ := handler_of_handled hm
    rw [hs] at h
    simp only [shift, shiftHandled, hs]
    cases a with
    | nothing => exact calm_cons rfl (calm_cons rfl h)
    | threw f => exact (calm_cons rfl (calm_cons rfl h)).prompt
    | signal i => exact (calm_append (calm_replay _ _) (calm_cons rfl h)).prompt

/-! ## Who waits -/

theorem pledgedAt_of_channel? {v : World} {ch : ChannelRef} {k : Channel Value Observer}
    (h : v.channel? ch = some k) : v.pledgedAt p ch = k.observers.countP fun e => e.2.promises p := by
  rw [pledgedAt, observers_eq, h]
  rfl

theorem pledgedAt_of_unknown {v : World} {ch : ChannelRef} (h : v.channel? ch = none) :
    v.pledgedAt p ch = 0 := by
  rw [pledgedAt, observers_eq, h]
  rfl

/-- Nobody waits yet at a channel that has just been made. -/
theorem pledgedAt_fresh {ch : ChannelRef} (h : w.channel? ch = none) (m : Move) :
    (w.move m).pledgedAt p ch = 0 := by
  cases hk : (w.move m).channel? ch with
  | none => exact pledgedAt_of_unknown hk
  | some k =>
    rw [pledgedAt_of_channel? hk]
    rcases (handles_move m).fresh ch k hk h with rfl | ⟨s, v, -, rfl⟩ <;> rfl

/-- The promises of those who leave a channel that is used: it fires. -/
def parted (w : World) (p : ContextNo × State) : Option (ChannelRef × Use) → Nat
  | some (ch, .fire _) => w.pledgedAt p ch
  | _ => 0

/-- The promises of those who come to wait at a channel. -/
def joined (w : World) (p : ContextNo × State) : Option (ChannelRef × Use) → Nat
  | some (ch, .subscribe o) => if w.Waits ch ∧ o.promises p = true then 1 else 0
  | _ => 0

theorem pledgedAt_other {ch : ChannelRef} (h : ∀ u, w.use? m ≠ some (ch, u)) :
    (w.move m).pledgedAt p ch = w.pledgedAt p ch := by
  cases hk : w.channel? ch with
  | none => rw [pledgedAt_fresh hk, pledgedAt_of_unknown hk]
  | some k =>
    have hsame : Use.at? (w.use? m) ch k = k := by
      cases hu : w.use? m with
      | none => rfl
      | some used =>
        obtain ⟨ch', u⟩ := used
        exact Use.at?_other (fun heq => h u (by rw [hu, heq])) u k
    rw [pledgedAt_of_channel? ((handles_move m).old ch k hk), hsame, pledgedAt_of_channel? hk]

/-- Clients take away only observers of their own. -/
theorem countP_unsubscribe {n : UInt64} {os : List (UInt64 × Observer)}
    (h : ((os.find? fun e => e.1 == n).map Prod.snd).all Observer.isClients = true) :
    (os.eraseP fun e => e.1 == n).countP (fun e => e.2.promises p) =
      os.countP fun e => e.2.promises p := by
  induction os with
  | nil => rfl
  | cons e os ih =>
    cases he : e.1 == n with
    | true =>
      have hclient : e.2.isClients = true := by simpa [he] using h
      simp [he, Observer.promises_of_isClients hclient]
    | false =>
      have hrest := ih (by simpa [he] using h)
      simp [he, List.countP_cons, hrest]

/-- What using a channel does to those who wait there. -/
theorem pledgedAt_used {ch : ChannelRef} {u : Use} (hu : w.use? m = some (ch, u))
    (hsafe : ∀ n, u = .unsubscribe n → (w.observer? ch n).all Observer.isClients = true) :
    (w.move m).pledgedAt p ch + w.parted p (some (ch, u)) =
      w.pledgedAt p ch + w.joined p (some (ch, u)) := by
  cases hk : w.channel? ch with
  | none =>
    have hnot : ¬ w.Waits ch := fun hwaits => by
      obtain ⟨n, os, hos⟩ := waits_iff.1 hwaits
      cases hk.symm.trans hos
    rw [pledgedAt_fresh hk]
    cases u <;> simp [parted, joined, pledgedAt_of_unknown hk, hnot]
  | some k =>
    have hafter : (w.move m).pledgedAt p ch = (u.apply k).observers.countP fun e => e.2.promises p := by
      rw [pledgedAt_of_channel? ((handles_move m).old ch k hk), hu, Use.at?_self]
    rw [hafter]
    have hbefore := pledgedAt_of_channel? (p := p) hk
    cases k with
    | fired v =>
      have hnot : ¬ w.Waits ch := fun hwaits => by
        obtain ⟨n, os, hos⟩ := waits_iff.1 hwaits
        cases hk.symm.trans hos
      cases u <;> simp [parted, joined, hbefore, hnot, Channel.observers]
    | waiting next os =>
      have hwaits : w.Waits ch := waits_iff.2 ⟨next, os, hk⟩
      cases u with
      | subscribe o =>
        simp [parted, joined, hbefore, hwaits, Use.apply, Channel.subscribe, Channel.observers,
          List.countP_append, List.countP_cons]
      | unsubscribe n =>
        have hobserver : w.observer? ch n = (os.find? fun e => e.1 == n).map Prod.snd := by
          rw [observer?, observers_eq, hk]
          rfl
        have hcount := countP_unsubscribe (p := p) (hobserver ▸ hsafe n rfl)
        simpa [parted, joined, hbefore, Use.apply, Channel.unsubscribe, Channel.observers] using hcount
      | wait => simp [parted, joined, hbefore, Use.apply, Channel.takeNumber, Channel.observers]
      | fire v => simp [parted, joined, hbefore, Use.apply, Channel.fire?, Channel.observers]

/-- Sums that differ in one place. -/
theorem sum_range_of_agree {g g' : Nat → Nat} {n n' i : Nat} (hle : n ≤ n')
    (hzero : ∀ s, n ≤ s → g s = 0) (hzero' : ∀ s, n ≤ s → g' s = 0) (hne : ∀ s ≠ i, g' s = g s) :
    ∑ s ∈ Finset.range n', g' s + g i = ∑ s ∈ Finset.range n, g s + g' i := by
  have hsum : ∑ s ∈ Finset.range n, g' s = ∑ s ∈ Finset.range n', g' s :=
    Finset.sum_subset (Finset.range_mono hle) fun s _ hs => hzero' s (by simpa using hs)
  rw [← hsum]
  by_cases hi : i < n
  · have hmem : i ∈ Finset.range n := Finset.mem_range.2 hi
    have hrest : ∑ s ∈ (Finset.range n).erase i, g' s = ∑ s ∈ (Finset.range n).erase i, g s :=
      Finset.sum_congr rfl fun s hs => hne s (Finset.ne_of_mem_erase hs)
    have hg := Finset.add_sum_erase _ g hmem
    have hg' := Finset.add_sum_erase _ g' hmem
    omega
  · have hsame : ∑ s ∈ Finset.range n, g' s = ∑ s ∈ Finset.range n, g s :=
      Finset.sum_congr rfl fun s hs => hne s fun heq => hi (heq ▸ Finset.mem_range.1 hs)
    rw [hsame, hzero i (Nat.le_of_not_lt hi), hzero' i (Nat.le_of_not_lt hi)]

/-- What a move does to those who wait at signals. -/
theorem pledged_move (hr : w.Reserved) (hm : w.allows m = true) :
    (w.move m).pledged p + w.parted p (w.use? m) = w.pledged p + w.joined p (w.use? m) := by
  have hunknown : ∀ s, w.signals.size ≤ s → w.channel? (.signal s) = none := fun s hs => by
    simp [channel?, hs]
  have hzero : ∀ s, w.signals.size ≤ s → w.pledgedAt p (.signal s) = 0 := fun s hs =>
    pledgedAt_of_unknown (hunknown s hs)
  have hzero' : ∀ s, w.signals.size ≤ s → (w.move m).pledgedAt p (.signal s) = 0 := fun s hs =>
    pledgedAt_fresh (hunknown s hs) m
  have hle : w.signals.size ≤ (w.move m).signals.size := by
    by_contra hlt
    exact Nat.lt_irrefl _ (signals_grow m (Nat.lt_of_not_le hlt))
  have agree : ∀ i, (∀ s ≠ i, ∀ u, w.use? m ≠ some (.signal s, u)) →
      (w.move m).pledged p + w.pledgedAt p (.signal i) =
        w.pledged p + (w.move m).pledgedAt p (.signal i) := fun i hi =>
    sum_range_of_agree hle hzero hzero' fun s hs => pledgedAt_other (hi s hs)
  cases hu : w.use? m with
  | none =>
    have hsame := agree w.signals.size fun s _ u hs => by cases hu.symm.trans hs
    rw [hzero _ (Nat.le_refl _), hzero' _ (Nat.le_refl _)] at hsame
    exact hsame
  | some used =>
    obtain ⟨ch, u⟩ := used
    have hsafe : ∀ n, u = .unsubscribe n → (w.observer? ch n).all Observer.isClients = true := by
      rintro n rfl
      obtain rfl := unsubscribe_of_use hu
      exact clients_of_unsubscribe hm
    have hused := pledgedAt_used (p := p) hu hsafe
    by_cases hch : ∃ i, ch = .signal i
    · obtain ⟨i, rfl⟩ := hch
      have hsame := agree i fun s hs u' hu' => by
        cases hu.symm.trans hu'
        exact hs rfl
      omega
    · -- nobody who promises anything waits at a channel of a context
      have hsame := agree w.signals.size fun s _ u' hu' => by
        cases hu.symm.trans hu'
        exact hch ⟨s, rfl⟩
      have hnot : ∀ s, ch ≠ .signal s := fun s hs => hch ⟨s, hs⟩
      rw [hzero _ (Nat.le_refl _), hzero' _ (Nat.le_refl _)] at hsame
      rw [hr.pledgedAt_eq_zero hnot, (hr.move m).pledgedAt_eq_zero hnot] at hused
      omega

/-! ## No promise is lost -/

@[simp] theorem publishes_firingNotes (ch : ChannelRef) (v : Value) :
    (w.firingNotes ch v).countP (Event.publishes p) = 0 := by
  unfold firingNotes
  split <;> rfl

@[simp] theorem publishes_leavingNotes (c : ContextNo) (share : Share) :
    (w.leavingNotes c share).countP (Event.publishes p) = 0 := by
  unfold leavingNotes
  split
  · rfl
  · split <;> rfl

/-- An outcome is published because a frame is to do that. -/
def publishing (w : World) (p : ContextNo × State) : Nat :=
  match w.stack with
  | .respond c r :: _ => (Frame.respond c r).promises p
  | _ => 0

theorem publishes_workNotes : w.workNotes.countP (Event.publishes p) = w.publishing p := by
  unfold workNotes publishing
  split <;> rename_i hs <;> simp only [hs]
  · split <;> rfl
  · simp [List.countP_cons, Event.publishes, Frame.promises]
  · exact publishes_firingNotes _ _
  · exact publishes_leavingNotes _ _
  · split
    · exact publishes_firingNotes _ _
    · rfl
  · exact publishes_leavingNotes _ _
  · exact publishes_firingNotes _ _
  · rfl

/-- No call publishes an outcome itself. -/
theorem publishes_callNotes (call : Call) : (w.callNotes call).countP (Event.publishes p) = 0 := by
  have hbirth : ∀ parent, (w.birthNotes parent).countP (Event.publishes p) = 0 := fun parent => by
    unfold birthNotes
    split
    · rfl
    · split
      · rfl
      · dsimp only
        split <;> rfl
  cases call with
  | createRoot spec =>
    simp only [callNotes]
    split
    · cases spec.link <;> rfl
    · rfl
  | createChild parent location handler correlation =>
    simp only [callNotes]
    split
    · exact hbirth parent
    · rfl
  | error c failure =>
    cases failure with
    | none => rfl
    | some e =>
      simp only [callNotes]
      split
      · split <;> rfl
      · rfl
  | addChild c =>
    simp only [callNotes]
    split <;> rfl
  | fireBefore c r => exact publishes_firingNotes _ _
  | fireResponse c r => exact publishes_firingNotes _ _
  | fireCompletion c => exact publishes_firingNotes _ _
  | fireSignal s r => exact publishes_firingNotes _ _
  | _ => rfl

theorem promised_climbing {q : List ContextNo} {c : ContextNo} (hq : w.queue = some (c :: q)) :
    promised p w.climbingFrames = w.pledgedAt p (.completion c) := by
  simp [climbingFrames, hq, Frame.promises]

/-- What frames on top have promised is published, or promised by others. -/
theorem promised_work (h : Prompt w.stack) :
    promised p w.shiftWork + w.publishing p = promised p w.stack + w.parted p (w.use? .advance) := by
  unfold shiftWork
  simp only [publishing, use?, workUse?]
  split <;> rename_i hs <;> simp only [hs] at h ⊢
  · rfl
  · rfl
  · rfl
  · simp [parted, Frame.promises]
  · rename_i ch replay v o todo spent rest
    simp only [promised_append, promised_notified, promised_cons, Frame.promises, List.countP_cons, parted]
    omega
  · rename_i c r rest
    simp only [promised_append, promised_firing, promised_cons, Frame.promises, parted]
    omega
  · rename_i c r rest
    simp only [promised_append, promised_firing, promised_cons, Frame.promises, parted]
    omega
  · simp [parted, Frame.promises]
  · cases hq : w.queue with
    | none => simp [climbingFrames, hq, parted, Frame.promises]
    | some q =>
      cases q with
      | nil => simp [climbingFrames, hq, parted, Frame.promises]
      | cons c q =>
        simp only [promised_append, promised_climbing hq, promised_cons, Frame.promises, parted]
        omega
  · simp [parted, Frame.promises]
  · simp [parted, Frame.promises]
  · rename_i c e failed result rest
    simp only [promised_append, promised_firing, promised_cons, Frame.promises, parted]
    omega
  · simp [parted, Frame.promises]
  · simp [parted, Frame.promises, promised_caught h]

theorem promised_callFiring (ch : ChannelRef) (v : Value) :
    promised p (w.callFiring ch v) = w.pledgedAt p ch := by
  unfold callFiring
  split
  · rename_i hfired
    refine (List.countP_eq_zero.2 fun e he => ?_).symm
    cases hfired.symm.trans (isFired_of_observers he)
  · simp [Frame.promises]

/-- A call promises the outcome that it decides. -/
theorem promised_call (call : Call) :
    promised p (w.callFrames call) + w.joined p (w.use? (.call call)) =
      w.parted p (w.use? (.call call)) + w.decisions p (.call call) := by
  cases call with
  | createRoot spec =>
    have hquiet : ∀ c, (Observer.settleLink c).promises p = false := fun _ => rfl
    simp only [callFrames, use?, callUse?, decisions, decision?, Move.verdict?]
    split
    · cases spec.link <;> simp [promised_replay, parted, joined, hquiet, Frame.promises]
    · rfl
  | createChild parent location handler correlation =>
    simp only [callFrames]
    split
    · exact promised_birth parent
    · rfl
  | success c result =>
    simp only [callFrames, use?, callUse?, decisions, decision?, Move.verdict?]
    cases hx : w.contexts[c]? with
    | none => simp [Option.filter, hx, parted, joined]
    | some x =>
      cases ht : x.isTerminated <;> simp [Option.filter, hx, ht, parted, joined, Frame.promises]
  | error c failure =>
    cases failure with
    | none => rfl
    | some e =>
      simp only [callFrames, use?, callUse?, decisions, decision?, Move.verdict?]
      cases hx : w.contexts[c]? with
      | none => simp [Option.filter, hx, parted, joined]
      | some x =>
        cases ht : x.isTerminated <;>
          simp [Option.filter, hx, ht, parted, joined, Frame.promises, Response.state, Response.isFailed]
  | subscribe ch label keeps =>
    have hclient : (label.elim Observer.empty fun label => .client label keeps).promises p = false := by
      cases label <;> rfl
    simp only [callFrames, use?, callUse?, decisions, decision?, Move.verdict?]
    cases w.value? ch <;> simp [parted, joined, hclient, Frame.promises]
  | fireBefore c r => exact promised_callFiring _ _
  | fireResponse c r => exact promised_callFiring _ _
  | fireCompletion c => exact promised_callFiring _ _
  | fireSignal s r => exact promised_callFiring _ _
  | _ => rfl

/-- What clients hold has been made. -/
theorem known_of_held {r : Ref} (h : 0 < w.holders r) : w.Known r := by
  cases r with
  | context c =>
    by_contra hnot
    simp [holders, Array.getElem?_eq_none (Nat.le_of_not_lt hnot)] at h
  | signal s =>
    by_contra hnot
    simp [holders, Array.getElem?_eq_none (Nat.le_of_not_lt hnot)] at h

/-- A handler that returns passes its promise on. -/
theorem promised_handled {a : Handled} (hm : w.allows (.handled a) = true) :
    promised p (w.shiftHandled a) + w.joined p (w.use? (.handled a)) = promised p w.stack := by
  obtain ⟨⟨n, c, e, result, rest, hs⟩, hheld⟩ := handler_of_handled hm
  have hsettle : (Observer.settleError c e result).promises p = decide (p = (c, .failed)) := by
    simp [Observer.promises, beq_eq_decide]
  simp only [shiftHandled, use?, handledUse?, hs]
  cases a with
  | nothing => simp [joined, Frame.promises, Response.state, Response.isFailed]
  | threw f => simp [joined, Frame.promises, List.countP_cons, hsettle]
  | signal s =>
    have hknown : w.Known (ChannelRef.signal s).owner := known_of_held (hheld (.signal s) (by simp [Handled.uses]))
    have hwaits : w.Waits (.signal s) ↔ ¬ w.isFired (.signal s) = true := by
      simp [Waits, hknown, isFired]
    simp only [promised_append, promised_replay, promised_cons, joined, hwaits, hsettle, Frame.promises]
    by_cases hfired : w.isFired (.signal s) = true <;> simp [hfired, Nat.add_comm]

/-- **No promise is lost.** A move publishes what was promised, and promises what it decides. -/
theorem promises_move (hr : w.Reserved) (hp : Prompt w.stack) (hm : w.allows m = true) :
    (w.move m).promises p + (w.notes m).countP (Event.publishes p) = w.promises p + w.decisions p m := by
  have hwait := pledged_move (p := p) hr hm
  unfold promises
  rw [stack_move]
  cases m with
  | advance =>
    have hwork := promised_work (p := p) hp
    have hnotes : (w.notes .advance).countP (Event.publishes p) = w.publishing p := publishes_workNotes
    have hjoined : w.joined p (w.use? .advance) = 0 := by
      simp only [use?, workUse?]
      split
      · rfl
      · rfl
      · split <;> rfl
      · rfl
      · rfl
    have hnone : w.decisions p .advance = 0 := rfl
    rw [hnotes, hnone]
    show promised p w.shiftWork + _ + _ = _
    omega
  | call call =>
    have hcall := promised_call (w := w) (p := p) call
    have hnotes : (w.notes (.call call)).countP (Event.publishes p) = 0 := publishes_callNotes call
    rw [hnotes]
    show promised p (w.callFrames call ++ w.stack) + _ + _ = _
    rw [promised_append]
    omega
  | finish thrown =>
    obtain ⟨ch, l, v, rest, hs⟩ := observer_of_finish hm
    have hstack : promised p (w.shift (.finish thrown)) = promised p w.stack := by
      simp [shift, shiftFinish, hs, Frame.promises]
    rw [hstack]
    exact congrArg (promised p w.stack + ·) hwait
  | handled a =>
    have hhandled := promised_handled (p := p) hm
    have hparted : w.parted p (w.use? (.handled a)) = 0 := by
      simp only [use?, handledUse?]
      split <;> rfl
    have hnone : w.decisions p (.handled a) = 0 := rfl
    have hnotes : (w.notes (.handled a)).countP (Event.publishes p) = 0 := rfl
    rw [hnone, hnotes]
    show promised p (w.shiftHandled a) + _ + _ = _
    omega

/-! ## What is decided -/

/-- How far outcomes are decided is on record. -/
theorem stateOf_record (w : World) (c : ContextNo) :
    w.stateOf c = (w.record.contexts[c]?).elim .pending Standing.state := by
  rw [getElem?_record, stateOf]
  cases w.contexts[c]? <;> rfl

/-- A context that enters is pending, as it was before. -/
theorem stateOf_push {x : Context} (hx : x.state = .pending) (c : ContextNo) :
    ((w.record.contexts.push x.standing)[c]?).elim .pending Standing.state = w.stateOf c := by
  rw [stateOf_record, Array.getElem?_push]
  split
  · rename_i hc
    rw [hc, Array.getElem?_eq_none (Nat.le_refl _)]
    exact hx
  · rfl

theorem stateOf_destroy (r : Ref) (c : ContextNo) : (w.destroy r).stateOf c = w.stateOf c := by
  unfold stateOf
  rw [getElem?_contexts_destroy]
  split
  · cases w.contexts[c]? <;> rfl
  · rfl

/-- The outcome of a context is decided once. -/
theorem pending_of_decision {c : ContextNo} {r : Response} (h : w.decision? m = some (c, r)) :
    ∃ x, w.contexts[c]? = some x ∧ x.state = .pending := by
  obtain ⟨-, hopen⟩ := Option.filter_eq_some_iff.1 h
  cases hx : w.contexts[c]? with
  | none => simp [hx] at hopen
  | some x => exact ⟨x, rfl, by simpa [hx, Context.isTerminated] using hopen⟩

theorem stateOf_marked (m : Move) (c : ContextNo) : (w.marked m).stateOf c =
    (w.decision? m).elim (w.stateOf c) fun v => if v.1 = c then v.2.state else w.stateOf c := by
  have hjudge : ((w.decision? m).elim w fun v => w.judge v.1 v.2).stateOf c =
      (w.decision? m).elim (w.stateOf c) fun v => if v.1 = c then v.2.state else w.stateOf c := by
    cases hd : w.decision? m with
    | none => rfl
    | some v =>
      obtain ⟨d, r⟩ := v
      obtain ⟨x, hx, -⟩ := pending_of_decision hd
      simp only [Option.elim_some, judge, stateOf, getElem?_modifyContext]
      split
      · rename_i hdc
        rw [← hdc, hx]
        rfl
      · rfl
  cases m with
  | advance =>
    simp only [marked]
    split
    · unfold reportBranch
      split <;> rfl
    · rfl
  | _ => exact hjudge

/-- How far an outcome is decided after a move. -/
theorem stateOf_move (m : Move) (c : ContextNo) : (w.move m).stateOf c =
    (w.decision? m).elim (w.stateOf c) fun v => if v.1 = c then v.2.state else w.stateOf c := by
  rcases m.enters_cases with ⟨call, rfl, hc⟩ | hnone
  · have hnothing : w.decision? (.call call) = none := by cases call <;> first | rfl | cases hc
    have henters := enters_call (w := w) hc
    rw [hnothing, Option.elim_none, stateOf_record, World.move]
    generalize (w.call call).record = R at henters
    cases henters with
    | refused quiet => exact (stateOf_record w c).symm
    | rejected hx taken used => exact (stateOf_record w c).symm
    | root valid free => exact stateOf_push rfl c
    | child hx taken free => exact stateOf_push rfl c
  · refine Endures.move (P := fun v => v.stateOf c = _) ⟨fun h hR => ?_, fun h _ => ?_⟩ (stateOf_marked m c)
      hnone (.inr fun _ _ h => h)
    · rwa [stateOf_record, hR, ← stateOf_record]
    · rwa [stateOf_destroy]

/-- What a move decides is the state from then on. -/
theorem decisions_move (m : Move) (hp : p.2 ≠ .pending) :
    (if (w.move m).stateOf p.1 = p.2 then 1 else 0) =
      (if w.stateOf p.1 = p.2 then 1 else 0) + w.decisions p m := by
  rw [stateOf_move, decisions]
  cases hd : w.decision? m with
  | none => rfl
  | some v =>
    obtain ⟨d, r⟩ := v
    obtain ⟨x, hx, hpending⟩ := pending_of_decision hd
    simp only [Option.elim_some]
    by_cases hc : d = p.1
    · have hopen : w.stateOf p.1 ≠ p.2 := by
        rw [← hc, stateOf_of_getElem? hx, hpending]
        exact hp.symm
      have hiff : r.state = p.2 ↔ p = (d, r.state) := by
        rw [hc, Prod.ext_iff, eq_comm]
        simp
      simp [hc, hopen, hiff]
    · have hnot : p ≠ (d, r.state) := fun heq => hc (congrArg Prod.fst heq).symm
      simp [hc, hnot]

/-! ## Runs -/

/-- Whatever outcome is decided is promised or has been published, once. -/
structure Faithful (w : World) : Prop where
  reserved : w.Reserved
  prompt : Prompt w.stack
  settled : ∀ p, p.2 ≠ .pending →
    w.promises p + w.publications p = if w.stateOf p.1 = p.2 then 1 else 0

theorem faithful_start (threshold : Log.Level) : (start threshold).Faithful where
  reserved := by
    intro ch e he
    cases ch <;> simp [start, observers] at he
  prompt := nofun
  settled := by
    intro p hp
    have hpending : (start threshold).stateOf p.1 ≠ p.2 := hp.symm
    rw [if_neg hpending]
    rfl

theorem Faithful.move (h : w.Faithful) (hm : w.allows m = true) : (w.move m).Faithful where
  reserved := h.reserved.move m
  prompt := h.prompt.move hm
  settled := by
    intro p hp
    have hmove := promises_move (p := p) h.reserved h.prompt hm
    have hold := h.settled p hp
    have hpublished : (w.move m).publications p =
        w.publications p + (w.notes m).countP (Event.publishes p) := by
      rw [publications, chronicle_move, List.countP_append]
      rfl
    have hdecided := decisions_move (w := w) m hp
    omega

theorem faithful_of_legal {threshold : Log.Level} {moves : List Move}
    (h : machine.legal (start threshold) moves = true) :
    (machine.run (start threshold) moves).Faithful :=
  machine.invariant (P := Faithful) (fun _ _ hw hm => hw.move hm) (faithful_start threshold) h

end World

end FanIn
