import FanIn.Proofs.Tree.Queue
import FanIn.Proofs.Tree.Shift

/-!
# What every frame lies on

Some of the shape of the stack needs no terms: it is the same when clients fire the channels of contexts
themselves. An observer that runs was called by a delivery, an outcome is published only while something
else keeps its context, and one frame climbs exactly while the queue is active. `Stack.Leans` says what
every frame lies on. A failure that lies under other frames is on its way to a client, and so is any other
where no slot fails to be given up.

Main statement: `footed_move`, which says that every move leaves a stack like that.
-/

namespace FanIn

/-- Whether a failure is that of a slot which could not be given up. -/
def Failure.isOverRelease : Failure → Bool
  | illegalState text => text == "completion counter released more often than registered"
  | _ => false

theorem Failure.eq_overReleased {f : Failure} (h : f.isOverRelease = true) : f = Counter.overReleased := by
  cases f with
  | illegalState text => rw [beq_iff_eq.1 h, Counter.overReleased]
  | _ => cases h

/-- Whether a frame may lie on anything while it is on top: a slot is to be given up, or, unless it is
`sure` that none fails to be, one could not be. -/
def Frame.isHasty (sure : Bool) : Frame → Bool
  | giveUp .. => true
  | throwing f => !sure && f.isOverRelease
  | _ => false

namespace Stack

/-- What a frame lies on, whatever clients do. -/
def Leans : Frame → List Frame → Prop
  | .observer ch _ v, rest => ∃ replay todo spent below, rest = .deliver ch replay v todo spent :: below
  | .handler .., rest => Clients rest
  | .deliver _ _ _ todo spent, _ => todo ⊆ spent
  | .respond c _, rest => Keeps rest (.context c)
  | .answer c _, rest => Keeps rest (.context c)
  | .giveUp c share, rest => (share = .own ∨ share = .link) ∧ Keeps rest (.context c)
  | .climb, _ => True
  | .told .., rest => ∃ below, rest = .climb :: below
  | .conclude c _ _ result, rest => Keeps rest (.signal result) ∧ Keeps rest (.context c)
  | .returning .., rest => Clients rest
  | .throwing _, rest => Clients rest

/-- Every frame lies on what it should. -/
def Leaned : List Frame → Prop
  | [] => True
  | f :: rest => Leans f rest ∧ Leaned rest

theorem Leaned.of_append {above rest : List Frame} (h : Leaned (above ++ rest)) : Leaned rest := by
  induction above with
  | nil => exact h
  | cons f above ih => exact ih h.2

/-- Every frame lies on what it should, but for the failure on top of a slot that could not be given up. -/
def Braced (sure : Bool) (stack : List Frame) : Prop :=
  Leaned stack ∨ ∃ rest, stack = .throwing Counter.overReleased :: rest ∧ sure = false ∧ Leaned rest

/-- Every frame lies on what it should, but perhaps for the one on top. -/
def Footed (sure : Bool) (stack : List Frame) : Prop :=
  Leaned stack ∨ ∃ f rest, stack = f :: rest ∧ f.isHasty sure = true ∧ Leaned rest

variable {sure : Bool} {stack rest : List Frame}

theorem Braced.footed (h : Braced sure stack) : Footed sure stack := by
  rcases h with h | ⟨rest, rfl, rfl, h⟩
  · exact .inl h
  · exact .inr ⟨_, rest, rfl, beq_self_eq_true _, h⟩

theorem Footed.tail {f : Frame} (h : Footed sure (f :: rest)) : Leaned rest := by
  rcases h with h | ⟨g, below, hs, _, h⟩
  · exact h.2
  · rw [(List.cons.inj hs).2]
    exact h

theorem Footed.leans {f : Frame} (h : Footed sure (f :: rest)) (hf : f.isHasty sure = false) :
    Leans f rest := by
  rcases h with h | ⟨g, below, hs, hg, -⟩
  · exact h.1
  · rw [← (List.cons.inj hs).1, hf] at hg
    cases hg

/-- A failure that does not lie on the code of a client is that of a slot which could not be given up. -/
theorem Footed.overReleased {f : Failure} (h : Footed sure (.throwing f :: rest)) (hc : ¬ Clients rest) :
    sure = false ∧ f = Counter.overReleased := by
  have hhasty : Frame.isHasty sure (.throwing f) = true := by
    by_contra hhasty
    exact hc (h.leans (f := .throwing f) (Bool.eq_false_iff.2 hhasty))
  obtain ⟨hsure, hover⟩ := Bool.and_eq_true_iff.1 hhasty
  exact ⟨by simpa using hsure, Failure.eq_overReleased hover⟩

theorem Footed.of_clients (h : Footed sure stack) (hc : Clients stack) : Leaned stack := by
  rcases h with h | ⟨f, rest, rfl, hf, -⟩
  · exact h
  · cases f with
    | giveUp c share => cases hc
    | throwing f => cases hc
    | _ => cases hf

/-- A failure has reached a client, or goes on its way. -/
theorem Footed.caught {f : Failure} (h : Footed sure (.throwing f :: rest)) :
    Braced sure (World.caught f rest) := by
  have hrest := h.tail
  cases rest with
  | nil => exact .inl trivial
  | cons g below =>
    have hover : g.isClients = false → Braced sure (.throwing f :: below) := by
      intro hg
      obtain ⟨rfl, rfl⟩ := h.overReleased fun hc => by cases hg.symm.trans hc
      exact .inr ⟨below, rfl, rfl, hrest.2⟩
    cases g with
    | observer ch l v => exact .inl hrest
    | handler n c e s => exact .inl hrest
    | deliver ch replay v todo spent => exact .inl hrest
    | _ => exact hover rfl

end Stack

namespace World

open Stack

variable {w : World} {sure : Bool}

/-! ## The queue after a move -/

/-- The queue after a step of the library. -/
def queueWork (w : World) : Option (List ContextNo) :=
  match w.stack with
  | .giveUp c _ :: _ =>
    match (w.contexts[c]?).bind fun x => x.slots.release with
    | some (true, _) => some (w.queue.getD [] ++ [c])
    | _ => w.queue
  | .climb :: _ =>
    match w.queue with
    | some (_ :: q) => some q
    | _ => none
  | .told _ (some p) :: _ =>
    match (w.contexts[p]?).bind fun x => x.slots.release with
    | some (true, _) => w.queue.map fun q => q ++ [p]
    | _ => w.queue
  | .throwing _ :: .climb :: _ => none
  | _ => w.queue

/-- The queue after a move. -/
def queueAfter (w : World) : Move → Option (List ContextNo)
  | .advance => w.queueWork
  | _ => w.queue

theorem queue_giveUpSlot (c : ContextNo) (share : Share) : (w.giveUpSlot c share).queue =
    match (w.contexts[c]?).bind fun x => x.slots.release with
    | some (true, _) => some (w.queue.getD [] ++ [c])
    | _ => w.queue := by
  unfold World.giveUpSlot
  split <;> rename_i hrel <;> rw [hrel]
  · rfl
  · rename_i last slots
    cases last with
    | false => rfl
    | true =>
      simp only [if_true, queue_note, queue_point, queue_modifyContext]
      cases w.queue <;> rfl

theorem queue_tellParent (c p : ContextNo) : (w.tellParent c (some p)).queue =
    match (w.contexts[p]?).bind fun x => x.slots.release with
    | some (true, _) => w.queue.map fun q => q ++ [p]
    | _ => w.queue := by
  simp only [World.tellParent]
  split <;> rename_i hrel <;> rw [hrel]
  · exact queue_releaseAll _ _
  · rename_i last slots
    cases last with
    | false => exact queue_releaseAll _ _
    | true => exact queue_releaseAll _ _

theorem queue_completeNext : w.completeNext.queue =
    match w.queue with
    | some (_ :: q) => some q
    | _ => none := by
  cases hq : w.queue with
  | none =>
    unfold World.completeNext
    rw [hq]
    exact hq
  | some l =>
    cases l with
    | nil =>
      unfold World.completeNext
      rw [hq]
    | cons c q =>
      rw [completeNext_fires hq, queue_fireCompletion]
      exact queue_log { w with queue := some q } _ _

theorem queue_unwind (f : Failure) (rest : List Frame) : (w.unwind f rest).queue =
    match rest with
    | .climb :: _ => none
    | _ => w.queue := by
  cases rest with
  | nil => rfl
  | cons g below =>
    cases g with
    | deliver ch replay v todo spent => exact queue_log _ _ _
    | climb => exact queue_releaseAll _ _
    | told c parent => exact queue_releaseAll _ _
    | returning r kept => exact queue_releaseAll _ _
    | _ => rfl

theorem queue_advance : w.advance.queue = w.queueWork := by
  unfold World.advance queueWork
  split <;> rename_i hs <;> rw [hs]
  · exact queue_releaseAll _ _
  · exact queue_notify _ _ _ _
  · rw [queue_fireBefore, queue_reportBranch]
    rfl
  · exact queue_fireResponse _ _
  · exact queue_giveUpSlot _ _
  · exact queue_completeNext
  · rename_i c parent rest
    cases parent with
    | none => exact queue_releaseAll _ _
    | some p => exact queue_tellParent c p
  · exact queue_resolveError _ _ _ _
  · exact queue_returnCall _ _
  · rename_i f rest
    rw [queue_unwind]
    cases rest with
    | nil => rfl
    | cons g below => cases g <;> rfl

/-- What a move makes of the queue. -/
theorem queue_move (m : Move) : (w.move m).queue = w.queueAfter m := by
  cases m with
  | advance => exact queue_advance
  | call call => exact queue_call call
  | finish thrown => exact queue_finish thrown
  | handled a => exact queue_handled a

/-! ## The stack after a move -/

/-- Whether the slot that is to be given up next cannot be given up. -/
def fails (w : World) : Bool :=
  match w.stack with
  | .giveUp c _ :: _ => ((w.contexts[c]?).bind fun x => x.slots.release).isNone
  | .told _ (some p) :: _ => ((w.contexts[p]?).bind fun x => x.slots.release).isNone
  | _ => false

theorem of_fails (h : w.fails = true) :
    (∃ c share rest, w.stack = .giveUp c share :: rest ∧
      ((w.contexts[c]?).bind fun x => x.slots.release) = none) ∨
    ∃ c p rest, w.stack = .told c (some p) :: rest ∧
      ((w.contexts[p]?).bind fun x => x.slots.release) = none := by
  unfold fails at h
  split at h
  · exact .inl ⟨_, _, _, ‹_›, Option.isNone_iff_eq_none.1 h⟩
  · exact .inr ⟨_, _, _, ‹_›, Option.isNone_iff_eq_none.1 h⟩
  · cases h

theorem leaned_firing (ch : ChannelRef) (v : Value) {rest : List Frame} (h : Leaned rest) :
    Leaned (w.firingFrames ch v ++ rest) := by
  unfold firingFrames
  split
  · exact ⟨List.Subset.refl _, h⟩
  · exact h

theorem leaned_replay (ch : ChannelRef) (o : Observer) {rest : List Frame} (h : Leaned rest) :
    Leaned (w.replayFrames ch o ++ rest) := by
  unfold replayFrames
  split
  · exact ⟨List.Subset.refl _, h⟩
  · exact h

theorem leaned_notified {ch : ChannelRef} {replay : Bool} {v : Value} {o : Observer}
    {todo spent : List Observer} {rest : List Frame} (ho : o ∈ spent)
    (h : Leaned (.deliver ch replay v todo spent :: rest)) :
    Leaned (o.work ch v ++ .deliver ch replay v todo spent :: rest) := by
  have hkeeps : ∀ r ∈ o.refs, Keeps (.deliver ch replay v todo spent :: rest) r := fun r hr =>
    keeps_head (List.mem_flatMap.2 ⟨o, ho, hr⟩) rest
  cases o with
  | client label keeps => exact ⟨⟨replay, todo, spent, rest, rfl⟩, h⟩
  | empty => exact h
  | settleLink c => exact ⟨⟨.inr rfl, hkeeps _ (by simp [Observer.refs])⟩, h⟩
  | settleError c e result =>
    have hc := hkeeps (.context c) (by simp [Observer.refs])
    exact ⟨hc.cons _, ⟨hkeeps _ (by simp [Observer.refs]), hc⟩, h⟩

theorem braced_work (h : Footed sure w.stack) (hok : sure = true → w.fails = false) :
    Braced sure w.shiftWork := by
  -- what cannot be given up leaves a failure on top
  have hfailed {rest : List Frame} (hfails : w.fails = true) (hrest : Leaned rest) :
      Braced sure (.throwing Counter.overReleased :: rest) := by
    cases sure with
    | true => cases (hok rfl).symm.trans hfails
    | false => exact .inr ⟨rest, rfl, rfl, hrest⟩
  unfold fails at hfailed
  unfold shiftWork
  split <;> rename_i hs <;> rw [hs] at h hfailed
  · exact .inl trivial
  · exact .inl (h.of_clients rfl)
  · exact .inl (h.of_clients rfl)
  · exact .inl h.tail
  · rename_i ch replay v o todo spent rest
    have hsub : o :: todo ⊆ spent := h.leans rfl
    refine .inl (leaned_notified (hsub List.mem_cons_self) ⟨?_, h.tail⟩)
    exact fun x hx => hsub (List.mem_cons_of_mem o hx)
  · exact .inl (leaned_firing _ _ ⟨h.leans (f := .respond _ _) rfl, h.tail⟩)
  · exact .inl (leaned_firing _ _ ⟨⟨.inl rfl, h.leans (f := .answer _ _) rfl⟩, h.tail⟩)
  · rename_i c share rest
    unfold leavingFrames
    split
    · rename_i hnone
      exact hfailed (Option.isNone_iff_eq_none.2 hnone) h.tail
    · split
      · exact .inl ⟨trivial, h.tail⟩
      · exact .inl h.tail
  · rename_i rest
    unfold climbingFrames
    split
    · rw [List.append_assoc]
      exact .inl (leaned_firing _ _ ⟨⟨rest, rfl⟩, trivial, h.tail⟩)
    · exact .inl h.tail
  · exact .inl h.tail
  · rename_i c p rest
    unfold tellingFrames
    split
    · rename_i hnone
      exact hfailed (Option.isNone_iff_eq_none.2 hnone) h.tail
    · exact .inl h.tail
  · exact .inl (leaned_firing _ _ h.tail)
  · exact .inl h.tail
  · exact h.caught

theorem leaned_callFiring (ch : ChannelRef) (v : Value) {rest : List Frame} (hc : Clients rest)
    (h : Leaned rest) : Leaned (w.callFiring ch v ++ rest) := by
  unfold callFiring
  split
  · exact h
  · rw [List.append_assoc]
    exact leaned_firing ch v ⟨hc, h⟩

/-- A child that is not created leaves a slot to be given up again, with a failure to follow. -/
theorem leaned_birth (parent : ContextNo) {rest : List Frame} (hc : Clients rest)
    (h : Leaned rest) : Leaned (w.birthFrames parent ++ rest) ∨
      ∃ share f, w.birthFrames parent = [.giveUp parent share, f] ∧ Leaned (f :: rest) := by
  unfold birthFrames
  split
  · exact .inl h
  · split
    · exact .inl h
    · dsimp only
      split
      · exact .inl ⟨hc, h⟩
      · exact .inr ⟨_, _, rfl, hc, h⟩

/-- What a call puts onto the stack lies on what it should, but for a slot that is to be given up
there and then. -/
theorem leaned_call (call : Call) {rest : List Frame} (hc : Clients rest) (h : Leaned rest) :
    Leaned (w.callFrames call ++ rest) ∨
      ∃ c share f, w.callFrames call = [.giveUp c share, f] ∧ Leaned (f :: rest) ∧
        (call = .childCompleted c ∨ ∃ l n k, call = .createChild c l n k) := by
  cases call with
  | createRoot spec =>
    simp only [callFrames]
    split
    · rw [List.append_assoc]
      cases spec.link with
      | none => exact .inl ⟨hc, h⟩
      | some s => exact .inl (leaned_replay _ _ ⟨hc, h⟩)
    · exact .inl h
  | createChild parent location handler correlation =>
    simp only [callFrames]
    split
    · rcases leaned_birth parent hc h with h | ⟨share, f, hf, h⟩
      · exact .inl h
      · exact .inr ⟨parent, share, f, hf, h, .inr ⟨_, _, _, rfl⟩⟩
    · exact .inl h
  | success c result =>
    simp only [callFrames]
    split
    · split
      · exact .inl h
      · exact .inl ⟨keeps_head (f := .returning (.flag true) [.context c]) (by simp [Frame.refs]) _, hc, h⟩
    · exact .inl h
  | error c failure =>
    cases failure with
    | none => exact .inl h
    | some e =>
      simp only [callFrames]
      split
      · split
        · exact .inl ⟨hc, h⟩
        · exact .inl ⟨hc, h⟩
      · exact .inl h
  | childCompleted c => exact .inr ⟨c, .participant, _, rfl, ⟨hc, h⟩, .inl rfl⟩
  | subscribe ch label keeps =>
    simp only [callFrames]
    split
    · exact .inl ⟨List.Subset.refl _, hc, h⟩
    · exact .inl h
  | fireBefore c r => exact .inl (leaned_callFiring _ _ hc h)
  | fireResponse c r => exact .inl (leaned_callFiring _ _ hc h)
  | fireCompletion c => exact .inl (leaned_callFiring _ _ hc h)
  | fireSignal s r => exact .inl (leaned_callFiring _ _ hc h)
  | makeSignal r => exact .inl ⟨hc, h⟩
  | _ => exact .inl h

theorem leaned_handled (h : Footed sure w.stack) {a : Handled} (hm : w.allows (.handled a) = true) :
    Leaned (w.shiftHandled a) := by
  obtain ⟨⟨n, c, e, result, rest, hs⟩, -⟩ := handler_of_handled hm
  unfold shiftHandled
  rw [hs] at h ⊢
  have hc : Clients rest := h.leans (f := .handler n c e result) rfl
  cases a with
  | nothing =>
    have hkeeps : ∀ r ∈ [Ref.signal result, .context c],
        Keeps (.returning (.signal result) [.context c] :: rest) r := fun r hr =>
      keeps_head hr rest
    exact ⟨(hkeeps (.context c) (by simp)).cons _, ⟨hkeeps _ (by simp), hkeeps _ (by simp)⟩,
      hc, h.tail⟩
  | threw f => exact ⟨List.Subset.refl _, hc, h.tail⟩
  | signal s => exact leaned_replay _ _ ⟨hc, h.tail⟩

/-- Every move leaves frames that lie on what they should, but for a slot that a call is about to give
up, or that could not be given up. -/
theorem braced_move (h : Footed sure w.stack) {m : Move} (hm : w.allows m = true)
    (hok : sure = true → w.fails = false) : Braced sure (w.move m).stack ∨
      ∃ call c share f, m = .call call ∧ (w.move m).stack = .giveUp c share :: f :: w.stack ∧
        Leaned (f :: w.stack) ∧ (call = .childCompleted c ∨ ∃ l n k, call = .createChild c l n k) := by
  rw [stack_move]
  cases m with
  | advance => exact .inl (braced_work h hok)
  | call call =>
    have hc : Clients w.stack := clients_of_turn (turn_of_call hm)
    rcases leaned_call call hc (h.of_clients hc) with hleaned | ⟨c, share, f, hf, hleaned, hcall⟩
    · exact .inl (.inl hleaned)
    · refine .inr ⟨call, c, share, f, rfl, ?_, hleaned, hcall⟩
      show w.callFrames call ++ w.stack = _
      rw [hf]
      rfl
  | finish thrown =>
    obtain ⟨ch, l, v, rest, hs⟩ := observer_of_finish hm
    show Braced sure w.shiftFinish ∨ _
    unfold shiftFinish
    rw [hs] at h ⊢
    exact .inl (.inl h.tail)
  | handled a => exact .inl (.inl (leaned_handled h hm))

/-- Every move leaves frames that lie on what they should. -/
theorem footed_move (h : Footed sure w.stack) {m : Move} (hm : w.allows m = true)
    (hok : sure = true → w.fails = false) : Footed sure (w.move m).stack := by
  rcases braced_move h hm hok with hbraced | ⟨call, c, share, f, -, hs, hleaned, -⟩
  · exact hbraced.footed
  · rw [hs]
    exact .inr ⟨_, _, rfl, rfl, hleaned⟩

/-! ## How frames come to be there -/

variable {m : Move}

/-- Why a frame may be new after a move: a completion is told because the library has taken its context
off the queue, and a failure comes of a slot that cannot be given up or of an id in use. The library alone
climbs. Other frames come about in many ways. -/
def Arises (w : World) (m : Move) : Frame → Prop
  | .climb => m = .advance
  | .told c _ => m = .advance ∧ (∃ rest, w.stack = .climb :: rest) ∧ ∃ q, w.queue = some (c :: q)
  | .throwing f => w.fails = true ∨ ∃ id, f = .idInUse id
  | _ => True

theorem arises_firing (ch : ChannelRef) (v : Value) : ∀ g ∈ w.firingFrames ch v, w.Arises m g := by
  unfold firingFrames
  split <;> simp [Arises]

theorem arises_replay (ch : ChannelRef) (o : Observer) : ∀ g ∈ w.replayFrames ch o, w.Arises m g := by
  unfold replayFrames
  split <;> simp [Arises]

theorem arises_callFiring (ch : ChannelRef) (v : Value) : ∀ g ∈ w.callFiring ch v, w.Arises m g := by
  unfold callFiring
  split
  · simp
  · exact List.forall_mem_append.2 ⟨arises_firing ch v, by simp [Arises]⟩

theorem arises_birth (parent : ContextNo) : ∀ g ∈ w.birthFrames parent, w.Arises m g := by
  unfold birthFrames
  split
  · simp
  · split
    · simp
    · dsimp only
      split <;> simp [Arises]

theorem arises_call (call : Call) : ∀ g ∈ w.callFrames call, w.Arises m g := by
  cases call with
  | createRoot spec =>
    simp only [callFrames]
    split
    · refine List.forall_mem_append.2 ⟨?_, by simp [Arises]⟩
      cases spec.link with
      | none => simp
      | some s => exact arises_replay _ _
    · simp
  | createChild parent location handler correlation =>
    simp only [callFrames]
    split
    · exact arises_birth parent
    · simp
  | success c result =>
    simp only [callFrames]
    split
    · split <;> simp [Arises]
    · simp
  | error c failure =>
    cases failure with
    | none => simp [callFrames]
    | some e =>
      simp only [callFrames]
      split
      · split <;> simp [Arises]
      · simp
  | subscribe ch label keeps =>
    simp only [callFrames]
    split <;> simp [Arises]
  | fireBefore c r => exact arises_callFiring _ _
  | fireResponse c r => exact arises_callFiring _ _
  | fireCompletion c => exact arises_callFiring _ _
  | fireSignal s r => exact arises_callFiring _ _
  | _ => simp [callFrames, Arises]

/-- What a failure reaches it leaves as it is, or goes on. -/
theorem mem_of_caught {f : Failure} {rest : List Frame} {g : Frame} (h : g ∈ caught f rest) :
    g ∈ Frame.throwing f :: rest := by
  cases rest with
  | nil => cases h
  | cons k below => cases k <;> simp [caught] at h ⊢ <;> tauto

theorem arises_work {g : Frame} (h : g ∈ w.shiftWork) : g ∈ w.stack ∨ w.Arises .advance g := by
  have hnew {above rest : List Frame} {k : Frame} (hs : w.stack = k :: rest)
      (hnew : ∀ g ∈ above, w.Arises .advance g) (h : g ∈ above ++ rest) :
      g ∈ w.stack ∨ w.Arises .advance g :=
    (List.mem_append.1 h).symm.imp (fun h => hs ▸ List.mem_cons_of_mem k h) (hnew g)
  have hrest {rest : List Frame} {k : Frame} (hs : w.stack = k :: rest) (h : g ∈ rest) :
      g ∈ w.stack ∨ w.Arises .advance g := .inl (hs ▸ List.mem_cons_of_mem k h)
  unfold shiftWork at h
  split at h <;> rename_i hs
  · cases h
  · exact .inl (hs ▸ h)
  · exact .inl (hs ▸ h)
  · exact hrest hs h
  · rename_i ch replay v o todo spent rest
    rw [List.append_cons] at h
    refine hnew hs ?_ h
    cases o <;> simp [Observer.work, Arises]
  · rw [List.append_cons] at h
    exact hnew hs (List.forall_mem_append.2 ⟨arises_firing _ _, by simp [Arises]⟩) h
  · rw [List.append_cons] at h
    exact hnew hs (List.forall_mem_append.2 ⟨arises_firing _ _, by simp [Arises]⟩) h
  · refine hnew hs ?_ h
    unfold leavingFrames
    split
    · rename_i hnone
      refine List.forall_mem_singleton.2 (.inl ?_)
      unfold fails
      rw [hs]
      exact Option.isNone_iff_eq_none.2 hnone
    · split <;> simp [Arises]
  · refine hnew hs ?_ h
    unfold climbingFrames
    split
    · rename_i c q hq
      refine List.forall_mem_append.2 ⟨arises_firing _ _, ?_⟩
      simp only [List.forall_mem_cons]
      exact ⟨⟨rfl, ⟨_, hs⟩, q, hq⟩, rfl, fun _ hmem => absurd hmem List.not_mem_nil⟩
    · simp
  · exact hrest hs h
  · refine hnew hs ?_ h
    unfold tellingFrames
    split
    · rename_i hnone
      refine List.forall_mem_singleton.2 (.inl ?_)
      unfold fails
      rw [hs]
      exact Option.isNone_iff_eq_none.2 hnone
    · simp
  · exact hnew hs (arises_firing _ _) h
  · exact hrest hs h
  · exact .inl (hs ▸ mem_of_caught h)

theorem arises_handled {a : Handled} {g : Frame} (h : g ∈ w.shiftHandled a) :
    g ∈ w.stack ∨ w.Arises m g := by
  unfold shiftHandled at h
  split at h
  · rename_i n c e result rest hs
    have hbelow {above : List Frame} (hnew : ∀ g ∈ above, w.Arises m g) (h : g ∈ above ++ rest) :
        g ∈ w.stack ∨ w.Arises m g :=
      (List.mem_append.1 h).symm.imp (fun h => hs ▸ List.mem_cons_of_mem _ h) (hnew g)
    cases a with
    | nothing =>
      have h : g ∈ [_, _, _] ++ rest := h
      exact hbelow (by simp [Arises]) h
    | threw f =>
      have h : g ∈ [_, _] ++ rest := h
      exact hbelow (by simp [Arises]) h
    | signal s =>
      dsimp only at h
      rw [List.append_cons] at h
      exact hbelow (List.forall_mem_append.2 ⟨arises_replay _ _, by simp [Arises]⟩) h
  · exact .inl h

/-- A frame is on the stack after a move because it was there before, or for a reason. -/
theorem arises_of_mem {g : Frame} (h : g ∈ (w.move m).stack) : g ∈ w.stack ∨ w.Arises m g := by
  rw [stack_move] at h
  cases m with
  | advance => exact arises_work h
  | call call => exact (List.mem_append.1 h).symm.imp id (arises_call call g)
  | handled a => exact arises_handled h
  | finish thrown =>
    have h : g ∈ w.shiftFinish := h
    unfold shiftFinish at h
    split at h
    · rename_i hs
      exact .inl (hs ▸ List.mem_cons_of_mem _ h)
    · exact .inl h

/-! ## Who climbs -/

/-- How many frames climb. -/
def climbers (stack : List Frame) : Nat := stack.countP Frame.isClimb

theorem climbers_append (above rest : List Frame) :
    climbers (above ++ rest) = climbers above + climbers rest := List.countP_append

theorem climbers_firing (ch : ChannelRef) (v : Value) : climbers (w.firingFrames ch v) = 0 := by
  unfold firingFrames
  split <;> rfl

theorem climbers_replay (ch : ChannelRef) (o : Observer) : climbers (w.replayFrames ch o) = 0 := by
  unfold replayFrames
  split <;> rfl

/-- No call climbs itself. -/
theorem climbers_call (call : Call) : climbers (w.callFrames call) = 0 :=
  List.countP_eq_zero.2 fun g hg => by
    have hnew := arises_call (m := .call call) call g hg
    cases g with
    | climb => cases hnew
    | _ => exact Bool.false_ne_true

/-- How many frames climb while the queue is what it is. -/
def rungs (queue : Option (List ContextNo)) : Nat := queue.elim 0 fun _ => 1

/-- One frame climbs exactly while the queue is active. -/
def Climbs (w : World) : Prop := climbers w.stack = rungs w.queue

theorem climbers_cons {f : Frame} (hf : f.isClimb = false) (rest : List Frame) :
    climbers (f :: rest) = climbers rest := List.countP_cons_of_neg (by simp [hf])

theorem climbers_climb (rest : List Frame) : climbers (.climb :: rest) = climbers rest + 1 :=
  List.countP_cons_of_pos rfl

/-- The queue is active while a completion is being told. -/
theorem Climbs.queue_of_told (h : w.Climbs) (hf : Footed sure w.stack) {c : ContextNo}
    {p : Option ContextNo} {rest : List Frame} (hs : w.stack = .told c p :: rest) :
    ∃ q, w.queue = some q := by
  rw [hs] at hf
  obtain ⟨below, rfl⟩ := hf.leans rfl
  unfold Climbs at h
  rw [hs, climbers_cons rfl, climbers_climb] at h
  cases hq : w.queue with
  | none => rw [hq] at h; cases h
  | some q => exact ⟨q, rfl⟩

/-- Whoever gives up the last slot of a context puts it in the queue, and climbs if nobody does. -/
theorem climbs_leaving (c : ContextNo) : climbers (w.leavingFrames c) + rungs w.queue =
    rungs (match (w.contexts[c]?).bind fun x => x.slots.release with
      | some (true, _) => some (w.queue.getD [] ++ [c])
      | _ => w.queue) := by
  unfold leavingFrames
  split <;> rename_i hrel <;> rw [hrel]
  · exact Nat.zero_add _
  · rename_i last slots
    cases last with
    | false => exact Nat.zero_add _
    | true => cases w.queue <;> rfl

/-- Telling a parent puts it in a queue that is active already. -/
theorem climbs_telling (p : ContextNo) : climbers (w.tellingFrames p) + rungs w.queue =
    rungs (match (w.contexts[p]?).bind fun x => x.slots.release with
      | some (true, _) => w.queue.map fun q => q ++ [p]
      | _ => w.queue) := by
  unfold tellingFrames
  split <;> rename_i hrel <;> rw [hrel]
  · exact Nat.zero_add _
  · rename_i a
    obtain ⟨last, slots⟩ := a
    cases last with
    | false => exact Nat.zero_add _
    | true => cases w.queue <;> rfl

/-- Whoever climbs goes on until the queue is empty. -/
theorem climbs_climbing {rest : List Frame} (hone : climbers rest + 1 = rungs w.queue) :
    climbers (w.climbingFrames ++ rest) =
      rungs (match w.queue with
        | some (_ :: q) => some q
        | _ => none) := by
  unfold climbingFrames
  cases hq : w.queue with
  | none => rw [hq] at hone; cases hone
  | some l =>
    rw [hq] at hone
    have hzero : climbers rest = 0 := Nat.succ.inj hone
    cases l with
    | nil => exact hzero
    | cons c q =>
      dsimp only
      rw [climbers_append, climbers_append, climbers_firing, hzero]
      rfl

theorem climbs_work (hclimbs : w.Climbs) : climbers w.shiftWork = rungs w.queueWork := by
  have hold : climbers w.stack = rungs w.queue := hclimbs
  unfold shiftWork queueWork
  split <;> rename_i hs <;> rw [hs] at hold ⊢
  · exact hold
  · exact hold
  · exact hold
  · exact (climbers_cons rfl _).symm.trans hold
  · rename_i ch replay v o todo spent rest
    have hwork : climbers (o.work ch v) = 0 := by cases o <;> rfl
    rw [climbers_append, hwork, Nat.zero_add]
    exact ((climbers_cons rfl rest).trans (climbers_cons rfl rest).symm).trans hold
  · rw [climbers_append, climbers_firing, Nat.zero_add]
    exact ((climbers_cons rfl _).trans (climbers_cons rfl _).symm).trans hold
  · rw [climbers_append, climbers_firing, Nat.zero_add]
    exact ((climbers_cons rfl _).trans (climbers_cons rfl _).symm).trans hold
  · rename_i c share rest
    rw [climbers_append, (climbers_cons (f := .giveUp c share) rfl rest).symm.trans hold]
    exact climbs_leaving c
  · exact climbs_climbing ((climbers_climb _).symm.trans hold)
  · exact (climbers_cons rfl _).symm.trans hold
  · rename_i c p rest
    rw [climbers_append, (climbers_cons (f := .told c (some p)) rfl rest).symm.trans hold]
    exact climbs_telling p
  · rw [climbers_append, climbers_firing, Nat.zero_add]
    exact (climbers_cons rfl _).symm.trans hold
  · exact (climbers_cons rfl _).symm.trans hold
  · rename_i f rest
    have hrest := (climbers_cons (f := .throwing f) rfl rest).symm.trans hold
    cases rest with
    | nil => exact hrest
    | cons g below =>
      cases g with
      | climb =>
        -- a failure gives up the queue together with the frame that climbs
        have hone : climbers below + 1 = rungs w.queue := (climbers_climb below).symm.trans hrest
        show climbers (.throwing f :: below) = 0
        rw [climbers_cons rfl]
        cases hq : w.queue with
        | none => rw [hq] at hone; cases hone
        | some q => rw [hq] at hone; exact Nat.succ.inj hone
      | _ => exact hrest

/-- Every move leaves one frame that climbs exactly while the queue is active. -/
theorem climbs_move (hclimbs : w.Climbs) (m : Move) : (w.move m).Climbs := by
  unfold Climbs
  rw [stack_move, queue_move]
  cases m with
  | advance => exact climbs_work hclimbs
  | call call =>
    show climbers (w.callFrames call ++ w.stack) = _
    rw [climbers_append, climbers_call, Nat.zero_add]
    exact hclimbs
  | finish thrown =>
    show climbers w.shiftFinish = _
    unfold shiftFinish
    split
    · rename_i hs
      have hold : climbers w.stack = rungs w.queue := hclimbs
      rw [hs] at hold
      exact hold
    · exact hclimbs
  | handled a =>
    show climbers (w.shiftHandled a) = _
    have hold : climbers w.stack = rungs w.queue := hclimbs
    unfold shiftHandled
    split
    · rename_i hs
      rw [hs] at hold
      cases a with
      | signal s =>
        dsimp only
        rw [climbers_append, climbers_replay, Nat.zero_add]
        exact hold
      | _ => exact hold
    · exact hold

/-! ## Every legal run -/

/-- Wherever a legal run leads, frames lie on what they should. -/
theorem footed_of_legal {threshold : Log.Level} {moves : List Move}
    (h : machine.legal (start threshold) moves = true) :
    Footed false (machine.run (start threshold) moves).stack :=
  machine.invariant (P := fun w => Footed false w.stack) (fun _ _ hw hm => footed_move hw hm nofun)
    (.inl (show Leaned [] from trivial)) h

end World

end FanIn
