import FanIn.Proofs.Tree.Shift

/-!
# What comes onto the stack, and what leaves it

A move takes the frame on top off the stack, or none; a failure takes the frame that it reaches as well.
On what is left it puts frames of its own. `World.Comes` says how those that have to do with outcomes come
to be there: the handlers of errors, what notifies observers, what publishes an outcome, and what resolves
the signal of an error in the end.

Main statement: `traffic_move`. Whatever is said of these frames goes back to it.
-/

namespace FanIn

namespace Frame

/-- Whether the frame is to publish the outcome of a context, or has done so and is to give up the slot
that the context kept for itself. -/
def publishes (c : ContextNo) : Frame → Bool
  | respond d _ => d == c
  | answer d _ => d == c
  | giveUp d share => d == c && share == .own
  | _ => false

/-- Whether the frame is to resolve the signal of an error of a context. -/
def concludes (c : ContextNo) : Frame → Bool
  | conclude d _ _ _ => d == c
  | _ => false

/-- Whether the frame has nothing to do with outcomes. -/
def isAside : Frame → Bool
  | observer .. => true
  | giveUp _ share => share != .own
  | climb => true
  | told .. => true
  | returning .. => true
  | throwing _ => true
  | _ => false

end Frame

namespace World

/-- How a move puts a frame onto the stack. -/
inductive Comes (w : World) : Move → Frame → Prop
  /-- A channel fires. -/
  | fires {m : Move} {ch : ChannelRef} {v : Value} : w.use? m = some (ch, .fire v) → w.Waits ch →
      Comes w m (.deliver ch false v ((w.observers ch).map Prod.snd) ((w.observers ch).map Prod.snd))
  /-- Somebody subscribes to a channel that has fired. -/
  | replays {m : Move} {ch : ChannelRef} {v : Value} {o : Observer} :
      w.use? m = some (ch, .subscribe o) → w.value? ch = some v → Comes w m (.deliver ch true v [o] [o])
  /-- An observer has been notified, and the next is to be. -/
  | next {ch : ChannelRef} {replay : Bool} {v : Value} {o : Observer} {todo spent : List Observer}
      {rest : List Frame} : w.stack = .deliver ch replay v (o :: todo) spent :: rest →
      Comes w .advance (.deliver ch replay v todo spent)
  /-- An observer is notified that the handling of an error can be finished. -/
  | settles {ch : ChannelRef} {replay : Bool} {v : Value} {c : ContextNo} {e : Failure}
      {result : SignalNo} {todo spent : List Observer} {rest : List Frame} {f : Frame} :
      w.stack = .deliver ch replay v (.settleError c e result :: todo) spent :: rest →
      f ∈ (Observer.settleError c e result).work ch v → Comes w .advance f
  /-- An outcome is published on the second channel after the first. -/
  | answers {c : ContextNo} {r : Response} {rest : List Frame} : w.stack = .respond c r :: rest →
      Comes w .advance (.answer c r)
  /-- The slot of a context's own work is given up when the outcome has been published. -/
  | leaves {c : ContextNo} {r : Response} {rest : List Frame} : w.stack = .answer c r :: rest →
      Comes w .advance (.giveUp c .own)
  /-- A context succeeds. -/
  | succeeds {c : ContextNo} {x : Context} {result : Option Int} : w.contexts[c]? = some x →
      x.isTerminated = false → Comes w (.call (.success c result)) (.respond c ⟨result, none⟩)
  /-- A context fails. -/
  | fails {c : ContextNo} {x : Context} {e : Failure} : w.contexts[c]? = some x →
      x.isTerminated = false →
      Comes w (.call (.error c (some e))) (.handler x.handler c e w.signals.size)
  /-- The handler of an error returns no signal. -/
  | resigns {n : Nat} {c : ContextNo} {e : Failure} {result : SignalNo} {rest : List Frame} {f : Frame} :
      w.stack = .handler n c e result :: rest →
      f ∈ [.respond c ⟨none, some e⟩, .conclude c e (some none) result] →
      Comes w (.handled .nothing) f
  /-- The handler of an error throws. -/
  | throws {n : Nat} {c : ContextNo} {e g : Failure} {result : SignalNo} {rest : List Frame} :
      w.stack = .handler n c e result :: rest →
      Comes w (.handled (.threw g)) (.deliver (.signal w.signals.size) true
        (.resolution { failure := some g }) [.settleError c e result] [.settleError c e result])
  | aside {m : Move} {f : Frame} : f.isAside = true → Comes w m f

/-- What a move takes off the stack. -/
inductive Goes : List Frame → Prop
  | none : Goes []
  | top (f : Frame) : Goes [f]
  /-- A failure takes the frame that it reaches. -/
  | reached {f : Failure} {g : Frame} : (∀ rest, caught f (g :: rest) = .throwing f :: rest) →
      Goes [.throwing f, g]

/-- What a move puts onto the stack: frames that come with it, none of them over what publishes the
outcome of the context whose signal it resolves, or resolves it as well. -/
def Arrives (w : World) (m : Move) (fresh : List Frame) : Prop :=
  (∀ f ∈ fresh, w.Comes m f) ∧
    ∀ c, fresh.Pairwise fun f g => f.concludes c = true → g.publishes c = false ∧ g.concludes c = false

variable {w : World} {m : Move}

/-! ## What comes -/

theorem arrives_nil : w.Arrives m [] := ⟨nofun, fun _ => .nil⟩

theorem Arrives.cons {f : Frame} {fresh : List Frame} (hf : w.Comes m f)
    (hover : ∀ c, f.concludes c = false) (h : w.Arrives m fresh) : w.Arrives m (f :: fresh) :=
  ⟨List.forall_mem_cons.2 ⟨hf, h.1⟩, fun c => List.pairwise_cons.2
    ⟨fun _ _ ht => absurd ((hover c).symm.trans ht) nofun, h.2 c⟩⟩

theorem Arrives.aside {f : Frame} {fresh : List Frame} (hf : f.isAside = true)
    (h : w.Arrives m fresh) : w.Arrives m (f :: fresh) := by
  refine .cons (.aside hf) (fun c => ?_) h
  cases f <;> first | rfl | cases hf

theorem Arrives.firing {ch : ChannelRef} {v : Value} {fresh : List Frame}
    (hu : w.use? m = some (ch, .fire v)) (h : w.Arrives m fresh) :
    w.Arrives m (w.firingFrames ch v ++ fresh) := by
  by_cases hwaits : w.Waits ch
  · rw [firingFrames_eq hwaits]
    exact .cons (.fires hu hwaits) (fun _ => rfl) h
  · rw [firingFrames_eq_nil hwaits]
    exact h

theorem Arrives.replay {ch : ChannelRef} {o : Observer} {fresh : List Frame}
    (hu : w.use? m = some (ch, .subscribe o)) (h : w.Arrives m fresh) :
    w.Arrives m (w.replayFrames ch o ++ fresh) := by
  unfold replayFrames
  split
  · rename_i v hv
    exact .cons (.replays hu hv) (fun _ => rfl) h
  · exact h

/-- The two frames that finish the handling of an error, over frames that do nothing of the kind. -/
theorem Arrives.finishing {c : ContextNo} {e : Failure} {failed : Option (Option Failure)}
    {result : SignalNo} {fresh : List Frame}
    (hf : ∀ f ∈ [Frame.respond c ⟨none, some e⟩, .conclude c e failed result], w.Comes m f)
    (hquiet : ∀ d, ∀ g ∈ fresh, g.publishes d = false ∧ g.concludes d = false) (h : w.Arrives m fresh) :
    w.Arrives m (.respond c ⟨none, some e⟩ :: .conclude c e failed result :: fresh) := by
  refine .cons (hf _ (by simp)) (fun _ => rfl) ⟨?_, fun d => ?_⟩
  · exact List.forall_mem_cons.2 ⟨hf _ (by simp), h.1⟩
  · exact List.pairwise_cons.2 ⟨fun g hg _ => hquiet d g hg, h.2 d⟩

theorem arrives_leavingFrames (c : ContextNo) : w.Arrives m (w.leavingFrames c) := by
  unfold leavingFrames
  split
  · exact .aside rfl arrives_nil
  · split
    · exact .aside rfl arrives_nil
    · exact arrives_nil

theorem arrives_tellingFrames (p : ContextNo) : w.Arrives m (w.tellingFrames p) := by
  unfold tellingFrames
  split
  · exact .aside rfl arrives_nil
  · exact arrives_nil

theorem arrives_climbing {rest : List Frame} (hs : w.stack = .climb :: rest) :
    w.Arrives .advance w.climbingFrames := by
  unfold climbingFrames
  split
  · rename_i c q hq
    refine .firing ?_ (.aside rfl (.aside rfl arrives_nil))
    simp only [use?, workUse?, hs, hq]
  · exact arrives_nil

theorem arrives_birthFrames (parent : ContextNo) : w.Arrives m (w.birthFrames parent) := by
  unfold birthFrames
  split
  · exact arrives_nil
  · split
    · exact arrives_nil
    · dsimp only
      split
      · exact .aside rfl arrives_nil
      · exact .aside rfl (.aside rfl arrives_nil)

theorem arrives_callFiring {ch : ChannelRef} {v : Value} (hu : w.use? m = some (ch, .fire v)) :
    w.Arrives m (w.callFiring ch v) := by
  unfold callFiring
  split
  · exact arrives_nil
  · exact .firing hu (.aside rfl arrives_nil)

theorem arrives_callFrames (call : Call) : w.Arrives (.call call) (w.callFrames call) := by
  cases call with
  | createRoot spec =>
    simp only [callFrames]
    split
    · rename_i hok
      cases hl : spec.link with
      | none => exact .aside rfl arrives_nil
      | some s =>
        refine .replay ?_ (.aside rfl arrives_nil)
        simp only [use?, callUse?, hok, if_true, hl, Option.map_some]
    · exact arrives_nil
  | createChild parent location handler correlation =>
    simp only [callFrames]
    split
    · exact arrives_birthFrames parent
    · exact arrives_nil
  | success c result =>
    simp only [callFrames]
    split
    · rename_i x hx
      split
      · exact arrives_nil
      · rename_i hopen
        exact .cons (.succeeds hx (by simpa using hopen)) (fun _ => rfl) (.aside rfl arrives_nil)
    · exact arrives_nil
  | error c failure =>
    cases failure with
    | none => exact arrives_nil
    | some e =>
      simp only [callFrames]
      split
      · rename_i x hx
        split
        · exact .aside rfl arrives_nil
        · rename_i hopen
          exact .cons (.fails hx (by simpa using hopen)) (fun _ => rfl) arrives_nil
      · exact arrives_nil
  | childCompleted c => exact .aside rfl (.aside rfl arrives_nil)
  | subscribe ch label keeps =>
    simp only [callFrames]
    split
    · rename_i v hv
      exact .cons (.replays rfl hv) (fun _ => rfl) (.aside rfl arrives_nil)
    · exact arrives_nil
  | fireBefore c r => exact arrives_callFiring rfl
  | fireResponse c r => exact arrives_callFiring rfl
  | fireCompletion c => exact arrives_callFiring rfl
  | fireSignal s r => exact arrives_callFiring rfl
  | makeSignal r => exact .aside rfl arrives_nil
  | _ => exact arrives_nil

/-! ## What comes and what goes -/

/-- What is on the stack after a move: what comes with it, over what was there but for what goes. -/
def Traffic (w : World) (m : Move) (stack : List Frame) : Prop :=
  ∃ gone fresh base, w.stack = gone ++ base ∧ stack = fresh ++ base ∧ Goes gone ∧ w.Arrives m fresh

/-- The frame on top makes way for others. -/
theorem Traffic.of_top {f : Frame} {rest fresh : List Frame} (hs : w.stack = f :: rest)
    (h : w.Arrives m fresh) : w.Traffic m (fresh ++ rest) :=
  ⟨[f], fresh, rest, hs, rfl, .top f, h⟩

/-- Nothing leaves the stack. -/
theorem Traffic.of_arrives {fresh : List Frame} (h : w.Arrives m fresh) :
    w.Traffic m (fresh ++ w.stack) := ⟨[], fresh, w.stack, rfl, rfl, .none, h⟩

theorem traffic_caught {f : Failure} {rest : List Frame} (hs : w.stack = .throwing f :: rest) :
    w.Traffic .advance (caught f rest) := by
  cases rest with
  | nil => exact .of_top hs arrives_nil
  | cons g below =>
    by_cases hstop : caught f (g :: below) = g :: below
    · rw [hstop]
      exact .of_top hs arrives_nil
    · have hgone : ∀ rest, caught f (g :: rest) = .throwing f :: rest := by
        intro rest
        cases g <;> first | rfl | exact absurd rfl hstop
      rw [hgone]
      exact ⟨[.throwing f, g], [.throwing f], below, hs, rfl, .reached hgone, .aside rfl arrives_nil⟩

theorem traffic_work (w : World) : w.Traffic .advance w.shiftWork := by
  unfold shiftWork
  split <;> rename_i hs
  · exact hs ▸ .of_arrives arrives_nil
  · exact hs ▸ .of_arrives arrives_nil
  · exact hs ▸ .of_arrives arrives_nil
  · exact .of_top hs arrives_nil
  · rename_i ch replay v o todo spent rest
    have hnext : w.Arrives .advance [.deliver ch replay v todo spent] :=
      .cons (.next hs) (fun _ => rfl) arrives_nil
    rw [List.append_cons]
    refine .of_top hs ?_
    cases o with
    | client label keeps => exact .aside rfl hnext
    | empty => exact hnext
    | settleLink c => exact .aside rfl hnext
    | settleError c e result =>
      exact .finishing (fun f hf => .settles hs hf) (by simp [Frame.publishes, Frame.concludes]) hnext
  · rename_i c r rest
    rw [List.append_cons]
    refine .of_top hs (.firing ?_ (.cons (.answers hs) (fun _ => rfl) arrives_nil))
    simp only [use?, workUse?, hs]
  · rename_i c r rest
    rw [List.append_cons]
    refine .of_top hs (.firing ?_ (.cons (.leaves hs) (fun _ => rfl) arrives_nil))
    simp only [use?, workUse?, hs]
  · exact .of_top hs (arrives_leavingFrames _)
  · exact .of_top hs (arrives_climbing hs)
  · exact .of_top hs arrives_nil
  · exact .of_top hs (arrives_tellingFrames _)
  · refine .of_top hs ?_
    rw [← List.append_nil (w.firingFrames _ _)]
    refine .firing ?_ arrives_nil
    simp only [use?, workUse?, hs]
  · exact .of_top hs arrives_nil
  · exact traffic_caught hs

theorem traffic_handled (w : World) (a : Handled) : w.Traffic (.handled a) (w.shiftHandled a) := by
  unfold shiftHandled
  split
  · rename_i n c e result rest hs
    cases a with
    | nothing =>
      have harr : w.Arrives (.handled .nothing) [.respond c ⟨none, some e⟩,
          .conclude c e (some none) result, .returning (.signal result) [.context c]] :=
        .finishing (fun f hf => .resigns hs hf) (by simp [Frame.publishes, Frame.concludes])
          (.aside rfl arrives_nil)
      exact .of_top hs harr
    | threw f =>
      have harr : w.Arrives (.handled (.threw f)) [.deliver (.signal w.signals.size) true
          (.resolution { failure := some f }) [.settleError c e result] [.settleError c e result],
          .returning (.signal result) [.signal w.signals.size, .context c]] :=
        .cons (.throws hs) (fun _ => rfl) (.aside rfl arrives_nil)
      exact .of_top hs harr
    | signal s =>
      dsimp only
      rw [List.append_cons]
      refine .of_top hs (.replay ?_ (.aside rfl arrives_nil))
      simp only [use?, handledUse?, hs]
  · exact .of_arrives arrives_nil

/-- What a move does to the stack. -/
theorem traffic_move (w : World) (m : Move) : w.Traffic m (w.move m).stack := by
  rw [stack_move]
  cases m with
  | advance => exact traffic_work w
  | call call => exact .of_arrives (arrives_callFrames call)
  | finish thrown =>
    show w.Traffic _ w.shiftFinish
    unfold shiftFinish
    split
    · rename_i hs
      exact .of_top hs arrives_nil
    · exact .of_arrives arrives_nil
  | handled a => exact traffic_handled w a

/-- A frame that is there after a move was there before, or has come with it. -/
theorem mem_stack_move {f : Frame} (h : f ∈ (w.move m).stack) : f ∈ w.stack ∨ w.Comes m f := by
  obtain ⟨gone, fresh, base, hs, hs', _, harr⟩ := traffic_move w m
  rw [hs'] at h
  rcases List.mem_append.1 h with h | h
  · exact .inr (harr.1 f h)
  · exact .inl (hs ▸ List.mem_append_right _ h)

/-- A frame stays where it is unless it is on top, or a failure has reached it. -/
theorem mem_of_mem_stack {f : Frame} (h : f ∈ w.stack) (m : Move) : f ∈ (w.move m).stack ∨
    (∃ rest, w.stack = f :: rest) ∨
      ∃ g rest, w.stack = .throwing g :: f :: rest ∧ caught g (f :: rest) = .throwing g :: rest := by
  obtain ⟨gone, fresh, base, hs, hs', hgone, _⟩ := traffic_move w m
  rw [hs] at h
  rcases List.mem_append.1 h with h | h
  · cases hgone with
    | none => cases h
    | top g =>
      obtain rfl := List.mem_singleton.1 h
      exact .inr (.inl ⟨base, hs⟩)
    | reached hc =>
      rcases List.mem_cons.1 h with rfl | h
      · exact .inr (.inl ⟨_, hs⟩)
      · obtain rfl := List.mem_singleton.1 h
        exact .inr (.inr ⟨_, base, hs, hc base⟩)
  · exact .inl (hs' ▸ List.mem_append_right _ h)

theorem Goes.length_le {gone : List Frame} (h : Goes gone) : gone.length ≤ 2 := by
  cases h <;> simp

/-- What lies under the frame on top stays as it is, unless a failure reaches it. -/
theorem stack_beneath {above rest : List Frame} {f : Frame} (hs : w.stack = above ++ f :: rest)
    (habove : above ≠ []) (m : Move) : (∃ above', (w.move m).stack = above' ++ f :: rest) ∨
      ∃ g, w.stack = .throwing g :: f :: rest ∧ caught g (f :: rest) = .throwing g :: rest := by
  obtain ⟨gone, fresh, base, hold, hnew, hgone, _⟩ := traffic_move w m
  rcases List.append_eq_append_iff.1 (hold.symm.trans hs) with ⟨above', rfl, rfl⟩ | ⟨gone', rfl, hbase⟩
  · exact .inl ⟨fresh ++ above', by rw [hnew, List.append_assoc]⟩
  · cases gone' with
    | nil => exact .inl ⟨fresh, by rw [hnew, hbase, List.nil_append]⟩
    | cons g gone' =>
      obtain ⟨rfl, rfl⟩ := List.cons.inj hbase
      obtain ⟨k, above, rfl⟩ := List.exists_cons_of_ne_nil habove
      -- of the frames that go the second is taken by a failure
      cases above with
      | nil =>
        cases hgone with
        | reached hcaught => exact .inr ⟨_, hs, hcaught _⟩
      | cons k' above =>
        have hlength := hgone.length_le
        simp only [List.length_append, List.length_cons] at hlength
        omega

end World

end FanIn
