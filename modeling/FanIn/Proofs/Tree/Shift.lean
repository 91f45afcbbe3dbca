import FanIn.Proofs.Tree.Values

/-!
# What moves do to the stack

What the stack is after a move can be read off the world that it is made in, before it is made:
`World.shift`. Whatever is said of the frames under way, or of what lies on what, goes back to it.

Main statement: `stack_move`.
-/

namespace FanIn

/-- What a signal that delivers a value says of the handler whose error waits for it. -/
def Value.failed : Value → Option (Option Failure)
  | resolution ⟨some f, _⟩ => some (some f)
  | _ => none

/-- The work that notifying an observer of a channel leads to. -/
def Observer.work (ch : ChannelRef) (v : Value) : Observer → List Frame
  | client label _ => [.observer ch label v]
  | empty => []
  | settleLink c => [.giveUp c .link]
  | settleError c e result => [.respond c ⟨none, some e⟩, .conclude c e v.failed result]

namespace World

/-! ## The stack after a move -/

/-- The frame that a channel which fires leaves behind, if it waits for that. -/
def firingFrames (w : World) (ch : ChannelRef) (v : Value) : List Frame :=
  if w.Waits ch then
    [.deliver ch false v ((w.observers ch).map Prod.snd) ((w.observers ch).map Prod.snd)]
  else []

/-- The frame that notifies an observer which has just subscribed, if the channel has fired. -/
def replayFrames (w : World) (ch : ChannelRef) (o : Observer) : List Frame :=
  match w.value? ch with
  | some v => [.deliver ch true v [o] [o]]
  | none => []

/-- What is left under way when a failure reaches some frames. -/
def caught (f : Failure) : List Frame → List Frame
  | [] => []
  | .observer ch l v :: rest => .observer ch l v :: rest
  | .handler n c e s :: rest => .handler n c e s :: rest
  | .deliver ch replay v todo spent :: rest => .deliver ch replay v todo spent :: rest
  | _ :: rest => .throwing f :: rest

/-- What giving up a slot leads to. -/
def leavingFrames (w : World) (c : ContextNo) : List Frame :=
  match (w.contexts[c]?).bind fun x => x.slots.release with
  | none => [.throwing Counter.overReleased]
  | some (last, _) => if last && w.queue.isNone then [.climb] else []

/-- What telling a parent leads to. -/
def tellingFrames (w : World) (p : ContextNo) : List Frame :=
  match (w.contexts[p]?).bind fun x => x.slots.release with
  | none => [.throwing Counter.overReleased]
  | some _ => []

/-- What completing the first context of the queue leads to. -/
def climbingFrames (w : World) : List Frame :=
  match w.queue with
  | some (c :: _) => w.firingFrames (.completion c) .done ++
      [.told c ((w.contexts[c]?).bind Context.hold), .climb]
  | _ => []

/-- The stack after a step of the library. -/
def shiftWork (w : World) : List Frame :=
  match w.stack with
  | [] => []
  | .observer ch l v :: rest => .observer ch l v :: rest
  | .handler n c e s :: rest => .handler n c e s :: rest
  | .deliver _ _ _ [] _ :: rest => rest
  | .deliver ch replay v (o :: todo) spent :: rest =>
    o.work ch v ++ .deliver ch replay v todo spent :: rest
  | .respond c r :: rest => w.firingFrames (.before c) (.response r) ++ .answer c r :: rest
  | .answer c r :: rest => w.firingFrames (.response c) (.response r) ++ .giveUp c .own :: rest
  | .giveUp c _ :: rest => w.leavingFrames c ++ rest
  | .climb :: rest => w.climbingFrames ++ rest
  | .told _ none :: rest => rest
  | .told _ (some p) :: rest => w.tellingFrames p ++ rest
  | .conclude c e failed result :: rest =>
    w.firingFrames (.signal result)
      (.resolution { failure := failed.map (Failure.handlerFailed (w.idOf c) (some e)) }) ++ rest
  | .returning _ _ :: rest => rest
  | .throwing f :: rest => caught f rest

/-- What creating a child puts on the stack. -/
def birthFrames (w : World) (parent : ContextNo) : List Frame :=
  match w.contexts[parent]? with
  | none => []
  | some p =>
    match w.takeSlot parent (.child w.contexts.size) with
    | none => []
    | some v =>
      let (id, v) := v.nextDescendant p.tree
      if (v.registry.register? v.isLive id w.contexts.size).isSome then
        [.returning (.context w.contexts.size) []]
      else [.giveUp parent (.child w.contexts.size), .throwing (.idInUse id)]

/-- What a call that fires a channel puts on the stack. -/
def callFiring (w : World) (ch : ChannelRef) (v : Value) : List Frame :=
  if w.isFired ch then [] else w.firingFrames ch v ++ [Frame.returning (.flag true) []]

/-- What a call puts on the stack. -/
def callFrames (w : World) : Call → List Frame
  | .createRoot spec =>
    if spec.fault?.isNone && (w.registry.register? w.isLive spec.id w.contexts.size).isSome then
      (spec.link.elim [] fun s => w.replayFrames (.signal s) (.settleLink w.contexts.size)) ++
        [.returning (.context w.contexts.size) []]
    else []
  | .createChild parent location _ _ => if location.isSome then w.birthFrames parent else []
  | .success c result =>
    match w.contexts[c]? with
    | some x => if x.isTerminated then []
      else [.respond c ⟨result, none⟩, .returning (.flag true) [.context c]]
    | none => []
  | .error c (some e) =>
    match w.contexts[c]? with
    | some x => if x.isTerminated then [.returning (.signal w.signals.size) []]
      else [.handler x.handler c e w.signals.size]
    | none => []
  | .childCompleted c => [.giveUp c .participant, .returning .done []]
  | .subscribe ch label keeps =>
    match w.value? ch with
    | some v =>
      let o := label.elim .empty fun label => .client label keeps
      [.deliver ch true v [o] [o], .returning (.subscription ch none) []]
    | none => []
  | .fireBefore c r => w.callFiring (.before c) (.response r)
  | .fireResponse c r => w.callFiring (.response c) (.response r)
  | .fireCompletion c => w.callFiring (.completion c) .done
  | .fireSignal s r => w.callFiring (.signal s) (.resolution r)
  | .makeSignal _ => [.returning (.signal w.signals.size) []]
  | _ => []

/-- The stack after a handler has returned. -/
def shiftHandled (w : World) (a : Handled) : List Frame :=
  match w.stack with
  | .handler _ c e result :: rest =>
    match a with
    | .nothing => .respond c ⟨none, some e⟩ :: .conclude c e (some none) result ::
        .returning (.signal result) [.context c] :: rest
    | .threw f =>
      let v : Value := .resolution { failure := some f }
      let o : Observer := .settleError c e result
      .deliver (.signal w.signals.size) true v [o] [o] ::
        .returning (.signal result) [.signal w.signals.size, .context c] :: rest
    | .signal s => w.replayFrames (.signal s) (.settleError c e result) ++
        .returning (.signal result) [.signal s, .context c] :: rest
  | stack => stack

/-- The stack after an observer has returned. -/
def shiftFinish (w : World) : List Frame :=
  match w.stack with
  | .observer .. :: rest => rest
  | stack => stack

/-- The stack after a move. -/
def shift (w : World) : Move → List Frame
  | .advance => w.shiftWork
  | .call call => w.callFrames call ++ w.stack
  | .finish _ => w.shiftFinish
  | .handled a => w.shiftHandled a

variable {w w' : World}

/-! ## Firing -/

theorem firingFrames_eq_nil {ch : ChannelRef} {v : Value} (h : ¬ w.Waits ch) :
    w.firingFrames ch v = [] := if_neg h

theorem firingFrames_eq {ch : ChannelRef} {v : Value} (h : w.Waits ch) :
    w.firingFrames ch v =
      [.deliver ch false v ((w.observers ch).map Prod.snd) ((w.observers ch).map Prod.snd)] := if_pos h

theorem stack_fireBefore (c : ContextNo) (r : Response) :
    (w.fireBefore c r).stack = w.firingFrames (.before c) (.response r) ++ w.stack := by
  rcases w.fireBefore_cases c r with ⟨hnot, heq⟩ | ⟨x, hx, hwaits, heq⟩
  · rw [heq, firingFrames_eq_nil hnot, List.nil_append]
  · rw [heq, firingFrames_eq hwaits, observers, hx]
    rfl

theorem stack_fireResponse (c : ContextNo) (r : Response) :
    (w.fireResponse c r).stack = w.firingFrames (.response c) (.response r) ++ w.stack := by
  rcases w.fireResponse_cases c r with ⟨hnot, heq⟩ | ⟨x, hx, hwaits, heq⟩
  · rw [heq, firingFrames_eq_nil hnot, List.nil_append]
  · rw [heq, firingFrames_eq hwaits, observers, hx]
    rfl

theorem stack_fireCompletion (c : ContextNo) :
    (w.fireCompletion c).stack = w.firingFrames (.completion c) .done ++ w.stack := by
  rcases w.fireCompletion_cases c with ⟨hnot, heq⟩ | ⟨x, hx, hwaits, heq⟩
  · rw [heq, firingFrames_eq_nil hnot, List.nil_append]
  · rw [heq, firingFrames_eq hwaits, observers, hx]
    rfl

theorem stack_fireSignal (s : SignalNo) (r : Resolution) :
    (w.fireSignal s r).stack = w.firingFrames (.signal s) (.resolution r) ++ w.stack := by
  rcases w.fireSignal_cases s r with ⟨hnot, heq⟩ | ⟨x, hx, hwaits, heq⟩
  · rw [heq, firingFrames_eq_nil hnot, List.nil_append]
  · rw [heq, firingFrames_eq hwaits, observers, hx]
    rfl

theorem firingFrames_congr {ch : ChannelRef} (h : w'.channel? ch = w.channel? ch) (v : Value) :
    w'.firingFrames ch v = w.firingFrames ch v := by
  simp only [firingFrames, waits_of_channel? h, observers_of_channel? h]

/-! ## The library's own work -/

theorem stack_notify (ch : ChannelRef) (replay : Bool) (v : Value) (o : Observer) :
    (w.notify ch replay v o).stack = o.work ch v ++ w.stack := by
  cases o with
  | client label keeps => rfl
  | empty => rfl
  | settleLink c =>
    simp only [World.notify]
    split <;> simp [Observer.work]
  | settleError c e result =>
    simp only [World.notify]
    split
    · rfl
    · rename_i hnot
      have hfailed : v.failed = none := by
        unfold Value.failed
        split
        · rename_i f b
          exact absurd rfl (hnot f b)
        · rfl
      simp [Observer.work, hfailed]

theorem stack_giveUpSlot (c : ContextNo) (share : Share) :
    (w.giveUpSlot c share).stack = w.leavingFrames c ++ w.stack := by
  unfold giveUpSlot leavingFrames
  cases (w.contexts[c]?).bind fun x => x.slots.release with
  | none => rfl
  | some found =>
    obtain ⟨last, slots⟩ := found
    cases last with
    | false => rfl
    | true =>
      simp only [if_true, queue_note, queue_point, queue_modifyContext, Bool.true_and]
      cases w.queue <;> rfl

theorem stack_tellParent (c p : ContextNo) :
    (w.tellParent c (some p)).stack = w.tellingFrames p ++ w.stack := by
  simp only [tellParent, tellingFrames]
  cases (w.contexts[p]?).bind fun x => x.slots.release with
  | none => simp
  | some found =>
    dsimp only
    split <;> simp

theorem stack_completeNext : w.completeNext.stack = w.climbingFrames ++ w.stack := by
  unfold climbingFrames
  split
  · rename_i c q hq
    rw [completeNext_fires hq, stack_fireCompletion, firingFrames_congr (channel?_preparing c q _)]
    simp [preparing]
  · rename_i hnot
    unfold World.completeNext
    split
    · rfl
    · rfl
    · rename_i c q hq
      exact absurd hq (hnot c q)

theorem stack_returnCall (r : Reply) (kept : List Ref) : (w.returnCall r kept).stack = w.stack := by
  unfold returnCall
  rw [stack_releaseAll]
  cases r <;> rfl

theorem stack_resolveError (c : ContextNo) (e : Failure) (failed : Option (Option Failure))
    (result : SignalNo) : (w.resolveError c e failed result).stack =
      w.firingFrames (.signal result)
        (.resolution { failure := failed.map (Failure.handlerFailed (w.idOf c) (some e)) }) ++
          w.stack := by
  unfold resolveError
  cases failed with
  | none => exact stack_fireSignal _ _
  | some h =>
    dsimp only
    rw [stack_fireSignal, stack_log, firingFrames_congr (channel?_log _ _ _)]
    rfl

theorem stack_unwind (f : Failure) (rest : List Frame) :
    (World.unwind { w with stack := rest } f rest).stack = caught f rest := by
  cases rest with
  | nil => rfl
  | cons g below =>
    cases g with
    | deliver ch replay v todo spent => simp [World.unwind, caught]
    | climb => simp [World.unwind, abandonQueue, caught]
    | told c p => simp [World.unwind, caught]
    | returning r kept => simp [World.unwind, caught]
    | _ => rfl

theorem stack_advance : w.advance.stack = w.shiftWork := by
  unfold World.advance shiftWork
  split <;> rename_i hs <;> rw [hs]
  · exact stack_releaseAll _ _
  · exact stack_notify _ _ _ _
  · rename_i c r rest
    rw [stack_fireBefore, stack_reportBranch, firingFrames_congr (channel?_reportBranch c _)]
    rfl
  · exact stack_fireResponse _ _
  · exact stack_giveUpSlot _ _
  · exact stack_completeNext
  · rename_i c parent rest
    cases parent with
    | none => exact stack_releaseAll _ _
    | some p => exact stack_tellParent _ _
  · exact stack_resolveError _ _ _ _
  · exact stack_returnCall _ _
  · exact stack_unwind _ _

/-! ## The moves of clients -/

/-- An observer subscribes on top of what is under way. -/
theorem stack_subscribe (ch : ChannelRef) (o : Observer) :
    (match w.subscribe ch o with
      | (.registered _, v) => v
      | (.replayed u, v) => v.replay ch u o).stack = w.replayFrames ch o ++ w.stack := by
  rcases subscribe_cases w ch o with ⟨hnone, heq⟩ | ⟨u, hu, heq⟩
  · rw [heq]
    simp [replayFrames, hnone]
  · rw [heq]
    simp only [replayFrames, hu]
    rfl

theorem replayFrames_of_some {ch : ChannelRef} {v : Value} (h : w.value? ch = some v) (o : Observer) :
    w.replayFrames ch o = [.deliver ch true v [o] [o]] := by
  simp only [replayFrames, h]

theorem replayFrames_congr {ch : ChannelRef} (h : w'.channel? ch = w.channel? ch) (o : Observer) :
    w'.replayFrames ch o = w.replayFrames ch o := by
  simp only [replayFrames, value?_of_channel? h]

theorem stack_createRoot (spec : RootSpec) :
    (w.createRoot spec).stack = w.callFrames (.createRoot spec) ++ w.stack := by
  rw [World.createRoot_eq]
  simp only [callFrames]
  split
  · rename_i f hf
    rw [hf, if_neg (by simp)]
    rfl
  · rename_i hf
    split
    · rename_i hg
      rw [hg, if_neg (by simp)]
      rfl
    · rename_i g hg
      simp only [hf, hg, Option.isNone_none, Option.isSome_some, Bool.and_self, if_true]
      split
      · rename_i hl
        rw [hl]
        simp
      · rename_i s hl
        rw [hl]
        refine (stack_subscribe (w := World.note _ (.joined w.contexts.size .link)) _ _).trans ?_
        have hsignal := channel?_enter_signal (w := { w with trees := w.trees.push spec.tree })
          (spec.build w.contexts.size w.trees.size) g s
        rw [Option.elim_some, List.append_assoc]
        exact congrArg₂ (· ++ ·) (replayFrames_congr (w := w) hsignal _) (by simp)

theorem stack_createChild (parent : ContextNo) (location : Option Location) (handler : Option Nat)
    (correlation : Option String) : (w.createChild parent location handler correlation).stack =
      w.callFrames (.createChild parent location handler correlation) ++ w.stack := by
  rw [World.createChild_eq]
  simp only [callFrames, birthFrames]
  split
  · rfl
  · rename_i hx
    rw [hx]
    rfl
  · rename_i p hx
    rw [hx]
    dsimp only
    cases hslot : w.takeSlot parent (.child w.contexts.size) with
    | none => exact stack_refuseSlot _ _
    | some v =>
      have hstack : v.stack = w.stack := by
        obtain ⟨x, slots, _, _, rfl⟩ := takeSlot_eq_some hslot
        rfl
      dsimp only
      split <;> rename_i hg <;> simp [hg, hstack]

theorem stack_firing (ch : ChannelRef) (v : Value) {fire : World → World}
    (h : ∀ w : World, (fire w).stack = w.firingFrames ch v ++ w.stack) :
    (w.firing ch fire).stack = w.callFiring ch v ++ w.stack := by
  unfold World.firing callFiring
  split
  · rfl
  · have hsame : (w.push [.returning (.flag true) []]).firingFrames ch v = w.firingFrames ch v :=
      firingFrames_congr rfl v
    rw [h, hsame]
    simp

theorem stack_error (c : ContextNo) (failure : Option Failure) :
    (w.error c failure).stack = w.callFrames (.error c failure) ++ w.stack := by
  cases failure with
  | none => rfl
  | some e =>
    simp only [World.error, callFrames]
    have hsame : w.point.contexts[c]? = w.contexts[c]? := rfl
    rw [hsame]
    cases w.contexts[c]? with
    | none => rfl
    | some x =>
      dsimp only
      split
      · have hsignals := signals_log w.point .warning (ignoredNote x ("error() ignored: " ++ e.describe))
        rw [stack_push, stack_makeSignal, stack_log]
        show Frame.returning (.signal (w.point.log _ _).signals.size) [] :: _ = _
        rw [hsignals]
        rfl
      · rfl

theorem stack_call (call : Call) : (w.call call).stack = w.callFrames call ++ w.stack := by
  cases call with
  | createRoot spec => exact stack_createRoot spec
  | createChild parent location handler correlation => exact stack_createChild _ _ _ _
  | success c result =>
    simp only [World.call, World.success, callFrames]
    have hsame : w.point.contexts[c]? = w.contexts[c]? := rfl
    rw [hsame]
    cases w.contexts[c]? with
    | none => rfl
    | some x =>
      dsimp only
      split
      · exact stack_log _ _ _
      · rfl
  | error c failure => exact stack_error c failure
  | addChild c =>
    simp only [World.call, callFrames]
    split
    · rename_i w' hw'
      obtain ⟨x, slots, _, _, rfl⟩ := takeSlot_eq_some hw'
      rfl
    · exact stack_refuseSlot _ _
  | childCompleted c => rfl
  | subscribe ch label keeps =>
    simp only [World.call, callFrames]
    rcases subscribe_cases w ch (label.elim .empty fun label => .client label keeps) with
      ⟨hnone, heq⟩ | ⟨v, hv, heq⟩
    · rw [heq, hnone]
      exact stack_modifyChannel _ _ _
    · rw [heq, hv]
      rfl
  | unsubscribe ch n => exact (stack_releaseAll _ _).trans (stack_modifyChannel _ _ _)
  | fireBefore c r => exact stack_firing _ _ fun _ => stack_fireBefore c r
  | fireResponse c r => exact stack_firing _ _ fun _ => stack_fireResponse c r
  | fireCompletion c => exact stack_firing _ _ fun _ => stack_fireCompletion c
  | fireSignal s r => exact stack_firing _ _ fun _ => stack_fireSignal s r
  | wait ch => exact stack_modifyChannel _ _ _
  | makeSignal r => cases r <;> rfl
  | hold r => cases r <;> rfl
  | drop r =>
    refine (stack_releaseAll _ _).trans ?_
    cases r <;> rfl
  | register id c =>
    simp only [World.call]
    split <;> rfl
  | unregister id c => rfl
  | setThreshold level => rfl
  | addProcessor c path => rfl

theorem stack_finish (thrown : Option Failure) : (w.finish thrown).stack = w.shiftFinish := by
  unfold finish shiftFinish
  cases hs : w.stack with
  | nil => exact hs
  | cons f rest =>
    cases f with
    | observer ch l v =>
      cases thrown with
      | none => rfl
      | some f => exact stack_log _ _ _
    | _ => exact hs

theorem stack_settleBy (s : SignalNo) (c : ContextNo) (e : Failure) (result : SignalNo) :
    (w.settleBy s c e result).stack = w.replayFrames (.signal s) (.settleError c e result) ++
      .returning (.signal result) [.signal s, .context c] :: w.stack := by
  have hsame : (w.push [.returning (.signal result) [.signal s, .context c]]).replayFrames (.signal s)
      (.settleError c e result) = w.replayFrames (.signal s) (.settleError c e result) :=
    replayFrames_congr rfl _
  refine (stack_subscribe (w := w.push _) _ _).trans ?_
  rw [hsame]
  rfl

theorem stack_handled (a : Handled) : (w.handled a).stack = w.shiftHandled a := by
  unfold handled shiftHandled
  cases hs : w.stack with
  | nil => exact hs
  | cons f rest =>
    cases f with
    | handler n c e result =>
      cases a with
      | nothing => rfl
      | threw f =>
        dsimp only
        rw [stack_settleBy]
        have hfired : (World.makeSignal { w with stack := rest } (some { failure := some f })).2.value?
            (.signal w.signals.size) = some (.resolution { failure := some f }) := by
          simp [World.makeSignal, addSignal, value?, World.point, Channel.value?]
        have hframes : (World.makeSignal { w with stack := rest } (some { failure := some f })).2.replayFrames
            (.signal w.signals.size) (.settleError c e result) = _ :=
          replayFrames_of_some hfired _
        exact congrArg₂ (· ++ ·) hframes (by rfl)
      | signal s =>
        dsimp only
        rw [stack_settleBy]
        exact congrArg₂ (· ++ ·) (replayFrames_congr (channel?_reholdSignal (w := { w with stack := rest })
          (f := (· - 1)) _) _) rfl
    | _ => exact hs

/-- The stack after a move is known before it is made. -/
theorem stack_move (m : Move) : (w.move m).stack = w.shift m := by
  cases m with
  | advance => exact stack_advance
  | call call => exact stack_call call
  | finish thrown => exact stack_finish thrown
  | handled a => exact stack_handled a

end World

end FanIn
