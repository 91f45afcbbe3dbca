import FanIn.Proofs.Tree.Channels

/-!
# What moves note

The history has messages in it, and which contexts were destroyed. All the rest is the *chronicle*, and
what a move adds to it can be read off the world that it is made in, before it is made: `World.notes`.

Main statement: `chronicle_move`. Whatever is said of the order in which things happen goes back to it.
-/

namespace FanIn

/-- Whether an event is neither a message nor the end of a context. -/
def Event.isNotable : Event → Bool
  | logged .. => false
  | destroyed _ => false
  | _ => true

namespace World

/-- What has happened, oldest first, without messages and ends. -/
def chronicle (w : World) : List Event := w.history.toList.filter Event.isNotable

/-! ## What is noted -/

/-- Firing a channel is noted, if it waits for that. -/
def firingNotes (w : World) (ch : ChannelRef) (v : Value) : List Event :=
  if w.Waits ch then [.fired ch v] else []

/-- Giving up a slot is noted, if there is one, and if it was the last. -/
def leavingNotes (w : World) (c : ContextNo) (share : Share) : List Event :=
  match (w.contexts[c]?).bind fun x => x.slots.release with
  | none => []
  | some (last, _) => .left c share :: if last then [.drained c] else []

/-- What a step of the library notes. -/
def workNotes (w : World) : List Event :=
  match w.stack with
  | .deliver ch replay v (.client label _ :: _) _ :: _ =>
    [if replay then .replayed ch label v else .observed ch label v]
  | .respond c r :: _ => .publishing c r :: w.firingNotes (.before c) (.response r)
  | .answer c r :: _ => w.firingNotes (.response c) (.response r)
  | .giveUp c share :: _ => w.leavingNotes c share
  | .climb :: _ =>
    match w.queue with
    | some (c :: _) => w.firingNotes (.completion c) .done
    | _ => []
  | .told c (some p) :: _ => w.leavingNotes p (.child c)
  | .conclude c e failed result :: _ =>
    w.firingNotes (.signal result)
      (.resolution { failure := failed.map (Failure.handlerFailed (w.idOf c) (some e)) })
  | _ => []

/-- What creating a child notes: the slot that is taken, and what then becomes of the child. -/
def birthNotes (w : World) (parent : ContextNo) : List Event :=
  match w.contexts[parent]? with
  | none => []
  | some p =>
    match w.takeSlot parent (.child w.contexts.size) with
    | none => []
    | some v =>
      let (id, v) := v.nextDescendant p.tree
      .joined parent (.child w.contexts.size) ::
        if (v.registry.register? v.isLive id w.contexts.size).isSome then
          [.created w.contexts.size, .joined w.contexts.size .own]
        else [.rejected parent id]

/-- What a call notes at once. -/
def callNotes (w : World) : Call → List Event
  | .createRoot spec =>
    if spec.fault?.isNone && (w.registry.register? w.isLive spec.id w.contexts.size).isSome then
      [.created w.contexts.size, .joined w.contexts.size .own] ++
        spec.link.toList.map fun _ => .joined w.contexts.size .link
    else []
  | .createChild parent location _ _ => if location.isSome then w.birthNotes parent else []
  | .error c (some e) =>
    match w.contexts[c]? with
    | some x => if x.isTerminated then [] else [.handling x.handler c .failed e w.signals.size]
    | none => []
  | .addChild c => if (w.takeSlot c .participant).isSome then [.joined c .participant] else []
  | .fireBefore c r => w.firingNotes (.before c) (.response r)
  | .fireResponse c r => w.firingNotes (.response c) (.response r)
  | .fireCompletion c => w.firingNotes (.completion c) .done
  | .fireSignal s r => w.firingNotes (.signal s) (.resolution r)
  | _ => []

/-- What a move notes. -/
def notes (w : World) : Move → List Event
  | .advance => w.workNotes
  | .call call => w.callNotes call
  | _ => []

variable {w w' : World}

/-! ## What notes nothing -/

theorem chronicle_note {e : Event} (he : e.isNotable = true) :
    (w.note e).chronicle = w.chronicle ++ [e] := by
  simp [chronicle, note, he]

theorem chronicle_note_other {e : Event} (he : e.isNotable = false) :
    (w.note e).chronicle = w.chronicle := by
  simp [chronicle, note, he]

@[simp] theorem chronicle_log (l : Log.Level) (m : String) :
    (w.log l m).chronicle = w.chronicle := by
  unfold log
  split
  · exact chronicle_note_other rfl
  · rfl

@[simp] theorem chronicle_destroy (r : Ref) : (w.destroy r).chronicle = w.chronicle := by
  cases r with
  | signal s => rfl
  | context c =>
    simp only [destroy]
    split
    · rfl
    · rename_i x _
      have hmid : World.chronicle (World.note { w with registry := w.registry.unregister x.id c }
          (.destroyed c)) = w.chronicle := chronicle_note_other rfl
      show (w.farewell c x true).chronicle = w.chronicle
      simp only [farewell, if_true]
      split
      · exact hmid
      · rw [chronicle_log]
        exact hmid

@[simp] theorem chronicle_releaseAll (refs : List Ref) :
    (w.releaseAll refs).chronicle = w.chronicle :=
  releaseAll_induction (P := fun w' => w'.chronicle = w.chronicle)
    (fun w' r h _ _ => (chronicle_destroy (w := w') r).trans h) rfl refs

@[simp] theorem chronicle_modifyChannel (ch : ChannelRef)
    (f : {α : Type} → Channel α Observer → Channel α Observer) :
    (w.modifyChannel ch f).chronicle = w.chronicle := by cases ch <;> rfl

@[simp] theorem chronicle_reportBranch (c : ContextNo) :
    (w.reportBranch c).chronicle = w.chronicle := by
  unfold reportBranch
  split <;> rfl

@[simp] theorem chronicle_makeSignal (r : Option Resolution) :
    (w.makeSignal r).2.chronicle = w.chronicle := by cases r <;> rfl

@[simp] theorem chronicle_refuseSlot (c : ContextNo) :
    (w.refuseSlot c).chronicle = w.chronicle := by
  unfold refuseSlot
  exact chronicle_log _ _

@[simp] theorem chronicle_returnCall (r : Reply) (kept : List Ref) :
    (w.returnCall r kept).chronicle = w.chronicle := by
  unfold returnCall
  rw [chronicle_releaseAll]
  cases r <;> rfl

@[simp] theorem chronicle_unwind (f : Failure) (fs : List Frame) :
    (w.unwind f fs).chronicle = w.chronicle := by
  unfold unwind
  split
  · rfl
  · rfl
  · rfl
  · rw [chronicle_log]
    rfl
  · rw [abandonQueue, chronicle_releaseAll]
    rfl
  · rw [chronicle_releaseAll]
    rfl
  · rw [chronicle_releaseAll]
    rfl
  · rfl

@[simp] theorem chronicle_finish (thrown : Option Failure) :
    (w.finish thrown).chronicle = w.chronicle := by
  unfold finish
  split
  · dsimp only
    split
    · rfl
    · rw [chronicle_log]
      rfl
  · rfl

theorem chronicle_settleBy (s : SignalNo) (c : ContextNo) (e : Failure) (result : SignalNo) :
    (w.settleBy s c e result).chronicle = w.chronicle := by
  unfold settleBy
  dsimp only
  rcases subscribe_cases (w.push [.returning (.signal result) [.signal s, .context c]]) (.signal s)
    (.settleError c e result) with ⟨_, heq⟩ | ⟨v, _, heq⟩
  · rw [heq]
    exact chronicle_modifyChannel _ _
  · rw [heq]
    rfl

@[simp] theorem chronicle_handled (a : Handled) : (w.handled a).chronicle = w.chronicle := by
  unfold handled
  split
  · dsimp only
    split
    · rfl
    · rw [chronicle_settleBy, chronicle_makeSignal]
      rfl
    · rw [chronicle_settleBy]
      rfl
  · rfl

/-! ## Firing, and giving up slots -/

theorem chronicle_deliver (ch : ChannelRef) (v : Value) (os : List Observer) :
    (w.deliver ch v os).chronicle = w.chronicle ++ [.fired ch v] := chronicle_note rfl

theorem firingNotes_eq_nil {ch : ChannelRef} {v : Value} (h : ¬ w.Waits ch) :
    w.firingNotes ch v = [] := if_neg h

theorem firingNotes_eq {ch : ChannelRef} {v : Value} (h : w.Waits ch) :
    w.firingNotes ch v = [.fired ch v] := if_pos h

theorem chronicle_fireBefore (c : ContextNo) (r : Response) :
    (w.fireBefore c r).chronicle = w.chronicle ++ w.firingNotes (.before c) (.response r) := by
  rcases w.fireBefore_cases c r with ⟨hnot, heq⟩ | ⟨x, _, hwaits, heq⟩
  · rw [heq, firingNotes_eq_nil hnot, List.append_nil]
  · rw [heq, firingNotes_eq hwaits]
    exact chronicle_deliver _ _ _

theorem chronicle_fireResponse (c : ContextNo) (r : Response) :
    (w.fireResponse c r).chronicle = w.chronicle ++ w.firingNotes (.response c) (.response r) := by
  rcases w.fireResponse_cases c r with ⟨hnot, heq⟩ | ⟨x, _, hwaits, heq⟩
  · rw [heq, firingNotes_eq_nil hnot, List.append_nil]
  · rw [heq, firingNotes_eq hwaits]
    exact chronicle_deliver _ _ _

theorem chronicle_fireCompletion (c : ContextNo) :
    (w.fireCompletion c).chronicle = w.chronicle ++ w.firingNotes (.completion c) .done := by
  rcases w.fireCompletion_cases c with ⟨hnot, heq⟩ | ⟨x, _, hwaits, heq⟩
  · rw [heq, firingNotes_eq_nil hnot, List.append_nil]
  · rw [heq, firingNotes_eq hwaits]
    exact chronicle_deliver _ _ _

theorem chronicle_fireSignal (s : SignalNo) (r : Resolution) :
    (w.fireSignal s r).chronicle = w.chronicle ++ w.firingNotes (.signal s) (.resolution r) := by
  rcases w.fireSignal_cases s r with ⟨hnot, heq⟩ | ⟨x, _, hwaits, heq⟩
  · rw [heq, firingNotes_eq_nil hnot, List.append_nil]
  · rw [heq, firingNotes_eq hwaits]
    exact chronicle_deliver _ _ _

/-- What waits to be fired decides what is noted when it is. -/
theorem firingNotes_congr {ch : ChannelRef} (h : w'.channel? ch = w.channel? ch) (v : Value) :
    w'.firingNotes ch v = w.firingNotes ch v := by
  simp only [firingNotes, waits_of_channel? h]

theorem chronicle_leave (c : ContextNo) (share : Share) (slots : Counter) :
    (((w.modifyContext c fun x => { x with slots := slots }).point).note
      (.left c share)).chronicle = w.chronicle ++ [.left c share] := chronicle_note rfl

theorem chronicle_drain (c : ContextNo) (share : Share) (slots : Counter) :
    ((((w.modifyContext c fun x => { x with slots := slots }).point).note
      (.left c share)).note (.drained c)).chronicle =
        w.chronicle ++ [.left c share, .drained c] := by
  rw [chronicle_note rfl, chronicle_leave, List.append_assoc]
  rfl

theorem leavingNotes_of_none {c : ContextNo} {share : Share}
    (h : ((w.contexts[c]?).bind fun x => x.slots.release) = none) : w.leavingNotes c share = [] := by
  simp only [leavingNotes, h]

theorem leavingNotes_of_some {c : ContextNo} {share : Share} {last : Bool} {slots : Counter}
    (h : ((w.contexts[c]?).bind fun x => x.slots.release) = some (last, slots)) :
    w.leavingNotes c share = .left c share :: if last then [.drained c] else [] := by
  simp only [leavingNotes, h]

@[simp] theorem chronicle_giveUpSlot (c : ContextNo) (share : Share) :
    (w.giveUpSlot c share).chronicle = w.chronicle ++ w.leavingNotes c share := by
  unfold giveUpSlot
  split
  · rename_i hrel
    rw [leavingNotes_of_none hrel, List.append_nil]
    rfl
  · rename_i last slots hrel
    rw [leavingNotes_of_some hrel]
    have hleave := chronicle_leave (w := w) c share slots
    have hdrain := chronicle_drain (w := w) c share slots
    cases last with
    | false => exact hleave
    | true =>
      simp only [if_true]
      split
      · exact hdrain
      · exact hdrain

theorem chronicle_tellParent (c p : ContextNo) :
    (w.tellParent c (some p)).chronicle = w.chronicle ++ w.leavingNotes p (.child c) := by
  simp only [tellParent]
  split
  · rename_i hrel
    rw [leavingNotes_of_none hrel, List.append_nil]
    exact chronicle_releaseAll _
  · rename_i last slots hrel
    rw [leavingNotes_of_some hrel]
    have hleave := chronicle_leave (w := w) p (.child c) slots
    have hdrain := chronicle_drain (w := w) p (.child c) slots
    cases last with
    | false => exact (chronicle_releaseAll _).trans hleave
    | true => exact (chronicle_releaseAll _).trans hdrain

/-! ## Moves -/

theorem chronicle_preparing (c : ContextNo) (q : List ContextNo) :
    (w.preparing c q).chronicle = w.chronicle :=
  chronicle_log (w := { w with queue := some q }) _ _

/-- What is noted when the first completion of the queue fires. -/
theorem chronicle_completeNext : w.completeNext.chronicle = w.chronicle ++
    match w.queue with
    | some (c :: _) => w.firingNotes (.completion c) .done
    | _ => [] := by
  cases hq : w.queue with
  | none =>
    unfold World.completeNext
    rw [hq, List.append_nil]
  | some l =>
    cases l with
    | nil =>
      unfold World.completeNext
      rw [hq, List.append_nil]
      rfl
    | cons c q =>
      rw [completeNext_fires hq, chronicle_fireCompletion, chronicle_preparing,
        firingNotes_congr (channel?_preparing c q _)]

theorem chronicle_notify (ch : ChannelRef) (replay : Bool) (v : Value) (o : Observer) :
    (w.notify ch replay v o).chronicle = w.chronicle ++
      match o with
      | .client label _ => [if replay then .replayed ch label v else .observed ch label v]
      | _ => [] := by
  cases o with
  | client label keeps => cases replay <;> exact chronicle_note rfl
  | empty => exact (List.append_nil _).symm
  | settleLink c =>
    rw [List.append_nil]
    simp only [World.notify]
    split
    · exact chronicle_log _ _
    · rfl
  | settleError c e result =>
    rw [List.append_nil]
    simp only [World.notify]
    split <;> rfl

theorem chronicle_resolveError (c : ContextNo) (e : Failure) (failed : Option (Option Failure))
    (result : SignalNo) : (w.resolveError c e failed result).chronicle = w.chronicle ++
      w.firingNotes (.signal result)
        (.resolution { failure := failed.map (Failure.handlerFailed (w.idOf c) (some e)) }) := by
  unfold World.resolveError
  split
  · exact chronicle_fireSignal _ _
  · rename_i h
    dsimp only
    rw [chronicle_fireSignal, chronicle_log, firingNotes_congr (channel?_log _ _ _)]
    rfl

theorem chronicle_advance : w.advance.chronicle = w.chronicle ++ w.workNotes := by
  unfold World.advance workNotes
  split <;> rename_i hs <;> rw [hs]
  · exact (List.append_nil _).symm
  · exact (List.append_nil _).symm
  · exact (List.append_nil _).symm
  · rw [List.append_nil]
    exact chronicle_releaseAll _
  · rename_i ch replay v o todo spent rest
    cases o <;> exact chronicle_notify ch replay v _
  · rename_i c r rest
    have hpublish : (World.note { w with stack := .answer c r :: rest } (.publishing c r)).chronicle =
        w.chronicle ++ [.publishing c r] := chronicle_note rfl
    rw [chronicle_fireBefore, firingNotes_congr (channel?_reportBranch _ _), chronicle_reportBranch, hpublish,
      List.append_assoc]
    rfl
  · exact chronicle_fireResponse _ _
  · exact chronicle_giveUpSlot _ _
  · exact chronicle_completeNext
  · rename_i c parent rest
    cases parent with
    | none => exact (chronicle_releaseAll _).trans (List.append_nil _).symm
    | some p => exact chronicle_tellParent c p
  · exact chronicle_resolveError _ _ _ _
  · rw [List.append_nil]
    exact chronicle_returnCall _ _
  · rw [List.append_nil]
    exact chronicle_unwind _ _

theorem chronicle_firing {ch : ChannelRef} {v : Value} {fire : World → World}
    (h : ∀ w : World, (fire w).chronicle = w.chronicle ++ w.firingNotes ch v) :
    (w.firing ch fire).chronicle = w.chronicle ++ w.firingNotes ch v := by
  unfold World.firing
  split
  · rename_i hfired
    have hnot : ¬ w.Waits ch := by
      rintro ⟨-, hnone⟩
      rw [isFired, hnone] at hfired
      cases hfired
    rw [firingNotes_eq_nil hnot, List.append_nil]
    rfl
  · exact h _

theorem chronicle_takeSlot {c : ContextNo} {share : Share} (h : w.takeSlot c share = some w') :
    w'.chronicle = w.chronicle ++ [.joined c share] := by
  obtain ⟨x, slots, _, _, rfl⟩ := takeSlot_eq_some h
  exact chronicle_note rfl

theorem chronicle_enter (x : Context) (g : Registry) : (w.enter x g).chronicle =
    w.chronicle ++ [.created w.contexts.size, .joined w.contexts.size .own] := by
  unfold enter
  dsimp only
  rw [chronicle_log, chronicle_note rfl, chronicle_note rfl, List.append_assoc]
  rfl

theorem chronicle_createRoot (spec : RootSpec) :
    (w.createRoot spec).chronicle = w.chronicle ++ w.callNotes (.createRoot spec) := by
  rw [World.createRoot_eq]
  simp only [callNotes]
  split
  · rename_i f hf
    rw [hf, if_neg (by simp), List.append_nil]
    rfl
  · rename_i hf
    split
    · rename_i hg
      rw [hg, if_neg (by simp), List.append_nil]
      rfl
    · rename_i g hg
      simp only [hf, hg, Option.isNone_none, Option.isSome_some, Bool.and_self, if_true]
      have henter := chronicle_enter (w := { w with trees := w.trees.push spec.tree })
        (spec.build w.contexts.size w.trees.size) g
      split
      · rename_i hl
        rw [hl]
        exact henter
      · rename_i s hl
        rw [hl]
        have hlinked := (chronicle_note (w := (World.enter { w with trees := w.trees.push spec.tree }
          (spec.build w.contexts.size w.trees.size) g).push
            [.returning (.context w.contexts.size) []])
          (e := .joined w.contexts.size .link) rfl).trans (congrArg (· ++ _) henter)
        rw [List.append_assoc] at hlinked
        rcases subscribe_cases (World.note _ (.joined w.contexts.size .link)) (.signal s)
          (.settleLink w.contexts.size) with ⟨_, heq⟩ | ⟨v, _, heq⟩
        · rw [heq]
          exact (chronicle_modifyChannel _ _).trans hlinked
        · rw [heq]
          exact hlinked

theorem chronicle_createChild (parent : ContextNo) (location : Option Location)
    (handler : Option Nat) (correlation : Option String) :
    (w.createChild parent location handler correlation).chronicle =
      w.chronicle ++ w.callNotes (.createChild parent location handler correlation) := by
  rw [World.createChild_eq]
  simp only [callNotes, birthNotes]
  split
  · exact (List.append_nil _).symm
  · rename_i hx
    rw [hx]
    exact (List.append_nil _).symm
  · rename_i p hx
    simp only [hx, Option.isSome_some, if_true]
    cases hw' : w.takeSlot parent (.child w.contexts.size) with
    | none => exact (chronicle_refuseSlot parent).trans (List.append_nil _).symm
    | some w' =>
      have htake := chronicle_takeSlot hw'
      have hsize : w'.contexts.size = w.contexts.size := by
        obtain ⟨x, slots, _, _, rfl⟩ := takeSlot_eq_some hw'
        exact Array.size_modify
      dsimp only
      split
      · rename_i hnone
        rw [hnone, if_neg (by simp)]
        refine (chronicle_note (w := (w'.nextDescendant p.tree).2) rfl).trans ?_
        exact (congrArg (· ++ _) htake).trans (List.append_assoc _ _ _)
      · rename_i g hg
        simp only [hg, Option.isSome_some, if_true]
        refine (chronicle_enter (w := (w'.nextDescendant p.tree).2) _ g).trans ?_
        refine (congrArg (· ++ _) htake).trans ((List.append_assoc _ _ _).trans ?_)
        show _ ++ (_ :: [Event.created w'.contexts.size, .joined w'.contexts.size .own]) = _
        rw [hsize]

theorem chronicle_error (c : ContextNo) (failure : Option Failure) :
    (w.error c failure).chronicle = w.chronicle ++ w.callNotes (.error c failure) := by
  cases failure with
  | none => exact (List.append_nil _).symm
  | some e =>
    simp only [World.error, callNotes]
    have hsame : w.point.contexts[c]? = w.contexts[c]? := rfl
    rw [hsame]
    cases w.contexts[c]? with
    | none => exact (List.append_nil _).symm
    | some x =>
      dsimp only
      split
      · refine Eq.trans ?_ (List.append_nil _).symm
        exact chronicle_log (w := w.point) .warning _
      · exact chronicle_note rfl

/-- What a call notes. -/
theorem chronicle_call (call : Call) : (w.call call).chronicle = w.chronicle ++ w.callNotes call := by
  cases call with
  | createRoot spec => exact chronicle_createRoot spec
  | createChild parent location handler correlation =>
    exact chronicle_createChild parent location handler correlation
  | success c result =>
    refine Eq.trans ?_ (List.append_nil _).symm
    simp only [World.call, World.success]
    split
    · rfl
    · split
      · exact chronicle_log _ _
      · rfl
  | error c failure => exact chronicle_error c failure
  | addChild c =>
    simp only [World.call, callNotes]
    split
    · rename_i w' hw'
      have htake := chronicle_takeSlot hw'
      rw [hw']
      exact htake
    · rename_i hnone
      rw [hnone]
      exact (chronicle_refuseSlot c).trans (List.append_nil _).symm
  | childCompleted c => exact (List.append_nil _).symm
  | subscribe ch label keeps =>
    refine Eq.trans ?_ (List.append_nil _).symm
    simp only [World.call]
    rcases subscribe_cases w ch (label.elim .empty fun label => .client label keeps) with
      ⟨_, heq⟩ | ⟨v, _, heq⟩
    · rw [heq]
      exact chronicle_modifyChannel _ _
    · rw [heq]
      rfl
  | unsubscribe ch n =>
    refine Eq.trans ?_ (List.append_nil _).symm
    exact (chronicle_releaseAll _).trans (chronicle_modifyChannel _ _)
  | fireBefore c r => exact chronicle_firing fun _ => chronicle_fireBefore c r
  | fireResponse c r => exact chronicle_firing fun _ => chronicle_fireResponse c r
  | fireCompletion c => exact chronicle_firing fun _ => chronicle_fireCompletion c
  | fireSignal s r => exact chronicle_firing fun _ => chronicle_fireSignal s r
  | wait ch =>
    refine Eq.trans ?_ (List.append_nil _).symm
    exact chronicle_modifyChannel _ _
  | makeSignal r =>
    refine Eq.trans ?_ (List.append_nil _).symm
    exact chronicle_makeSignal r
  | hold r =>
    refine Eq.trans ?_ (List.append_nil _).symm
    cases r <;> rfl
  | drop r =>
    refine Eq.trans ?_ (List.append_nil _).symm
    refine (chronicle_releaseAll _).trans ?_
    cases r <;> rfl
  | register id c =>
    refine Eq.trans ?_ (List.append_nil _).symm
    simp only [World.call]
    split <;> rfl
  | unregister id c => exact (List.append_nil _).symm
  | setThreshold level => exact (List.append_nil _).symm
  | addProcessor c path => exact (List.append_nil _).symm

/-- What a move notes can be read off the world it is made in. -/
theorem chronicle_move (m : Move) : (w.move m).chronicle = w.chronicle ++ w.notes m := by
  cases m with
  | advance => exact chronicle_advance
  | call call => exact chronicle_call call
  | finish thrown => exact (chronicle_finish thrown).trans (List.append_nil _).symm
  | handled a => exact (chronicle_handled a).trans (List.append_nil _).symm

end World

end FanIn
