import FanIn.Proofs.Tree.Channels

/-!
# What has happened decides nothing

The history of a world is written and never read, and the threshold is read only to decide whether a
message is logged. A `Retelling` is a way to tell histories differently, together with the threshold
at which they are told so: what it does to a history does not depend on when events are added, and
messages pass the new threshold exactly if they are told.

Main statements: `move_retold`, by which a move makes of a retold world the retelling of what it makes
of the world itself, and `run_retold`, the same for runs. What a move adds to the history (`adds`) is read
off the world without its history.
-/

namespace FanIn

namespace Event

/-- Whether the event is a message in the log. -/
def isMessage : Event → Bool
  | logged .. => true
  | _ => false

end Event

/-- Another way to tell what happens: other histories, and the thresholds at which they are told. -/
structure Retelling where
  history : Array Event → Array Event
  threshold : Log.Level → Log.Level
  plain : ∀ (h : Array Event) (e : Event), e.isMessage = false →
    history (h.push e) = (history h).push e
  message : ∀ (h : Array Event) (l t : Log.Level) (m : String),
    (if l.passes t then history (h.push (.logged l m)) else history h) =
      if l.passes (threshold t) then (history h).push (.logged l m) else history h

/-- Everything is told as before, after what has happened already. -/
def Retelling.after (past : Array Event) : Retelling where
  history h := past ++ h
  threshold := id
  plain _ _ _ := Array.append_push
  message h l t m := by simp only [Array.append_push, id]

/-- The world with its history told differently. -/
def World.retold (ρ : Retelling) (w : World) : World :=
  { w with history := ρ.history w.history, threshold := ρ.threshold w.threshold }

namespace World

variable (ρ : Retelling) (w : World)

/-! ## Events and messages -/

theorem stack_retold : (w.retold ρ).stack = w.stack := rfl

theorem contexts_retold : (w.retold ρ).contexts = w.contexts := rfl

theorem signals_retold : (w.retold ρ).signals = w.signals := rfl

theorem queue_retold : (w.retold ρ).queue = w.queue := rfl

theorem note_retold {e : Event} (he : e.isMessage = false) :
    (w.retold ρ).note e = (w.note e).retold ρ := by
  simp only [note, retold, ρ.plain _ _ he]

theorem log_retold (l : Log.Level) (m : String) :
    (w.retold ρ).log l m = (w.log l m).retold ρ := by
  have hmessage := ρ.message w.history l w.threshold (Text.visible m)
  unfold log
  split <;> rename_i hnew <;> split <;> rename_i hold <;>
    simp_all [note, retold]

/-! ## Letting go -/

theorem destroy_retold (r : Ref) : (w.retold ρ).destroy r = (w.destroy r).retold ρ := by
  cases r with
  | signal s => rfl
  | context c =>
    simp only [destroy]
    rw [contexts_retold]
    cases w.contexts[c]? with
    | none => rfl
    | some x =>
      have hnote := note_retold ρ { w with registry := w.registry.unregister x.id c }
        (e := .destroyed c) rfl
      have hfarewell : (w.retold ρ).farewell c x true = (w.farewell c x true).retold ρ := by
        simp only [farewell, if_true]
        split
        · exact hnote
        · exact (congrArg (fun w => World.log w .warning (abandonment x)) hnote).trans
            (log_retold ρ _ _ _)
      dsimp only
      rw [hfarewell]
      rfl

theorem releaseAll_retold (refs : List Ref) :
    (w.retold ρ).releaseAll refs = (w.releaseAll refs).retold ρ := by
  fun_induction releaseAll w refs with
  | case1 w => rw [releaseAll]
  | case2 w r rest hlive hheld ih =>
    rw [releaseAll, dif_pos (show (w.retold ρ).isLiveRef r = true from hlive),
      if_pos (show ((w.retold ρ).isHeld r || rest.contains r) = true from hheld), ih]
  | case3 w r rest hlive hheld ih =>
    rw [releaseAll, dif_pos (show (w.retold ρ).isLiveRef r = true from hlive),
      if_neg (show ¬ ((w.retold ρ).isHeld r || rest.contains r) = true from hheld), destroy_retold, ← ih]
    rfl
  | case4 w r rest hdead ih =>
    rw [releaseAll, dif_neg (show ¬ (w.retold ρ).isLiveRef r = true from hdead), ih]

/-! ## Channels -/

theorem value?_retold (ch : ChannelRef) : (w.retold ρ).value? ch = w.value? ch := by
  cases ch <;> rfl

theorem nextNumber_retold (ch : ChannelRef) : (w.retold ρ).nextNumber ch = w.nextNumber ch := by
  cases ch <;> rfl

theorem observer?_retold (ch : ChannelRef) (n : UInt64) :
    (w.retold ρ).observer? ch n = w.observer? ch n := by
  cases ch <;> rfl

theorem modifyChannel_retold (ch : ChannelRef)
    (f : {α : Type} → Channel α Observer → Channel α Observer) :
    (w.retold ρ).modifyChannel ch f = (w.modifyChannel ch f).retold ρ := by
  cases ch <;> rfl

theorem subscribe_retold (ch : ChannelRef) (o : Observer) :
    (w.retold ρ).subscribe ch o = ((w.subscribe ch o).1, (w.subscribe ch o).2.retold ρ) := by
  unfold subscribe
  rw [value?_retold, nextNumber_retold, modifyChannel_retold]
  cases w.value? ch <;> rfl

/-- An observer of the library's own subscribes and is notified at once if the channel has fired. -/
theorem attach_retold (ch : ChannelRef) (o : Observer) :
    (match (w.retold ρ).subscribe ch o with
      | (.registered _, w) => w
      | (.replayed v, w) => w.replay ch v o) =
    (match w.subscribe ch o with
      | (.registered _, w) => w
      | (.replayed v, w) => w.replay ch v o : World).retold ρ := by
  rw [subscribe_retold]
  rcases subscribe_cases w ch o with ⟨_, heq⟩ | ⟨v, _, heq⟩
  · rw [heq]
  · rw [heq]
    rfl

theorem deliver_retold (ch : ChannelRef) (v : Value) (os : List Observer) :
    (w.retold ρ).deliver ch v os = (w.deliver ch v os).retold ρ := by
  unfold deliver
  rw [note_retold ρ w (e := .fired ch v) rfl]
  rfl

theorem fireBefore_retold (c : ContextNo) (r : Response) :
    (w.retold ρ).fireBefore c r = (w.fireBefore c r).retold ρ := by
  unfold fireBefore
  rw [contexts_retold]
  cases (w.contexts[c]?).bind fun x => x.before.fire? r with
  | none => rfl
  | some p => exact deliver_retold ρ (w.modifyContext c fun x => { x with before := p.2 }) _ _ _

theorem fireResponse_retold (c : ContextNo) (r : Response) :
    (w.retold ρ).fireResponse c r = (w.fireResponse c r).retold ρ := by
  unfold fireResponse
  rw [contexts_retold]
  cases (w.contexts[c]?).bind fun x => x.response.fire? r with
  | none => rfl
  | some p => exact deliver_retold ρ (w.modifyContext c fun x => { x with response := p.2 }) _ _ _

theorem fireCompletion_retold (c : ContextNo) :
    (w.retold ρ).fireCompletion c = (w.fireCompletion c).retold ρ := by
  unfold fireCompletion
  rw [contexts_retold]
  cases (w.contexts[c]?).bind fun x => x.completion.fire? () with
  | none => rfl
  | some p => exact deliver_retold ρ (w.modifyContext c fun x => { x with completion := p.2 }) _ _ _

theorem fireSignal_retold (s : SignalNo) (r : Resolution) :
    (w.retold ρ).fireSignal s r = (w.fireSignal s r).retold ρ := by
  unfold fireSignal
  rw [signals_retold]
  cases (w.signals[s]?).bind fun x => x.channel.fire? r with
  | none => rfl
  | some p => exact deliver_retold ρ (w.modifySignal s fun x => { x with channel := p.2 }) _ _ _

/-! ## The library's own work -/

theorem notify_retold (ch : ChannelRef) (replay : Bool) (v : Value) (o : Observer) :
    (w.retold ρ).notify ch replay v o = (w.notify ch replay v o).retold ρ := by
  cases o with
  | client label keeps =>
    cases replay <;> exact note_retold ρ (w.push [.observer ch label v]) rfl
  | empty => rfl
  | settleLink c =>
    simp only [notify]
    split
    · rename_i f _
      exact congrArg (fun w => World.push w [.giveUp c .link]) (log_retold ρ w _ _)
    · rfl
  | settleError c e result =>
    simp only [notify]
    split <;> rfl

theorem giveUpSlot_retold (c : ContextNo) (share : Share) :
    (w.retold ρ).giveUpSlot c share = (w.giveUpSlot c share).retold ρ := by
  unfold giveUpSlot
  rw [contexts_retold]
  cases (w.contexts[c]?).bind fun x => x.slots.release with
  | none => rfl
  | some p =>
    obtain ⟨last, slots⟩ := p
    let left (w : World) : World :=
      ((w.modifyContext c fun x => { x with slots := slots }).point).note (.left c share)
    have hleft : left (w.retold ρ) = (left w).retold ρ :=
      note_retold ρ (w.modifyContext c fun x => { x with slots := slots }).point
        (e := .left c share) rfl
    cases last with
    | false => exact hleft
    | true =>
      have hdrained : (left (w.retold ρ)).note (.drained c) = ((left w).note (.drained c)).retold ρ :=
        (congrArg (fun w => World.note w (.drained c)) hleft).trans
          (note_retold ρ (left w) (e := .drained c) rfl)
      have hqueue : ((left w).note (.drained c)).queue = w.queue := rfl
      dsimp only
      rw [if_pos rfl, if_pos rfl, hdrained, queue_retold, hqueue]
      cases w.queue <;> rfl

theorem preparing_retold (c : ContextNo) (q : List ContextNo) :
    (w.retold ρ).preparing c q = (w.preparing c q).retold ρ :=
  congrArg (fun v => World.push (World.modifyContext v c fun x => { x with hold := none })
      [.told c ((w.contexts[c]?).bind Context.hold), .climb])
    (log_retold ρ { w with queue := some q } .debug ((w.contexts[c]?).elim "" completionNote))

theorem completeNext_retold : (w.retold ρ).completeNext = w.completeNext.retold ρ := by
  cases hq : w.queue with
  | none =>
    unfold completeNext
    rw [hq, show (w.retold ρ).queue = none from hq]
  | some l =>
    cases l with
    | nil =>
      unfold completeNext
      rw [hq, show (w.retold ρ).queue = some [] from hq]
      rfl
    | cons c q =>
      rw [completeNext_fires hq, completeNext_fires (w := w.retold ρ) hq, preparing_retold,
        fireCompletion_retold]

theorem tellParent_retold (c : ContextNo) (parent : Option ContextNo) :
    (w.retold ρ).tellParent c parent = (w.tellParent c parent).retold ρ := by
  cases parent with
  | none => exact releaseAll_retold ρ w _
  | some p =>
    simp only [tellParent]
    rw [contexts_retold]
    cases (w.contexts[p]?).bind fun x => x.slots.release with
    | none =>
      exact congrArg (fun v => World.push v [.throwing Counter.overReleased])
        (releaseAll_retold ρ w [.context p, .context c])
    | some a =>
      obtain ⟨last, slots⟩ := a
      have hleft := note_retold ρ (w.modifyContext p fun x => { x with slots := slots }).point
        (e := .left p (.child c)) rfl
      have hdrained := note_retold ρ (World.note
        (w.modifyContext p fun x => { x with slots := slots }).point (.left p (.child c)))
        (e := .drained p) rfl
      cases last with
      | false => exact (congrArg (fun v => World.releaseAll v _) hleft).trans (releaseAll_retold ρ _ _)
      | true =>
        have hboth := (congrArg (fun w => World.note w (.drained p)) hleft).trans hdrained
        exact (congrArg (fun v => World.releaseAll { v with queue := v.queue.map fun q => q ++ [p] }
          [.context c]) hboth).trans (releaseAll_retold ρ
            { World.note (World.note _ _) _ with queue := w.queue.map fun q => q ++ [p] } _)

theorem abandonQueue_retold : (w.retold ρ).abandonQueue = w.abandonQueue.retold ρ :=
  releaseAll_retold ρ { w with queue := none } _

theorem resolveError_retold (c : ContextNo) (e : Failure) (failed : Option (Option Failure))
    (result : SignalNo) :
    (w.retold ρ).resolveError c e failed result = (w.resolveError c e failed result).retold ρ := by
  cases failed with
  | none => exact fireSignal_retold ρ w result {}
  | some h =>
    exact (congrArg (fun v => World.fireSignal v result _) (log_retold ρ w _ _)).trans
      (fireSignal_retold ρ _ result _)

theorem returnCall_retold (r : Reply) (kept : List Ref) :
    (w.retold ρ).returnCall r kept = (w.returnCall r kept).retold ρ := by
  unfold returnCall
  cases r with
  | context c =>
    exact releaseAll_retold ρ
      ((w.modifyContext c fun x => { x with holders := x.holders + 1 }).answered (.context c)) kept
  | signal s =>
    exact releaseAll_retold ρ
      ((w.modifySignal s fun x => { x with holders := x.holders + 1 }).answered (.signal s)) kept
  | done => exact releaseAll_retold ρ (w.answered _) kept
  | flag b => exact releaseAll_retold ρ (w.answered _) kept
  | subscription ch n => exact releaseAll_retold ρ (w.answered _) kept

theorem unwind_retold (f : Failure) (rest : List Frame) :
    (w.retold ρ).unwind f rest = (w.unwind f rest).retold ρ := by
  unfold unwind
  split
  · rfl
  · rfl
  · rfl
  · rename_i ch replay v todo spent below
    exact log_retold ρ { w with stack := .deliver ch replay v todo spent :: below } _ _
  · rename_i below
    exact abandonQueue_retold ρ { w with stack := .throwing f :: below }
  · rename_i c parent below
    exact releaseAll_retold ρ { w with stack := .throwing f :: below } _
  · rename_i r kept below
    exact releaseAll_retold ρ { w with stack := .throwing f :: below } _
  · rfl

theorem reportBranch_retold (c : ContextNo) :
    (w.retold ρ).reportBranch c = (w.reportBranch c).retold ρ := by
  unfold reportBranch
  rw [contexts_retold]
  cases w.contexts[c]? <;> rfl

theorem advance_retold : (w.retold ρ).advance = w.advance.retold ρ := by
  unfold advance
  rw [stack_retold]
  split
  · rfl
  · rfl
  · rfl
  · exact releaseAll_retold ρ { w with stack := _ } _
  · exact notify_retold ρ { w with stack := _ } _ _ _ _
  · rename_i c r rest _
    have hnote := note_retold ρ { w with stack := .answer c r :: rest } (e := .publishing c r) rfl
    have hreport := (congrArg (fun v => World.reportBranch v c) hnote).trans
      (reportBranch_retold ρ _ c)
    exact (congrArg (fun v => World.fireBefore v c r) hreport).trans (fireBefore_retold ρ _ c r)
  · rename_i c r rest _
    exact fireResponse_retold ρ (World.point { w with stack := .giveUp c .own :: rest }) c r
  · exact giveUpSlot_retold ρ { w with stack := _ } _ _
  · exact completeNext_retold ρ { w with stack := _ }
  · exact tellParent_retold ρ { w with stack := _ } _ _
  · exact resolveError_retold ρ { w with stack := _ } _ _ _ _
  · exact returnCall_retold ρ { w with stack := _ } _ _
  · exact unwind_retold ρ { w with stack := _ } _ _

/-! ## Returns from callbacks -/

theorem finish_retold (thrown : Option Failure) :
    (w.retold ρ).finish thrown = (w.finish thrown).retold ρ := by
  unfold finish
  rw [stack_retold]
  split
  · cases thrown with
    | none => rfl
    | some f => exact log_retold ρ { w with stack := _ } _ _
  · rfl

theorem settleBy_retold (s : SignalNo) (c : ContextNo) (e : Failure) (result : SignalNo) :
    (w.retold ρ).settleBy s c e result = (w.settleBy s c e result).retold ρ :=
  attach_retold ρ (w.push [.returning (.signal result) [.signal s, .context c]]) (.signal s)
    (.settleError c e result)

theorem handled_retold (a : Handled) : (w.retold ρ).handled a = (w.handled a).retold ρ := by
  unfold handled
  rw [stack_retold]
  split
  · cases a with
    | nothing => rfl
    | threw f =>
      exact settleBy_retold ρ (World.makeSignal { w with stack := _ }
        (some { failure := some f })).2 _ _ _ _
    | signal s =>
      exact settleBy_retold ρ (World.modifySignal { w with stack := _ } s
        fun x => { x with holders := x.holders - 1 }) s _ _ _
  · rfl

/-! ## Calls -/

theorem success_retold (c : ContextNo) (result : Option Int) :
    (w.retold ρ).success c result = (w.success c result).retold ρ := by
  unfold success
  dsimp only
  have hsame : (w.retold ρ).point.contexts[c]? = w.point.contexts[c]? := rfl
  rw [hsame]
  cases w.point.contexts[c]? with
  | none => rfl
  | some x =>
    dsimp only
    split
    · exact congrArg (fun v => World.answered v (.flag false)) (log_retold ρ w.point _ _)
    · rfl

theorem error_retold (c : ContextNo) (failure : Option Failure) :
    (w.retold ρ).error c failure = (w.error c failure).retold ρ := by
  cases failure with
  | none => rfl
  | some e =>
    simp only [error]
    have hsame : (w.retold ρ).point.contexts[c]? = w.point.contexts[c]? := rfl
    rw [hsame]
    cases w.point.contexts[c]? with
    | none => rfl
    | some x =>
      dsimp only
      split
      · have hlog := log_retold ρ w.point .warning
          (ignoredNote x ("error() ignored: " ++ e.describe))
        exact congrArg (fun v : World => (v.makeSignal (some { alreadyCompleted := true })).2.push
          [.returning (.signal (v.makeSignal (some { alreadyCompleted := true })).1) []]) hlog
      · exact note_retold ρ (((w.point.modifyContext c fun x => { x with state := .failed }).makeSignal
          none).2.push [.handler x.handler c e w.signals.size])
            (e := .handling x.handler c .failed e w.signals.size) rfl

theorem refuseSlot_retold (c : ContextNo) :
    (w.retold ρ).refuseSlot c = (w.refuseSlot c).retold ρ :=
  congrArg (fun v => World.refused v (.alreadyCompleted (w.idOf c))) (log_retold ρ w _ _)

theorem takeSlot_retold (c : ContextNo) (share : Share) :
    (w.retold ρ).takeSlot c share = (w.takeSlot c share).map (World.retold ρ) := by
  unfold takeSlot
  rw [Option.map_map]
  refine congrArg (fun f => Option.map f ((w.contexts[c]?).bind fun x => x.slots.tryAdd)) ?_
  funext slots
  exact note_retold ρ (w.modifyContext c fun x => { x with slots := slots }).point
    (e := .joined c share) rfl

theorem enter_retold (x : Context) (g : Registry) :
    (w.retold ρ).enter x g = (w.enter x g).retold ρ := by
  have hcreated := note_retold ρ { w with contexts := w.contexts.push x, registry := g }
    (e := .created w.contexts.size) rfl
  have hjoined := note_retold ρ
    (World.note { w with contexts := w.contexts.push x, registry := g } (.created w.contexts.size))
    (e := .joined w.contexts.size .own) rfl
  have hboth := (congrArg (fun v => World.note v (.joined w.contexts.size .own)) hcreated).trans hjoined
  exact (congrArg (fun v => World.log v .debug ("created " ++ v.print w.contexts.size)) hboth).trans
    (log_retold ρ _ _ _)

theorem createRoot_retold (spec : RootSpec) :
    (w.retold ρ).createRoot spec = (w.createRoot spec).retold ρ := by
  rw [World.createRoot_eq, World.createRoot_eq]
  cases spec.fault? with
  | some f => rfl
  | none =>
    dsimp only
    have hreg : (w.retold ρ).registry.register? (w.retold ρ).isLive spec.id
        (w.retold ρ).contexts.size = w.registry.register? w.isLive spec.id w.contexts.size := rfl
    rw [hreg]
    cases w.registry.register? w.isLive spec.id w.contexts.size with
    | none => rfl
    | some g =>
      have henter := enter_retold ρ { w with trees := w.trees.push spec.tree }
        (spec.build w.contexts.size w.trees.size) g
      have hpush := congrArg (fun v => World.push v [.returning (.context w.contexts.size) []]) henter
      cases spec.link with
      | none => exact hpush
      | some s =>
        have hjoined := (congrArg (fun v => World.note v (.joined w.contexts.size .link)) hpush).trans
          (note_retold ρ (World.push _ [.returning (.context w.contexts.size) []])
            (e := .joined w.contexts.size .link) rfl)
        exact (congrArg (fun v : World => match v.subscribe (.signal s)
            (.settleLink w.contexts.size) with
          | (.registered _, w) => w
          | (.replayed v, w') => w'.replay (.signal s) v (.settleLink w.contexts.size)) hjoined).trans
            (attach_retold ρ _ _ _)

theorem createChild_retold (parent : ContextNo) (location : Option Location) (handler : Option Nat)
    (correlation : Option String) : (w.retold ρ).createChild parent location handler correlation =
      (w.createChild parent location handler correlation).retold ρ := by
  rw [World.createChild_eq, World.createChild_eq]
  have hsame : (w.retold ρ).contexts = w.contexts := rfl
  rw [hsame]
  split
  · rfl
  · rfl
  · rename_i location p hx
    dsimp only
    rw [takeSlot_retold]
    cases w.takeSlot parent (.child w.contexts.size) with
    | none => exact refuseSlot_retold ρ w parent
    | some v =>
      dsimp only [Option.map_some]
      have hreg : ((v.retold ρ).nextDescendant p.tree).2.registry.register?
          ((v.retold ρ).nextDescendant p.tree).2.isLive ((v.retold ρ).nextDescendant p.tree).1
            w.contexts.size = (v.nextDescendant p.tree).2.registry.register?
              (v.nextDescendant p.tree).2.isLive (v.nextDescendant p.tree).1 w.contexts.size := rfl
      rw [hreg]
      split
      · exact congrArg (fun u => World.push u [.giveUp parent (.child w.contexts.size),
          .throwing (.idInUse (v.nextDescendant p.tree).1)])
          (note_retold ρ (v.nextDescendant p.tree).2
            (e := .rejected parent (v.nextDescendant p.tree).1) rfl)
      · rename_i g hg
        exact congrArg (fun u => World.push u [.returning (.context w.contexts.size) []])
          (enter_retold ρ (v.nextDescendant p.tree).2 _ g)

theorem firing_retold (ch : ChannelRef) (fire : World → World)
    (h : ∀ w : World, fire (w.retold ρ) = (fire w).retold ρ) :
    (w.retold ρ).firing ch fire = (w.firing ch fire).retold ρ := by
  unfold firing isFired
  rw [value?_retold]
  split
  · rfl
  · exact h (w.push [.returning (.flag true) []])

/-- A call makes the same of a retold world, unless it changes the threshold. -/
theorem call_retold {c : Call} (hc : ∀ l, c = .setThreshold l → ρ.threshold l = l) :
    (w.retold ρ).call c = (w.call c).retold ρ := by
  cases c with
  | createRoot spec => exact createRoot_retold ρ w spec
  | createChild parent location handler correlation =>
    exact createChild_retold ρ w parent location handler correlation
  | success c result => exact success_retold ρ w c result
  | error c failure => exact error_retold ρ w c failure
  | addChild c =>
    simp only [call]
    rw [takeSlot_retold]
    cases w.takeSlot c .participant with
    | none => exact refuseSlot_retold ρ w c
    | some v => rfl
  | childCompleted c => rfl
  | subscribe ch label keeps =>
    simp only [call]
    rw [subscribe_retold]
    rcases subscribe_cases w ch (label.elim .empty fun label => .client label keeps) with
      ⟨_, heq⟩ | ⟨v, _, heq⟩ <;> rw [heq] <;> rfl
  | unsubscribe ch n =>
    simp only [call]
    rw [modifyChannel_retold, observer?_retold, releaseAll_retold]
    rfl
  | fireBefore c r => exact firing_retold ρ w _ (fireBefore · c r) fun v => fireBefore_retold ρ v c r
  | fireResponse c r => exact firing_retold ρ w _ (fireResponse · c r) fun v => fireResponse_retold ρ v c r
  | fireCompletion c => exact firing_retold ρ w _ (fireCompletion · c) fun v => fireCompletion_retold ρ v c
  | fireSignal s r => exact firing_retold ρ w _ (fireSignal · s r) fun v => fireSignal_retold ρ v s r
  | wait ch =>
    simp only [call, isFired]
    rw [modifyChannel_retold, value?_retold]
    rfl
  | makeSignal r => cases r <;> rfl
  | hold r => cases r <;> rfl
  | drop r =>
    cases r with
    | context c =>
      exact congrArg (fun v => World.answered v .done)
        (releaseAll_retold ρ (w.modifyContext c fun x => { x with holders := x.holders - 1 }) _)
    | signal s =>
      exact congrArg (fun v => World.answered v .done)
        (releaseAll_retold ρ (w.modifySignal s fun x => { x with holders := x.holders - 1 }) _)
  | register id c =>
    simp only [call]
    have hreg : (w.retold ρ).registry.register? (w.retold ρ).isLive id c =
        w.registry.register? w.isLive id c := rfl
    rw [hreg]
    cases w.registry.register? w.isLive id c <;> rfl
  | unregister id c => rfl
  | setThreshold level =>
    simp only [call, retold, answered]
    rw [hc level rfl]
  | addProcessor c path => rfl

/-! ## Moves -/

/-- A move makes of a retold world what it makes of the world, retold, unless it changes the
threshold. -/
theorem move_retold {m : Move} (hm : ∀ l, m = .call (.setThreshold l) → ρ.threshold l = l) :
    (w.retold ρ).move m = (w.move m).retold ρ := by
  cases m with
  | advance => exact advance_retold ρ w
  | call c => exact call_retold ρ w fun l hl => hm l (congrArg Move.call hl)
  | finish thrown => exact finish_retold ρ w thrown
  | handled a => exact handled_retold ρ w a

/-- The same moves are due in a retold world. -/
theorem allows_retold (m : Move) : (w.retold ρ).allows m = w.allows m := by
  cases m with
  | advance => rfl
  | call c => cases c <;> rfl
  | finish thrown => rfl
  | handled a => rfl

/-! ## What a move adds to the history -/

/-- The world without its history. -/
def afresh (w : World) : World := { w with history := #[] }

/-- What a move adds to the history. -/
def adds (w : World) (m : Move) : Array Event := (w.afresh.move m).history

theorem retold_afresh : w.afresh.retold (.after w.history) = w := by
  simp [retold, afresh, Retelling.after]

theorem move_eq_retold (m : Move) :
    w.move m = (w.afresh.move m).retold (.after w.history) := by
  rw [← move_retold _ _ fun _ _ => rfl, retold_afresh]

theorem history_move (w : World) (m : Move) : (w.move m).history = w.history ++ w.adds m := by
  rw [move_eq_retold]
  rfl

/-! ## Runs -/

variable {ρ w} {moves : List Move}

theorem move_retold_of_mem {m : Move} (h : ∀ l, .call (.setThreshold l) ∉ moves) (hm : m ∈ moves) :
    (w.retold ρ).move m = (w.move m).retold ρ :=
  move_retold ρ w fun l hl => absurd (hl ▸ hm) (h l)

/-- A run makes of a retold world what it makes of the world, retold, if it does not change the threshold. -/
theorem run_retold (h : ∀ l, .call (.setThreshold l) ∉ moves) :
    machine.run (w.retold ρ) moves = (machine.run w moves).retold ρ := by
  induction moves generalizing w with
  | nil => rfl
  | cons m moves ih =>
    have hrest : ∀ l, .call (.setThreshold l) ∉ moves := fun l hl => h l (List.mem_cons_of_mem m hl)
    calc machine.run (w.retold ρ) (m :: moves)
        = machine.run ((w.retold ρ).move m) moves := rfl
      _ = machine.run ((w.move m).retold ρ) moves := by rw [move_retold_of_mem h List.mem_cons_self]
      _ = (machine.run (w.move m) moves).retold ρ := ih hrest

/-- The same runs are legal. -/
theorem legal_retold (h : ∀ l, .call (.setThreshold l) ∉ moves) :
    machine.legal (w.retold ρ) moves = machine.legal w moves := by
  induction moves generalizing w with
  | nil => rfl
  | cons m moves ih =>
    have hrest : ∀ l, .call (.setThreshold l) ∉ moves := fun l hl => h l (List.mem_cons_of_mem m hl)
    calc machine.legal (w.retold ρ) (m :: moves)
        = ((w.retold ρ).allows m && machine.legal ((w.retold ρ).move m) moves) := rfl
      _ = (w.allows m && machine.legal (w.move m) moves) := by
        rw [allows_retold, move_retold_of_mem h List.mem_cons_self, ih hrest]

end World

end FanIn
