import FanIn.Proofs.Tree.Queue

/-!
# Every call returns

How much is left to do until the outermost call has returned, if clients make no further calls, can be
told in advance: `World.toil` counts the work under way, and what that may yet cause at channels which
have not fired. Every step of the library takes something off it, and so does every return of a
callback, whatever it returns. Completing a context costs less than its completion stood for, so the
climb to the root is covered however high the tree is.

Main statements: `toil_move`, which says so of one move, `Orderly.length_le` and `Orderly.returns`.
-/

namespace FanIn

/-! ## What is left to do -/

/-- What it takes to notify an observer and to do what that leads to. -/
def Observer.toil : Observer → Nat
  | client .. => 2
  | empty => 1
  | settleLink _ => 4
  | settleError .. => 7

/-- What it takes to notify all observers of a channel, if it fires. -/
def Channel.toil {α : Type} : Channel α FanIn.Observer → Nat
  | waiting _ os => 1 + (os.map fun e => e.2.toil).sum
  | fired _ => 0

@[simp] theorem Channel.toil_fired {α : Type} (v : α) :
    (Channel.fired v : Channel α FanIn.Observer).toil = 0 := rfl

/-- A channel that has not fired stands for the notification of its observers. -/
theorem Channel.toil_of_waiting {α : Type} {c : Channel α FanIn.Observer} (h : c.value? = none) :
    c.toil = 1 + ((c.observers.map Prod.snd).map FanIn.Observer.toil).sum := by
  cases c with
  | fired v => cases h
  | waiting n os => simp [toil, observers, Function.comp_def]

theorem Channel.toil_subscribe {α : Type} (c : Channel α FanIn.Observer) (o : FanIn.Observer) :
    (c.subscribe o).2.toil ≤ o.toil + c.toil := by
  cases c with
  | fired v => exact Nat.zero_le _
  | waiting n os =>
    simp only [subscribe, toil, List.map_append, List.sum_append, List.map_cons, List.map_nil,
      List.sum_cons, List.sum_nil]
    omega

/-- What a context may yet cause. A completion is told to the parent as well, which may be queued. -/
def Context.toil (x : Context) : Nat :=
  x.before.toil + x.response.toil + x.completion.toil + if x.completion.isFired then 0 else 3

def Signal.toil (x : Signal) : Nat := x.channel.toil

/-- What it takes to do the work of a frame, apart from what it fires. -/
def Frame.toil : Frame → Nat
  | observer .. => 1
  | handler .. => 11
  | deliver _ _ _ todo _ => 1 + (todo.map Observer.toil).sum
  | respond .. => 5
  | answer .. => 4
  | giveUp .. => 3
  | climb => 1
  | told .. => 2
  | conclude .. => 1
  | returning .. => 1
  | throwing _ => 1

theorem Frame.toil_pos (f : Frame) : 0 < f.toil := by
  cases f <;> simp only [toil] <;> omega

/-- Whether a move calls the library. -/
def Move.isCall : Move → Bool
  | call _ => true
  | _ => false

namespace World

variable {t : Terms} {w w' : World}

/-- What may yet be caused at channels that have not fired. -/
def prospects (w : World) : Nat :=
  (w.contexts.toList.map Context.toil).sum + (w.signals.toList.map Signal.toil).sum

/-- What is left to do. -/
def toil (w : World) : Nat :=
  (w.stack.map Frame.toil).sum + (w.queue.getD []).length + w.prospects

/-! ## What leaves it alone -/

theorem prospects_congr (hc : w'.contexts = w.contexts) (hs : w'.signals = w.signals) :
    w'.prospects = w.prospects := by
  unfold prospects
  rw [hc, hs]

/-- A context changes. -/
theorem prospects_change {c : ContextNo} {x : Context} (hx : w.contexts[c]? = some x)
    (f : Context → Context) :
    (w.modifyContext c f).prospects + x.toil = w.prospects + (f x).toil := by
  have hsum := sum_map_modify_add Context.toil f (l := w.contexts.toList) (i := c) (x := x)
    (by simpa using hx)
  simp only [prospects, modifyContext, Array.toList_modify]
  omega

/-- A signal changes. -/
theorem prospects_changeSignal {s : SignalNo} {x : Signal} (hx : w.signals[s]? = some x)
    (f : Signal → Signal) :
    (w.modifySignal s f).prospects + x.toil = w.prospects + (f x).toil := by
  have hsum := sum_map_modify_add Signal.toil f (l := w.signals.toList) (i := s) (x := x)
    (by simpa using hx)
  simp only [prospects, modifySignal, Array.toList_modify]
  omega

/-- A context changes in other respects. -/
theorem prospects_modifyContext {c : ContextNo} {f : Context → Context}
    (hf : ∀ x, (f x).toil = x.toil) : (w.modifyContext c f).prospects = w.prospects := by
  cases hx : w.contexts[c]? with
  | none =>
    have hlen : w.contexts.toList.length ≤ c := by simpa using hx
    simp only [prospects, modifyContext, Array.toList_modify, List.modify_eq_self hlen]
  | some x =>
    have hchange := prospects_change hx f
    rw [hf] at hchange
    omega

theorem prospects_modifySignal {s : SignalNo} {f : Signal → Signal}
    (hf : ∀ x, (f x).toil = x.toil) : (w.modifySignal s f).prospects = w.prospects := by
  cases hx : w.signals[s]? with
  | none =>
    have hlen : w.signals.toList.length ≤ s := by simpa using hx
    simp only [prospects, modifySignal, Array.toList_modify, List.modify_eq_self hlen]
  | some x =>
    have hchange := prospects_changeSignal hx f
    rw [hf] at hchange
    omega

/-- What is destroyed keeps its channels. -/
theorem prospects_destroy (r : Ref) : (w.destroy r).prospects = w.prospects := by
  cases r with
  | signal s => exact prospects_modifySignal (f := fun x => { x with isLive := false }) fun _ => rfl
  | context c =>
    simp only [destroy]
    split
    · rfl
    · rename_i x _
      have hgone := prospects_modifyContext (w := w.farewell c x true) (c := c)
        (f := fun x => { x with isLive := false, hold := none }) fun _ => rfl
      exact hgone.trans (prospects_congr (contexts_farewell w c x true) (signals_farewell w c x true))

theorem prospects_releaseAll (refs : List Ref) : (w.releaseAll refs).prospects = w.prospects :=
  releaseAll_induction (P := fun w' => w'.prospects = w.prospects)
    (fun w' r h _ _ => (prospects_destroy (w := w') r).trans h) rfl refs

theorem toil_congr (hst : w'.stack = w.stack) (hq : w'.queue = w.queue)
    (hp : w'.prospects = w.prospects) : w'.toil = w.toil := by
  unfold toil
  rw [hst, hq, hp]

@[simp] theorem toil_note (e : Event) : (w.note e).toil = w.toil := rfl

@[simp] theorem toil_point : w.point.toil = w.toil := rfl

@[simp] theorem toil_answered (r : Reply) : (w.answered r).toil = w.toil := rfl

@[simp] theorem toil_log (l : Log.Level) (m : String) : (w.log l m).toil = w.toil :=
  toil_congr (by simp) (by simp) (prospects_congr (contexts_log w l m) (signals_log w l m))

@[simp] theorem toil_releaseAll (refs : List Ref) : (w.releaseAll refs).toil = w.toil :=
  toil_congr (by simp) (by simp) (prospects_releaseAll refs)

@[simp] theorem toil_reportBranch (c : ContextNo) : (w.reportBranch c).toil = w.toil := by
  unfold reportBranch
  split <;> rfl

/-- A context changes. -/
theorem toil_change {c : ContextNo} {x : Context} (hx : w.contexts[c]? = some x)
    (f : Context → Context) : (w.modifyContext c f).toil + x.toil = w.toil + (f x).toil := by
  have hchange := prospects_change hx f
  unfold toil
  rw [stack_modifyContext, queue_modifyContext]
  omega

/-- A signal changes. -/
theorem toil_changeSignal {s : SignalNo} {x : Signal} (hx : w.signals[s]? = some x)
    (f : Signal → Signal) : (w.modifySignal s f).toil + x.toil = w.toil + (f x).toil := by
  have hchange := prospects_changeSignal hx f
  unfold toil
  rw [stack_modifySignal, queue_modifySignal]
  omega

theorem toil_modifyContext {c : ContextNo} {f : Context → Context} (hf : ∀ x, (f x).toil = x.toil) :
    (w.modifyContext c f).toil = w.toil := toil_congr rfl rfl (prospects_modifyContext hf)

theorem toil_modifySignal {s : SignalNo} {f : Signal → Signal} (hf : ∀ x, (f x).toil = x.toil) :
    (w.modifySignal s f).toil = w.toil := toil_congr rfl rfl (prospects_modifySignal hf)

theorem toil_modifySignal_le {s : SignalNo} {f : Signal → Signal} {k : Nat}
    (hf : ∀ x, (f x).toil ≤ k + x.toil) : (w.modifySignal s f).toil ≤ k + w.toil := by
  cases hx : w.signals[s]? with
  | none =>
    have hlen : w.signals.toList.length ≤ s := by simpa using hx
    have hsame : (w.modifySignal s f).prospects = w.prospects := by
      simp only [prospects, modifySignal, Array.toList_modify, List.modify_eq_self hlen]
    have htoil : (w.modifySignal s f).toil = w.toil := toil_congr rfl rfl hsame
    omega
  | some x =>
    have hchange := toil_changeSignal hx f
    have hle := hf x
    omega

/-! ## What adds to it, and what takes off it -/

theorem toil_push (fs : List Frame) : (w.push fs).toil = (fs.map Frame.toil).sum + w.toil := by
  have hprospects : (w.push fs).prospects = w.prospects := rfl
  simp only [toil, stack_push, queue_push, List.map_append, List.sum_append, hprospects]
  omega

/-- The work of the frame on top is taken up. -/
theorem toil_pop {f : Frame} {rest : List Frame} (hs : w.stack = f :: rest) :
    w.toil = f.toil + World.toil { w with stack := rest } := by
  have hprospects : World.prospects { w with stack := rest } = w.prospects := rfl
  simp only [toil, hs, hprospects, List.map_cons, List.sum_cons]
  omega

/-- The queue changes. -/
theorem toil_requeue (w : World) (q : Option (List ContextNo)) :
    World.toil { w with queue := q } + (w.queue.getD []).length = w.toil + (q.getD []).length := by
  have hprospects : World.prospects { w with queue := q } = w.prospects := rfl
  unfold toil
  rw [hprospects]
  dsimp only
  omega

theorem toil_deliver (ch : ChannelRef) (v : Value) (os : List Observer) :
    (w.deliver ch v os).toil = 1 + (os.map Observer.toil).sum + w.toil := by
  unfold World.deliver
  rw [toil_push]
  simp [Frame.toil]

theorem toil_fireBefore (c : ContextNo) (r : Response) : (w.fireBefore c r).toil = w.toil := by
  rcases w.fireBefore_cases c r with ⟨_, heq⟩ | ⟨x, hx, hwaits, heq⟩
  · rw [heq]
  · have hnone := (waits_before hx).1 hwaits
    have hown := Channel.toil_of_waiting hnone
    have hchange := toil_change hx fun x => { x with before := .fired r }
    simp only [Context.toil, Channel.toil_fired] at hchange
    rw [heq, toil_deliver]
    omega

theorem toil_fireResponse (c : ContextNo) (r : Response) : (w.fireResponse c r).toil = w.toil := by
  rcases w.fireResponse_cases c r with ⟨_, heq⟩ | ⟨x, hx, hwaits, heq⟩
  · rw [heq]
  · have hnone := (waits_response hx).1 hwaits
    have hown := Channel.toil_of_waiting hnone
    have hchange := toil_change hx fun x => { x with response := .fired r }
    simp only [Context.toil, Channel.toil_fired] at hchange
    rw [heq, toil_deliver]
    omega

theorem toil_fireSignal (s : SignalNo) (r : Resolution) : (w.fireSignal s r).toil = w.toil := by
  rcases w.fireSignal_cases s r with ⟨_, heq⟩ | ⟨x, hx, hwaits, heq⟩
  · rw [heq]
  · have hnone := (waits_signal hx).1 hwaits
    have hown := Channel.toil_of_waiting hnone
    have hchange := toil_changeSignal hx fun x => { x with channel := .fired r }
    simp only [Signal.toil, Channel.toil_fired] at hchange
    rw [heq, toil_deliver]
    omega

/-- A completion that fires covers what it takes to tell the parent. -/
theorem toil_fireCompletion {c : ContextNo} (h : w.Waits (.completion c)) :
    (w.fireCompletion c).toil + 3 = w.toil := by
  rcases w.fireCompletion_cases c with ⟨hnot, _⟩ | ⟨x, hx, hwaits, heq⟩
  · exact absurd h hnot
  · have hnone := (waits_completion hx).1 hwaits
    have hown := Channel.toil_of_waiting hnone
    have hopen : x.completion.isFired = false := by simp [Channel.isFired, hnone]
    have hdone : (Channel.fired () : Channel Unit Observer).isFired = true := rfl
    have hchange := toil_change hx fun x => { x with completion := .fired () }
    simp only [Context.toil, hopen, hdone, Channel.toil_fired, if_true, Bool.false_eq_true,
      if_false] at hchange
    rw [heq, toil_deliver]
    omega

/-! ## Steps of the library -/

theorem toil_notify (ch : ChannelRef) (replay : Bool) (v : Value) (o : Observer) :
    (w.notify ch replay v o).toil < o.toil + w.toil := by
  cases o with
  | client label keeps =>
    simp only [World.notify, toil_note, toil_push, List.map_cons, List.map_nil, List.sum_cons,
      List.sum_nil, Frame.toil, Observer.toil]
    omega
  | empty =>
    simp only [World.notify, Observer.toil]
    omega
  | settleLink c =>
    simp only [World.notify]
    split <;> simp [toil_push, Frame.toil, Observer.toil]
  | settleError c e result =>
    simp only [World.notify]
    split <;> simp [toil_push, Frame.toil, Observer.toil]

/-- One slot less is seen only in the counter. -/
theorem toil_recount (c : ContextNo) (share : Share) (slots : Counter) :
    (((w.modifyContext c fun x => { x with slots := slots }).point).note (.left c share)).toil =
      w.toil := by
  rw [toil_note, toil_point]
  exact toil_modifyContext (f := fun x => { x with slots := slots }) fun _ => rfl

/-- At most one context is queued, and one frame climbs. -/
theorem toil_giveUpSlot (c : ContextNo) (share : Share) :
    (w.giveUpSlot c share).toil < 3 + w.toil := by
  unfold giveUpSlot
  split
  · simp [toil_push, Frame.toil]
  · rename_i last slots _
    have hslots := toil_recount (w := w) c share slots
    dsimp only
    generalize hv : ((w.modifyContext c fun x => { x with slots := slots }).point).note (.left c share) =
      v at hslots ⊢
    split
    · split
      · rename_i q hq
        have hqueue := toil_requeue (v.note (.drained c)) (some (q ++ [c]))
        simp only [hq, Option.getD_some, List.length_append, List.length_singleton, toil_note]
          at hqueue
        omega
      · rename_i hq
        have hqueue := toil_requeue (v.note (.drained c)) (some [c])
        simp only [hq, Option.getD_some, Option.getD_none, List.length_nil, List.length_singleton,
          toil_note] at hqueue
        rw [toil_push]
        simp only [List.map_cons, List.map_nil, List.sum_cons, List.sum_nil, Frame.toil]
        omega
    · omega

/-- At most one context is queued. -/
theorem toil_tellParent (c : ContextNo) (parent : Option ContextNo) :
    (w.tellParent c parent).toil < 2 + w.toil := by
  unfold tellParent
  split
  · simp
  · rename_i p
    split
    · simp [toil_push, Frame.toil]
    · rename_i last slots _
      have hslots := toil_recount (w := w) p (.child c) slots
      dsimp only
      generalize hv : ((w.modifyContext p fun x => { x with slots := slots }).point).note
        (.left p (.child c)) = v at hslots ⊢
      split
      · have hqueue := toil_requeue (v.note (.drained p)) ((v.note (.drained p)).queue.map fun q => q ++ [p])
        rw [toil_releaseAll]
        cases hq : (v.note (.drained p)).queue <;>
          simp only [hq, Option.map_some, Option.map_none, Option.getD_some, Option.getD_none,
            List.length_append, List.length_singleton, toil_note] at hqueue ⊢ <;> omega
      · rw [toil_releaseAll]
        omega

/-- The first context of the queue, which waits for that, completes. -/
theorem toil_completeNext (h : ∀ c q, w.queue = some (c :: q) → w.Waits (.completion c)) :
    w.completeNext.toil ≤ w.toil := by
  unfold World.completeNext
  split
  · exact Nat.le_refl _
  · rename_i hq
    have hqueue := toil_requeue w none
    rw [hq] at hqueue
    exact Nat.le_of_eq hqueue
  · rename_i c q hq
    have hqueue := toil_requeue w (some q)
    simp only [hq, Option.getD_some, List.length_cons] at hqueue
    dsimp only
    generalize hv : World.log { w with queue := some q } .debug
      ((w.contexts[c]?).elim "" completionNote) = v
    have hlog : v.toil = World.toil { w with queue := some q } := by rw [← hv, toil_log]
    have hhold := toil_modifyContext (w := v) (c := c) (f := fun x => { x with hold := none })
      fun _ => rfl
    have hwaits : World.Waits ((v.modifyContext c fun x => { x with hold := none }).push
        [.told c ((w.contexts[c]?).bind Context.hold), .climb]) (.completion c) := by
      have hsame : World.channel? ((v.modifyContext c fun x => { x with hold := none }).push
          [.told c ((w.contexts[c]?).bind Context.hold), .climb]) (.completion c) =
            w.channel? (.completion c) := by
        rw [← hv]
        exact channel?_preparing c q _
      exact (waits_of_channel? hsame).2 (h c q hq)
    have hfire := toil_fireCompletion hwaits
    rw [toil_push] at hfire
    simp only [List.map_cons, List.map_nil, List.sum_cons, List.sum_nil, Frame.toil] at hfire
    omega

/-- A failure takes a frame away, or ends. -/
theorem toil_unwind (f : Failure) (rest : List Frame) :
    (World.unwind { w with stack := rest } f rest).toil ≤ World.toil { w with stack := rest } := by
  have drop : ∀ {g : Frame} {below : List Frame}, rest = g :: below →
      World.toil { w with stack := .throwing f :: below } ≤ World.toil { w with stack := rest } := by
    rintro g below rfl
    have hold : World.toil { w with stack := g :: below } =
      g.toil + World.toil { w with stack := below } := toil_pop rfl
    have hnew : World.toil { w with stack := .throwing f :: below } =
      (Frame.throwing f).toil + World.toil { w with stack := below } := toil_pop rfl
    have hpos := g.toil_pos
    simp only [Frame.toil] at hnew
    omega
  cases rest with
  | nil => exact Nat.le_refl _
  | cons g below =>
    cases g with
    | observer ch l v => exact Nat.le_refl _
    | handler n c e s => exact Nat.le_refl _
    | deliver ch replay v todo spent =>
      simp only [World.unwind, toil_log]
      exact Nat.le_refl _
    | climb =>
      have hdrop := drop (g := .climb) rfl
      have hqueue := toil_requeue { w with stack := .throwing f :: below } none
      simp only [World.unwind, abandonQueue, toil_releaseAll]
      simp only [Option.getD_none, List.length_nil] at hqueue
      omega
    | told c p =>
      simp only [World.unwind, toil_releaseAll]
      exact drop rfl
    | returning r kept =>
      simp only [World.unwind, toil_releaseAll]
      exact drop rfl
    | respond c r => exact drop rfl
    | answer c r => exact drop rfl
    | giveUp c share => exact drop rfl
    | conclude c e failed result => exact drop rfl
    | throwing f' => exact drop rfl

/-- A client has a reference more. -/
theorem toil_returnCall (r : Reply) (kept : List Ref) : (w.returnCall r kept).toil = w.toil := by
  unfold returnCall
  rw [toil_releaseAll, toil_answered]
  cases r with
  | context c => exact toil_modifyContext (f := fun x => { x with holders := x.holders + 1 }) fun _ => rfl
  | signal s => exact toil_modifySignal (f := fun x => { x with holders := x.holders + 1 }) fun _ => rfl
  | _ => rfl

theorem toil_resolveError (c : ContextNo) (e : Failure) (failed : Option (Option Failure))
    (result : SignalNo) : (w.resolveError c e failed result).toil = w.toil := by
  unfold resolveError
  split
  · exact toil_fireSignal _ _
  · rw [toil_fireSignal, toil_log]

/-- Every step of the library takes something off what is left to do. -/
theorem toil_advance (h : ∀ c q, w.queue = some (c :: q) → w.Waits (.completion c))
    (busy : w.isClientsTurn = false) : w.advance.toil < w.toil := by
  unfold World.advance
  split <;> rename_i hs
  · rw [isClientsTurn, hs] at busy
    cases busy
  · rw [isClientsTurn, hs] at busy
    cases busy
  · rw [isClientsTurn, hs] at busy
    cases busy
  · rw [toil_pop hs, toil_releaseAll]
    simp only [Frame.toil]
    omega
  · rename_i ch replay v o todo spent rest
    have hnotify := toil_notify (w := { w with stack := .deliver ch replay v todo spent :: rest })
      ch replay v o
    have hdeliver := toil_pop (w := { w with stack := .deliver ch replay v todo spent :: rest }) rfl
    rw [toil_pop hs]
    simp only [Frame.toil, List.map_cons, List.sum_cons] at hdeliver ⊢
    omega
  · rename_i c r rest
    have hanswer := toil_pop (w := { w with stack := .answer c r :: rest }) rfl
    rw [toil_pop hs, toil_fireBefore, toil_reportBranch, toil_note]
    simp only [Frame.toil] at hanswer ⊢
    omega
  · rename_i c r rest
    have hgiveUp := toil_pop (w := { w with stack := .giveUp c .own :: rest }) rfl
    rw [toil_pop hs, toil_fireResponse, toil_point]
    simp only [Frame.toil] at hgiveUp ⊢
    omega
  · rw [toil_pop hs]
    exact toil_giveUpSlot _ _
  · rename_i rest
    have hnext := toil_completeNext (w := { w with stack := rest }) h
    rw [toil_pop hs]
    simp only [Frame.toil]
    omega
  · rw [toil_pop hs]
    exact toil_tellParent _ _
  · rw [toil_pop hs, toil_resolveError]
    simp only [Frame.toil]
    omega
  · rw [toil_pop hs, toil_returnCall]
    simp only [Frame.toil]
    omega
  · rename_i f rest
    have hunwind := toil_unwind (w := w) f rest
    rw [toil_pop hs]
    simp only [Frame.toil]
    omega

/-! ## Returns of callbacks -/

theorem toil_finish {thrown : Option Failure} (h : w.allows (.finish thrown) = true) :
    (w.finish thrown).toil < w.toil := by
  obtain ⟨ch, l, v, rest, hs⟩ := observer_of_finish h
  rw [toil_pop hs]
  unfold finish
  rw [hs]
  cases thrown with
  | none =>
    simp only [Frame.toil]
    omega
  | some f =>
    simp only [toil_log, Frame.toil]
    omega

theorem prospects_makeSignal_fired (r : Resolution) :
    (w.makeSignal (some r)).2.prospects = w.prospects := by
  simp [makeSignal, addSignal, prospects, point, Signal.toil]

/-- The error waits for a signal with one observer more, or is finished at once. -/
theorem toil_settleBy (s : SignalNo) (c : ContextNo) (e : Failure) (result : SignalNo) :
    (w.settleBy s c e result).toil < 11 + w.toil := by
  unfold settleBy
  dsimp only
  generalize hv : w.push [.returning (.signal result) [.signal s, .context c]] = v
  have hpush : v.toil = 1 + w.toil := by
    rw [← hv, toil_push]
    rfl
  rcases subscribe_cases v (.signal s) (.settleError c e result) with ⟨_, heq⟩ | ⟨u, _, heq⟩
  · rw [heq]
    have hjoin := toil_modifySignal_le (w := v) (s := s)
      (f := fun x => { x with channel := (x.channel.subscribe (.settleError c e result)).2 })
      fun x => x.channel.toil_subscribe (.settleError c e result)
    have hmodify : (v.modifyChannel (.signal s) fun c' => (c'.subscribe (.settleError c e result)).2) =
      v.modifySignal s fun x =>
        { x with channel := (x.channel.subscribe (.settleError c e result)).2 } := rfl
    rw [hmodify]
    simp only [Observer.toil] at hjoin
    dsimp only
    omega
  · rw [heq]
    dsimp only [World.replay]
    rw [toil_push, hpush]
    simp only [List.map_cons, List.map_nil, List.sum_cons, List.sum_nil, Frame.toil, Observer.toil]
    omega

theorem toil_handled {a : Handled} (h : w.allows (.handled a) = true) :
    (w.handled a).toil < w.toil := by
  obtain ⟨⟨n, c, e, result, rest, hs⟩, _⟩ := handler_of_handled h
  rw [toil_pop hs]
  unfold handled
  rw [hs]
  cases a with
  | nothing => simp [toil_push, Frame.toil]
  | threw f =>
    have hmade := prospects_makeSignal_fired (w := { w with stack := rest }) { failure := some f }
    have hsame := toil_congr (stack_makeSignal { w with stack := rest } (some { failure := some f }))
      (queue_makeSignal { w with stack := rest } (some { failure := some f })) hmade
    have hsettle := toil_settleBy
      (w := (World.makeSignal { w with stack := rest } (some { failure := some f })).2)
      (World.makeSignal { w with stack := rest } (some { failure := some f })).1 c e result
    simp only [Frame.toil]
    omega
  | signal s =>
    have hheld := toil_modifySignal (w := { w with stack := rest }) (s := s)
      (f := fun x => { x with holders := x.holders - 1 }) fun _ => rfl
    have hsettle := toil_settleBy (w := World.modifySignal { w with stack := rest } s
      fun x => { x with holders := x.holders - 1 }) s c e result
    simp only [Frame.toil]
    omega

/-- Every move that is not a call takes something off what is left to do. -/
theorem toil_move (h : w.Orderly t) {m : Move} (hm : (within t).allows w m = true)
    (hcall : m.isCall = false) : (w.move m).toil < w.toil := by
  obtain ⟨hallows, _⟩ := Bool.and_eq_true_iff.1 hm
  cases m with
  | advance => exact toil_advance (fun c q hq => h.head_waits hq) (by simpa [allows] using hallows)
  | call call => cases hcall
  | finish thrown => exact toil_finish hallows
  | handled a => exact toil_handled hallows

/-! ## Without further calls -/

/-- Terms are about calls alone. -/
theorem legal_of_no_calls {t' : Terms} {moves : List Move} (hlegal : (within t).legal w moves = true)
    (hcalls : ∀ m ∈ moves, m.isCall = false) : (within t').legal w moves = true := by
  induction moves generalizing w with
  | nil => rfl
  | cons m moves ih =>
    obtain ⟨hm, hlegal⟩ := Bool.and_eq_true_iff.1 hlegal
    refine Bool.and_eq_true_iff.2 ⟨?_, ih hlegal fun m' hm' => hcalls m' (List.mem_cons_of_mem m hm')⟩
    refine Bool.and_eq_true_iff.2 ⟨(Bool.and_eq_true_iff.1 hm).1, ?_⟩
    have hcall := hcalls m List.mem_cons_self
    cases m with
    | call call => cases hcall
    | _ => rfl

/-- Without further calls there are at most as many moves as there is left to do. -/
theorem Orderly.length_le (h : w.Orderly t) {moves : List Move}
    (hlegal : (within t).legal w moves = true) (hcalls : ∀ m ∈ moves, m.isCall = false) :
    moves.length + ((within t).run w moves).toil ≤ w.toil := by
  induction moves generalizing w with
  | nil => exact Nat.le_of_eq (Nat.zero_add _)
  | cons m moves ih =>
    obtain ⟨hm, hlegal⟩ := Bool.and_eq_true_iff.1 hlegal
    have hone := toil_move h hm (hcalls m List.mem_cons_self)
    have hrest := ih (h.move hm) hlegal fun m' hm' => hcalls m' (List.mem_cons_of_mem m hm')
    rw [List.length_cons, Machine.run_cons]
    show moves.length + 1 + ((within t).run (w.move m) moves).toil ≤ _
    omega

/-- As long as something is under way, it can go on without a call. -/
theorem exists_move (busy : w.stack ≠ []) :
    ∃ m : Move, m.isCall = false ∧ (within t).allows w m = true := by
  cases hs : w.stack with
  | nil => exact absurd hs busy
  | cons f rest =>
    cases f with
    | observer ch l v => exact ⟨.finish none, rfl, by simp [within, allows, keepsTo, hs]⟩
    | handler n c e s =>
      exact ⟨.handled .nothing, rfl, by simp [within, allows, keepsTo, hs, areHeld, Handled.uses]⟩
    | _ => exact ⟨.advance, rfl, by simp [within, allows, keepsTo, isClientsTurn, hs, Frame.isClients]⟩

/-- Without further calls every call returns. -/
theorem Orderly.returns (h : w.Orderly t) : ∃ moves, (within t).legal w moves = true ∧
    (∀ m ∈ moves, m.isCall = false) ∧ ((within t).run w moves).stack = [] := by
  induction hn : w.toil using Nat.strong_induction_on generalizing w with
  | _ n ih =>
    by_cases idle : w.stack = []
    · exact ⟨[], rfl, by simp, idle⟩
    · obtain ⟨m, hcall, hm⟩ := exists_move (t := t) idle
      have hless := toil_move h hm hcall
      obtain ⟨moves, hlegal, hcalls, hidle⟩ := ih _ (hn ▸ hless) (h.move hm) rfl
      refine ⟨m :: moves, Bool.and_eq_true_iff.2 ⟨hm, hlegal⟩, ?_, hidle⟩
      intro m' hm'
      rcases List.mem_cons.1 hm' with rfl | hm'
      · exact hcall
      · exact hcalls m' hm'

end World

end FanIn
