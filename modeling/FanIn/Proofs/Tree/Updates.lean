import FanIn.Tree.Run

/-!
# What updates leave alone

The small updates of a world, and letting go of references, touch only part of it. These are the
equations that say so, for the stack and for the queue, and one principle for all the rest:
`releaseAll_induction`, by which letting go keeps whatever a single destruction keeps.
-/

namespace FanIn.World

variable (w : World)

/-! ## Letting go -/

/-- Letting go of references keeps whatever the destruction of something that nothing refers to
keeps. -/
theorem releaseAll_induction {P : World → Prop}
    (keep : ∀ (w : World) (r : Ref), P w → w.isLiveRef r = true → w.isHeld r = false →
      P (w.destroy r))
    {w : World} (start : P w) (refs : List Ref) : P (w.releaseAll refs) := by
  fun_induction releaseAll w refs with
  | case1 => exact start
  | case2 w r rest hlive hheld ih => exact ih start
  | case3 w r rest hlive hheld ih =>
    simp only [Bool.or_eq_true, not_or, Bool.not_eq_true] at hheld
    exact ih (keep w r start hlive hheld.1)
  | case4 w r rest hdead ih => exact ih start

/-! ## The stack and the queue -/

@[simp] theorem stack_note (e : Event) : (w.note e).stack = w.stack := rfl

@[simp] theorem stack_point : w.point.stack = w.stack := rfl

@[simp] theorem stack_push (fs : List Frame) : (w.push fs).stack = fs ++ w.stack := rfl

@[simp] theorem stack_answered (r : Reply) : (w.answered r).stack = w.stack := rfl

@[simp] theorem stack_refused (f : Failure) : (w.refused f).stack = w.stack := rfl

@[simp] theorem stack_modifyContext (c : ContextNo) (f : Context → Context) :
    (w.modifyContext c f).stack = w.stack := rfl

@[simp] theorem stack_modifySignal (s : SignalNo) (f : Signal → Signal) :
    (w.modifySignal s f).stack = w.stack := rfl

@[simp] theorem stack_log (l : Log.Level) (m : String) : (w.log l m).stack = w.stack := by
  unfold log; split <;> rfl

@[simp] theorem queue_note (e : Event) : (w.note e).queue = w.queue := rfl

@[simp] theorem queue_point : w.point.queue = w.queue := rfl

@[simp] theorem queue_push (fs : List Frame) : (w.push fs).queue = w.queue := rfl

@[simp] theorem queue_answered (r : Reply) : (w.answered r).queue = w.queue := rfl

@[simp] theorem queue_refused (f : Failure) : (w.refused f).queue = w.queue := rfl

@[simp] theorem queue_modifyContext (c : ContextNo) (f : Context → Context) :
    (w.modifyContext c f).queue = w.queue := rfl

@[simp] theorem queue_modifySignal (s : SignalNo) (f : Signal → Signal) :
    (w.modifySignal s f).queue = w.queue := rfl

@[simp] theorem queue_log (l : Log.Level) (m : String) : (w.log l m).queue = w.queue := by
  unfold log; split <;> rfl

@[simp] theorem stack_destroy (r : Ref) : (w.destroy r).stack = w.stack := by
  cases r with
  | signal s => rfl
  | context c =>
    simp only [destroy]
    split
    · rfl
    · simp only [farewell, if_true]
      split <;> simp

@[simp] theorem queue_destroy (r : Ref) : (w.destroy r).queue = w.queue := by
  cases r with
  | signal s => rfl
  | context c =>
    simp only [destroy]
    split
    · rfl
    · simp only [farewell, if_true]
      split <;> simp

@[simp] theorem stack_releaseAll (refs : List Ref) : (w.releaseAll refs).stack = w.stack :=
  releaseAll_induction (P := fun w' => w'.stack = w.stack)
    (fun w' r h _ _ => (stack_destroy w' r).trans h) rfl refs

@[simp] theorem queue_releaseAll (refs : List Ref) : (w.releaseAll refs).queue = w.queue :=
  releaseAll_induction (P := fun w' => w'.queue = w.queue)
    (fun w' r h _ _ => (queue_destroy w' r).trans h) rfl refs

@[simp] theorem stack_modifyChannel (ch : ChannelRef)
    (f : {α : Type} → Channel α Observer → Channel α Observer) :
    (w.modifyChannel ch f).stack = w.stack := by cases ch <;> rfl

@[simp] theorem queue_modifyChannel (ch : ChannelRef)
    (f : {α : Type} → Channel α Observer → Channel α Observer) :
    (w.modifyChannel ch f).queue = w.queue := by cases ch <;> rfl

@[simp] theorem stack_reportBranch (c : ContextNo) : (w.reportBranch c).stack = w.stack := by
  unfold reportBranch; split <;> rfl

@[simp] theorem queue_reportBranch (c : ContextNo) : (w.reportBranch c).queue = w.queue := by
  unfold reportBranch; split <;> rfl

@[simp] theorem stack_makeSignal (r : Option Resolution) : (w.makeSignal r).2.stack = w.stack := by
  cases r <;> rfl

@[simp] theorem queue_makeSignal (r : Option Resolution) : (w.makeSignal r).2.queue = w.queue := by
  cases r <;> rfl

@[simp] theorem stack_enter (x : Context) (g : Registry) : (w.enter x g).stack = w.stack := by
  simp [enter]

@[simp] theorem queue_enter (x : Context) (g : Registry) : (w.enter x g).queue = w.queue := by
  simp [enter]

@[simp] theorem stack_nextDescendant (tree : Nat) : (w.nextDescendant tree).2.stack = w.stack := rfl

@[simp] theorem queue_nextDescendant (tree : Nat) : (w.nextDescendant tree).2.queue = w.queue := rfl

@[simp] theorem stack_refuseSlot (c : ContextNo) : (w.refuseSlot c).stack = w.stack := by
  simp [refuseSlot]

@[simp] theorem queue_refuseSlot (c : ContextNo) : (w.refuseSlot c).queue = w.queue := by
  simp [refuseSlot]

variable {w}

/-! ## Contexts and signals -/

theorem getElem?_modifyContext (w : World) (c : ContextNo) (f : Context → Context)
    (d : ContextNo) : (w.modifyContext c f).contexts[d]? =
      if c = d then (w.contexts[d]?).map f else w.contexts[d]? := by
  unfold modifyContext
  exact Array.getElem?_modify

theorem getElem?_modifySignal (w : World) (s : SignalNo) (f : Signal → Signal) (i : SignalNo) :
    (w.modifySignal s f).signals[i]? =
      if s = i then (w.signals[i]?).map f else w.signals[i]? := by
  unfold modifySignal
  exact Array.getElem?_modify

theorem getElem?_enter (x : Context) (g : Registry) (d : ContextNo) :
    (w.enter x g).contexts[d]? = if d = w.contexts.size then some x else w.contexts[d]? := by
  simp only [enter]
  rw [contexts_log]
  exact Array.getElem?_push

theorem signals_enter (x : Context) (g : Registry) : (w.enter x g).signals = w.signals := by
  simp only [enter]
  rw [signals_log]
  rfl

theorem lt_of_getElem?_eq_some {α : Type} {xs : Array α} {i : Nat} {x : α}
    (h : xs[i]? = some x) : i < xs.size := (Array.getElem?_eq_some_iff.1 h).1

/-- A change that destroys nothing. -/
theorem isLive_modifyContext {c : ContextNo} {f : Context → Context}
    (hf : ∀ x, w.contexts[c]? = some x → (f x).isLive = x.isLive) (d : ContextNo) :
    (w.modifyContext c f).isLive d = w.isLive d := by
  unfold isLive
  rw [getElem?_modifyContext]
  split
  · rename_i h
    subst h
    cases hx : w.contexts[c]? with
    | none => rfl
    | some x => exact hf x hx
  · rfl

theorem isLiveSignal_modifySignal {s : SignalNo} {f : Signal → Signal}
    (hf : ∀ x, w.signals[s]? = some x → (f x).isLive = x.isLive) (i : SignalNo) :
    (w.modifySignal s f).isLiveSignal i = w.isLiveSignal i := by
  unfold isLiveSignal
  rw [getElem?_modifySignal]
  split
  · rename_i h
    subst h
    cases hx : w.signals[s]? with
    | none => rfl
    | some x => exact hf x hx
  · rfl

theorem exists_of_isLive {c : ContextNo} (h : w.isLive c = true) :
    ∃ x, w.contexts[c]? = some x ∧ x.isLive = true := by
  unfold isLive at h
  cases hx : w.contexts[c]? with
  | none => rw [hx] at h; cases h
  | some x => rw [hx] at h; exact ⟨x, rfl, h⟩

theorem exists_of_isLiveSignal {s : SignalNo} (h : w.isLiveSignal s = true) :
    ∃ x, w.signals[s]? = some x ∧ x.isLive = true := by
  unfold isLiveSignal at h
  cases hx : w.signals[s]? with
  | none => rw [hx] at h; cases h
  | some x => rw [hx] at h; exact ⟨x, rfl, h⟩

theorem modifyContext_push (w : World) (fs : List Frame) (c : ContextNo) (f : Context → Context) :
    (w.push fs).modifyContext c f = (w.modifyContext c f).push fs := rfl

theorem modifyContext_modifyContext (w : World) (c : ContextNo) (f g : Context → Context) :
    (w.modifyContext c f).modifyContext c g = w.modifyContext c fun x => g (f x) := by
  unfold modifyContext
  congr 1
  apply Array.ext_getElem?
  intro i
  rw [Array.getElem?_modify, Array.getElem?_modify, Array.getElem?_modify]
  split
  · rw [Option.map_map]
    rfl
  · rfl

/-- Changing a member of an array to what it is. -/
theorem modify_eq_self {α : Type} {xs : Array α} {i : Nat} {f : α → α}
    (h : ∀ x, xs[i]? = some x → f x = x) : xs.modify i f = xs := by
  apply Array.ext_getElem?
  intro j
  rw [Array.getElem?_modify]
  split
  · rename_i hij
    subst hij
    cases hx : xs[i]? with
    | none => rfl
    | some x => exact congrArg some (h x hx)
  · rfl

theorem modifyContext_eq_self {c : ContextNo} {f : Context → Context}
    (h : ∀ x, w.contexts[c]? = some x → f x = x) : w.modifyContext c f = w := by
  unfold modifyContext
  rw [modify_eq_self h]

theorem modifySignal_eq_self {s : SignalNo} {f : Signal → Signal}
    (h : ∀ x, w.signals[s]? = some x → f x = x) : w.modifySignal s f = w := by
  unfold modifySignal
  rw [modify_eq_self h]

/-! ## Destruction -/

theorem getElem?_contexts_destroy (r : Ref) (d : ContextNo) : (w.destroy r).contexts[d]? =
    if r = .context d then (w.contexts[d]?).map fun x => { x with isLive := false, hold := none }
    else w.contexts[d]? := by
  cases r with
  | signal s => rfl
  | context c =>
    simp only [destroy, Ref.context.injEq]
    split
    · rename_i hc
      split
      · rename_i hcd
        subst hcd
        rw [hc]
        rfl
      · rfl
    · rw [getElem?_modifyContext, contexts_farewell]

theorem getElem?_signals_destroy (r : Ref) (i : SignalNo) : (w.destroy r).signals[i]? =
    if r = .signal i then (w.signals[i]?).map fun x => { x with isLive := false }
    else w.signals[i]? := by
  cases r with
  | signal s =>
    simp only [destroy, Ref.signal.injEq]
    exact getElem?_modifySignal _ _ _ _
  | context c =>
    simp only [destroy, reduceCtorEq, if_false]
    split
    · rfl
    · show (w.farewell c _ true).signals[i]? = _
      rw [signals_farewell]

/-- What is destroyed exists no more, and nothing else comes to an end. -/
theorem isLiveRef_destroy (r ref : Ref) :
    (w.destroy r).isLiveRef ref = (w.isLiveRef ref && decide (ref ≠ r)) := by
  cases ref with
  | context d =>
    simp only [isLiveRef, isLive, getElem?_contexts_destroy]
    by_cases h : r = .context d
    · subst h
      cases w.contexts[d]? <;> simp
    · simp [h, Ne.symm h]
  | signal i =>
    simp only [isLiveRef, isLiveSignal, getElem?_signals_destroy]
    by_cases h : r = .signal i
    · subst h
      cases w.signals[i]? <;> simp
    · simp [h, Ne.symm h]

theorem isLiveRef_of_destroy {r ref : Ref} (h : (w.destroy r).isLiveRef ref = true) :
    w.isLiveRef ref = true ∧ r ≠ ref := by
  rw [isLiveRef_destroy, Bool.and_eq_true, decide_eq_true_iff] at h
  exact ⟨h.1, Ne.symm h.2⟩

theorem idOf_destroy (r : Ref) (d : ContextNo) : (w.destroy r).idOf d = w.idOf d := by
  simp only [idOf, getElem?_contexts_destroy]
  split
  · cases w.contexts[d]? <;> rfl
  · rfl

theorem size_contexts_destroy (r : Ref) : (w.destroy r).contexts.size = w.contexts.size := by
  cases r with
  | signal s => rfl
  | context c =>
    simp only [destroy]
    split
    · rfl
    · simp [modifyContext, contexts_farewell]

theorem trees_destroy (r : Ref) : (w.destroy r).trees = w.trees := by
  cases r with
  | signal s => rfl
  | context c =>
    simp only [destroy]
    split
    · rfl
    · simp only [farewell, if_true, log]
      dsimp only [modifyContext]
      split
      · rfl
      · split <;> rfl

/-- A destroyed context gives its id back. -/
theorem registry_destroy {c : ContextNo} {x : Context} (hx : w.contexts[c]? = some x) :
    (w.destroy (.context c)).registry = w.registry.unregister x.id c := by
  simp only [destroy, hx, farewell, if_true]
  split
  · rfl
  · unfold log
    split <;> rfl

/-! ## Slots and subscriptions -/

/-- What taking a slot comes to. -/
theorem takeSlot_eq_some {c : ContextNo} {share : Share} {w' : World}
    (h : w.takeSlot c share = some w') : ∃ x slots, w.contexts[c]? = some x ∧
      x.slots.tryAdd = some slots ∧
      w' = ((w.modifyContext c fun x => { x with slots := slots }).point).note
        (.joined c share) := by
  unfold takeSlot at h
  obtain ⟨slots, hs, rfl⟩ := Option.map_eq_some_iff.1 h
  obtain ⟨x, hx, ha⟩ := Option.bind_eq_some_iff.1 hs
  exact ⟨x, slots, hx, ha, rfl⟩

/-- What subscribing comes to. -/
theorem subscribe_cases (w : World) (ch : ChannelRef) (o : Observer) :
    (w.value? ch = none ∧ w.subscribe ch o = (.registered (w.nextNumber ch),
      w.modifyChannel ch fun c => (c.subscribe o).2)) ∨
    ∃ v, w.value? ch = some v ∧ w.subscribe ch o = (.replayed v, w) := by
  unfold subscribe
  cases hv : w.value? ch with
  | none => exact .inl ⟨rfl, rfl⟩
  | some v => exact .inr ⟨v, rfl, rfl⟩

/-- What firing a channel comes to. -/
theorem fire?_eq_some {α ω : Type} {c c' : Channel α ω} {v : α} {os : List ω}
    (h : c.fire? v = some (os, c')) :
    c.value? = none ∧ c' = .fired v ∧ os = c.observers.map Prod.snd := by
  cases c with
  | fired u => cases h
  | waiting n l =>
    obtain ⟨rfl, rfl⟩ := Prod.mk.inj (Option.some.inj h)
    exact ⟨rfl, rfl, rfl⟩

/-- Completing the first context of the queue, which was not complete. -/
theorem completeNext_eq {c : ContextNo} {q : List ContextNo} {x : Context}
    (hq : w.queue = some (c :: q)) (hx : w.contexts[c]? = some x) (hc : x.isComplete = false) :
    w.completeNext =
      ((((World.log { w with queue := some q } .debug (completionNote x)).modifyContext c fun x =>
        { x with hold := none, completion := .fired () }).push [.told c x.hold, .climb]).deliver
          (.completion c) .done (x.completion.observers.map Prod.snd)) := by
  have hx' : (World.log { w with queue := some q } .debug (completionNote x)).contexts[c]? =
      some x := by
    rw [contexts_log]
    exact hx
  have hfire : x.completion.fire? () = some (x.completion.observers.map Prod.snd, .fired ()) := by
    cases hch : x.completion with
    | waiting n os => rfl
    | fired u => simp [Context.isComplete, hch, Channel.isFired, Channel.value?] at hc
  unfold completeNext
  rw [hq]
  simp only [hx, Option.elim_some, Option.bind_some]
  unfold fireCompletion
  have hget : ((((World.log { w with queue := some q } .debug (completionNote x)).modifyContext c
      fun x => { x with hold := none }).push [.told c x.hold, .climb]).contexts[c]?).bind
        (fun x => x.completion.fire? ()) =
      some (x.completion.observers.map Prod.snd, .fired ()) := by
    show (((World.log { w with queue := some q } .debug (completionNote x)).modifyContext c
      fun x => { x with hold := none }).contexts[c]?).bind _ = _
    rw [getElem?_modifyContext, if_pos rfl, hx']
    exact hfire
  rw [hget]
  dsimp only
  rw [modifyContext_push, modifyContext_modifyContext]

/-- The same for a context whose completion a client has fired: nobody is notified. -/
theorem completeNext_eq_of_complete {c : ContextNo} {q : List ContextNo} {x : Context}
    (hq : w.queue = some (c :: q)) (hx : w.contexts[c]? = some x) (hc : x.isComplete = true) :
    w.completeNext = ((World.log { w with queue := some q } .debug (completionNote x)).modifyContext c
      fun x => { x with hold := none }).push [.told c x.hold, .climb] := by
  have hget : (((World.log { w with queue := some q } .debug (completionNote x)).modifyContext c
      fun x => { x with hold := none }).contexts[c]?).bind (fun x => x.completion.fire? ()) = none := by
    rw [getElem?_modifyContext, if_pos rfl, contexts_log, hx]
    exact Channel.fire?_eq_none_iff.2 hc
  unfold completeNext
  rw [hq]
  simp only [hx, Option.elim_some, Option.bind_some]
  unfold fireCompletion
  dsimp only [push]
  rw [hget]

end FanIn.World
