import FanIn.Proofs.Tree.Answer
import FanIn.Proofs.Tree.Channels
import FanIn.Proofs.Tree.TwinRelease

/-!
# What the library does to twins

Every operation makes twins of twins, whatever the values are that it is about. Where the first world
has a frame that lets a call return and the second still has the epilogue of a failure, the second
catches up.

Main statement: `Twin.advance`.
-/

namespace FanIn.World

open List Stack

variable {ν : Ties} {old old' : Except Failure Reply} {w v : World} {ch ch' : ChannelRef}
  {o o' : Observer}

/-! ## Channels -/

theorem Twin.isFired (h : Twin ν old old' w v) (hch : ch.Twin ν.shared ch') :
    w.isFired ch = v.isFired ch' := by
  have hcontext {α : Type} (g : Context → Channel α Observer) (u : α → Value) (c : ContextNo)
      (hg : ∀ x y : Context, x.Twin ν.shared y → (g x).Twin ν.shared (g y)) :
      ((w.contexts[c]?).bind fun x => (g x).value?.map u).isSome =
        ((v.contexts[c]?).bind fun x => (g x).value?.map u).isSome := by
    rcases h.context? c with ⟨hx, hy⟩ | ⟨x, y, hx, hy, hxy⟩
    · rw [hx, hy]
    · rw [hx, hy]
      show ((g x).value?.map u).isSome = ((g y).value?.map u).isSome
      rw [Option.isSome_map, Option.isSome_map]
      exact (hg x y hxy).isFired
  cases hch with
  | before c => exact hcontext Context.before .response c fun _ _ hxy => hxy.before
  | response c => exact hcontext Context.response .response c fun _ _ hxy => hxy.response
  | completion c => exact hcontext Context.completion (fun _ => .done) c fun _ _ hxy => hxy.completion
  | @signal a b hab =>
    obtain ⟨x, y, hx, hy, hxy⟩ := h.signal? hab
    show ((w.signals[a]?).bind fun x => x.channel.value?.map Value.resolution).isSome =
      ((v.signals[b]?).bind fun x => x.channel.value?.map Value.resolution).isSome
    rw [hx, hy]
    show (x.channel.value?.map _).isSome = (y.channel.value?.map _).isSome
    rw [Option.isSome_map, Option.isSome_map]
    exact hxy.channel.isFired

/-- A channel has a value in both worlds, or in neither. -/
theorem Twin.value? (h : Twin ν old old' w v) (hch : ch.Twin ν.shared ch') :
    (w.value? ch = none ∧ v.value? ch' = none) ∨
      ∃ u u', w.value? ch = some u ∧ v.value? ch' = some u' := by
  have hsame : (w.value? ch).isSome = (v.value? ch').isSome := h.isFired hch
  cases hu : w.value? ch with
  | none =>
    rw [hu] at hsame
    exact .inl ⟨rfl, Option.isNone_iff_eq_none.1 (Option.isSome_eq_false_iff.1 hsame.symm)⟩
  | some u =>
    rw [hu] at hsame
    obtain ⟨u', hu'⟩ := Option.isSome_iff_exists.1 hsame.symm
    exact .inr ⟨u, u', rfl, hu'⟩

theorem Twin.nextNumber (h : Twin ν old old' w v) (hch : ch.Twin ν.shared ch') :
    w.nextNumber ch = v.nextNumber ch' := by
  cases hch with
  | before c => exact h.elim_context c rfl fun _ _ hxy => hxy.before.nextNumber
  | response c => exact h.elim_context c rfl fun _ _ hxy => hxy.response.nextNumber
  | completion c => exact h.elim_context c rfl fun _ _ hxy => hxy.completion.nextNumber
  | signal hab => exact h.elim_signal hab fun _ _ hxy => hxy.channel.nextNumber

theorem Twin.observers (h : Twin ν old old' w v) (hch : ch.Twin ν.shared ch') :
    Forall₂ (Observer.Numbered ν.shared) (w.observers ch) (v.observers ch') := by
  cases hch with
  | before c => exact h.elim_context c .nil fun _ _ hxy => hxy.before.observers
  | response c => exact h.elim_context c .nil fun _ _ hxy => hxy.response.observers
  | completion c => exact h.elim_context c .nil fun _ _ hxy => hxy.completion.observers
  | signal hab => exact h.elim_signal hab fun _ _ hxy => hxy.channel.observers

/-- A change of a channel that fires nothing. -/
theorem Twin.modifyChannel (h : Twin ν old old' w v) (hch : ch.Twin ν.shared ch')
    {f g : {α : Type} → Channel α Observer → Channel α Observer}
    (hf : ∀ {α : Type} (x y : Channel α Observer), x.Twin ν.shared y → (f x).Twin ν.shared (g y))
    (hg : ∀ {α : Type} (y : Channel α Observer), (g y).value? = y.value?) :
    Twin ν old old' (w.modifyChannel ch f) (v.modifyChannel ch' g) := by
  cases hch with
  | before c =>
    exact h.modifyContext c fun _ _ _ hxy =>
      ⟨hxy.outline, hxy.terminated, hf _ _ hxy.before, hxy.response, hxy.completion⟩
  | response c =>
    exact h.modifyContext c fun _ _ _ hxy =>
      ⟨hxy.outline, hxy.terminated, hxy.before, hf _ _ hxy.response, hxy.completion⟩
  | completion c =>
    exact h.modifyContext c fun _ _ _ hxy =>
      ⟨hxy.outline, hxy.terminated, hxy.before, hxy.response, hf _ _ hxy.completion⟩
  | signal hab =>
    have hkeep (y : Channel Resolution Observer) : (g y).isFired = y.isFired :=
      congrArg Option.isSome (hg y)
    exact h.modifySignal hab (fun x y _ _ hxy => ⟨hf _ _ hxy.channel, hxy.holders, hxy.live,
      fun hl => (hxy.lingering hl).imp_right fun hfired => (hkeep _).trans hfired⟩)
      fun y hfired => (hkeep _).trans hfired

/-- Subscribing comes to the same. -/
theorem Twin.subscribe (h : Twin ν old old' w v) (hch : ch.Twin ν.shared ch')
    (ho : o.Twin ν.shared o') :
    (∃ n w' v', w.subscribe ch o = (.registered n, w') ∧ v.subscribe ch' o' = (.registered n, v') ∧
      Twin ν old old' w' v') ∨
    ∃ u u', w.subscribe ch o = (.replayed u, w) ∧ v.subscribe ch' o' = (.replayed u', v) := by
  unfold World.subscribe
  rcases h.value? hch with ⟨hu, hu'⟩ | ⟨u, u', hu, hu'⟩
  · rw [hu, hu', h.nextNumber hch]
    exact .inl ⟨_, _, _, rfl, rfl, h.modifyChannel hch (fun x y hxy => hxy.subscribe ho)
      fun y => Channel.value?_subscribe y o'⟩
  · rw [hu, hu']
    exact .inr ⟨u, u', rfl, rfl⟩

theorem Twin.replay (h : Twin ν old old' w v) (hch : ch.Twin ν.shared ch') (u u' : Value)
    (ho : o.Twin ν.shared o') : Twin ν old old' (w.replay ch u o) (v.replay ch' u' o') :=
  h.push (.cons (.deliver hch true u u' (.cons ho .nil) (.cons ho .nil)) .nil)

/-- An observer of the library's own subscribes, and is notified at once if the channel has fired. -/
theorem Twin.attach (h : Twin ν old old' w v) (hch : ch.Twin ν.shared ch') (ho : o.Twin ν.shared o') :
    Twin ν old old'
      (match w.subscribe ch o with
        | (.registered _, w) => w
        | (.replayed u, w) => w.replay ch u o)
      (match v.subscribe ch' o' with
        | (.registered _, v) => v
        | (.replayed u, v) => v.replay ch' u o') := by
  rcases h.subscribe hch ho with ⟨n, w', v', hw, hv, h'⟩ | ⟨u, u', hw, hv⟩
  · rw [hw, hv]
    exact h'
  · rw [hw, hv]
    exact h.replay hch u u' ho

theorem gist_fired (hch : ch.Twin ν.shared ch') (u u' : Value) :
    (Event.fired ch u).gist = (Event.fired ch' u').gist := by cases hch <;> rfl

theorem Twin.deliver (h : Twin ν old old' w v) (hch : ch.Twin ν.shared ch') (u u' : Value)
    {os os' : List Observer} (hos : Forall₂ (Observer.Twin ν.shared) os os') :
    Twin ν old old' (w.deliver ch u os) (v.deliver ch' u' os') :=
  (h.note (gist_fired hch u u')).point.push (.cons (.deliver hch false u u' hos hos) .nil)

theorem Twin.fireBefore (h : Twin ν old old' w v) (c : ContextNo) (r r' : Response) :
    Twin ν old old' (w.fireBefore c r) (v.fireBefore c r') := by
  unfold World.fireBefore
  rcases h.context? c with ⟨hx, hy⟩ | ⟨x, y, hx, hy, hxy⟩
  · rw [hx, hy]
    exact h
  · rw [hx, hy]
    dsimp only [Option.bind_some]
    rcases hxy.before.fire? r r' with ⟨hf, hf'⟩ | ⟨os, os', hos, hf, hf'⟩
    · rw [hf, hf']
      exact h
    · rw [hf, hf']
      exact (h.modifyContext (f := fun x => { x with before := .fired r })
        (g := fun y => { y with before := .fired r' }) c fun _ _ _ hxy => ⟨hxy.outline, hxy.terminated,
          .fired _ _, hxy.response, hxy.completion⟩).deliver (.before c) _ _ hos

theorem Twin.fireResponse (h : Twin ν old old' w v) (c : ContextNo) (r r' : Response) :
    Twin ν old old' (w.fireResponse c r) (v.fireResponse c r') := by
  unfold World.fireResponse
  rcases h.context? c with ⟨hx, hy⟩ | ⟨x, y, hx, hy, hxy⟩
  · rw [hx, hy]
    exact h
  · rw [hx, hy]
    dsimp only [Option.bind_some]
    rcases hxy.response.fire? r r' with ⟨hf, hf'⟩ | ⟨os, os', hos, hf, hf'⟩
    · rw [hf, hf']
      exact h
    · rw [hf, hf']
      exact (h.modifyContext (f := fun x => { x with response := .fired r })
        (g := fun y => { y with response := .fired r' }) c fun _ _ _ hxy => ⟨hxy.outline, hxy.terminated,
          hxy.before, .fired _ _, hxy.completion⟩).deliver (.response c) _ _ hos

theorem Twin.fireCompletion (h : Twin ν old old' w v) (c : ContextNo) :
    Twin ν old old' (w.fireCompletion c) (v.fireCompletion c) := by
  unfold World.fireCompletion
  rcases h.context? c with ⟨hx, hy⟩ | ⟨x, y, hx, hy, hxy⟩
  · rw [hx, hy]
    exact h
  · rw [hx, hy]
    dsimp only [Option.bind_some]
    rcases hxy.completion.fire? () () with ⟨hf, hf'⟩ | ⟨os, os', hos, hf, hf'⟩
    · rw [hf, hf']
      exact h
    · rw [hf, hf']
      exact (h.modifyContext (f := fun x => { x with completion := .fired () })
        (g := fun y => { y with completion := .fired () }) c fun _ _ _ hxy => ⟨hxy.outline,
          hxy.terminated, hxy.before, hxy.response, .fired _ _⟩).deliver (.completion c) _ _ hos

theorem Twin.fireSignal (h : Twin ν old old' w v) {a b : SignalNo} (hab : ν.shared[a]? = some b)
    (r r' : Resolution) : Twin ν old old' (w.fireSignal a r) (v.fireSignal b r') := by
  unfold World.fireSignal
  obtain ⟨x, y, hx, hy, hxy⟩ := h.signal? hab
  rw [hx, hy]
  dsimp only [Option.bind_some]
  rcases hxy.channel.fire? r r' with ⟨hf, hf'⟩ | ⟨os, os', hos, hf, hf'⟩
  · rw [hf, hf']
    exact h
  · rw [hf, hf']
    exact (h.modifySignal (f := fun x => { x with channel := .fired r })
      (g := fun y => { y with channel := .fired r' }) hab (fun _ _ _ _ hxy => ⟨.fired _ _, hxy.holders,
        hxy.live, fun _ => .inr rfl⟩) fun _ _ => rfl).deliver (.signal hab) _ _ hos

/-! ## The library's own work -/

/-- Perhaps a message is logged. -/
def Logs (w w' : World) : Prop := w' = w ∨ ∃ l m, w' = w.log l m

theorem Twin.logs (h : Twin ν old old' w v) {w' v' : World} (hw : w.Logs w') (hv : v.Logs v') :
    Twin ν old old' w' v' := by
  rcases hw with rfl | ⟨l, m, rfl⟩ <;> rcases hv with rfl | ⟨l', m', rfl⟩
  · exact h
  · exact h.logRight l' m'
  · exact h.logLeft l m
  · exact h.log l l' m m'

/-- A link that fails counts as signaled. -/
theorem notify_settleLink (w : World) (ch : ChannelRef) (replay : Bool) (u : Value) (c : ContextNo) :
    ∃ w', w.Logs w' ∧ w.notify ch replay u (.settleLink c) = w'.push [.giveUp c .link] := by
  unfold World.notify
  dsimp only
  split
  · exact ⟨_, .inr ⟨_, _, rfl⟩, rfl⟩
  · exact ⟨w, .inl rfl, rfl⟩

/-- An error is finished whatever the handler's signal tells. -/
theorem notify_settleError (w : World) (ch : ChannelRef) (replay : Bool) (u : Value) (c : ContextNo)
    (e : Failure) (s : SignalNo) : ∃ failed, w.notify ch replay u (.settleError c e s) =
      w.push [.respond c ⟨none, some e⟩, .conclude c e failed s] := by
  unfold World.notify
  dsimp only
  split
  · exact ⟨_, rfl⟩
  · exact ⟨_, rfl⟩

theorem Twin.notify (h : Twin ν old old' w v) (hch : ch.Twin ν.shared ch') (replay : Bool)
    (u u' : Value) (ho : o.Twin ν.shared o') :
    Twin ν old old' (w.notify ch replay u o) (v.notify ch' replay u' o') := by
  cases ho with
  | client label hkeeps =>
    refine (h.push (.cons (.observer hch label u u') .nil)).note ?_
    cases replay <;> cases hch <;> rfl
  | empty => exact h
  | settleLink c =>
    obtain ⟨w', hw, heq⟩ := notify_settleLink w ch replay u c
    obtain ⟨v', hv, heq'⟩ := notify_settleLink v ch' replay u' c
    rw [heq, heq']
    exact (h.logs hw hv).push (.cons (.giveUp c .link) .nil)
  | @settleError c e a b hab =>
    obtain ⟨failed, heq⟩ := notify_settleError w ch replay u c e a
    obtain ⟨failed', heq'⟩ := notify_settleError v ch' replay u' c e b
    rw [heq, heq']
    exact h.push (.cons (.respond c _ _) (.cons (.conclude c e failed failed' hab) .nil))

theorem Twin.leave (h : Twin ν old old' w v) (c : ContextNo) (slots : Counter) (share : Share) :
    Twin ν old old'
      (((w.modifyContext c fun x => { x with slots := slots }).point).note (.left c share))
      (((v.modifyContext c fun x => { x with slots := slots }).point).note (.left c share)) :=
  (h.adjust (g := fun x => { x with slots := slots }) c (fun _ => rfl)
    fun _ => ⟨rfl, rfl, rfl, rfl⟩).point.note rfl

/-- The counters of twins are the same. -/
theorem Twin.release (h : Twin ν old old' w v) (c : ContextNo) :
    ((w.contexts[c]?).bind fun x => x.slots.release) =
      (v.contexts[c]?).bind fun x => x.slots.release := by
  rcases h.context? c with ⟨hx, hy⟩ | ⟨x, y, hx, hy, hxy⟩
  · rw [hx, hy]
  · rw [hx, hy]
    show x.slots.release = y.slots.release
    rw [hxy.slots]

theorem Twin.giveUpSlot (h : Twin ν old old' w v) (c : ContextNo) (share : Share) :
    Twin ν old old' (w.giveUpSlot c share) (v.giveUpSlot c share) := by
  unfold World.giveUpSlot
  rw [h.release c]
  cases (v.contexts[c]?).bind fun x => x.slots.release with
  | none => exact h.push (.cons (.throwing _) .nil)
  | some p =>
    obtain ⟨last, slots⟩ := p
    have hleft := h.leave c slots share
    cases last with
    | false => exact hleft
    | true =>
      have hdrained := hleft.note (e := .drained c) (g := .drained c) rfl
      dsimp only
      rw [if_pos rfl, if_pos rfl, hdrained.queue]
      split
      · exact hdrained.requeue _
      · exact (hdrained.requeue _).push (.cons .climb .nil)

theorem Twin.completeNext (h : Twin ν old old' w v) :
    Twin ν old old' w.completeNext v.completeNext := by
  have hqueue := h.queue
  rcases hq : v.queue with _ | _ | ⟨c, q⟩
  · rw [hq] at hqueue
    unfold World.completeNext
    rw [hq, hqueue]
    exact h
  · rw [hq] at hqueue
    unfold World.completeNext
    rw [hq, hqueue]
    exact h.requeue none
  · rw [hq] at hqueue
    have hhold : (w.contexts[c]?).bind Context.hold = (v.contexts[c]?).bind Context.hold := by
      rcases h.context? c with ⟨hx, hy⟩ | ⟨x, y, hx, hy, hxy⟩
      · rw [hx, hy]
      · rw [hx, hy]
        exact hxy.hold
    rw [completeNext_fires hqueue, completeNext_fires hq]
    unfold preparing
    rw [hhold]
    have hlogged := (h.requeue (some q)).log .debug .debug ((w.contexts[c]?).elim "" completionNote)
      ((v.contexts[c]?).elim "" completionNote)
    have hloose := hlogged.adjust (g := fun x => { x with hold := none }) c (fun _ => rfl)
      fun _ => ⟨rfl, rfl, rfl, rfl⟩
    exact (hloose.push (.cons (.told c _) (.cons .climb .nil))).fireCompletion c

theorem Twin.tellParent (h : Twin ν old old' w v) (c : ContextNo) (parent : Option ContextNo) :
    Twin ν old old' (w.tellParent c parent) (v.tellParent c parent) := by
  have hone : Forall₂ (Ref.Twin ν.shared) [.context c] [.context c] := .cons (.context c) .nil
  cases parent with
  | none => exact h.releaseAll hone
  | some p =>
    simp only [World.tellParent]
    rw [h.release p]
    cases (v.contexts[p]?).bind fun x => x.slots.release with
    | none => exact (h.releaseAll (.cons (.context p) hone)).push (.cons (.throwing _) .nil)
    | some a =>
      obtain ⟨last, slots⟩ := a
      have hleft := h.leave p slots (.child c)
      cases last with
      | false => exact hleft.releaseAll (.cons (.context p) hone)
      | true =>
        have hdrained := hleft.note (e := .drained p) (g := .drained p) rfl
        dsimp only
        rw [if_pos rfl, if_pos rfl, hdrained.queue]
        exact (hdrained.requeue _).releaseAll hone

theorem Twin.abandonQueue (h : Twin ν old old' w v) :
    Twin ν old old' w.abandonQueue v.abandonQueue := by
  unfold World.abandonQueue
  rw [h.queue]
  exact (h.requeue none).releaseAll (forall₂_contexts _)

/-- Resolving an error is firing its signal, whatever it is resolved with. -/
theorem resolveError_cases (w : World) (c : ContextNo) (e : Failure)
    (failed : Option (Option Failure)) (s : SignalNo) :
    ∃ w' r, w.Logs w' ∧ w.resolveError c e failed s = w'.fireSignal s r := by
  cases failed with
  | none => exact ⟨w, {}, .inl rfl, rfl⟩
  | some f => exact ⟨_, _, .inr ⟨_, _, rfl⟩, rfl⟩

theorem Twin.resolveError (h : Twin ν old old' w v) (c : ContextNo) (e : Failure)
    (failed failed' : Option (Option Failure)) {a b : SignalNo} (hab : ν.shared[a]? = some b) :
    Twin ν old old' (w.resolveError c e failed a) (v.resolveError c e failed' b) := by
  obtain ⟨w', r, hw, heq⟩ := resolveError_cases w c e failed a
  obtain ⟨v', r', hv, heq'⟩ := resolveError_cases v c e failed' b
  rw [heq, heq']
  exact (h.logs hw hv).fireSignal hab r r'

theorem Twin.holdSignal (h : Twin ν old old' w v) {a b : SignalNo} (hab : ν.shared[a]? = some b)
    (f : Nat → Nat) : Twin ν old old' (w.modifySignal a fun x => { x with holders := f x.holders })
      (v.modifySignal b fun x => { x with holders := f x.holders }) :=
  h.modifySignal hab (fun _ _ _ _ hxy => ⟨hxy.channel, congrArg f hxy.holders, hxy.live, hxy.lingering⟩)
    fun _ hfired => hfired

theorem Twin.holdContext (h : Twin ν old old' w v) (c : ContextNo) (f : Nat → Nat) :
    Twin ν old old' (w.modifyContext c fun x => { x with holders := f x.holders })
      (v.modifyContext c fun x => { x with holders := f x.holders }) :=
  h.adjust (g := fun x => { x with holders := f x.holders }) c (fun _ => rfl)
    fun _ => ⟨rfl, rfl, rfl, rfl⟩

theorem Twin.returnCall (h : Twin ν old old' w v) {r r' : Reply} (hr : r.Twin ν.shared r')
    {kept kept' : List Ref} (hkept : Forall₂ (Ref.Twin ν.shared) kept kept') :
    Twin ν old old' (w.returnCall r kept) (v.returnCall r' kept') := by
  unfold World.returnCall
  cases hr with
  | context c => exact ((h.holdContext c (· + 1)).answered (.context c)).releaseAll hkept
  | signal hab => exact ((h.holdSignal hab (· + 1)).answered (.signal hab)).releaseAll hkept
  | done => exact (h.answered .done).releaseAll hkept
  | flag b => exact (h.answered (.flag b)).releaseAll hkept
  | subscription hch n => exact (h.answered (.subscription hch n)).releaseAll hkept

theorem Twin.reportBranch (h : Twin ν old old' w v) (c : ContextNo) :
    Twin ν old old' (w.reportBranch c) (v.reportBranch c) := by
  unfold World.reportBranch
  rcases h.context? c with ⟨hx, hy⟩ | ⟨x, y, hx, hy, hxy⟩
  · rw [hx, hy]
    exact h
  · have htree : x.tree = y.tree := (congrArg Context.tree hxy.outline :)
    rw [hx, hy]
    exact { h with trees := by dsimp only; rw [h.trees, htree] }

/-! ## Failures -/

theorem Twin.unwind (h : Twin ν old old' w v) (f : Failure) {g g' : Frame} {rest rest' : List Frame}
    (hg : g.Twin ν.shared g') (hrest : Stack.Twin ν rest rest') :
    Twin ν old old' (w.unwind f (g :: rest)) (v.unwind f (g' :: rest')) := by
  have hthrown := h.restack (.cons (.throwing f) hrest)
  have hstay := h.restack (.cons hg hrest)
  cases hg with
  | observer hch label u u' => exact hstay.refused f
  | handler number c e hab => exact hstay.refused f
  | deliver hch replay u u' htodo hspent => exact hstay.log _ _ _ _
  | climb => exact hthrown.abandonQueue
  | told c parent =>
    exact hthrown.releaseAll (rel_append (forall₂_contexts _) (.cons (.context c) .nil))
  | returning hr hkept => exact hthrown.releaseAll (rel_append hr.refs hkept)
  | _ => exact hthrown

/-! ## Epilogues -/

theorem advance_delivered {replay : Bool} {u : Value} {spent : List Observer} {rest : List Frame}
    (h : w.stack = .deliver ch replay u [] spent :: rest) :
    w.advance = World.releaseAll { w with stack := rest } (spent.flatMap Observer.refs) := by
  unfold World.advance
  rw [h]

theorem advance_conclude {c : ContextNo} {e : Failure} {failed : Option (Option Failure)}
    {s : SignalNo} {rest : List Frame} (h : w.stack = .conclude c e failed s :: rest) :
    w.advance = World.resolveError { w with stack := rest } c e failed s := by
  unfold World.advance
  rw [h]

theorem advance_returning {r : Reply} {kept : List Ref} {rest : List Frame}
    (h : w.stack = .returning r kept :: rest) :
    w.advance = World.returnCall { w with stack := rest } r kept := by
  unfold World.advance
  rw [h]

theorem advance_unwinding {f : Failure} {rest : List Frame} (h : w.stack = .throwing f :: rest) :
    w.advance = World.unwind { w with stack := rest } f rest := by
  unfold World.advance
  rw [h]

theorem Twin.logBelow {rest rest' : List Frame}
    (h : Twin ν old old' { w with stack := rest } { v with stack := rest' }) (l : Log.Level)
    (m : String) : Twin ν old old' { w with stack := rest } { v.log l m with stack := rest' } := by
  unfold World.log
  split
  · exact h.noteRight rfl
  · exact h

/-- The second world resolves an error that the first knows nothing of: nobody waits for that. -/
theorem Twin.resolveRight {rest rest' : List Frame}
    (h : Twin ν old old' { w with stack := rest } { v with stack := rest' }) {s : SignalNo}
    (hs : s ∈ ν.extra) (c : ContextNo) (e : Failure) (failed : Option (Option Failure)) :
    (∃ u, (v.resolveError c e failed s).stack = .deliver (.signal s) false u [] [] :: v.stack ∨
      (v.resolveError c e failed s).stack = v.stack) ∧
    Twin ν old old' { w with stack := rest } { v.resolveError c e failed s with stack := rest' } := by
  obtain ⟨v', r, hlogs, heq⟩ := resolveError_cases v c e failed s
  have hlogged : Twin ν old old' { w with stack := rest } { v' with stack := rest' } ∧
      v'.stack = v.stack := by
    rcases hlogs with rfl | ⟨l, m, rfl⟩
    · exact ⟨h, rfl⟩
    · exact ⟨h.logBelow l m, stack_log v l m⟩
  rw [heq]
  unfold World.fireSignal
  cases hfire : (v'.signals[s]?).bind fun x => x.channel.fire? r with
  | none => exact ⟨⟨.done, .inr hlogged.2⟩, hlogged.1⟩
  | some p =>
    obtain ⟨y, hy, hp⟩ := Option.bind_eq_some_iff.1 hfire
    obtain ⟨os, ch⟩ := p
    obtain ⟨-, rfl, hos⟩ := fire?_eq_some hp
    have hnone := hlogged.1.lonely s y hy (h.not_shared hs)
    rw [hnone] at hos
    subst hos
    refine ⟨⟨.resolution r, .inl ?_⟩, ?_⟩
    · show [Frame.deliver (.signal s) false (.resolution r) [] []] ++ v'.stack = _
      rw [hlogged.2]
      rfl
    · have hfired := hlogged.1.modifySignalRight (g := fun y => { y with channel := .fired r })
        (h.not_shared hs) (fun _ _ => rfl) fun _ _ => rfl
      exact (hfired.noteRight (e := .fired (.signal s) (.resolution r)) rfl).pointRight.restack h.stack

/-- The second world does what is left to do for an error, until the call returns. -/
theorem Twin.catch_up {c : ContextNo} {s : SignalNo} (hs : s ∈ ν.extra) {epilogue : List Frame}
    (he : Epilogue ν c s epilogue) {rest rest' : List Frame}
    (h : Twin ν old old' { w with stack := rest } { v with stack := rest' })
    (hv : v.stack = epilogue ++ rest') :
    ∃ n v' answers, advance^[n] v = v' ∧ answers ⊆ ν.spent ∧
      v'.stack = .returning (.signal s) (answers.map Ref.signal ++ [.context c]) :: rest' ∧
      Twin ν old old' { w with stack := rest } { v' with stack := rest' } := by
  induction he generalizing v with
  | returning answers hanswers => exact ⟨0, v, answers, rfl, hanswers, hv, h⟩
  | @deliver ch replay u spent below hspent he ih =>
    have hidle : v.advance = { v with stack := below ++ rest' } := by
      rw [advance_delivered hv]
      refine releaseAll_eq_self fun r hr => .inr (.inl ?_)
      rcases hspent r hr with rfl | rfl
      · exact keeps_append.2 (.inl he.keeps.1)
      · exact keeps_append.2 (.inl he.keeps.2)
    obtain ⟨n, v', answers, hn, hdone⟩ := ih (v := { v with stack := below ++ rest' }) h rfl
    exact ⟨n + 1, v', answers, by rw [Function.iterate_succ_apply, hidle, hn], hdone⟩
  | @conclude e failed below he ih =>
    have hstep : v.advance = World.resolveError { v with stack := below ++ rest' } c e failed s :=
      advance_conclude hv
    obtain ⟨⟨u, hstack⟩, htwin⟩ :=
      Twin.resolveRight (v := { v with stack := below ++ rest' }) h hs c e failed
    rw [← hstep] at hstack htwin
    rcases hstack with hstack | hstack
    · -- the notification of nobody comes to its end
      have hidle : v.advance.advance = { v.advance with stack := below ++ rest' } := by
        rw [advance_delivered hstack]
        exact releaseAll_eq_self fun r hr => absurd hr not_mem_nil
      obtain ⟨n, v', answers, hn, hdone⟩ :=
        ih (v := { v.advance with stack := below ++ rest' }) htwin rfl
      exact ⟨n + 2, v', answers, by
        rw [Function.iterate_succ_apply, Function.iterate_succ_apply, hidle, hn], hdone⟩
    · obtain ⟨n, v', answers, hn, hdone⟩ := ih htwin hstack
      exact ⟨n + 1, v', answers, by rw [Function.iterate_succ_apply, hn], hdone⟩

/-- A call returns that failed in the second world alone. -/
theorem Twin.returnFailed (h : Twin ν old old' w v)
    (hkept : ∀ a, w.isLiveSignal a = true → w.Holds (.signal a)) {s : SignalNo} (hs : s ∈ ν.extra)
    {answers : List SignalNo} (hanswers : answers ⊆ ν.spent) (c : ContextNo)
    (reply : Except Failure Reply) :
    Twin ν old old' (World.releaseAll { w with reply := reply } [.context c])
      (v.returnCall (.signal s) (answers.map Ref.signal ++ [.context c])) := by
  have hheld := h.modifySignalRight (g := fun y => { y with holders := y.holders + 1 })
    (h.not_shared hs) (fun _ hy => hy) fun _ hy => hy
  have hreplied : Twin ν old old' { w with reply := reply }
      (World.answered (v.modifySignal s fun y => { y with holders := y.holders + 1 }) (.signal s)) :=
    { hheld with reply := .failed reply hs }
  exact hreplied.releaseMore hkept answers (fun i hi => .inr (hanswers hi)) (.cons (.context c) .nil)

/-- What a failure makes of a call that is about to return to a client. -/
theorem advance_thrown {f : Failure} {r : Reply} {kept : List Ref} {rest : List Frame}
    (hw : w.stack = .throwing f :: .returning r kept :: rest) (hc : Clients rest) :
    w.advance.advance =
      World.releaseAll { w with stack := rest, reply := .error f } (r.refs ++ kept) := by
  have hfirst : w.advance = World.releaseAll { w with stack := .throwing f :: rest } (r.refs ++ kept) :=
    advance_unwinding hw
  have hstack : w.advance.stack = .throwing f :: rest := by
    rw [hfirst]
    exact stack_releaseAll _ _
  have hsame : ∀ r, Keeps rest r ↔ Keeps (.throwing f :: rest) r := fun r =>
    ⟨fun hr => hr.cons _, fun hr => (keeps_cons.1 hr).resolve_left not_mem_nil⟩
  rw [advance_throwing hstack hc, hfirst]
  exact (releaseAll_restack (w := { w with stack := .throwing f :: rest }) hsame _).symm

/-- A failure reaches a call that failed in the second world alone. What it finds there of the epilogue
may stop it. -/
theorem Twin.throwFailed {c : ContextNo} {s : SignalNo} (hs : s ∈ ν.extra) {epilogue : List Frame}
    (he : Epilogue ν c s epilogue) {f : Failure} {rest rest' : List Frame} (hc : Clients rest)
    (h : Twin ν old old' { w with stack := rest } { v with stack := rest' })
    (hkept : ∀ a, w.isLiveSignal a = true → World.Holds { w with stack := rest } (.signal a))
    (hv : v.stack = .throwing f :: (epilogue ++ rest')) :
    ∃ n, Twin ν old old' (World.releaseAll { w with stack := rest, reply := .error f } [.context c])
      (advance^[n] v) := by
  induction he generalizing v with
  | returning answers hanswers =>
    have hrefused := h.refused f
    refine ⟨2, ?_⟩
    show Twin ν old old' _ v.advance.advance
    rw [advance_thrown hv (h.stack.clients hc)]
    refine hrefused.releaseMore hkept (s :: answers) (fun i hi => ?_)
      (.cons (.context c) .nil)
    rcases mem_cons.1 hi with rfl | hi
    · exact .inl hs
    · exact .inr (hanswers hi)
  | @conclude e failed below he ih =>
    have hstep : v.advance = { v with stack := .throwing f :: (below ++ rest') } := advance_unwinding hv
    obtain ⟨n, hn⟩ := ih (v := { v with stack := .throwing f :: (below ++ rest') }) h rfl
    exact ⟨n + 1, by rwa [Function.iterate_succ_apply, hstep]⟩
  | @deliver ch replay u spent below hspent he ih =>
    let v₁ : World := { v with stack := .deliver ch replay u [] spent :: below ++ rest' }
    have hstep : v.advance = v₁.log .error f.observerReport := advance_unwinding hv
    have hcaught : Twin ν old old' { w with stack := rest } { v.advance with stack := rest' } := by
      rw [hstep]
      exact Twin.logBelow (v := v₁) h _ _
    have hstack : v.advance.stack = .deliver ch replay u [] spent :: below ++ rest' := by
      rw [hstep]
      exact stack_log _ _ _
    obtain ⟨n, v', answers, hn, hanswers, hv', htwin⟩ :=
      hcaught.catch_up hs (.deliver ch replay u hspent he) hstack
    refine ⟨n + 2, ?_⟩
    rw [Function.iterate_succ_apply, Function.iterate_succ_apply', hn, advance_returning hv']
    exact htwin.returnFailed hkept hs hanswers c _

/-! ## Every step -/

theorem Twin.advanceFrame (h : Twin ν old old' w v) {g g' : Frame} {rest rest' : List Frame}
    (hw : w.stack = g :: rest) (hv : v.stack = g' :: rest') (hg : g.Twin ν.shared g')
    (hrest : Stack.Twin ν rest rest') (hcalm : ∀ f, g ≠ .throwing f) :
    Twin ν old old' w.advance v.advance := by
  have hpop := h.restack hrest
  unfold World.advance
  rw [hw, hv]
  cases hg with
  | observer hch label u u' => exact h
  | handler number c e hab => exact h
  | deliver hch replay u u' htodo hspent =>
    cases htodo with
    | nil => exact hpop.releaseAll (refs_of_twins hspent)
    | cons ho htodo =>
      exact (h.restack (.cons (.deliver hch replay u u' htodo hspent) hrest)).notify hch replay u u' ho
  | respond c r r' =>
    have hnoted := (h.restack (.cons (.answer c r r') hrest)).note (e := .publishing c r)
      (g := .publishing c r') rfl
    exact (hnoted.reportBranch c).fireBefore c r r'
  | answer c r r' => exact (h.restack (.cons (.giveUp c .own) hrest)).point.fireResponse c r r'
  | giveUp c share => exact hpop.giveUpSlot c share
  | climb => exact hpop.completeNext
  | told c parent => exact hpop.tellParent c parent
  | conclude c e failed failed' hab => exact hpop.resolveError c e failed failed' hab
  | returning hr hkept => exact hpop.returnCall hr hkept
  | throwing f => exact absurd rfl (hcalm f)

theorem kept_of_returning {r : Reply} {c : ContextNo} {rest : List Frame} (hk : w.Kept)
    (above : List Frame) (habove : ∀ f ∈ above, f.refs = []) (hr : r.refs = [])
    (hw : w.stack = above ++ .returning r [.context c] :: rest) (a : SignalNo)
    (hl : w.isLiveSignal a = true) : World.Holds { w with stack := rest } (.signal a) := by
  have hholds : w.Holds (.signal a) := hk.holds (r := .signal a) hl
  refine hholds.imp_right (Or.imp_left fun hkeeps => ?_)
  rw [hw] at hkeeps
  rcases keeps_append.1 hkeeps with ⟨f, hf, hmem⟩ | hkeeps
  · rw [habove f hf] at hmem
    cases hmem
  · refine (keeps_cons.1 hkeeps).resolve_left fun hmem => ?_
    rw [show (Frame.returning r [.context c]).refs = r.refs ++ [.context c] from rfl, hr] at hmem
    cases mem_singleton.1 hmem

/-- A step of the first world is one of the second, or several. -/
theorem Twin.advance (h : Twin ν old old' w v) (hk : w.Kept) :
    ∃ m n, 0 < m ∧ Twin ν old old' (advance^[m] w) (advance^[n] v) := by
  have hst := h.stack
  generalize hw : w.stack = stack at hst
  generalize hv : v.stack = stack' at hst
  cases hst with
  | nil =>
    have hstay : w.advance = w := by
      unfold World.advance
      rw [hw]
    exact ⟨1, 0, Nat.one_pos, (congrArg (fun u => Twin ν old old' u v) hstay).mpr h⟩
  | @failed c s epilogue rest rest' hc hs he hrest =>
    have hpop := h.restack hrest
    have hkept := kept_of_returning hk [] (fun _ hf => absurd hf not_mem_nil) rfl hw
    obtain ⟨n, v', answers, hn, hanswers, hv', htwin⟩ := hpop.catch_up hs he hv
    refine ⟨1, n + 1, Nat.one_pos, ?_⟩
    show Twin ν old old' w.advance _
    rw [Function.iterate_succ_apply', hn, advance_returning hv', advance_returning hw]
    exact htwin.returnFailed hkept hs hanswers c (.ok (.flag true))
  | @cons g g' rest rest' hg hrest =>
    by_cases hcalm : ∀ f, g ≠ .throwing f
    · exact ⟨1, 1, Nat.one_pos, h.advanceFrame hw hv hg hrest hcalm⟩
    · obtain ⟨f, rfl⟩ : ∃ f, g = .throwing f := by simpa using hcalm
      cases hg
      cases hrest with
      | nil =>
        refine ⟨1, 1, Nat.one_pos, ?_⟩
        show Twin ν old old' w.advance v.advance
        rw [advance_throwing hw trivial, advance_throwing hv trivial]
        exact (h.restack .nil).refused f
      | cons hg hrest =>
        refine ⟨1, 1, Nat.one_pos, ?_⟩
        show Twin ν old old' w.advance v.advance
        rw [advance_unwinding hw, advance_unwinding hv]
        exact (h.restack (.cons hg hrest)).unwind f hg hrest
      | @failed c s epilogue rest rest' hc hs he hrest =>
        have hkept := kept_of_returning hk [.throwing f]
          (fun _ hf => mem_singleton.1 hf ▸ rfl) rfl hw
        obtain ⟨n, hn⟩ := Twin.throwFailed hs he hc (h.restack hrest) hkept hv
        refine ⟨2, n, Nat.two_pos, ?_⟩
        show Twin ν old old' w.advance.advance _
        rw [advance_thrown hw hc]
        exact hn

end FanIn.World
