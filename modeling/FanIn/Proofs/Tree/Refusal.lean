import FanIn.Proofs.Tree.Answer
import FanIn.Proofs.Tree.Reckoning

/-!
# What calls fail with

A call fails because its arguments are no good, because an id is in use, because a context takes nobody any
more, or because a slot could not be given up. As long as clients keep the balance of participants, the last
of these does not happen, whatever channels they fire. A child that is not created leaves all counters as
they were when the call is over.

Main statements: `sober_of_legal` and `Reckoned.createChild_or_unchanged`.
-/

namespace FanIn

theorem Failure.isOverRelease_alreadyCompleted (id : String) : (alreadyCompleted id).isOverRelease = false := by
  refine beq_eq_false_iff_ne.2 fun heq => ?_
  have hchars := congrArg String.toList heq
  simp only [String.toList_append] at hchars
  exact absurd (congrArg List.head? hchars) (by simp)

theorem RootSpec.isOverRelease_fault {spec : RootSpec} {f : Failure} (h : spec.fault? = some f) :
    f.isOverRelease = false := by
  unfold RootSpec.fault? at h
  split at h
  · cases h; rfl
  · split at h
    · cases h; rfl
    · split at h <;> cases h; rfl
  · split at h
    · cases h; rfl
    · split at h
      · cases h; rfl
      · split at h <;> cases h; rfl

namespace World

open Ledger Stack

variable {L : Ledger} {w : World}

/-! ## Answers -/

@[simp] theorem reply_log (l : Log.Level) (m : String) : (w.log l m).reply = w.reply := by
  unfold log
  split <;> rfl

@[simp] theorem reply_destroy (r : Ref) : (w.destroy r).reply = w.reply := by
  cases r with
  | signal s => rfl
  | context c =>
    simp only [destroy]
    split
    · rfl
    · simp only [farewell, if_true]
      split
      · rfl
      · exact reply_log _ _

@[simp] theorem reply_releaseAll (refs : List Ref) : (w.releaseAll refs).reply = w.reply :=
  releaseAll_induction (P := fun v => v.reply = w.reply) (fun _ r h _ _ => (reply_destroy r).trans h) rfl refs

@[simp] theorem reply_reportBranch (c : ContextNo) : (w.reportBranch c).reply = w.reply := by
  unfold reportBranch
  split <;> rfl

theorem reply_fireBefore (c : ContextNo) (r : Response) : (w.fireBefore c r).reply = w.reply := by
  unfold fireBefore
  split <;> rfl

theorem reply_fireResponse (c : ContextNo) (r : Response) : (w.fireResponse c r).reply = w.reply := by
  unfold fireResponse
  split <;> rfl

theorem reply_fireCompletion (c : ContextNo) : (w.fireCompletion c).reply = w.reply := by
  unfold fireCompletion
  split <;> rfl

theorem reply_fireSignal (s : SignalNo) (r : Resolution) : (w.fireSignal s r).reply = w.reply := by
  unfold fireSignal
  split <;> rfl

theorem reply_notify (ch : ChannelRef) (replay : Bool) (v : Value) (o : Observer) :
    (w.notify ch replay v o).reply = w.reply := by
  unfold notify
  split
  · split <;> rfl
  · rfl
  · split
    · exact reply_log _ _
    · rfl
  · split <;> rfl

theorem reply_giveUpSlot (c : ContextNo) (share : Share) : (w.giveUpSlot c share).reply = w.reply := by
  unfold giveUpSlot
  split
  · rfl
  · dsimp only
    split
    · split <;> rfl
    · rfl

theorem reply_completeNext : w.completeNext.reply = w.reply := by
  unfold completeNext
  split
  · rfl
  · rfl
  · rw [reply_fireCompletion]
    exact reply_log _ _

theorem reply_tellParent (c : ContextNo) (p : Option ContextNo) : (w.tellParent c p).reply = w.reply := by
  unfold tellParent
  split
  · exact reply_releaseAll _
  · split
    · exact reply_releaseAll _
    · dsimp only
      split <;> exact reply_releaseAll _

theorem reply_resolveError (c : ContextNo) (e : Failure) (failed : Option (Option Failure))
    (result : SignalNo) : (w.resolveError c e failed result).reply = w.reply := by
  unfold resolveError
  split
  · exact reply_fireSignal _ _
  · exact (reply_fireSignal _ _).trans (reply_log _ _)

theorem reply_returnCall (r : Reply) (kept : List Ref) : (w.returnCall r kept).reply = .ok r := by
  unfold returnCall
  exact reply_releaseAll _

/-- An answer given while a failure is on its way. -/
theorem reply_unwind (f : Failure) (rest : List Frame) :
    (w.unwind f rest).reply = w.reply ∨ (w.unwind f rest).reply = .error f := by
  unfold unwind
  split
  · exact .inr rfl
  · exact .inr rfl
  · exact .inr rfl
  · exact .inl (reply_log _ _)
  · exact .inl (reply_releaseAll _)
  · exact .inl (reply_releaseAll _)
  · exact .inl (reply_releaseAll _)
  · exact .inl rfl

/-- The library fails a call only with what is on its way. -/
theorem reply_advance {f : Failure} (h : w.advance.reply = .error f) :
    w.reply = .error f ∨ ∃ rest, w.stack = .throwing f :: rest := by
  unfold advance at h
  split at h
  · exact .inl h
  · exact .inl h
  · exact .inl h
  · rw [reply_releaseAll] at h
    exact .inl h
  · rw [reply_notify] at h
    exact .inl h
  · rw [reply_fireBefore, reply_reportBranch] at h
    exact .inl h
  · rw [reply_fireResponse] at h
    exact .inl h
  · rw [reply_giveUpSlot] at h
    exact .inl h
  · rw [reply_completeNext] at h
    exact .inl h
  · rw [reply_tellParent] at h
    exact .inl h
  · rw [reply_resolveError] at h
    exact .inl h
  · rename_i r kept rest hs
    cases (reply_returnCall (w := { w with stack := rest }) r kept).symm.trans h
  · rename_i g rest hs
    rcases reply_unwind (w := { w with stack := rest }) g rest with hold | hnew
    · exact .inl (hold.symm.trans h)
    · obtain rfl := Except.error.inj (hnew.symm.trans h)
      exact .inr ⟨rest, hs⟩

theorem reply_attach (ch : ChannelRef) (o : Observer) :
    (match w.subscribe ch o with
      | (.registered _, w) => w
      | (.replayed v, w) => w.replay ch v o).reply = w.reply := by
  rcases subscribe_cases w ch o with ⟨_, heq⟩ | ⟨v, _, heq⟩ <;> rw [heq]
  · cases ch <;> rfl
  · rfl

theorem reply_settleBy (s : SignalNo) (c : ContextNo) (e : Failure) (result : SignalNo) :
    (w.settleBy s c e result).reply = w.reply :=
  reply_attach (w := w.push [.returning (.signal result) [.signal s, .context c]]) (.signal s)
    (.settleError c e result)

theorem reply_enter (x : Context) (g : Registry) : (w.enter x g).reply = w.reply := reply_log _ _

theorem reply_firing (ch : ChannelRef) {g : World → World} (hg : ∀ v : World, (g v).reply = v.reply)
    {f : Failure} (h : (w.firing ch g).reply = .error f) : w.reply = .error f := by
  unfold firing at h
  split at h
  · cases h
  · rw [hg] at h
    exact h

theorem isOverRelease_of_refuseSlot {c : ContextNo} {f : Failure} (h : (w.refuseSlot c).reply = .error f) :
    f.isOverRelease = false := by
  obtain rfl := Except.error.inj h
  exact Failure.isOverRelease_alreadyCompleted _

theorem reply_createRoot {spec : RootSpec} {f : Failure} (h : (w.createRoot spec).reply = .error f) :
    w.reply = .error f ∨ f.isOverRelease = false := by
  simp only [createRoot_eq] at h
  split at h
  · rename_i g hg
    obtain rfl := Except.error.inj h
    exact .inr (RootSpec.isOverRelease_fault hg)
  · split at h
    · obtain rfl := Except.error.inj h
      exact .inr rfl
    · rename_i g _
      left
      have henter := reply_enter (w := { w with trees := w.trees.push spec.tree })
        (spec.build w.contexts.size w.trees.size) g
      split at h
      · exact henter.symm.trans h
      · rename_i s _
        have hattach := reply_attach (.signal s) (.settleLink w.contexts.size)
          (w := ((World.enter { w with trees := w.trees.push spec.tree }
            (spec.build w.contexts.size w.trees.size) g).push
              [.returning (.context w.contexts.size) []]).note (.joined w.contexts.size .link))
        exact henter.symm.trans (hattach.symm.trans h)

theorem reply_createChild {parent : ContextNo} {location : Option Location} {handler : Option Nat}
    {correlation : Option String} {f : Failure}
    (h : (w.createChild parent location handler correlation).reply = .error f) :
    w.reply = .error f ∨ f.isOverRelease = false := by
  simp only [createChild_eq] at h
  split at h
  · obtain rfl := Except.error.inj h
    exact .inr rfl
  · exact .inl h
  · split at h
    · exact .inr (isOverRelease_of_refuseSlot h)
    · rename_i p _ _ v hv
      have hslot : v.reply = w.reply := by
        obtain ⟨x, slots, _, _, rfl⟩ := takeSlot_eq_some hv
        rfl
      left
      split at h
      · exact hslot.symm.trans h
      · have henter := reply_enter (w := (v.nextDescendant p.tree).2)
        exact hslot.symm.trans ((henter _ _).symm.trans h)

/-- A call fails at once with something other than a slot that could not be given up. -/
theorem reply_call {call : Call} {f : Failure} (h : (w.call call).reply = .error f) :
    w.reply = .error f ∨ f.isOverRelease = false := by
  cases call with
  | createRoot spec => exact reply_createRoot h
  | createChild parent location handler correlation => exact reply_createChild h
  | success c result =>
    left
    simp only [World.call, success] at h
    split at h
    · exact h
    · split at h
      · cases h
      · exact h
  | error c failure =>
    cases failure with
    | none =>
      obtain rfl := Except.error.inj h
      exact .inr rfl
    | some e =>
      left
      simp only [World.call, error] at h
      split at h
      · exact h
      · split at h
        · have hlog := reply_log (w := w.point) .warning
          exact (hlog _).symm.trans h
        · exact h
  | addChild c =>
    right
    simp only [World.call] at h
    split at h
    · cases h
    · exact isOverRelease_of_refuseSlot h
  | subscribe ch label keeps =>
    left
    simp only [World.call] at h
    rcases subscribe_cases w ch (label.elim .empty fun label => .client label keeps) with
      ⟨_, heq⟩ | ⟨v, _, heq⟩ <;> rw [heq] at h
    · cases h
    · exact h
  | fireBefore c r => exact .inl (reply_firing _ (fun _ => reply_fireBefore _ _) h)
  | fireResponse c r => exact .inl (reply_firing _ (fun _ => reply_fireResponse _ _) h)
  | fireCompletion c => exact .inl (reply_firing _ (fun _ => reply_fireCompletion _) h)
  | fireSignal s r => exact .inl (reply_firing _ (fun _ => reply_fireSignal _ _) h)
  | makeSignal r => cases r <;> exact .inl h
  | childCompleted c => exact .inl h
  | register id c =>
    simp only [World.call] at h
    split at h <;> cases h
  | _ => cases h

/-- What a failed call answers with is not that a slot could not be given up; nor is such a failure on its
way. -/
structure Sober (w : World) : Prop where
  reply : ∀ f, w.reply = .error f → f.isOverRelease = false
  frames : ∀ f, .throwing f ∈ w.stack → f.isOverRelease = false

theorem Sober.move (h : w.Sober) (hsure : w.fails = false) (m : Move) : (w.move m).Sober where
  reply := by
    intro f hf
    cases m with
    | advance =>
      rcases reply_advance hf with hold | ⟨rest, hs⟩
      · exact h.reply f hold
      · exact h.frames f (hs ▸ List.mem_cons_self)
    | call call => exact (reply_call hf).elim (h.reply f) id
    | finish thrown =>
      refine h.reply f (Eq.trans ?_ hf)
      show _ = (w.finish thrown).reply
      unfold finish
      split
      · dsimp only
        split
        · rfl
        · rw [reply_log]
      · rfl
    | handled a =>
      refine h.reply f (Eq.trans ?_ hf)
      show _ = (w.handled a).reply
      unfold handled
      split
      · dsimp only
        split
        · rfl
        · rw [reply_settleBy]
          rfl
        · rw [reply_settleBy]
          rfl
      · rfl
  frames := by
    intro f hf
    rcases arises_of_mem hf with hold | hfails | ⟨id, rfl⟩
    · exact h.frames f hold
    · exact absurd hfails (Bool.eq_false_iff.1 hsure)
    · rfl

theorem sober_start (threshold : Log.Level) : (start threshold).Sober where
  reply := by intro f hf; cases hf
  frames := by intro f hf; cases hf

/-- No call of a client that keeps the balance fails because a slot could not be given up. -/
theorem sober_of_legal {threshold : Log.Level} {moves : List Move}
    (h : paced.legal (start threshold) moves = true) : (paced.run (start threshold) moves).Sober :=
  (paced.invariant (P := fun w => w.Sober ∧ ∃ L, Reckoned L w)
    (fun _ m hw hm => by
      obtain ⟨hsober, L, hL⟩ := hw
      obtain ⟨L', hL', -⟩ := hL.move hm
      exact ⟨hsober.move hL.sure m, L', hL'⟩)
    ⟨sober_start threshold, {}, reckoned_start threshold⟩ h).1

/-! ## Children that are not created -/

/-- The counter of a context. -/
def counter? (w : World) (c : ContextNo) : Option Counter := (w.contexts[c]?).map Context.slots

theorem counter?_recount (c d : ContextNo) (slots : Counter) :
    (w.modifyContext c fun x => { x with slots := slots }).counter? d =
      if c = d then (w.counter? d).map fun _ => slots else w.counter? d := by
  unfold counter?
  rw [getElem?_modifyContext]
  split <;> cases w.contexts[d]? <;> rfl

/-- A slot that leaves others is given up, and the failure that lies under it is the answer. -/
theorem advance_rejected {c : ContextNo} {share : Share} {f : Failure} {rest : List Frame} {y : Context}
    {slots : Counter} (hs : w.stack = .giveUp c share :: .throwing f :: rest) (hc : Clients rest)
    (hy : w.contexts[c]? = some y) (hrel : y.slots.release = some (false, slots)) :
    w.isClientsTurn = false ∧ w.advance.isClientsTurn = false ∧ w.advance.advance.stack = rest ∧
      w.advance.advance.reply = .error f ∧
        ∀ d, w.advance.advance.counter? d = if c = d then some slots else w.counter? d := by
  have hfirst := advance_giveUp_eq hs hy hrel
  have hstack : w.advance.stack = .throwing f :: rest := by rw [hfirst]
  have hsecond := advance_throwing hstack hc
  refine ⟨?_, ?_, ?_, ?_, ?_⟩
  · unfold isClientsTurn
    rw [hs]
    rfl
  · unfold isClientsTurn
    rw [hstack]
    rfl
  · rw [hsecond]
    rfl
  · rw [hsecond]
    rfl
  · intro d
    rw [hsecond, hfirst]
    refine (counter?_recount (w := w) c d slots).trans ?_
    split
    · rename_i hcd
      subst hcd
      unfold counter?
      rw [hy]
      rfl
    · rfl

/-- Taking a slot changes one counter. -/
theorem takeSlot_counters {c : ContextNo} {share : Share} {v : World} {x : Context}
    (hx : w.contexts[c]? = some x) (h : w.takeSlot c share = some v) :
    ∃ slots, x.slots.tryAdd = some slots ∧ v.stack = w.stack ∧
      v.contexts[c]? = some { x with slots := slots } ∧
        ∀ d, v.counter? d = if c = d then some slots else w.counter? d := by
  obtain ⟨y, slots, hy, hadd, rfl⟩ := takeSlot_eq_some h
  obtain rfl := Option.some.inj (hy.symm.trans hx)
  refine ⟨slots, hadd, rfl, ?_, fun d => ?_⟩
  · show (w.modifyContext c fun x => { x with slots := slots }).contexts[c]? = _
    rw [getElem?_modifyContext, if_pos rfl, hx]
    rfl
  · refine (counter?_recount c d slots).trans ?_
    split
    · rename_i hcd
      subst hcd
      unfold counter?
      rw [hx]
      rfl
    · rfl

/-- **A child is created, or no counter has changed.** The call is over after some steps of the library, in
which no code of a client is called. -/
theorem Reckoned.createChild_or_unchanged (h : Reckoned L w) {parent : ContextNo} {location : Option Location}
    {handler : Option Nat} {correlation : Option String}
    (hm : paced.allows w (.call (.createChild parent location handler correlation)) = true) :
    ∃ n, let v := World.advance^[n] (w.call (.createChild parent location handler correlation))
      (∀ k < n, (World.advance^[k] (w.call (.createChild parent location handler correlation))).isClientsTurn =
        false) ∧ v.stack = w.stack ∧
      (v.reply = .ok (.context w.contexts.size) ∨
        (∃ f, v.reply = .error f) ∧ ∀ d, v.counter? d = w.counter? d) := by
  obtain ⟨hallows, hpaces⟩ := Bool.and_eq_true_iff.1 hm
  have hallows : w.allows (.call (.createChild parent location handler correlation)) = true := hallows
  have hc : Clients w.stack := clients_of_turn (turn_of_call hallows)
  have hlive := h.tidy.held_live (r := .context parent) (held_of_call hallows (by simp [Call.uses]))
  obtain ⟨x, hx, _⟩ := exists_of_isLive hlive
  have hcall : w.call (.createChild parent location handler correlation) =
      w.createChild parent location handler correlation := rfl
  rw [hcall]
  cases location with
  | none => exact ⟨0, fun k hk => absurd hk k.not_lt_zero, rfl, .inr ⟨⟨_, rfl⟩, fun _ => rfl⟩⟩
  | some location =>
    cases hslot : w.takeSlot parent (.child w.contexts.size) with
    | none =>
      have hrefuse : w.createChild parent (some location) handler correlation = w.refuseSlot parent := by
        simp only [createChild_eq, hx, hslot]
      rw [hrefuse]
      refine ⟨0, fun k hk => absurd hk k.not_lt_zero, stack_refuseSlot w parent,
        .inr ⟨⟨_, reply_refuseSlot parent⟩, fun d => ?_⟩⟩
      unfold counter?
      show ((w.log _ _).contexts[d]?).map _ = _
      rw [contexts_log]
    | some v =>
      obtain ⟨slots, hadd, hstack, hget, hcounter⟩ := takeSlot_counters hx hslot
      cases hreg : (v.nextDescendant x.tree).2.registry.register? (v.nextDescendant x.tree).2.isLive
        (v.nextDescendant x.tree).1 w.contexts.size with
      | some g =>
        -- the child is there, and the call is about to return
        have henter : w.createChild parent (some location) handler correlation =
            ((v.nextDescendant x.tree).2.enter
              (.child parent x (v.nextDescendant x.tree).1 location handler correlation) g).push
                [.returning (.context w.contexts.size) []] := by
          simp only [createChild_eq, hx, hslot, hreg]
        have hanswers : w.Answers (.createChild parent (some location) handler correlation)
            (.ok (.context w.contexts.size)) :=
          answers_returning henter ((stack_enter _ _ _).trans hstack)
        obtain ⟨n, hbusy, hdone, hreply⟩ := hanswers
        exact ⟨n, hbusy, hdone, .inl hreply⟩
      | none =>
        have hreject : w.createChild parent (some location) handler correlation =
            ((v.nextDescendant x.tree).2.note (.rejected parent (v.nextDescendant x.tree).1)).push
              [.giveUp parent (.child w.contexts.size),
                .throwing (.idInUse (v.nextDescendant x.tree).1)] := by
          simp only [createChild_eq, hx, hslot, hreg]
        rw [hreject]
        have hroom : x.slots.count < 2 ^ 31 - 1 := by
          refine count_lt_of_hasRoom hx ?_
          simpa [paces] using hpaces
        obtain ⟨hbusy, hbusy', hdone, hreply, hback⟩ := advance_rejected
          (w := ((v.nextDescendant x.tree).2.note (.rejected parent (v.nextDescendant x.tree).1)).push
            [.giveUp parent (.child w.contexts.size), .throwing (.idInUse (v.nextDescendant x.tree).1)])
          (congrArg (fun l => Frame.giveUp parent (.child w.contexts.size) ::
            .throwing (.idInUse (v.nextDescendant x.tree).1) :: l) hstack) hc hget
          (Counter.release_tryAdd hadd hroom)
        refine ⟨2, ?_, hdone, .inr ⟨⟨_, hreply⟩, fun d => (hback d).trans ?_⟩⟩
        · intro k hk
          obtain rfl | rfl : k = 0 ∨ k = 1 := by omega
          · exact hbusy
          · exact hbusy'
        · split
          · rename_i hpd
            subst hpd
            unfold counter?
            rw [hx]
            rfl
          · rename_i hpd
            exact (hcounter d).trans (if_neg hpd)

end World

end FanIn
