import FanIn.Proofs.Tree.Keeping

/-!
# Moves keep a world tidy

What a step of the library, a return or a call refers to exists, because the work under way keeps it
or because a client holds it. The shape of the stack says which of the two it is.

Main statements: `tidy_advance`, `tidy_finish`, `tidy_handled` and `tidy_call`.
-/

namespace FanIn

/-- What a frame is about to be done with, which it does not keep itself. -/
def Frame.subjects : Frame → List Ref
  | respond c _ => [.context c]
  | answer c _ => [.context c]
  | giveUp c _ => [.context c]
  | conclude c _ _ result => [.signal result, .context c]
  | _ => []

namespace World

open Stack

variable {t : Terms} {told : ContextNo → Bool} {w w' : World}

/-! ## The library's own work -/

theorem isLiveRef_log (w : World) (l : Log.Level) (m : String) (r : Ref) :
    (w.log l m).isLiveRef r = w.isLiveRef r := by
  unfold World.log
  split
  · cases r <;> rfl
  · rfl

/-- Of which contexts the library has told the completion, once it has told that of the first in the
queue. -/
def tellNext (w : World) (told : ContextNo → Bool) : ContextNo → Bool :=
  match w.queue with
  | some (c :: _) => Function.update told c true
  | _ => told

/-- The same after a move. -/
def toldAfter (w : World) (told : ContextNo → Bool) : Move → ContextNo → Bool
  | .advance =>
    match w.stack with
    | .climb :: _ => w.tellNext told
    | _ => told
  | _ => told

theorem tellNext_eq_true {c : ContextNo} : w.tellNext told c = true ↔
    told c = true ∨ ∃ q, w.queue = some (c :: q) := by
  unfold tellNext
  cases w.queue with
  | none => simp
  | some l =>
    cases l with
    | nil => simp
    | cons d q =>
      simp only [Function.update_apply]
      by_cases hcd : c = d
      · simp [hcd]
      · simp [hcd, Ne.symm hcd]

theorem toldAfter_eq_true {m : Move} {c : ContextNo} : w.toldAfter told m c = true ↔
    told c = true ∨ m = .advance ∧ (∃ rest, w.stack = .climb :: rest) ∧
      ∃ q, w.queue = some (c :: q) := by
  cases m with
  | advance =>
    by_cases hclimb : ∃ rest, w.stack = .climb :: rest
    · obtain ⟨rest, hs⟩ := hclimb
      unfold toldAfter
      rw [hs]
      simp [tellNext_eq_true]
    · have hquiet : w.toldAfter told .advance = told := by
        simp only [toldAfter]
        split
        · rename_i hs
          exact absurd ⟨_, hs⟩ hclimb
        · rfl
      simp [hquiet, hclimb]
  | _ => simp [toldAfter]

/-- Queued and not told, a context lives and still holds its parent. -/
theorem Tidy.hold_of_queued (h : w.Tidy told) {c : ContextNo} {q : List ContextNo} {x : Context}
    (hq : w.queue = some (c :: q)) (hx : w.contexts[c]? = some x) (hc : told c = false) :
    x.isLive = true ∧ x.hold = x.parent := by
  have hlive : w.isLive c = true := h.queue_live (by rw [hq]; exact List.mem_cons_self)
  obtain ⟨y, hy, hyl⟩ := exists_of_isLive hlive
  obtain rfl := Option.some.inj (hx.symm.trans hy)
  have htether := (h.contexts c x hx).tether
  rw [hyl, hc] at htether
  exact ⟨hyl, htether⟩

theorem value?_completion_modifyContext {c : ContextNo} {x : Context} {f : Context → Context}
    (hx : w.contexts[c]? = some x) (hdone : (f x).isComplete = true) :
    (w.modifyContext c f).value? (.completion c) = some .done := by
  obtain ⟨u, hu⟩ := Option.isSome_iff_exists.1 hdone
  simp only [value?, getElem?_modifyContext, if_true, hx, Option.map_some, Option.bind_some, hu]

/-- A context that is complete from now on lets go of its parent, and the frame that tells the parent
takes over what it held. -/
theorem Tidy.letGo (h : w.Tidy told) {c : ContextNo} {x : Context} (hx : w.contexts[c]? = some x)
    (hl : x.isLive = true) (hhold : x.hold = x.parent) {f : Context → Context}
    (hf : x.Becomes true w (f x)) (hdone : (f x).isComplete = true) :
    ((w.modifyContext c f).push [.told c x.hold, .climb]).Tidy (Function.update told c true) := by
  have hbecomes : ∀ y, w.contexts[c]? = some y → y.Becomes (Function.update told c true c) w (f y) := by
    intro y hy
    obtain rfl := Option.some.inj (hx.symm.trans hy)
    rwa [Function.update_self]
  have hgone : (w.modifyContext c f).Tidy (Function.update told c true) :=
    h.adjust (fun d hd => Function.update_of_ne (Ne.symm hd) true told) hbecomes
  have hget : (w.modifyContext c f).contexts[c]? = some (f x) := by
    rw [getElem?_modifyContext, if_pos rfl, hx]
    rfl
  refine (hgone.pushPlain (f := .climb) rfl trivial).push (f := .told c x.hold) ?_
    ⟨⟨_, hget, hf.parent.trans hhold.symm⟩, value?_completion_modifyContext hx hdone⟩
  -- what the frame refers to existed before
  intro ref href
  refine (isLiveRef_modifyContext (fun y hy => (hbecomes y hy).isLive) ref).trans ?_
  simp only [Frame.refs, List.mem_append, List.mem_map, Option.mem_toList, List.mem_singleton] at href
  rcases href with ⟨p, hp, rfl⟩ | rfl
  · exact h.context_live hx hl (Context.mem_refs.2 (.inr ⟨p, Option.mem_def.1 hp, rfl⟩))
  · show w.isLive c = true
    simp [World.isLive, hx, hl]

/-- The same, and the completion fires. -/
theorem Tidy.complete (h : w.Tidy told) {c : ContextNo} {x : Context} (hx : w.contexts[c]? = some x)
    (hl : x.isLive = true) (hhold : x.hold = x.parent) :
    (((w.modifyContext c fun x => { x with hold := none, completion := .fired () }).push
      [.told c x.hold, .climb]).deliver (.completion c) .done
        (x.completion.observers.map Prod.snd)).Tidy (Function.update told c true) := by
  have hbecomes : x.Becomes true w { x with hold := none, completion := .fired () } := by
    refine (h.contexts c x hx).rewire (by simp) ?_ (fun _ h => by cases h) rfl rfl rfl
      (fun _ h => h) (fun _ h => h) fun _ _ => rfl
    intro e he
    left
    rcases List.mem_append.1 he with he | he
    · exact List.mem_append_left _ he
    · cases he
  refine (h.letGo (f := fun x => { x with hold := none, completion := .fired () }) hx hl hhold
    hbecomes rfl).deliver (.completion c) (value?_completion_modifyContext (w := w)
      (f := fun x => { x with hold := none, completion := .fired () }) hx rfl) ?_
  -- whoever waited refers to what exists
  intro o ho ref href
  obtain ⟨e, he, rfl⟩ := List.mem_map.1 ho
  refine (isLiveRef_modifyContext (w := w) (f := fun x => { x with hold := none, completion := .fired () })
    (fun _ _ => rfl) ref).trans (h.context_live hx hl ?_)
  exact Context.mem_refs.2 (.inl ⟨e, List.mem_append_right _ he, href⟩)

/-- The completion of an existing context is told. -/
theorem Tidy.completeNext (h : w.Tidy told)
    (hq : ∀ c q, w.queue = some (c :: q) → told c = false) :
    w.completeNext.Tidy (w.tellNext told) := by
  unfold tellNext
  cases hqueue : w.queue with
  | none => unfold World.completeNext; rw [hqueue]; exact h
  | some l =>
    cases l with
    | nil => unfold World.completeNext; rw [hqueue]; exact h.requeue none (List.forall_mem_nil _)
    | cons c q =>
      dsimp only
      have hlive : ∀ d ∈ c :: q, w.isLive d = true := fun d hd => h.queue_live (by rwa [hqueue])
      obtain ⟨x, hx, -⟩ := exists_of_isLive (hlive c List.mem_cons_self)
      obtain ⟨hxl, hhold⟩ := h.hold_of_queued hqueue hx (hq c q hqueue)
      have hmid : (World.log { w with queue := some q } .debug (completionNote x)).Tidy told :=
        (h.requeue (some q) fun d hd => hlive d (List.mem_cons_of_mem c hd)).log _ _
      have hmx : (World.log { w with queue := some q } .debug (completionNote x)).contexts[c]? =
          some x := by
        rw [contexts_log]
        exact hx
      cases hxc : x.isComplete with
      | false =>
        rw [completeNext_eq hqueue hx hxc]
        exact hmid.complete hmx hxl hhold
      -- a client has fired the channel, and nobody is notified
      | true =>
        rw [completeNext_eq_of_complete hqueue hx hxc]
        exact hmid.letGo (f := fun x => { x with hold := none }) hmx hxl hhold
          ((h.contexts c x hx).rewire (by simp) (fun e he => .inl he) (fun _ h => by cases h) rfl rfl rfl
            (fun _ h => h) (fun _ h => h) fun _ h => h) hxc

/-- An observer of a channel that has fired is notified. -/
theorem Tidy.notify (h : w.Tidy told) {ch : ChannelRef} {v : Value} (hv : w.value? ch = some v)
    (replay : Bool) (o : Observer) : (w.notify ch replay v o).Tidy told := by
  cases o with
  | client label keeps =>
    have hpush : (w.push [.observer ch label v]).Tidy told := h.pushPlain rfl hv
    cases replay with
    | false => exact hpush.note (e := .observed ch label v) hv
    | true => exact hpush.note (e := .replayed ch label v) hv
  | empty => exact h
  | settleLink c =>
    simp only [World.notify]
    split
    · exact (h.log _ _).pushPlain rfl trivial
    · exact h.pushPlain rfl trivial
  | settleError c e result =>
    have hpush : ∀ failed,
        (w.push [.respond c ⟨none, some e⟩, .conclude c e failed result]).Tidy told := by
      intro failed
      have hconclude := h.pushPlain (f := .conclude c e failed result) rfl trivial
      exact hconclude.pushPlain (f := .respond c ⟨none, some e⟩) rfl trivial
    simp only [World.notify]
    split
    · exact hpush _
    · exact hpush _

/-- The counter of a context changes. -/
theorem Tidy.recount (h : w.Tidy told) (c : ContextNo) (slots : Counter) :
    (w.modifyContext c fun x => { x with slots := slots }).Tidy told :=
  h.modifyContext fun x hx => (h.contexts c x hx).becomes x.state slots x.trail

/-- A slot of an existing context is given up. -/
theorem Tidy.giveUpSlot (h : w.Tidy told) {c : ContextNo} (hl : w.isLive c = true) (share : Share) :
    (w.giveUpSlot c share).Tidy told := by
  unfold World.giveUpSlot
  split
  · exact h.pushPlain rfl trivial
  · rename_i last slots _
    have hleft := (h.recount c slots).point.note (e := .left c share) trivial
    dsimp only
    split
    · have hdrained := hleft.note (e := .drained c) trivial
      have hlive : ∀ d ∈ w.queue.getD [] ++ [c],
          (w.modifyContext c fun x => { x with slots := slots }).isLive d = true := by
        intro d hd
        rw [isLive_modifyContext (f := fun x => { x with slots := slots }) fun _ _ => rfl]
        rcases List.mem_append.1 hd with hd | hd
        · exact h.queue_live hd
        · rwa [List.mem_singleton.1 hd]
      split
      · rename_i q hq
        have hq : w.queue = some q := hq
        rw [hq] at hlive
        exact hdrained.requeue (some (q ++ [c])) hlive
      · rename_i hq
        have hq : w.queue = none := hq
        rw [hq] at hlive
        exact (hdrained.requeue (some [c]) hlive).pushPlain rfl trivial
    · exact hleft

/-- The parent of a completed context is told; both exist. -/
theorem Tidy.tellParent (h : w.Tidy told) {c : ContextNo} {parent : Option ContextNo}
    (hp : ∀ p, parent = some p → w.isLive p = true) : (w.tellParent c parent).Tidy told := by
  unfold World.tellParent
  split
  · exact h.releaseAll _
  · rename_i p
    split
    · exact (h.releaseAll _).pushPlain rfl trivial
    · rename_i last slots _
      have hleft := (h.recount p slots).point.note (e := .left p (.child c)) trivial
      dsimp only
      split
      · have hdrained := hleft.note (e := .drained p) trivial
        refine (hdrained.requeue (w.queue.map fun q => q ++ [p]) ?_).releaseAll _
        intro d hd
        refine (isLive_modifyContext (w := w) (c := p) (f := fun x => { x with slots := slots })
          (fun _ _ => rfl) d).trans ?_
        cases hq : w.queue with
        | none => rw [hq] at hd; cases hd
        | some q =>
          rw [hq] at hd
          rcases List.mem_append.1 hd with hd | hd
          · exact h.queue_live (by rwa [hq])
          · rw [List.mem_singleton.1 hd]
            exact hp p rfl
      · exact hleft.releaseAll _

theorem Tidy.resolveError (h : w.Tidy told) {result : SignalNo} (hl : w.isLiveSignal result = true)
    (c : ContextNo) (e : Failure) (failed : Option (Option Failure)) :
    (w.resolveError c e failed result).Tidy told := by
  unfold World.resolveError
  split
  · exact h.fireSignal hl _
  · refine (h.log _ _).fireSignal ?_ _
    exact (isLiveRef_log w _ _ (.signal result)).trans hl

/-- A client takes a reference to something that exists. -/
theorem Tidy.hold (h : w.Tidy told) {r : Ref} (hl : w.isLiveRef r = true) : (w.hold r).Tidy told := by
  cases r with
  | context c =>
    obtain ⟨x, hx, hxl⟩ := exists_of_isLive hl
    apply h.modifyContext
    intro y hy
    obtain rfl := Option.some.inj (hy.symm.trans hx)
    exact ⟨⟨(h.contexts c y hx).tether, (h.contexts c y hx).clients⟩, rfl, rfl, fun _ h => h,
      fun _ h => h, fun _ h => h, fun _ _ href => .inl href, fun _ => .inr hxl⟩
  | signal s =>
    obtain ⟨x, hx, hxl⟩ := exists_of_isLiveSignal hl
    apply h.modifySignal
    intro y hy
    obtain rfl := Option.some.inj (hy.symm.trans hx)
    exact ⟨rfl, fun _ h => h, fun _ _ href => .inl href, fun _ => .inr hxl⟩

/-- A client has one reference less to a signal. -/
theorem Tidy.unholdSignal (h : w.Tidy told) (s : SignalNo) :
    (w.modifySignal s fun x => { x with holders := x.holders - 1 }).Tidy told :=
  h.modifySignal fun x _ => ⟨rfl, fun _ h => h, fun _ _ href => .inl href,
    fun hpos => .inl (Nat.lt_of_lt_of_le hpos (Nat.sub_le x.holders 1))⟩

theorem Tidy.drop (h : w.Tidy told) (r : Ref) : (w.drop r).Tidy told := by
  refine Tidy.releaseAll ?_ [r]
  cases r with
  | context c =>
    exact h.modifyContext fun x hx => ⟨⟨(h.contexts c x hx).tether, (h.contexts c x hx).clients⟩,
      rfl, rfl, fun _ h => h, fun _ h => h, fun _ h => h, fun _ _ href => .inl href,
      fun hpos => .inl (Nat.lt_of_lt_of_le hpos (Nat.sub_le x.holders 1))⟩
  | signal s => exact h.unholdSignal s

/-- A call returns; what it hands out exists. -/
theorem Tidy.returnCall (h : w.Tidy told) {r : Reply} (hr : ∀ ref ∈ r.refs, w.isLiveRef ref = true)
    (kept : List Ref) : (w.returnCall r kept).Tidy told := by
  unfold World.returnCall
  refine Tidy.releaseAll (Tidy.answered ?_ r) kept
  cases r with
  | context c => exact h.hold (hr (.context c) (List.mem_singleton_self _))
  | signal s => exact h.hold (hr (.signal s) (List.mem_singleton_self _))
  | done => exact h
  | flag b => exact h
  | subscription ch n => exact h

/-- A failure reaches the frame below, which is on the stack. -/
theorem Tidy.unwind (h : w.Tidy told) (f : Failure) : (w.unwind f w.stack).Tidy told := by
  have drop : ∀ {g : Frame} {rest : List Frame}, w.stack = g :: rest →
      World.Tidy told { w with stack := .throwing f :: rest } := by
    intro g rest hs
    exact (h.pop hs).pushPlain (f := .throwing f) rfl trivial
  unfold World.unwind
  split
  · rename_i hs
    exact (h.restack [] (List.forall_mem_nil _) (List.forall_mem_nil _)).refused f
  · rename_i ch l v rest hs
    have hmid : World.Tidy told { w with stack := .observer ch l v :: rest } :=
      h.congr rfl rfl hs.symm rfl rfl
    exact hmid.refused f
  · rename_i n c e s rest hs
    have hmid : World.Tidy told { w with stack := .handler n c e s :: rest } :=
      h.congr rfl rfl hs.symm rfl rfl
    exact hmid.refused f
  · rename_i ch replay v todo spent rest hs
    have hmid : World.Tidy told { w with stack := .deliver ch replay v todo spent :: rest } :=
      h.congr rfl rfl hs.symm rfl rfl
    exact hmid.log _ _
  · rename_i rest hs
    exact ((drop hs).requeue none (List.forall_mem_nil _)).releaseAll _
  · rename_i c parent rest hs
    exact (drop hs).releaseAll _
  · rename_i r kept rest hs
    exact (drop hs).releaseAll _
  · rename_i g rest _ _ _ _ _ _ hs
    exact drop hs

/-- What the work under way keeps exists. -/
theorem Tidy.keeps_live (h : w.Tidy told) {r : Ref} (hr : Keeps w.stack r) : w.isLiveRef r = true :=
  h.live r (.inr (.inl hr))

/-- A slot is given up of a context that exists. -/
theorem Ordered.live_of_giveUp (h : w.Ordered t) (ht : w.Tidy told) {c : ContextNo} {share : Share}
    {rest : List Frame} (hs : w.stack = .giveUp c share :: rest) : w.isLive c = true := by
  rcases h with h | ⟨c', share', rest', hs', _, hl, _⟩
  · have hframed := h.framed
    rw [hs] at hframed
    apply ht.keeps_live (r := .context c)
    rw [hs]
    exact hframed.1.2.2.cons _
  · obtain ⟨heq, -⟩ := List.cons.inj (hs.symm.trans hs')
    cases heq
    exact hl

/-- What a frame is about to be done with exists. -/
theorem Ordered.subjects_live (h : w.Ordered t) (ht : w.Tidy told) {f : Frame} {rest : List Frame}
    (hs : w.stack = f :: rest) {r : Ref} (hr : r ∈ f.subjects) : w.isLiveRef r = true := by
  have hkept : Keeps rest r → w.isLiveRef r = true := fun hk => by
    apply ht.keeps_live
    rw [hs]
    exact hk.cons f
  cases f with
  | respond c v =>
    obtain rfl := List.mem_singleton.1 hr
    exact hkept (h.fits hs rfl).2
  | answer c v =>
    obtain rfl := List.mem_singleton.1 hr
    exact hkept (h.fits hs rfl).2
  | giveUp c share =>
    obtain rfl := List.mem_singleton.1 hr
    exact h.live_of_giveUp ht hs
  | conclude c e failed result =>
    have hfits := h.fits hs rfl
    simp only [Frame.subjects, List.mem_cons, List.not_mem_nil, or_false] at hr
    rcases hr with rfl | rfl
    · exact hkept hfits.2.1
    · exact hkept hfits.2.2
  | _ => cases hr

theorem isLive_reportBranch (c d : ContextNo) : (w.reportBranch c).isLive d = w.isLive d := by
  unfold World.reportBranch
  split <;> rfl

theorem Tidy.reportBranch (h : w.Tidy told) (c : ContextNo) : (w.reportBranch c).Tidy told := by
  unfold World.reportBranch
  split
  · exact h
  · exact h.congr rfl rfl rfl rfl rfl

theorem toldAfter_of_not_climb (told : ContextNo → Bool) {f : Frame} {rest : List Frame}
    (hs : w.stack = f :: rest) (hf : f.isClimb = false) : w.toldAfter told .advance = told := by
  unfold toldAfter
  rw [hs]
  cases f <;> first | rfl | cases hf

/-- A step of the library's own work keeps a world tidy. What it is about exists. -/
theorem tidy_advance (h : w.Tidy told)
    (hlive : ∀ f rest, w.stack = f :: rest → ∀ r ∈ f.subjects, w.isLiveRef r = true)
    (hq : ∀ c q, w.queue = some (c :: q) → told c = false) :
    w.advance.Tidy (w.toldAfter told .advance) := by
  have hquiet := @toldAfter_of_not_climb w told
  unfold World.advance
  split <;> rename_i hs
  · unfold toldAfter
    rw [hs]
    exact h
  · rw [hquiet hs rfl]
    exact h
  · rw [hquiet hs rfl]
    exact h
  · rw [hquiet hs rfl]
    exact (h.pop hs).releaseAll _
  · rename_i ch replay v o todo spent rest
    rw [hquiet hs rfl]
    have hmem : Frame.deliver ch replay v (o :: todo) spent ∈ w.stack := hs ▸ List.mem_cons_self
    have hv : w.value? ch = some v := h.frames _ hmem
    have hmid : World.Tidy told { w with stack := .deliver ch replay v todo spent :: rest } := by
      show (World.push { w with stack := rest } [.deliver ch replay v todo spent]).Tidy told
      refine (h.pop hs).push (f := .deliver ch replay v todo spent) ?_ hv
      intro r hr
      exact h.frame_live hmem hr
    exact hmid.notify hv replay o
  · rename_i c r rest
    rw [hquiet hs rfl]
    have hlive : w.isLive c = true := hlive _ _ hs (.context c) (List.mem_singleton_self _)
    have hmid : World.Tidy told { w with stack := .answer c r :: rest } :=
      (h.pop hs).pushPlain (f := .answer c r) rfl trivial
    have hnote := (hmid.note (e := .publishing c r) trivial).reportBranch c
    refine hnote.fireBefore ?_ r
    rw [isLive_reportBranch]
    exact hlive
  · rename_i c r rest
    rw [hquiet hs rfl]
    have hlive : w.isLive c = true := hlive _ _ hs (.context c) (List.mem_singleton_self _)
    have hmid : World.Tidy told { w with stack := .giveUp c .own :: rest } :=
      (h.pop hs).pushPlain (f := .giveUp c .own) rfl trivial
    exact hmid.point.fireResponse hlive r
  · rename_i c share rest
    rw [hquiet hs rfl]
    exact (h.pop hs).giveUpSlot (hlive _ _ hs (.context c) (List.mem_singleton_self _)) share
  · unfold toldAfter
    rw [hs]
    exact (h.pop hs).completeNext hq
  · rename_i c parent rest
    rw [hquiet hs rfl]
    apply (h.pop hs).tellParent
    intro p hp
    apply h.frame_live (f := .told c parent) (r := .context p) (hs ▸ List.mem_cons_self)
    simp [Frame.refs, hp]
  · rename_i c e failed result rest
    rw [hquiet hs rfl]
    refine (h.pop hs).resolveError ?_ c e failed
    exact hlive _ _ hs (.signal result) List.mem_cons_self
  · rename_i r kept rest
    rw [hquiet hs rfl]
    refine (h.pop hs).returnCall ?_ kept
    intro ref href
    apply h.frame_live (f := .returning r kept) (r := ref) (hs ▸ List.mem_cons_self)
    exact List.mem_append_left _ href
  · rename_i f rest
    rw [hquiet hs rfl]
    exact (h.pop hs).unwind f

/-! ## Returning from callbacks -/

/-- A call is about to return; what it hands out and what it kept exists. -/
theorem Tidy.pushReturning (h : w.Tidy told) (r : Reply) (kept : List Ref)
    (hr : ∀ ref ∈ r.refs ++ kept, w.isLiveRef ref = true) :
    (w.push [.returning r kept]).Tidy told := h.push (f := .returning r kept) hr trivial

theorem tidy_finish (h : w.Tidy told) (thrown : Option Failure) : (w.finish thrown).Tidy told := by
  unfold World.finish
  split
  · rename_i hs
    have hpop := h.pop hs
    dsimp only
    split
    · exact hpop
    · exact hpop.log _ _
  · exact h

/-- An observer subscribes to a signal: it is registered, or notified at once. -/
theorem Tidy.attach (h : w.Tidy told) {s : SignalNo} {o : Observer}
    (hr : ∀ r ∈ o.refs, w.isLiveRef r = true) :
    (match w.subscribe (.signal s) o with
      | (.registered _, w) => w
      | (.replayed v, w) => w.replay (.signal s) v o).Tidy told := by
  rcases subscribe_cases w (.signal s) o with ⟨_, heq⟩ | ⟨v, hv, heq⟩
  · rw [heq]
    exact h.subscribe hr (.inr ⟨s, rfl⟩)
  · rw [heq]
    exact h.replay hv hr

theorem Tidy.settleBy (h : w.Tidy told) {s : SignalNo} {c : ContextNo} {result : SignalNo}
    (hs : w.isLiveSignal s = true) (hc : w.isLive c = true) (hr : w.isLiveSignal result = true)
    (e : Failure) : (w.settleBy s c e result).Tidy told := by
  have hmid : (w.push [.returning (.signal result) [.signal s, .context c]]).Tidy told := by
    apply h.pushReturning
    intro r href
    simp only [Reply.refs, List.cons_append, List.nil_append, List.mem_cons, List.not_mem_nil,
      or_false] at href
    rcases href with rfl | rfl | rfl
    · exact hr
    · exact hs
    · exact hc
  apply hmid.attach
  intro r href
  simp only [Observer.refs, List.mem_cons, List.not_mem_nil, or_false] at href
  rcases href with rfl | rfl
  · exact hr
  · exact hc

/-- The return of a handler keeps a world tidy. The signal that it returns exists. -/
theorem tidy_handled (h : w.Tidy told) {a : Handled} (ha : ∀ r ∈ a.uses, w.isLiveRef r = true) :
    (w.handled a).Tidy told := by
  unfold World.handled
  split
  · rename_i n c e result rest hs
    have hpop := h.pop hs
    have hmem : Frame.handler n c e result ∈ w.stack := by
      rw [hs]
      exact List.mem_cons_self
    have hc : w.isLive c = true := h.frame_live hmem (r := .context c) (by simp [Frame.refs])
    have hr : w.isLiveSignal result = true :=
      h.frame_live hmem (r := .signal result) (by simp [Frame.refs])
    dsimp only
    split
    · have hreturning := hpop.pushReturning (.signal result) [.context c] fun r href => by
        simp only [Reply.refs, List.cons_append, List.nil_append, List.mem_cons,
          List.not_mem_nil, or_false] at href
        rcases href with rfl | rfl
        · exact hr
        · exact hc
      have hconclude := hreturning.pushPlain (f := .conclude c e (some none) result) rfl trivial
      exact hconclude.pushPlain (f := .respond c ⟨none, some e⟩) rfl trivial
    · rename_i f
      obtain ⟨hmade, hnew, hold⟩ := hpop.makeSignal (some { failure := some f })
      exact hmade.settleBy hnew (hold (.context c) hc) (hold (.signal result) hr) e
    · rename_i s
      have hlive : ∀ i, (World.modifySignal { w with stack := rest } s fun x =>
          { x with holders := x.holders - 1 }).isLiveSignal i = w.isLiveSignal i := fun i =>
        isLiveSignal_modifySignal (w := { w with stack := rest }) (s := s)
          (f := fun x => { x with holders := x.holders - 1 }) (fun _ _ => rfl) i
      have hs' : w.isLiveSignal s = true := ha (.signal s) (List.mem_singleton_self _)
      refine (hpop.unholdSignal s).settleBy ?_ hc ?_ e
      · rw [hlive]
        exact hs'
      · rw [hlive]
        exact hr
  · exact h

/-! ## Calls -/

theorem Tidy.success (h : w.Tidy told) {c : ContextNo} (hl : w.isLive c = true) (r : Option Int) :
    (w.success c r).Tidy told := by
  unfold World.success
  dsimp only
  split
  · exact h.point
  · split
    · exact (h.point.log _ _).answered _
    · have hmid : (w.point.modifyContext c fun x => { x with state := .succeeded }).Tidy told :=
        h.point.modifyContext fun x hx => (h.contexts c x hx).becomes _ x.slots x.trail
      have hlive : (w.point.modifyContext c fun x => { x with state := .succeeded }).isLive c =
          true := (isLive_modifyContext (w := w.point) (f := fun x => { x with state := .succeeded })
            (fun _ _ => rfl) c).trans hl
      have hret := hmid.pushReturning (.flag true) [.context c] fun ref href => by
        obtain rfl := List.mem_singleton.1 href
        exact hlive
      exact hret.pushPlain (f := .respond c ⟨r, none⟩) rfl trivial

theorem Tidy.error (h : w.Tidy told) {c : ContextNo} (hl : w.isLive c = true)
    (failure : Option Failure) : (w.error c failure).Tidy told := by
  unfold World.error
  split
  · exact h.refused _
  · rename_i e
    dsimp only
    split
    · exact h.point
    · rename_i x _
      split
      · obtain ⟨hmade, hnew, _⟩ := (h.point.log .warning
          (ignoredNote x ("error() ignored: " ++ e.describe))).makeSignal
            (some { alreadyCompleted := true })
        apply hmade.pushReturning _ _
        intro ref href
        obtain rfl := List.mem_singleton.1 href
        exact hnew
      · have hmid : (w.point.modifyContext c fun x => { x with state := .failed }).Tidy told :=
          h.point.modifyContext fun x hx => (h.contexts c x hx).becomes _ x.slots x.trail
        have hlive : (w.point.modifyContext c fun x => { x with state := .failed }).isLive c =
            true := (isLive_modifyContext (w := w.point) (f := fun x => { x with state := .failed })
              (fun _ _ => rfl) c).trans hl
        obtain ⟨hmade, hnew, hold⟩ := hmid.makeSignal none
        refine Tidy.note (hmade.push (f := .handler x.handler c e _) ?_ trivial) trivial
        intro ref href
        simp only [Frame.refs, List.mem_cons, List.not_mem_nil, or_false] at href
        rcases href with rfl | rfl
        · exact hnew
        · exact hold (.context c) hlive

/-- A client fires a channel, unless that has fired. -/
theorem Tidy.firing (h : w.Tidy told) (ch : ChannelRef) {f : World → World}
    (hfire : (w.push [.returning (.flag true) []]).Tidy told →
      (f (w.push [.returning (.flag true) []])).Tidy told) : (w.firing ch f).Tidy told := by
  unfold World.firing
  split
  · exact h.answered _
  · exact hfire (h.pushReturning (.flag true) [] (List.forall_mem_nil _))

/-- The context that has just come to be exists, and so does what existed before. -/
theorem isLiveRef_enter {x : Context} (hl : x.isLive = true) (g : Registry) {r : Ref}
    (hr : r = .context w.contexts.size ∨ w.isLiveRef r = true) :
    (w.enter x g).isLiveRef r = true := by
  rcases hr with rfl | hr
  · simp [isLiveRef, World.isLive, getElem?_enter, hl]
  · cases r with
    | signal s =>
      show ((w.enter x g).signals[s]?).any Signal.isLive = true
      rw [signals_enter]
      exact hr
    | context d =>
      obtain ⟨y, hy, hyl⟩ := exists_of_isLive hr
      have hne : d ≠ w.contexts.size := Nat.ne_of_lt (lt_of_getElem?_eq_some hy)
      simp [isLiveRef, World.isLive, getElem?_enter, hne, hy, hyl]

/-- A root has no parent, and nobody waits at its channels. -/
theorem tidy_build (told : Bool) (spec : RootSpec) (received tree : Nat) :
    (spec.build received tree).Tidy told := by
  refine ⟨?_, List.forall_mem_nil _⟩
  cases told <;> rfl

theorem refs_build (spec : RootSpec) (received tree : Nat) :
    (spec.build received tree).refs = [] := rfl

/-- A child holds its parent, and nobody waits at its channels. -/
theorem tidy_child (parent : ContextNo) (p : Context) (id : String) (location : Location)
    (handler : Option Nat) (correlation : Option String) :
    (Context.child parent p id location handler correlation).Tidy false := ⟨rfl, List.forall_mem_nil _⟩

/-- A context comes to be and is handed out. -/
theorem Tidy.introduce (h : w.Tidy told) {x : Context} (hx : x.Tidy (told w.contexts.size))
    (hl : x.isLive = true)
    (hr : ∀ r ∈ x.refs, w.isLiveRef r = true) (g : Registry) :
    ((w.enter x g).push [.returning (.context w.contexts.size) []]).Tidy told := by
  apply (h.enter hx hl hr g).pushReturning _ _
  intro ref href
  obtain rfl := List.mem_singleton.1 href
  exact isLiveRef_enter hl g (.inl rfl)

theorem Tidy.createRoot (h : w.Tidy told) (spec : RootSpec) : (w.createRoot spec).Tidy told := by
  rw [World.createRoot_eq]
  split
  · exact h.refused _
  · dsimp only
    split
    · exact h.refused _
    · rename_i g _
      have htree : World.Tidy told { w with trees := w.trees.push spec.tree } :=
        h.congr rfl rfl rfl rfl rfl
      have hmid := htree.introduce (tidy_build _ spec w.contexts.size w.trees.size) rfl
        (by rw [refs_build]; exact List.forall_mem_nil _) g
      split
      · exact hmid
      · have hnote := hmid.note (e := .joined w.contexts.size .link) trivial
        apply hnote.attach
        intro ref href
        obtain rfl := List.mem_singleton.1 href
        exact isLiveRef_enter (w := { w with trees := w.trees.push spec.tree })
          (x := spec.build w.contexts.size w.trees.size) rfl g (.inl rfl)

/-- A slot is taken, or it is not. -/
theorem Tidy.takeSlot (h : w.Tidy told) {c : ContextNo} {share : Share}
    (hs : w.takeSlot c share = some w') : w'.Tidy told := by
  obtain ⟨x, slots, _, _, rfl⟩ := takeSlot_eq_some hs
  exact ((h.recount c slots).point).note trivial

theorem isLive_takeSlot {c : ContextNo} {share : Share} (hs : w.takeSlot c share = some w')
    (d : ContextNo) : w'.isLive d = w.isLive d := by
  obtain ⟨x, slots, _, _, rfl⟩ := takeSlot_eq_some hs
  exact isLive_modifyContext (f := fun x => { x with slots := slots }) (fun _ _ => rfl) d

theorem Tidy.refuseSlot (h : w.Tidy told) (c : ContextNo) : (w.refuseSlot c).Tidy told :=
  (h.log _ _).refused _

theorem Tidy.createChild (h : w.Tidy told) (hnew : told w.contexts.size = false)
    {parent : ContextNo} (hl : w.isLive parent = true) (location : Option Location)
    (handler : Option Nat) (correlation : Option String) :
    (w.createChild parent location handler correlation).Tidy told := by
  rw [World.createChild_eq]
  split
  · exact h.refused _
  · exact h
  · rename_i location p _
    dsimp only
    split
    · exact h.refuseSlot parent
    · rename_i w' hw'
      have hlive : w'.isLive parent = true := (isLive_takeSlot hw' parent).trans hl
      have hsize : w'.contexts.size = w.contexts.size := by
        obtain ⟨x, slots, _, _, rfl⟩ := takeSlot_eq_some hw'
        exact Array.size_modify
      have hmid : (w'.nextDescendant p.tree).2.Tidy told :=
        (h.takeSlot hw').congr rfl rfl rfl rfl rfl
      split
      · have hnote := hmid.note (e := .rejected parent (w'.nextDescendant p.tree).1) trivial
        have hthrow := hnote.pushPlain (f := .throwing (.idInUse (w'.nextDescendant p.tree).1)) rfl
          trivial
        exact hthrow.pushPlain (f := .giveUp parent (.child w.contexts.size)) rfl trivial
      · rename_i g _
        rw [← hsize] at hnew ⊢
        have hchild : Context.Tidy (told w'.contexts.size)
            (.child parent p (w'.nextDescendant p.tree).1 location handler correlation) :=
          hnew ▸ tidy_child parent p _ location handler correlation
        refine hmid.introduce hchild rfl ?_ g
        intro r hr
        obtain rfl := List.mem_singleton.1 hr
        exact hlive

/-- A call keeps a world tidy. It uses only what exists. -/
theorem tidy_call (h : w.Tidy told) (hnew : told w.contexts.size = false) (call : Call)
    (hl : ∀ r, r ∈ call.uses ∨ call = .hold r → w.isLiveRef r = true) : (w.call call).Tidy told := by
  cases call with
  | createRoot spec => exact h.createRoot spec
  | createChild parent location handler correlation =>
    exact h.createChild hnew (hl (.context parent) (.inl (List.mem_singleton_self _))) location handler
      correlation
  | success c result =>
    exact h.success (hl (.context c) (.inl (List.mem_singleton_self _))) result
  | error c failure =>
    exact h.error (hl (.context c) (.inl (List.mem_singleton_self _))) failure
  | addChild c =>
    simp only [World.call]
    split
    · rename_i w' hw'
      exact (h.takeSlot hw').answered _
    · exact h.refuseSlot c
  | childCompleted c =>
    exact (h.pushReturning .done [] (List.forall_mem_nil _)).pushPlain (f := .giveUp c .participant)
      rfl trivial
  | subscribe ch label keeps =>
    have hr : ∀ r ∈ (label.elim Observer.empty fun label => .client label keeps).refs,
        w.isLiveRef r = true := by
      intro r hr
      cases label with
      | none => cases hr
      | some label => exact hl r (.inl (List.mem_cons_of_mem _ hr))
    simp only [World.call]
    rcases subscribe_cases w ch (label.elim .empty fun label => .client label keeps) with
      ⟨_, heq⟩ | ⟨v, hv, heq⟩
    · rw [heq]
      exact (h.subscribe hr (.inl (by cases label <;> rfl))).answered _
    · rw [heq]
      exact (h.pushReturning (.subscription ch none) [] (List.forall_mem_nil _)).replay hv hr
  | unsubscribe ch n => exact ((h.unsubscribe ch n).releaseAll _).answered _
  | fireBefore c r =>
    have hlive : w.isLive c = true := hl (.context c) (.inl (List.mem_singleton_self _))
    exact h.firing (f := fun w => w.fireBefore c r) _ fun h => h.fireBefore hlive r
  | fireResponse c r =>
    have hlive : w.isLive c = true := hl (.context c) (.inl (List.mem_singleton_self _))
    exact h.firing (f := fun w => w.fireResponse c r) _ fun h => h.fireResponse hlive r
  | fireCompletion c =>
    have hlive : w.isLive c = true := hl (.context c) (.inl (List.mem_singleton_self _))
    exact h.firing (f := fun w => w.fireCompletion c) _ fun h => h.fireCompletion hlive
  | fireSignal s r =>
    have hlive : w.isLiveSignal s = true := hl (.signal s) (.inl (List.mem_singleton_self _))
    exact h.firing (f := fun w => w.fireSignal s r) _ fun h => h.fireSignal hlive r
  | wait ch => exact (h.takeNumber ch).answered _
  | makeSignal r =>
    obtain ⟨hmade, hnew, _⟩ := h.makeSignal r
    apply hmade.pushReturning _ _
    intro ref href
    obtain rfl := List.mem_singleton.1 href
    exact hnew
  | hold r => exact (h.hold (hl r (.inr rfl))).answered _
  | drop r => exact (h.drop r).answered _
  | register id c =>
    simp only [World.call]
    split
    · exact h.answered _
    · exact h.congr rfl rfl rfl rfl rfl
  | unregister id c => exact h.congr rfl rfl rfl rfl rfl
  | setThreshold level => exact h.congr rfl rfl rfl rfl rfl
  | addProcessor c path =>
    exact Tidy.answered
      (h.modifyContext fun x hx => (h.contexts c x hx).becomes x.state x.slots _) _

end World

end FanIn
