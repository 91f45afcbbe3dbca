import FanIn.Proofs.Tree.Faces
import FanIn.Proofs.Tree.Footing
import FanIn.Proofs.Tree.Herald
import FanIn.Proofs.Tree.Lineage
import FanIn.Proofs.Tree.Phases
import FanIn.Proofs.Tree.Return

/-!
# The climb

A call that gives up a slot of a context completes the context if that was the last one, then its parent
if the context was the last thing that waited for, and so on up the path to the root, as long as each
context on it has one slot left. While the observers of these contexts make no requests of their own, the
call goes through a few stages (`Rising`), each of which says what has been changed so far and nothing else.

Main statement: `Ascends.move`, by which every step leads to a further stage.
-/

namespace FanIn

/-- Whether a client asks for something by a move, other than to take a reference or to give one back. -/
def Move.isRequest : Move → Bool
  | call (.hold _) => false
  | call (.drop _) => false
  | call _ => true
  | _ => false

/-- What has been done when an outcome has been told, or there was none to tell. -/
def Change.told (r? : Option Response) : Change where
  state := r?.map Response.state
  before := r?
  response := r?

namespace World

open Stack

/-- How many slots of a context have not been given up. -/
def pendingOf (w : World) (c : ContextNo) : Int := (w.contexts[c]?).elim 0 fun x => x.slots.count

/-- The contexts on the path from a context upwards that have one slot left, up to the first that has
more. -/
def stretch (w : World) (c : ContextNo) : List ContextNo :=
  (w.lineage c).takeWhile fun a => decide (w.pendingOf a ≤ 1)

/-- The first context on that path that has more, if there is one. -/
def limit? (w : World) (c : ContextNo) : Option ContextNo := (w.lineage c)[(w.stretch c).length]?

/-- All that is changed by a call that gives up a slot of a context, along with what it tells of its
outcome. -/
def climbed (w : World) (c : ContextNo) (r? : Option Response) : Change :=
  { Change.told r? with
    released := w.stretch c ++ (w.limit? c).toList
    completed := w.stretch c }

/-- Nothing, or the observers of one of some contexts are notified. -/
inductive Heralds (involved : List ContextNo) : List Frame → Prop
  | nobody : Heralds involved []
  | notifying {a : ContextNo} {ch : ChannelRef} {value : Value} {todo spent : List Observer}
      (hch : ch.owner = .context a) (ha : a ∈ involved) (hclients : ∀ o ∈ todo, o.isClients = true) :
      Heralds involved [.deliver ch false value todo spent]
  | observing {a : ContextNo} {ch : ChannelRef} {label : Nat} {value : Value} {todo spent : List Observer}
      (hch : ch.owner = .context a) (ha : a ∈ involved) (hclients : ∀ o ∈ todo, o.isClients = true) :
      Heralds involved [.observer ch label value, .deliver ch false value todo spent]

/-- The stages of a call that gives up a slot of context `c`, made in world `w`: the queue, the stack up to
the call itself, which is `back`, and what has been changed. -/
inductive Rising (w : World) (c : ContextNo) (r? : Option Response) (back : Frame) :
    Option (List ContextNo) → List Frame → Change → Prop
  | publishes {r : Response} (hr : r? = some r) :
      Rising w c r? back none [.respond c r, back] { state := some r.state }
  | answers {r : Response} (hr : r? = some r) :
      Rising w c r? back none [.answer c r, back] { state := some r.state, before := some r }
  | leaves {share : Share} : Rising w c r? back none [.giveUp c share, back] (Change.told r?)
  /-- The contexts before `a` have completed, and `a` is next. -/
  | climbs {before after : List ContextNo} {a : ContextNo} (hline : w.lineage c = before ++ a :: after)
      (hlast : ∀ d ∈ before ++ [a], w.pendingOf d ≤ 1) :
      Rising w c r? back (some [a]) [.climb, back]
        { Change.told r? with released := before ++ [a], completed := before }
  /-- The parent of `a` has not been told. -/
  | tells {before after : List ContextNo} {a : ContextNo} (hline : w.lineage c = before ++ a :: after)
      (hlast : ∀ d ∈ before ++ [a], w.pendingOf d ≤ 1) :
      Rising w c r? back (some []) [.told a (w.parentOf? a), .climb, back]
        { Change.told r? with released := before ++ [a], completed := before ++ [a] }
  | rests : Rising w c r? back (some []) [.climb, back] (w.climbed c r?)
  | returns : Rising w c r? back none [back] (w.climbed c r?)
  | returned : Rising w c r? back none [] (w.climbed c r?)

/-- World `v` is somewhere on the way of a call made in world `w`. -/
def Ascends (w : World) (c : ContextNo) (r? : Option Response) (back : Frame) (v : World) : Prop :=
  ∃ above rest k, Heralds (c :: w.stretch c) above ∧ v.stack = above ++ rest ∧ w.Shows c k v ∧
    w.Rising c r? back v.queue rest k

/-- Whether a move is made while the last call of a client is under way, and is no request by an observer
of one of some contexts. -/
def hushes (involved : List ContextNo) (w : World) : Move → Bool
  | .call call =>
    match w.stack with
    | [] => false
    | .observer ch _ _ :: _ =>
      !(Move.call call).isRequest || !involved.any fun a => ch.owner == .context a
    | _ => true
  | _ => true

variable {w v : World} {m : Move} {t : Terms} {c a : ContextNo} {k : Change} {r : Response}
  {r? : Option Response} {back : Frame} {involved before after : List ContextNo} {above rest : List Frame}

/-! ## The path -/

theorem pendingOf_of {x : Context} (h : w.contexts[a]? = some x) : w.pendingOf a = x.slots.count := by
  rw [pendingOf, h]
  rfl

/-- The path goes on from a context that has more slots left. -/
theorem stretch_of_limit (hline : w.lineage c = before ++ a :: after)
    (hlast : ∀ d ∈ before, w.pendingOf d ≤ 1) (ha : 1 < w.pendingOf a) :
    w.stretch c = before ∧ w.limit? c = some a := by
  have hstretch : w.stretch c = before := by
    rw [stretch, hline, List.takeWhile_append_of_pos fun d hd => decide_eq_true (hlast d hd),
      List.takeWhile_cons_of_neg (by simpa using ha), List.append_nil]
  refine ⟨hstretch, ?_⟩
  rw [limit?, hstretch, hline, List.getElem?_append_right (Nat.le_refl _), Nat.sub_self]
  rfl

/-- The path ends before that. -/
theorem stretch_of_all (hlast : ∀ d ∈ w.lineage c, w.pendingOf d ≤ 1) :
    w.stretch c = w.lineage c ∧ w.limit? c = none := by
  have hstretch : w.stretch c = w.lineage c := by
    have hall : (w.lineage c ++ []).takeWhile (fun a => decide (w.pendingOf a ≤ 1)) = w.lineage c ++ [] :=
      List.takeWhile_append_of_pos fun d hd => decide_eq_true (hlast d hd)
    rwa [List.append_nil] at hall
  exact ⟨hstretch, by rw [limit?, hstretch, List.getElem?_eq_none (Nat.le_refl _)]⟩

theorem mem_stretch (hline : w.lineage c = before ++ a :: after)
    (hlast : ∀ d ∈ before ++ [a], w.pendingOf d ≤ 1) : a ∈ w.stretch c := by
  have hsplit : w.lineage c = (before ++ [a]) ++ after := by rw [hline, List.append_assoc]; rfl
  rw [stretch, hsplit, List.takeWhile_append_of_pos fun d hd => decide_eq_true (hlast d hd)]
  exact List.mem_append_left _ (List.mem_append_right _ (List.mem_singleton_self a))

/-- A counter that the climb reaches is not below zero, if none is among those that it passes. -/
theorem nonneg_of_line (hrange : ∀ d ∈ w.stretch c, 0 ≤ w.pendingOf d)
    (hline : w.lineage c = before ++ a :: after) (hlast : ∀ d ∈ before, w.pendingOf d ≤ 1) :
    0 ≤ w.pendingOf a := by
  by_cases ha : w.pendingOf a ≤ 1
  · exact hrange a (mem_stretch hline (List.forall_mem_append.2 ⟨hlast, by simpa using ha⟩))
  · omega

/-! ## Observers that are notified -/

/-- Terms are about requests alone. -/
theorem within_of_not_request (hm : v.allows m = true) (hquiet : m.isRequest = false) :
    (within t).allows v m = true := by
  refine Bool.and_eq_true_iff.2 ⟨hm, ?_⟩
  cases m with
  | call call => cases call <;> first | rfl | cases hquiet
  | _ => rfl

/-- Only what completes contexts tells of a completion. -/
theorem completions_of_not_climb (hm : (within t).allows v m = true)
    (hs : ∀ below, v.stack ≠ .climb :: below) : (v.move m).completions = v.completions := by
  rw [completions_move]
  rcases completes_notes hm with hnone | ⟨d, below, hclimb, -⟩
  · rw [hnone, List.append_nil]
  · exact absurd hclimb (hs below)

/-- A reference that is taken or given back is nowhere seen. -/
theorem face?_reference {call : Call} (h : (Move.call call).isRequest = false) (d : ContextNo) :
    (v.call call).face? d = v.face? d := by
  cases call with
  | hold r =>
    cases r with
    | context b => exact face?_modifyContext_same (by intro x; rfl) d
    | signal s => rfl
  | drop r =>
    refine (face?_releaseAll _ d).trans ?_
    cases r with
    | context b => exact face?_modifyContext_same (by intro x; rfl) d
    | signal s => rfl
  | _ => cases h

theorem stack_reference {call : Call} (h : (Move.call call).isRequest = false) :
    (v.move (.call call)).stack = v.stack := by
  rw [stack_move]
  cases call <;> first | rfl | cases h

/-- Whoever is notified makes no request. -/
theorem Heralds.not_request (h : Heralds involved above) (hne : above ≠ []) (hs : v.stack = above ++ rest)
    (hm : (machine.restrict (hushes involved)).allows v m = true) : m.isRequest = false := by
  obtain ⟨hallows, hhushes⟩ := Bool.and_eq_true_iff.1 hm
  cases m with
  | call call =>
    cases h with
    | nobody => exact absurd rfl hne
    | notifying =>
      have hturn := clients_of_turn (turn_of_call hallows)
      rw [hs] at hturn
      cases hturn
    | observing hch ha =>
      have hany : (involved.any fun a => Ref.context _ == .context a) = true :=
        List.any_eq_true.2 ⟨_, ha, beq_self_eq_true _⟩
      simpa only [hushes, hs, List.cons_append, hch, hany, Bool.not_true, Bool.or_false,
        Bool.not_eq_true'] using hhushes
  | _ => rfl

/-- An observer is called or returns, or all have been called. -/
theorem Heralds.move (h : Heralds involved above) (hne : above ≠ []) (hs : v.stack = above ++ rest)
    (hm : v.allows m = true) (hquiet : m.isRequest = false) :
    ∃ above', Heralds involved above' ∧ (v.move m).stack = above' ++ rest ∧ (v.move m).queue = v.queue ∧
      (∀ d, (v.move m).face? d = v.face? d) ∧ (v.move m).completions = v.completions := by
  have hterms : (within { matched := true, bounded := true }).allows v m = true :=
    within_of_not_request hm hquiet
  have hsilent : (v.move m).completions = v.completions := by
    refine completions_of_not_climb hterms fun below hclimb => ?_
    rw [hclimb] at hs
    cases h <;> simp at hs
    exact hne rfl
  have hstack := stack_move (w := v) m
  have hqueue := queue_move (w := v) m
  cases h with
  | nobody => exact absurd rfl hne
  | @notifying b ch value todo spent hch hb hclients =>
    obtain rfl := eq_advance hterms hs rfl
    simp only [shift, shiftWork, hs, List.singleton_append] at hstack
    simp only [queueAfter, queueWork, hs, List.singleton_append] at hqueue
    have hadvance : v.move .advance = v.advance := rfl
    cases todo with
    | nil =>
      refine ⟨[], .nobody, hstack, hqueue, fun d => ?_, hsilent⟩
      rw [hadvance, World.advance, hs]
      exact face?_releaseAll _ d
    | cons o todo =>
      have hface : ∀ d, (v.move .advance).face? d = v.face? d := fun d => by
        rw [hadvance, World.advance, hs]
        exact face?_notify (hclients o List.mem_cons_self) ch false value d
      have htodo : ∀ o ∈ todo, o.isClients = true := fun o ho => hclients o (List.mem_cons_of_mem _ ho)
      cases o with
      | client label keeps => exact ⟨_, .observing hch hb htodo, hstack, hqueue, hface, hsilent⟩
      | empty => exact ⟨_, .notifying hch hb htodo, hstack, hqueue, hface, hsilent⟩
      | settleLink d => cases hclients _ List.mem_cons_self
      | settleError d e s => cases hclients _ List.mem_cons_self
  | @observing b ch label value todo spent hch hb hclients =>
    cases m with
    | advance => simp [allows, isClientsTurn, hs, Frame.isClients] at hm
    | call call =>
      exact ⟨_, .observing hch hb hclients, (stack_reference hquiet).trans hs, hqueue,
        face?_reference hquiet, hsilent⟩
    | handled h => simp [allows, hs] at hm
    | finish thrown =>
      simp only [shift, shiftFinish, hs, List.cons_append, List.nil_append] at hstack
      simp only [queueAfter] at hqueue
      exact ⟨_, .notifying hch hb hclients, hstack, hqueue, fun d => face?_finish thrown d, hsilent⟩

/-! ## What a step leads to -/

/-- When a channel of a context fires, those that are notified are observers of clients. -/
theorem heralds_firing {told : ContextNo → Bool} (h : v.Tidy told) {ch : ChannelRef} (hwaits : v.Waits ch)
    (hch : ch.owner = .context a) (ha : a ∈ involved) (value : Value) :
    Heralds involved (v.firingFrames ch value) := by
  rw [firingFrames_eq hwaits]
  exact .notifying hch ha (clients_of_observers h hch)

/-- Whoever has not given up a slot has as many as at first. -/
theorem Shows.count_eq (h : w.Shows c k v) {y : Context} (hy : v.contexts[a]? = some y)
    (ha : a ∉ k.released) : y.slots.count = w.pendingOf a := by
  obtain ⟨x, hx, hface⟩ := h.exists_face hy
  have hslots := congrArg Face.slots hface
  rw [Change.apply, if_neg ha] at hslots
  rw [pendingOf_of hx]
  exact congrArg Counter.count hslots

theorem Shows.parentOf? (h : w.Shows c k v) {y : Context} (hy : v.contexts[a]? = some y) :
    w.parentOf? a = y.parent := by
  obtain ⟨x, hx, hface⟩ := h.exists_face hy
  rw [World.parentOf?, hx]
  exact (congrArg Face.parent hface).symm

/-- The first channel does not fire before the outcome is told. -/
theorem Shows.waits_before (h : w.Shows c k v) (hk : k.before = none)
    (hopen : w.isFired (.before c) = false) {y : Context} (hy : v.contexts[c]? = some y) :
    v.Waits (.before c) := by
  obtain ⟨x, hx, hface⟩ := h.exists_face hy
  have hbefore : y.before = x.before := by
    simpa [Change.apply, hk, Context.face] using congrArg Face.before hface
  refine ⟨lt_of_getElem?_eq_some hy, ?_⟩
  have hnone : w.value? (.before c) = none := by simpa [isFired] using hopen
  simpa [value?, hx, hy, hbefore] using hnone

/-- A slot that is due is given up, unless the counter is below zero; what that tells. -/
theorem Orderly.gives_up (hv : v.Orderly t) (ht : t.matched = true) {f : Frame} (hs : v.stack = f :: rest)
    {share : Share} (hf : f.dues = {.slot a share}) (hlive : v.isLive a = true) (h : w.Shows c k v)
    (ha : a ∉ k.released) (hrange : 0 ≤ w.pendingOf a) :
    ∃ y last slots, v.contexts[a]? = some y ∧ y.slots.release = some (last, slots) ∧
      (last = true ∧ w.pendingOf a ≤ 1 ∨ last = false ∧ 1 < w.pendingOf a) := by
  obtain ⟨y, hy, -⟩ := exists_of_isLive hlive
  have hcount := h.count_eq hy ha
  have hbalanced := hv.sound.balanced ht
  rw [ledger_pop_owe hs hf] at hbalanced
  have hacc : (World.ledger { v with stack := rest }).accounts[a]? = some y.account := account_of hy
  have hopen := hbalanced.open_or_closed hacc
  have hslots : y.account.slots = y.slots := rfl
  rw [hslots] at hopen
  cases hrel : y.slots.release with
  | none =>
    have hle := Counter.release_eq_none.1 hrel
    omega
  | some found =>
    obtain ⟨last, slots⟩ := found
    obtain ⟨-, hless, hlast⟩ := Counter.count_release hrel
    refine ⟨y, last, slots, hy, hrel, ?_⟩
    cases last with
    | true => exact .inl ⟨rfl, by have := hlast.1 rfl; omega⟩
    | false =>
      refine .inr ⟨rfl, ?_⟩
      have hmore : slots.count ≠ 0 := fun hzero => by cases hlast.2 hzero
      omega

/-- The library goes on where it is not the client's turn, and tells a completion only as it climbs. -/
theorem completions_advance {f : Frame} (hs : v.stack = f :: rest) (hf : f.isClients = false)
    (hclimb : f.isClimb = false) : (v.move .advance).completions = v.completions := by
  have hm : v.allows .advance = true := by simp [allows, isClientsTurn, hs, hf]
  refine completions_of_not_climb (within_of_not_request (t := { matched := true, bounded := true }) hm rfl)
    fun below hbelow => ?_
  rw [hs] at hbelow
  cases hbelow
  cases hclimb

/-- The outcome is told on the first channel. -/
theorem Shows.publishes (h : w.Shows c { state := some r.state } v) (hv : v.Orderly t)
    (hs : v.stack = [.respond c r, back]) (hq : v.queue = none) (hr : r? = some r)
    (hopen : w.isFired (.before c) = false) : w.Ascends c r? back (v.move .advance) := by
  have hmem : Frame.respond c r ∈ v.stack := hs ▸ List.mem_cons_self
  obtain ⟨y, hy⟩ := hv.exists_of_untold hmem (Frame.untold_pos (Multiset.mem_singleton_self _))
  have hwaits := h.waits_before rfl hopen hy
  refine ⟨v.firingFrames (.before c) (.response r), [.answer c r, back], _,
    heralds_firing hv.tidy hwaits rfl List.mem_cons_self _, ?_,
    h.tellBefore r (fun d => ?_) (completions_advance hs rfl rfl), ?_⟩
  · rw [stack_move]
    simp only [shift, shiftWork, hs]
  · show v.advance.face? d = _
    rw [World.advance, hs]
    have hsame : World.channel? ((World.note { v with stack := [.answer c r, back] }
        (.publishing c r)).reportBranch c) (.before c) = v.channel? (.before c) :=
      channel?_reportBranch c _
    rw [face?_fireBefore ((waits_of_channel? hsame).2 hwaits), face?_reportBranch]
    rfl
  · rw [queue_move]
    simp only [queueAfter, queueWork, hs, hq]
    exact .answers hr

/-- Then on the second. -/
theorem Shows.answers (h : w.Shows c { state := some r.state, before := some r } v) (hv : v.Orderly t)
    (hs : v.stack = [.answer c r, back]) (hq : v.queue = none) (hr : r? = some r) :
    w.Ascends c r? back (v.move .advance) := by
  have hmem : Frame.answer c r ∈ v.stack := hs ▸ List.mem_cons_self
  obtain ⟨hopen, y, hy, -⟩ := hv.of_untold hmem (Frame.untold_pos (Multiset.mem_singleton_self _))
  have hwaits : v.Waits (.response c) :=
    ⟨lt_of_getElem?_eq_some hy, by simpa [isFired] using hopen⟩
  refine ⟨v.firingFrames (.response c) (.response r), [.giveUp c .own, back], _,
    heralds_firing hv.tidy hwaits rfl List.mem_cons_self _, ?_,
    h.tellResponse r (fun d => ?_) (completions_advance hs rfl rfl), ?_⟩
  · rw [stack_move]
    simp only [shift, shiftWork, hs]
  · show v.advance.face? d = _
    rw [World.advance, hs]
    have hsame : World.channel? (World.point { v with stack := [.giveUp c .own, back] })
        (.response c) = v.channel? (.response c) := rfl
    exact face?_fireResponse ((waits_of_channel? hsame).2 hwaits) r d
  · rw [queue_move]
    simp only [queueAfter, queueWork, hs, hq]
    subst hr
    exact .leaves

/-- The context gives up a slot, and is to complete if that was the last. -/
theorem Shows.leaves (h : w.Shows c (Change.told r?) v) (hv : v.Orderly t) (ht : t.matched = true)
    {share : Share} (hs : v.stack = [.giveUp c share, back]) (hq : v.queue = none)
    (hline : w.lineage c = [] ++ c :: after) (hrange : ∀ d ∈ w.stretch c, 0 ≤ w.pendingOf d) :
    w.Ascends c r? back (v.move .advance) := by
  obtain ⟨y, last, slots, hy, hrel, hlast⟩ := hv.gives_up ht hs rfl (hv.order.live_of_giveUp hv.tidy hs) h
    List.not_mem_nil (nonneg_of_line hrange hline nofun)
  have hfound : ((v.contexts[c]?).bind fun x => x.slots.release) = some (last, slots) := by
    rw [hy]
    exact hrel
  have hshows : w.Shows c { Change.told r? with released := [c] } (v.move .advance) := by
    refine h.release hy List.not_mem_nil hrel (fun d => ?_) (completions_advance hs rfl rfl)
    show v.advance.face? d = _
    rw [World.advance, hs]
    exact face?_giveUpSlot (v := { v with stack := [back] }) hfound d
  have hstack := stack_move (w := v) .advance
  have hqueue := queue_move (w := v) .advance
  simp only [shift, shiftWork, leavingFrames, hs, hfound, hq] at hstack
  simp only [queueAfter, queueWork, hs, hfound, hq] at hqueue
  rcases hlast with ⟨rfl, hone⟩ | ⟨rfl, hmore⟩
  · refine ⟨[], [.climb, back], _, .nobody, hstack, hshows, ?_⟩
    rw [hqueue]
    exact .climbs hline (by simpa using hone)
  · obtain ⟨hstretch, hlimit⟩ := stretch_of_limit hline nofun hmore
    refine ⟨[], [back], w.climbed c r?, .nobody, hstack, ?_, ?_⟩
    · rw [climbed, hstretch, hlimit]
      exact hshows
    · rw [hqueue]
      exact .returns

/-- The next context completes. -/
theorem Shows.climbs
    (h : w.Shows c { Change.told r? with released := before ++ [a], completed := before } v)
    (hv : v.Orderly t) (hs : v.stack = [.climb, back]) (hq : v.queue = some [a]) (hline : w.lineage c = before ++ a :: after)
    (hlast : ∀ d ∈ before ++ [a], w.pendingOf d ≤ 1) : w.Ascends c r? back (v.move .advance) := by
  have hwaits := hv.head_waits hq
  obtain ⟨y, hy, hlive⟩ := exists_of_isLive (hv.tidy.queue_live (c := a) (by simp [hq]))
  have hhold : ((v.contexts[a]?).bind Context.hold) = w.parentOf? a := by
    have htether := (hv.tidy.contexts a y hy).tether
    rw [hlive, hv.head_untold hq] at htether
    rw [hy, h.parentOf? hy]
    exact htether
  have hshows : w.Shows c { Change.told r? with released := before ++ [a], completed := before ++ [a] }
      (v.move .advance) := by
    refine h.complete (fun d => ?_) ?_
    · show v.advance.face? d = _
      rw [World.advance, hs]
      exact face?_completeNext (v := { v with stack := [back] }) hq hy (hv.head_open hq hy) d
    · rw [completions_move]
      simp only [notes, workNotes, hs, hq, firingNotes_eq hwaits]
      rfl
  refine ⟨v.firingFrames (.completion a) .done, [.told a (w.parentOf? a), .climb, back], _,
    heralds_firing hv.tidy hwaits rfl (List.mem_cons_of_mem c (mem_stretch hline hlast)) _, ?_, hshows, ?_⟩
  · rw [stack_move]
    simp only [shift, shiftWork, climbingFrames, hs, hq, hhold, List.append_assoc]
    rfl
  · rw [queue_move]
    simp only [queueAfter, queueWork, hs, hq]
    exact .tells hline hlast

/-- At a root the climb ends. -/
theorem Shows.tells_nobody
    (h : w.Shows c { Change.told r? with released := before ++ [a], completed := before ++ [a] } v)
    (hw : w.Aged) (hroot : w.parentOf? a = none) (hs : v.stack = [.told a none, .climb, back])
    (hq : v.queue = some []) (hline : w.lineage c = before ++ a :: after)
    (hlast : ∀ d ∈ before ++ [a], w.pendingOf d ≤ 1) : w.Ascends c r? back (v.move .advance) := by
  have hend : w.lineage c = before ++ [a] := by
    have hpath := lineage_suffix hw hline
    rw [lineage_of_root hroot] at hpath
    rw [hline, ← (List.cons.inj hpath).2]
  obtain ⟨hstretch, hlimit⟩ := stretch_of_all (hend ▸ hlast)
  have hshows : w.Shows c (w.climbed c r?) (v.move .advance) := by
    rw [climbed, hstretch, hlimit, hend, Option.toList_none, List.append_nil]
    refine h.same (fun d => ?_) (completions_advance hs rfl rfl)
    show v.advance.face? d = _
    rw [World.advance, hs]
    exact face?_releaseAll _ d
  refine ⟨[], [.climb, back], _, .nobody, ?_, hshows, ?_⟩
  · rw [stack_move]
    simp only [shift, shiftWork, hs, List.nil_append]
  · rw [queue_move]
    simp only [queueAfter, queueWork, hs, hq]
    exact .rests

/-- Elsewhere the parent gives up a slot, and is to complete if that was the last. -/
theorem Shows.tells {p : ContextNo}
    (h : w.Shows c { Change.told r? with released := before ++ [a], completed := before ++ [a] } v)
    (hv : v.Orderly t) (ht : t.matched = true) (hw : w.Aged) (hparent : w.parentOf? a = some p)
    (hs : v.stack = [.told a (some p), .climb, back]) (hq : v.queue = some [])
    (hline : w.lineage c = before ++ a :: after) (hlast : ∀ d ∈ before ++ [a], w.pendingOf d ≤ 1)
    (hrange : ∀ d ∈ w.stretch c, 0 ≤ w.pendingOf d) : w.Ascends c r? back (v.move .advance) := by
  obtain ⟨farther, hfarther⟩ := w.exists_lineage p
  have hafter : w.lineage c = (before ++ [a]) ++ p :: farther := by
    have hpath := lineage_suffix hw hline
    rw [lineage_of_child hw hparent, hfarther] at hpath
    rw [hline, ← (List.cons.inj hpath).2, List.append_assoc, List.singleton_append]
  have hnot : p ∉ before ++ [a] := by
    have hnodup := lineage_nodup hw c
    rw [hafter] at hnodup
    exact fun hp => (List.nodup_append.1 hnodup).2.2 p hp p List.mem_cons_self rfl
  have hlive : v.isLive p = true :=
    hv.tidy.frame_live (f := .told a (some p)) (r := .context p) (hs ▸ List.mem_cons_self)
      (by simp [Frame.refs])
  obtain ⟨y, last, slots, hy, hrel, hslot⟩ := hv.gives_up ht hs rfl hlive h hnot
    (nonneg_of_line hrange hafter hlast)
  have hfound : ((v.contexts[p]?).bind fun x => x.slots.release) = some (last, slots) := by
    rw [hy]
    exact hrel
  have hshows : w.Shows c { Change.told r? with released := before ++ [a] ++ [p], completed := before ++ [a] }
      (v.move .advance) := by
    refine h.release hy hnot hrel (fun d => ?_) (completions_advance hs rfl rfl)
    show v.advance.face? d = _
    rw [World.advance, hs]
    exact face?_tellParent (v := { v with stack := [.climb, back] }) hfound d
  have hstack := stack_move (w := v) .advance
  have hqueue := queue_move (w := v) .advance
  simp only [shift, shiftWork, tellingFrames, hs, hfound] at hstack
  simp only [queueAfter, queueWork, hs, hfound, hq] at hqueue
  rcases hslot with ⟨rfl, hone⟩ | ⟨rfl, hmore⟩
  · refine ⟨[], [.climb, back], _, .nobody, hstack, hshows, ?_⟩
    rw [hqueue]
    exact .climbs hafter (List.forall_mem_append.2 ⟨hlast, by simpa using hone⟩)
  · obtain ⟨hstretch, hlimit⟩ := stretch_of_limit hafter hlast hmore
    refine ⟨[], [.climb, back], w.climbed c r?, .nobody, hstack, ?_, ?_⟩
    · rw [climbed, hstretch, hlimit]
      exact hshows
    · rw [hqueue]
      exact .rests

/-- The climb is over. -/
theorem Shows.rests (h : w.Shows c (w.climbed c r?) v) (hs : v.stack = [.climb, back])
    (hq : v.queue = some []) : w.Ascends c r? back (v.move .advance) := by
  have hnext : v.move .advance = { v with stack := [back], queue := none } := by
    show v.advance = _
    rw [World.advance, hs]
    simp only [World.completeNext, hq]
  rw [hnext]
  exact ⟨[], [back], _, .nobody, rfl, h.same (fun d => face?_congr rfl d) rfl, .returns⟩

/-- The call returns. -/
theorem Shows.returns {reply : Reply} {kept : List Ref} (h : w.Shows c (w.climbed c r?) v)
    (hs : v.stack = [.returning reply kept]) (hq : v.queue = none) :
    w.Ascends c r? (.returning reply kept) (v.move .advance) := by
  refine ⟨[], [], _, .nobody, ?_, h.same (fun d => ?_) (completions_advance hs rfl rfl), ?_⟩
  · rw [stack_move]
    simp only [shift, shiftWork, hs, List.append_nil]
  · show v.advance.face? d = _
    rw [World.advance, hs]
    exact face?_returnCall reply kept d
  · rw [queue_move]
    simp only [queueAfter, queueWork, hs, hq]
    exact .returned

/-- **Every step leads to a further stage**, and whoever is called on the way makes no request. -/
theorem Ascends.move (h : w.Ascends c r? back v) (hv : v.Orderly t) (ht : t.matched = true) (hw : w.Aged)
    (hback : ∃ reply kept, back = .returning reply kept) (hopen : r? ≠ none → w.isFired (.before c) = false)
    (hrange : ∀ d ∈ w.stretch c, 0 ≤ w.pendingOf d)
    (hm : (machine.restrict (hushes (c :: w.stretch c))).allows v m = true) :
    m.isRequest = false ∧ w.Ascends c r? back (v.move m) := by
  obtain ⟨above, rest, k, hheralds, hs, hshows, hrising⟩ := h
  have hallows : v.allows m = true := (Bool.and_eq_true_iff.1 hm).1
  by_cases hne : above = []
  · subst hne
    -- nobody is notified, so the library goes on
    have hadvance : ∀ {f : Frame} {below : List Frame}, rest = f :: below → f.isClients = false →
        m = .advance := fun hrest => advance_of_allows hallows (hs.trans hrest)
    generalize hq : v.queue = queue at hrising
    cases hrising with
    | publishes hr =>
      obtain rfl := hadvance rfl rfl
      exact ⟨rfl, hshows.publishes hv hs hq hr (hopen (by simp [hr]))⟩
    | answers hr =>
      obtain rfl := hadvance rfl rfl
      exact ⟨rfl, hshows.answers hv hs hq hr⟩
    | leaves =>
      obtain rfl := hadvance rfl rfl
      obtain ⟨after, hline⟩ := w.exists_lineage c
      exact ⟨rfl, hshows.leaves hv ht hs hq hline hrange⟩
    | climbs hline hlast =>
      obtain rfl := hadvance rfl rfl
      exact ⟨rfl, hshows.climbs hv hs hq hline hlast⟩
    | @tells _ _ a hline hlast =>
      obtain rfl := hadvance rfl rfl
      cases hparent : w.parentOf? a with
      | none => exact ⟨rfl, hshows.tells_nobody hw hparent (hparent ▸ hs) hq hline hlast⟩
      | some p => exact ⟨rfl, hshows.tells hv ht hw hparent (hparent ▸ hs) hq hline hlast hrange⟩
    | rests =>
      obtain rfl := hadvance rfl rfl
      exact ⟨rfl, hshows.rests hs hq⟩
    | returns =>
      obtain ⟨reply, kept, rfl⟩ := hback
      obtain rfl := hadvance rfl rfl
      exact ⟨rfl, hshows.returns hs hq⟩
    | returned =>
      -- the call has returned, and there is no other
      cases m with
      | advance => simp [allows, isClientsTurn, hs] at hallows
      | call call => simp [machine, Machine.restrict, hushes, hs] at hm
      | finish thrown => simp [allows, hs] at hallows
      | handled a => simp [allows, hs] at hallows
  · have hquiet := hheralds.not_request hne hs hm
    obtain ⟨above', hheralds', hs', hqueue, hface, hsilent⟩ := hheralds.move hne hs hallows hquiet
    exact ⟨hquiet, above', rest, k, hheralds', hs', hshows.same hface hsilent, hqueue ▸ hrising⟩

end World

end FanIn
