import FanIn.Proofs.Tree.Balance
import FanIn.Proofs.Tree.Bookkeeping
import FanIn.Proofs.Tree.Tidy

/-!
# What moves write in the books

Clients may keep to more terms than are asked of all of them: `World.within` is the machine of the
runs in which they do. Whatever happens in such a run, the books change by steps of `Ledger.Step`
alone. Nothing is completed but by a frame that climbs: all else that a move does to the books are
`Ledger.Deals`, which leave the queue as it is, or longer.

Main statements: `dealt_advance`, `deals_advance`, `deals_handled` and `deals_call`.
-/

namespace FanIn

open Ledger Stack

/-! ## Terms -/

namespace World

/-- Whether the counter of a context can count one more. -/
def hasRoom (w : World) (c : ContextNo) : Bool :=
  (w.contexts[c]?).all fun x => x.slots.pending < Int32.maxValue

/-- Whether a move keeps to terms: the channels of contexts are fired by the library alone, no
participant leaves that has not joined, and none joins that cannot be counted. -/
def keepsTo (t : Terms) (w : World) : Move → Bool
  | .call (.fireBefore ..) => false
  | .call (.fireResponse ..) => false
  | .call (.fireCompletion _) => false
  | .call (.childCompleted c) => !t.matched || w.leaves c < w.joins c
  | .call (.addChild c) => !t.bounded || w.hasRoom c
  | .call (.createChild c location _ _) => !t.bounded || location.isNone || w.hasRoom c
  | _ => true

/-- A world whose clients keep to terms, as a machine. -/
def within (t : Terms) : Machine World Move := ⟨move, fun w m => w.allows m && w.keepsTo t m⟩

end World

namespace Ledger

variable {t : Terms} {verdict : Option (ContextNo × Response)} {L L' : Ledger}

/-- A step of the books that takes no context off the queue: nothing is completed by it. -/
structure Deal (t : Terms) (verdict : Option (ContextNo × Response)) (L L' : Ledger) : Prop where
  step : Step t verdict L L'
  queue : L.queue <+: L'.queue

/-- What a move does to the books that completes nothing. -/
def Deals (t : Terms) (verdict : Option (ContextNo × Response)) : Ledger → Ledger → Prop :=
  Relation.ReflTransGen (Deal t verdict)

theorem Step.deal (h : Step t verdict L L') (hq : L'.queue = L.queue) : Deal t verdict L L' :=
  ⟨h, hq ▸ List.prefix_rfl⟩

theorem Deals.steps (h : Deals t verdict L L') : Steps t verdict L L' := by
  induction h with
  | refl => exact .refl
  | tail _ hdeal ih => exact ih.tail hdeal.step

/-- What a move does to the books: deals, or one step, which may complete a context or give up the queue. -/
def Dealt (t : Terms) (verdict : Option (ContextNo × Response)) (L L' : Ledger) : Prop :=
  Deals t verdict L L' ∨ Step t verdict L L'

theorem Dealt.steps (h : Dealt t verdict L L') : Steps t verdict L L' := h.elim Deals.steps .single

/-- What giving up a slot does to the books, by what the counter says to it. -/
def handBack (L : Ledger) (c : ContextNo) (share : Share) : Option (Bool × Counter) → Ledger
  | none => L
  | some (last, slots) => L.release c share slots last

/-- A slot that is due is given up, or stays with a context that is closed. -/
theorem deal_handBack {c : ContextNo} {a : Account} (hc : L.accounts[c]? = some a) (share : Share) :
    Deal t verdict (L.owe (.slot c share)) (L.handBack c share a.slots.release) := by
  cases hrel : a.slots.release with
  | none => exact Step.deal (.refuse hc hrel) rfl
  | some r =>
    refine ⟨.release hc hrel, ?_⟩
    show L.queue <+: (L.release c share r.2 r.1).queue
    rw [queue_release]
    split
    · exact List.prefix_append _ _
    · exact List.prefix_rfl

end Ledger

/-- The outcome that a move decides, if that of its context is not decided. -/
def Move.verdict? : Move → Option (ContextNo × Response)
  | .call (.success c result) => some (c, ⟨result, none⟩)
  | .call (.error c (some e)) => some (c, ⟨none, some e⟩)
  | _ => none

namespace World

variable {t : Terms} {verdict : Option (ContextNo × Response)} {told : ContextNo → Bool}
  {w w' : World}

/-! ## Slots -/

/-- The counter of a context changes because a slot of it is given up. -/
theorem ledger_leave (c : ContextNo) (share : Share) (slots : Counter) :
    (((w.modifyContext c fun x => { x with slots := slots }).point).note (.left c share)).ledger =
      w.ledger.release c share slots false := by
  have hmid : ((w.modifyContext c fun x => { x with slots := slots }).point).ledger =
      w.ledger.recount c slots := ledger_modifyContext fun _ _ => rfl
  unfold Ledger.release
  by_cases hs : share = .participant
  · subst hs
    rw [ledger_left, hmid]
    rfl
  · rw [ledger_note fun d => ⟨rfl, by simp [Event.isLeave, hs]⟩, hmid]
    simp [hs]

/-- The same for the last one, which queues the context. -/
theorem ledger_drain (c : ContextNo) (share : Share) (slots : Counter) :
    ((((w.modifyContext c fun x => { x with slots := slots }).point).note
      (.left c share)).note (.drained c)).ledger.enqueue c = w.ledger.release c share slots true := by
  have hlast : w.ledger.release c share slots true =
      (w.ledger.release c share slots false).enqueue c := rfl
  rw [hlast, ← ledger_leave, ledger_note fun _ => ⟨rfl, rfl⟩]

/-- A context enters the queue. -/
theorem ledger_enqueue {q : List ContextNo} (hq : w.queue.getD [] = q) (c : ContextNo) :
    World.ledger { w with queue := some (q ++ [c]) } = w.ledger.enqueue c := by
  subst hq
  rfl

/-- A slot of a context is given up. -/
theorem ledger_giveUpSlot {c : ContextNo} {x : Context} (hx : w.contexts[c]? = some x)
    (share : Share) : (w.giveUpSlot c share).ledger = w.ledger.handBack c share x.slots.release := by
  unfold World.giveUpSlot
  rw [hx]
  simp only [Option.bind_some]
  cases hrel : x.slots.release with
  | none =>
    dsimp only
    rw [ledger_push_idle rfl]
    rfl
  | some p =>
    obtain ⟨last, slots⟩ := p
    cases last with
    | false => exact ledger_leave (w := w) c share slots
    | true =>
      refine Eq.trans ?_ (ledger_drain (w := w) c share slots)
      cases hq : w.queue with
      | some q =>
        simp only [if_true, queue_note, queue_point, queue_modifyContext, hq]
        rw [ledger_enqueue (q := q) (by simp [hq])]
      | none =>
        simp only [if_true, queue_note, queue_point, queue_modifyContext, hq]
        rw [ledger_push_idle rfl, ← List.nil_append [c], ledger_enqueue (q := []) (by simp [hq])]

theorem deals_giveUpSlot {c : ContextNo} {x : Context} (hx : w.contexts[c]? = some x)
    (share : Share) :
    Deals t verdict (w.ledger.owe (.slot c share)) (w.giveUpSlot c share).ledger :=
  ledger_giveUpSlot hx share ▸ .single (deal_handBack (account_of hx) share)

/-- The parent of a completed context is told. The queue is active. -/
theorem ledger_tellParent {c p : ContextNo} {x : Context} {q : List ContextNo}
    (hx : w.contexts[p]? = some x) (hq : w.queue = some q) :
    (w.tellParent c (some p)).ledger = w.ledger.handBack p (.child c) x.slots.release := by
  unfold World.tellParent
  simp only [hx, Option.bind_some]
  cases hrel : x.slots.release with
  | none =>
    dsimp only
    rw [ledger_push_idle rfl, ledger_releaseAll]
    rfl
  | some r =>
    obtain ⟨last, slots⟩ := r
    cases last with
    | false =>
      simp only [Bool.false_eq_true, if_false, ledger_releaseAll]
      exact ledger_leave (w := w) p (.child c) slots
    | true =>
      refine Eq.trans ?_ (ledger_drain (w := w) p (.child c) slots)
      simp only [if_true, ledger_releaseAll, queue_note, queue_point, queue_modifyContext, hq,
        Option.map_some]
      rw [ledger_enqueue (q := q) (by simp [hq])]

theorem deals_tellParent {c p : ContextNo} {x : Context} {q : List ContextNo}
    (hx : w.contexts[p]? = some x) (hq : w.queue = some q) :
    Deals t verdict (w.ledger.owe (.slot p (.child c))) (w.tellParent c (some p)).ledger :=
  ledger_tellParent hx hq ▸ .single (deal_handBack (account_of hx) (.child c))

/-! ## Publishing -/

/-- Nothing is written if nothing changes. -/
theorem change_eq_self {c : ContextNo} {g : Account → Account}
    (hg : ∀ x, w.contexts[c]? = some x → g x.account = x.account) :
    w.ledger.change c g = w.ledger :=
  (ledger_modifyContext (f := id) fun x hx => (hg x hx).symm).symm.trans
    (ledger_modifyContext_same fun _ _ => rfl)

/-- Clients have nothing coming from the books. -/
theorem dues_clients {os : List (UInt64 × Observer)} (h : ∀ e ∈ os, e.2.isClients = true) :
    ((os.map Prod.snd).map Observer.dues).sum = 0 := by
  apply List.sum_eq_zero
  intro d hd
  simp only [List.map_map, List.mem_map] at hd
  obtain ⟨e, he, rfl⟩ := hd
  exact Observer.dues_of_isClients (h e he)

theorem ledger_fireBefore (h : w.Tidy told) (c : ContextNo) (r : Response) :
    (w.fireBefore c r).ledger =
      w.ledger.change c fun a => { a with before := a.before.or (some r) } := by
  rcases w.fireBefore_cases c r with ⟨hnot, heq⟩ | ⟨x, hx, hwaits, heq⟩
  · rw [heq]
    refine (change_eq_self ?_).symm
    intro x hx
    obtain ⟨v, hv⟩ := Option.ne_none_iff_exists'.1 ((waits_before hx).not.1 hnot)
    simp [Context.account, hv]
  · have hnone := (waits_before hx).1 hwaits
    rw [heq, ledger_deliver, dues_clients fun e he => (h.contexts c x hx).clients e ?_, zero_add]
    · apply ledger_modifyContext
      intro y hy
      obtain rfl := Option.some.inj (hy.symm.trans hx)
      simp only [Context.account, Context.isComplete, hnone, Option.none_or]
      rfl
    · exact List.mem_append_left _ (List.mem_append_left _ he)

theorem ledger_fireResponse (h : w.Tidy told) (c : ContextNo) (r : Response) :
    (w.fireResponse c r).ledger =
      w.ledger.change c fun a => { a with response := a.response.or (some r) } := by
  rcases w.fireResponse_cases c r with ⟨hnot, heq⟩ | ⟨x, hx, hwaits, heq⟩
  · rw [heq]
    refine (change_eq_self ?_).symm
    intro x hx
    obtain ⟨v, hv⟩ := Option.ne_none_iff_exists'.1 ((waits_response hx).not.1 hnot)
    simp [Context.account, hv]
  · have hnone := (waits_response hx).1 hwaits
    rw [heq, ledger_deliver, dues_clients fun e he => (h.contexts c x hx).clients e ?_, zero_add]
    · apply ledger_modifyContext
      intro y hy
      obtain rfl := Option.some.inj (hy.symm.trans hx)
      simp only [Context.account, Context.isComplete, hnone, Option.none_or]
      rfl
    · exact List.mem_append_left _ (List.mem_append_right _ he)

@[simp] theorem ledger_reportBranch (c : ContextNo) : (w.reportBranch c).ledger = w.ledger := by
  unfold World.reportBranch
  split <;> rfl

/-! ## The library's own work -/

/-- What an observer is to do when it is notified is due as soon as it is. -/
theorem ledger_notify (ch : ChannelRef) (replay : Bool) (v : Value) (o : Observer) :
    (w.notify ch replay v o).ledger = { w.ledger with work := o.dues + w.ledger.work } := by
  cases o with
  | client label keeps =>
    have hpush : (w.push [.observer ch label v]).ledger = w.ledger := ledger_push_idle rfl
    simp only [World.notify, Observer.dues, zero_add]
    cases replay with
    | false => rw [if_neg (by decide), ledger_note fun _ => ⟨rfl, rfl⟩, hpush]
    | true => rw [if_pos rfl, ledger_note fun _ => ⟨rfl, rfl⟩, hpush]
  | empty =>
    simp only [World.notify, Observer.dues, zero_add]
  | settleLink c =>
    simp only [World.notify]
    split
    · rw [ledger_push, ledger_log]
      simp [Frame.dues, Observer.dues]
    · rw [ledger_push]
      simp [Frame.dues, Observer.dues]
  | settleError c e result =>
    simp only [World.notify]
    split
    · rw [ledger_push]
      simp [Frame.dues, Observer.dues]
    · rw [ledger_push]
      simp [Frame.dues, Observer.dues]

/-- The completion of a context is told, or the queue is done. -/
theorem dealt_completeNext (h : w.Tidy told) (htold : ∀ c q, w.queue = some (c :: q) → told c = false)
    (hs : w.ledger.Sane) :
    Dealt t verdict w.ledger w.completeNext.ledger := by
  cases hqueue : w.queue with
  | none =>
    unfold World.completeNext
    rw [hqueue]
    exact .inl .refl
  | some l =>
    cases l with
    | nil =>
      have hsame : World.ledger { w with queue := none } = w.ledger :=
        Ledger.ext rfl rfl rfl (by simp [ledger, hqueue]) rfl
      unfold World.completeNext
      rw [hqueue]
      exact hsame ▸ .inl .refl
    | cons c q =>
      have hq : w.ledger.queue = c :: q := by simp [ledger, hqueue]
      obtain ⟨a, ha, _, hopen⟩ := hs.queued c (by rw [hq]; exact List.mem_cons_self)
      obtain ⟨x, hx, rfl⟩ := Option.map_eq_some_iff.1 (accounts_ledger (w := w) c ▸ ha)
      obtain ⟨-, hhold⟩ := h.hold_of_queued hqueue hx (htold c q hqueue)
      rw [completeNext_eq hqueue hx hopen, ledger_deliver,
        dues_clients fun e he => (h.contexts c x hx).clients e (List.mem_append_right _ he), zero_add]
      have hrequeue : World.ledger { w with queue := some q } = w.ledger.requeue q := rfl
      have htold : ((World.log { w with queue := some q } .debug (completionNote x)).modifyContext c
          fun x => { x with hold := none, completion := .fired () }).ledger =
            (w.ledger.requeue q).change c fun a => { a with isComplete := true } := by
        rw [← hrequeue, ← ledger_log (w := { w with queue := some q }) .debug (completionNote x)]
        exact ledger_modifyContext (g := fun a => { a with isComplete := true }) fun _ _ => rfl
      refine .inr ?_
      have hstep : Step t verdict w.ledger (w.ledger.complete c q x.parent) := .complete hq ha
      refine Eq.subst (motive := Step t verdict _) ?_ hstep
      rw [ledger_push, htold, hhold]
      cases x.parent with
      | none => simp [Frame.dues, Ledger.complete, Ledger.change, Ledger.requeue]
      | some p => simp [Frame.dues, Ledger.complete, Ledger.change, Ledger.requeue, Ledger.owe]

/-- A signal fires, unless it has fired. -/
theorem deals_fireSignal (s : SignalNo) (r : Resolution) :
    Deals t verdict w.ledger (w.fireSignal s r).ledger := by
  rcases w.fireSignal_cases s r with ⟨_, heq⟩ | ⟨x, hx, hwaits, _⟩
  · rw [heq]
    exact .refl
  · have hf : x.channel.isFired = false := by simp [Channel.isFired, (waits_signal hx).1 hwaits]
    rw [ledger_fireSignal hx hf]
    exact .single (Ledger.Step.deal (.resolve (by rw [pledges_ledger, hx]; rfl) hf) rfl)

theorem deals_resolveError (c : ContextNo) (e : Failure) (failed : Option (Option Failure))
    (result : SignalNo) : Deals t verdict w.ledger (w.resolveError c e failed result).ledger := by
  unfold World.resolveError
  split
  · exact deals_fireSignal result _
  · have hfire := @deals_fireSignal t verdict
      (w.log .error (Failure.handlerFailed (w.idOf c) (some e) ‹_›).what) result
      { failure := some (Failure.handlerFailed (w.idOf c) (some e) ‹_›) }
    rw [ledger_log] at hfire
    exact hfire

@[simp] theorem ledger_hold (r : Ref) : (w.hold r).ledger = w.ledger := by
  cases r with
  | context c => exact ledger_modifyContext_same fun _ _ => rfl
  | signal s => exact ledger_modifySignal_same fun _ _ => rfl

@[simp] theorem ledger_returnCall (r : Reply) (kept : List Ref) :
    (w.returnCall r kept).ledger = w.ledger := by
  unfold World.returnCall
  rw [ledger_releaseAll, ledger_answered]
  cases r with
  | context c => exact ledger_hold (.context c)
  | signal s => exact ledger_hold (.signal s)
  | _ => rfl

/-- A failure takes the place of a frame that has nothing coming. -/
theorem ledger_overthrown {f : Failure} {g : Frame} {rest : List Frame} (hs : w.stack = g :: rest)
    (hg : g.dues = 0) : World.ledger { w with stack := .throwing f :: rest } = w.ledger := by
  rw [ledger_pop_idle hs hg]
  exact ledger_push_idle (w := { w with stack := rest })
    (show ([Frame.throwing f].map Frame.dues).sum = 0 from rfl)

/-- A failure reaches the frame below, which has nothing coming. -/
theorem ledger_unwind {f : Failure} (hcalm : Calm w.stack) :
    (w.unwind f w.stack).ledger = w.ledger := by
  cases hs : w.stack with
  | nil => exact ledger_congr rfl rfl hs.symm rfl rfl
  | cons g rest =>
    rw [hs] at hcalm
    cases g with
    | observer ch l v => exact ledger_congr rfl rfl hs.symm rfl rfl
    | handler n c e s => exact ledger_congr rfl rfl hs.symm rfl rfl
    | deliver ch replay v todo spent =>
      unfold World.unwind
      rw [ledger_log]
      exact ledger_congr rfl rfl hs.symm rfl rfl
    | returning r kept =>
      unfold World.unwind
      rw [ledger_releaseAll]
      exact ledger_overthrown hs rfl
    | conclude c e failed result => exact ledger_overthrown hs rfl
    | throwing f' => exact ledger_overthrown hs rfl
    | _ => cases hcalm

/-- A failure gets as far as the queue only if a slot could not be given up. -/
theorem dealt_unwind {f : Failure} (hfits : Fits t (.throwing f) w.stack) :
    Dealt t verdict w.ledger (w.unwind f w.stack).ledger := by
  rcases hfits with hcalm | ⟨hloose, below, hs⟩
  · rw [ledger_unwind hcalm]
    exact .inl .refl
  · have hmid : World.ledger { w with stack := .throwing f :: below } = w.ledger :=
      ledger_overthrown hs rfl
    rw [hs]
    unfold World.unwind World.abandonQueue
    rw [ledger_releaseAll]
    refine .inr ?_
    rw [← hmid]
    exact .abandon hloose

/-- The queue is active while some frame climbs. -/
theorem InOrder.queue_of_climb (h : w.InOrder t) (hm : .climb ∈ w.stack) :
    ∃ q, w.queue = some q := by
  have hpos : 0 < w.stack.countP Frame.isClimb := List.countP_pos_iff.2 ⟨.climb, hm, rfl⟩
  rw [h.climbs] at hpos
  split at hpos
  · rename_i hq
    exact Option.isSome_iff_exists.1 hq
  · exact absurd hpos (Nat.lt_irrefl 0)

/-- A step of the library's own work is some steps of the books. It completes nothing unless a frame
climbs. -/
theorem deals_advance (h : w.Tidy told)
    (hclimb : ∀ rest, w.stack ≠ .climb :: rest)
    (hgive : ∀ c share rest, w.stack = .giveUp c share :: rest → ∃ x, w.contexts[c]? = some x)
    (htell : ∀ c p rest, w.stack = .told c (some p) :: rest →
      (∃ x, w.contexts[p]? = some x) ∧ ∃ q, w.queue = some q)
    (hthrow : ∀ f rest, w.stack = .throwing f :: rest → Calm rest) :
    Deals t verdict w.ledger w.advance.ledger := by
  have hsame : ∀ {w' : World}, w'.ledger = w.ledger → Deals t verdict w.ledger w'.ledger :=
    fun h => h ▸ .refl
  unfold World.advance
  split
  · exact .refl
  · exact .refl
  · exact .refl
  · rename_i spent rest hs
    rw [ledger_releaseAll]
    exact hsame (ledger_pop_idle hs rfl).symm
  · rename_i ch replay v o todo spent rest hs
    apply hsame
    rw [ledger_notify]
    refine Ledger.ext rfl rfl ?_ rfl rfl
    simp [ledger, hs, Frame.dues, add_assoc]
  -- the outcome, which was due for the first channel, is due for the second
  · rename_i c r rest hs
    have hmid : World.Tidy told { w with stack := .answer c r :: rest } :=
      (h.pop hs).pushPlain (f := .answer c r) rfl trivial
    have hnote := (hmid.note (e := .publishing c r) trivial).reportBranch c
    have hled : ((World.note { w with stack := .answer c r :: rest }
        (.publishing c r)).reportBranch c).ledger = w.ledger := by
      rw [ledger_reportBranch, ledger_note fun _ => ⟨rfl, rfl⟩]
      refine Ledger.ext rfl rfl ?_ rfl rfl
      simp [ledger, hs, Frame.dues]
    rw [ledger_fireBefore hnote, hled]
    refine .single (Ledger.Step.deal (.before ?_) rfl)
    simp [ledger, hs, Frame.dues]
  -- once it is published there, the context's own slot is due
  · rename_i c r rest hs
    have hmid : World.Tidy told { w with stack := .giveUp c .own :: rest } :=
      (h.pop hs).pushPlain (f := .giveUp c .own) rfl trivial
    have hpush : World.ledger { w with stack := .giveUp c .own :: rest } =
        (World.ledger { w with stack := rest }).owe (.slot c .own) :=
      ledger_pop_owe (w := { w with stack := .giveUp c .own :: rest }) rfl rfl
    rw [ledger_fireResponse hmid.point, ledger_point, hpush,
      ledger_pop_owe (f := .answer c r) hs rfl]
    exact .single (Ledger.Step.deal .answer rfl)
  · rename_i c share rest hs
    obtain ⟨x, hx⟩ := hgive c share rest hs
    rw [ledger_pop_owe (f := .giveUp c share) hs rfl]
    exact deals_giveUpSlot (w := { w with stack := rest }) hx share
  · rename_i rest hs
    exact absurd hs (hclimb rest)
  · rename_i c parent rest hs
    cases parent with
    | none =>
      apply hsame
      unfold World.tellParent
      rw [ledger_releaseAll]
      exact (ledger_pop_idle (f := .told c none) hs rfl).symm
    | some p =>
      obtain ⟨⟨x, hx⟩, q, hq⟩ := htell c p rest hs
      rw [ledger_pop_owe (f := .told c (some p)) hs rfl]
      exact deals_tellParent (w := { w with stack := rest }) hx hq
  · rename_i c e failed result rest hs
    rw [ledger_pop_idle (f := .conclude c e failed result) hs rfl]
    exact deals_resolveError c e failed result
  · rename_i r kept rest hs
    rw [ledger_returnCall]
    exact hsame (ledger_pop_idle (f := .returning r kept) hs rfl).symm
  · rename_i f rest hs
    have hunwind := ledger_unwind (w := { w with stack := rest }) (f := f) (hthrow f rest hs)
    exact hsame (hunwind.trans (ledger_pop_idle (f := .throwing f) hs rfl).symm)

/-- The same where the stack has its shape, and something may be completed. -/
theorem dealt_advance (h : w.Tidy told) (ho : w.Ordered t)
    (htold : ∀ c q, w.queue = some (c :: q) → told c = false) (hsane : w.ledger.Sane) :
    Dealt t verdict w.ledger w.advance.ledger := by
  have hgive : ∀ c share rest, w.stack = .giveUp c share :: rest → ∃ x, w.contexts[c]? = some x := by
    intro c share rest hs
    obtain ⟨x, hx, _⟩ := exists_of_isLive (ho.live_of_giveUp h hs)
    exact ⟨x, hx⟩
  have htell : ∀ c p rest, w.stack = .told c (some p) :: rest →
      (∃ x, w.contexts[p]? = some x) ∧ ∃ q, w.queue = some q := by
    intro c p rest hs
    have hlive : w.isLive p = true := by
      apply h.frame_live (f := .told c (some p)) (r := .context p)
      · rw [hs]
        exact List.mem_cons_self
      · simp [Frame.refs]
    obtain ⟨x, hx, _⟩ := exists_of_isLive hlive
    obtain ⟨below, rfl⟩ := ho.fits hs rfl
    have hin : w.InOrder t := by
      rcases ho with ho | ⟨_, _, _, hs', _⟩
      · exact ho
      · cases hs.symm.trans hs'
    exact ⟨⟨x, hx⟩, hin.queue_of_climb (by rw [hs]; simp)⟩
  by_cases hclimb : ∃ rest, w.stack = .climb :: rest
  · obtain ⟨rest, hs⟩ := hclimb
    have hpop := ledger_pop_idle (f := .climb) hs rfl
    unfold World.advance
    rw [hs]
    rw [hpop] at hsane ⊢
    exact dealt_completeNext (h.pop hs) htold hsane
  · by_cases hthrow : ∀ f rest, w.stack = .throwing f :: rest → Calm rest
    · exact .inl (deals_advance h (fun rest hs => hclimb ⟨rest, hs⟩) hgive htell hthrow)
    · simp only [not_forall] at hthrow
      obtain ⟨f, rest, hs, _⟩ := hthrow
      have hfits := ho.fits hs rfl
      unfold World.advance
      rw [hs, ledger_pop_idle (f := .throwing f) hs rfl]
      exact dealt_unwind (w := { w with stack := rest }) hfits

/-! ## The moves of clients -/

@[simp] theorem ledger_finish (thrown : Option Failure) : (w.finish thrown).ledger = w.ledger := by
  unfold World.finish
  split
  · rename_i ch l v rest hs
    have hpop := ledger_pop_idle (f := .observer ch l v) hs rfl
    dsimp only
    split
    · exact hpop.symm
    · rw [ledger_log]
      exact hpop.symm
  · rfl

/-- What an observer is to do waits for the signal that it subscribes to. -/
theorem ledger_attach {s : SignalNo} {o : Observer} {d : Due} (hd : o.dues = {d}) :
    (match w.subscribe (.signal s) o with
      | (.registered _, w) => w
      | (.replayed v, w) => w.replay (.signal s) v o).ledger = w.ledger.entrust s d := by
  rcases subscribe_cases w (.signal s) o with ⟨hv, heq⟩ | ⟨v, hv, heq⟩
  · rw [heq]
    -- the signal waits, and takes what is due upon itself
    have hwaits : ∀ x, w.signals[s]? = some x → x.channel.value? = none := by
      intro x hx
      simpa [value?, hx] using hv
    have hopen : (w.ledger.pledges[s]?).any Pledge.isFired = false := by
      rw [pledges_ledger]
      cases hx : w.signals[s]? with
      | none => rfl
      | some x => simp [Signal.pledge, Channel.isFired, hwaits x hx]
    unfold Ledger.entrust
    rw [hopen, if_neg (by decide)]
    refine ledger_modifySignal (f := fun x => { x with channel := (x.channel.subscribe o).2 })
      ?_
    intro x hx
    cases hch : x.channel with
    | fired u =>
      have hnone := hwaits x hx
      rw [hch] at hnone
      cases hnone
    | waiting n os =>
      simp only [Signal.pledge, hch, Channel.subscribe, Channel.observers, List.map_append,
        List.map_cons, List.map_nil, List.sum_append, List.sum_singleton, hd]
      rw [add_comm _ ({d} : Multiset Due), Multiset.singleton_add]
      rfl
  · rw [heq]
    -- the signal has fired, so that what is due is due at once
    obtain ⟨x, hx, hxv⟩ := Option.bind_eq_some_iff.1 hv
    obtain ⟨u, hu, rfl⟩ := Option.map_eq_some_iff.1 hxv
    have hfired : (w.ledger.pledges[s]?).any Pledge.isFired = true := by
      simp [pledges_ledger, hx, Signal.pledge, Channel.isFired, hu]
    unfold Ledger.entrust
    rw [hfired, if_pos rfl]
    simp only [ledger_replay, hd, Multiset.singleton_add]
    rfl

/-- The outcome of an error waits for a signal. -/
theorem deals_settleBy {s : SignalNo} (hs : w.isLiveSignal s = true) (c : ContextNo) (e : Failure)
    (result : SignalNo) : Deals t verdict (w.ledger.owe (.outcome c ⟨none, some e⟩))
      (w.settleBy s c e result).ledger := by
  obtain ⟨x, hx, _⟩ := exists_of_isLiveSignal hs
  have hlt : s < w.ledger.pledges.length := by
    rw [length_pledges]
    exact (Array.getElem?_eq_some_iff.1 hx).1
  have hpush : (w.push [.returning (.signal result) [.signal s, .context c]]).ledger = w.ledger :=
    ledger_push_idle rfl
  have hattach := ledger_attach (s := s) (o := .settleError c e result)
    (w := w.push [.returning (.signal result) [.signal s, .context c]]) rfl
  rw [hpush] at hattach
  have hdeal : Deals t verdict (w.ledger.owe (.outcome c ⟨none, some e⟩))
      (w.ledger.entrust s (.outcome c ⟨none, some e⟩)) :=
    .single (Ledger.Step.deal (.settle hlt) (queue_entrust _ _ _))
  rw [← hattach] at hdeal
  exact hdeal

/-- A signal is made. -/
theorem ledger_makeSignal (r : Option Resolution) : (w.makeSignal r).2.ledger =
    { w.ledger with pledges := w.ledger.pledges ++ [{ isFired := r.isSome }] } := by
  cases r with
  | none => exact ledger_addSignal (x := {}) rfl
  | some r => exact ledger_addSignal (w := w.point) (x := { channel := .fired r }) rfl

theorem deals_makeSignal (r : Option Resolution) :
    Deals t verdict w.ledger (w.makeSignal r).2.ledger := by
  rw [ledger_makeSignal]
  exact .single (Ledger.Step.deal (.signal _ _) rfl)

/-- The return of a handler is some steps of the books. -/
theorem deals_handled (h : w.Tidy told) {a : Handled} (ha : ∀ r ∈ a.uses, w.isLiveRef r = true) :
    Deals t verdict w.ledger (w.handled a).ledger := by
  unfold World.handled
  split
  · rename_i n c e result rest hs
    rw [ledger_pop_owe (f := .handler n c e result) hs rfl]
    dsimp only
    split
    · rw [ledger_push_owe (d := .outcome c ⟨none, some e⟩) (by simp [Frame.dues])]
      exact .refl
    · rename_i f
      obtain ⟨_, hnew, _⟩ := (h.pop hs).makeSignal (some { failure := some f })
      -- a handler that throws counts as one whose signal has fired with the failure
      have hsettle := @deals_settleBy t verdict _ _ hnew c e result
      refine Relation.ReflTransGen.head ?_ hsettle
      rw [ledger_makeSignal]
      exact Ledger.Step.deal (.signal (World.ledger { w with stack := rest } |>.owe
        (.outcome c ⟨none, some e⟩)) true) rfl
    · rename_i s
      have hlive : (World.modifySignal { w with stack := rest } s fun x =>
          { x with holders := x.holders - 1 }).isLiveSignal s = true :=
        (isLiveSignal_modifySignal (w := { w with stack := rest })
          (f := fun x => { x with holders := x.holders - 1 }) (fun _ _ => rfl) s).trans
          (ha (.signal s) (List.mem_singleton_self _))
      have hsettle := @deals_settleBy t verdict _ _ hlive c e result
      rwa [ledger_modifySignal_same (f := fun x => { x with holders := x.holders - 1 })
        fun _ _ => rfl] at hsettle
  · exact .refl

theorem mem_sum_map {α β : Type} {f : α → Multiset β} {l : List α} {d : β} :
    d ∈ (l.map f).sum ↔ ∃ x ∈ l, d ∈ f x := by
  induction l with
  | nil => simp
  | cons a l ih => simp [ih]

/-- No observer gives up the slot of a participant. -/
theorem isLeaveOf_observer {o : Observer} {d : Due} (hd : d ∈ o.dues) (c : ContextNo) :
    d.isLeaveOf c = false := by
  rcases Observer.cases_dues hd with ⟨c', rfl⟩ | ⟨c', r, rfl⟩ <;> rfl

/-- No participant is about to leave, unless a frame gives up its slot. -/
theorem leaving_eq_zero (h : ∀ c share, .giveUp c share ∈ w.stack → share = .own ∨ share = .link)
    (c : ContextNo) : w.ledger.leaving c = 0 := by
  apply Multiset.countP_eq_zero.2
  intro d hd
  rw [Bool.not_eq_true]
  rcases Multiset.mem_add.1 hd with hd | hd
  · obtain ⟨p, hp, hd⟩ := mem_sum_map.1 hd
    obtain ⟨x, _, rfl⟩ := List.mem_map.1 hp
    obtain ⟨o, _, hd⟩ := mem_sum_map.1 hd
    exact isLeaveOf_observer hd c
  · obtain ⟨f, hf, hd⟩ := mem_sum_map.1 hd
    cases f with
    | deliver ch replay v todo spent =>
      obtain ⟨o, _, hd⟩ := mem_sum_map.1 hd
      exact isLeaveOf_observer hd c
    | handler n c' e s =>
      obtain rfl := Multiset.mem_singleton.1 hd
      rfl
    | respond c' r =>
      obtain rfl := Multiset.mem_singleton.1 hd
      rfl
    | answer c' r =>
      obtain rfl := Multiset.mem_singleton.1 hd
      rfl
    | giveUp c' share =>
      obtain rfl := Multiset.mem_singleton.1 hd
      -- the slot of a participant is given up in a call of its own
      rcases h c' share hf with rfl | rfl <;> rfl
    | told c' p =>
      cases p with
      | none => exact absurd hd (Multiset.notMem_zero d)
      | some p =>
        obtain rfl := Multiset.mem_singleton.1 hd
        rfl
    | _ => exact absurd hd (Multiset.notMem_zero d)

/-- When the stack is in order, no participant is about to leave. -/
theorem InOrder.leaving (h : w.InOrder t) (c : ContextNo) : w.ledger.leaving c = 0 :=
  leaving_eq_zero (fun _ _ hf => h.framed.shares hf) c

/-! ## Calls -/

/-- A call that has nothing left to do but to return is not written down. -/
theorem ledger_returning (r : Reply) (kept : List Ref) :
    (w.push [.returning r kept]).ledger = w.ledger := ledger_push_idle rfl

theorem deals_success (c : ContextNo) (r : Option Int) :
    Deals t (some (c, ⟨r, none⟩)) w.ledger (w.success c r).ledger := by
  unfold World.success
  dsimp only
  split
  · exact .refl
  · rename_i x hx
    split
    · rw [ledger_answered, ledger_log]
      exact .refl
    · rename_i hpending
      have hstate : x.state = .pending := by simpa [Context.isTerminated] using hpending
      have hacc : w.ledger.accounts[c]? = some x.account := account_of hx
      rw [ledger_push_owe (d := .outcome c ⟨r, none⟩) (by simp [Frame.dues]),
        ledger_modifyContext (g := fun a => { a with state := .succeeded }) fun _ _ => rfl]
      exact .single (Ledger.Step.deal (.decide hacc hstate rfl) rfl)

theorem deals_error (c : ContextNo) (e : Failure) :
    Deals t (some (c, ⟨none, some e⟩)) w.ledger (w.error c (some e)).ledger := by
  unfold World.error
  dsimp only
  split
  · exact .refl
  · rename_i x hx
    split
    · have hmade := @deals_makeSignal t (some (c, ⟨none, some e⟩))
        (w.point.log .warning (ignoredNote x ("error() ignored: " ++ e.describe)))
        (some { alreadyCompleted := true })
      rw [ledger_returning]
      rwa [ledger_log] at hmade
    · rename_i hpending
      have hstate : x.state = .pending := by simpa [Context.isTerminated] using hpending
      have hacc : w.ledger.accounts[c]? = some x.account := account_of hx
      have hdecide : Deal t (some (c, ⟨none, some e⟩)) w.ledger
          ((w.ledger.change c fun a => { a with state := .failed }).owe
            (.outcome c ⟨none, some e⟩)) := Ledger.Step.deal (.decide hacc hstate rfl) rfl
      refine .head hdecide (.single ?_)
      rw [ledger_note fun _ => ⟨rfl, rfl⟩,
        ledger_push_owe (d := .outcome c ⟨none, some e⟩) (by simp [Frame.dues]), ledger_makeSignal,
        ledger_modifyContext (g := fun a => { a with state := .failed }) fun _ _ => rfl]
      exact Ledger.Step.deal (.signal ((w.ledger.change c fun a => { a with state := .failed }).owe _)
        false) rfl

/-- A slot is taken for something other than a participant. -/
theorem ledger_takeSlot (c : ContextNo) {share : Share} (hne : share ≠ .participant)
    (slots : Counter) :
    (((w.modifyContext c fun x => { x with slots := slots }).point).note (.joined c share)).ledger =
      w.ledger.recount c slots := by
  rw [ledger_note fun d => ⟨by simp [Event.isJoin, hne], rfl⟩]
  exact ledger_modifyContext (w := w) fun _ _ => rfl

theorem count_lt_of_hasRoom {c : ContextNo} {x : Context} (hx : w.contexts[c]? = some x)
    (h : w.hasRoom c = true) : x.slots.count < 2 ^ 31 - 1 := by
  unfold hasRoom at h
  rw [hx] at h
  have hlt : x.slots.pending < Int32.maxValue := by simpa using h
  exact Int32.lt_iff_toInt_lt.1 hlt

theorem deals_createRoot {spec : RootSpec}
    (hl : ∀ s, spec.link = some s → w.isLiveSignal s = true) :
    Deals t verdict w.ledger (w.createRoot spec).ledger := by
  rw [World.createRoot_eq]
  split
  · exact .refl
  · dsimp only
    split
    · exact .refl
    · rename_i g _
      have hmid : ((World.enter { w with trees := w.trees.push spec.tree }
          (spec.build w.contexts.size w.trees.size) g).push
            [.returning (.context w.contexts.size) []]).ledger =
          w.ledger.enter
            { link := spec.link, slots := .start (if spec.link.isSome then 2 else 1) } := by
        rw [ledger_returning, ledger_enter]
        rfl
      split
      · rename_i hlink
        rw [hmid, hlink]
        exact .single (Ledger.Step.deal (.root _) rfl)
      · rename_i s hlink
        obtain ⟨x, hx, _⟩ := exists_of_isLiveSignal (hl s hlink)
        have hlt : s < w.ledger.pledges.length := by
          rw [length_pledges]
          exact (Array.getElem?_eq_some_iff.1 hx).1
        have hattach := ledger_attach (s := s) (o := .settleLink w.contexts.size)
          (w := ((World.enter { w with trees := w.trees.push spec.tree }
            (spec.build w.contexts.size w.trees.size) g).push
              [.returning (.context w.contexts.size) []]).note (.joined w.contexts.size .link)) rfl
        rw [ledger_note fun _ => ⟨rfl, rfl⟩, hmid, hlink] at hattach
        refine Eq.subst (motive := fun L => Deals t verdict w.ledger L) hattach.symm ?_
        rw [← length_ledger]
        exact .single (Ledger.Step.deal (.linked hlt) (queue_entrust _ _ _))

theorem deals_createChild {parent : ContextNo} {location : Option Location}
    (hroom : t.bounded = true → location.isSome = true → w.hasRoom parent = true)
    (handler : Option Nat) (correlation : Option String) :
    Deals t verdict w.ledger (w.createChild parent location handler correlation).ledger := by
  rw [World.createChild_eq]
  split
  · exact .refl
  · exact .refl
  · rename_i location p hp
    dsimp only
    split
    · unfold World.refuseSlot
      rw [ledger_refused, ledger_log]
      exact .refl
    · rename_i w' hw'
      obtain ⟨x, slots, hx, hadd, rfl⟩ := takeSlot_eq_some hw'
      obtain rfl := Option.some.inj (hp.symm.trans hx)
      have hacc : w.ledger.accounts[parent]? = some p.account := account_of hx
      have hcount : t.bounded = true → p.slots.count < 2 ^ 31 - 1 := fun hb =>
        count_lt_of_hasRoom hx (hroom hb rfl)
      have htake := ledger_takeSlot (w := w) parent
        (show Share.child w.contexts.size ≠ .participant from nofun) slots
      split
      · rw [ledger_push_owe (d := .slot parent (.child w.contexts.size)) (by simp [Frame.dues]),
          ledger_note fun _ => ⟨rfl, rfl⟩]
        refine .single ?_
        have hdeal : Deal t verdict w.ledger ((w.ledger.recount parent slots).owe
            (.slot parent (.child w.contexts.size))) :=
          Ledger.Step.deal (.rejected hacc hadd hcount) rfl
        rw [← htake] at hdeal
        exact hdeal
      · rw [ledger_returning, ledger_enter]
        refine .single ?_
        have hdeal : Deal t verdict w.ledger
            ((w.ledger.recount parent slots).enter { parent := some parent, slots := .start 1 }) :=
          Ledger.Step.deal (.child hacc hadd hcount) rfl
        rw [← htake] at hdeal
        exact hdeal

/-- A client's observer leaves unwritten. -/
theorem sum_eraseP {os : List (UInt64 × Observer)} {p : UInt64 × Observer → Bool}
    (h : ∀ e, os.find? p = some e → e.2.isClients = true) :
    ((os.eraseP p).map fun e => e.2.dues).sum = (os.map fun e => e.2.dues).sum := by
  induction os with
  | nil => rfl
  | cons a os ih =>
    cases hp : p a with
    | true =>
      have ha : a.2.dues = 0 := Observer.dues_of_isClients (h a (by simp [hp]))
      simp [hp, ha]
    | false =>
      have hrest := ih fun e he => h e (by simpa [hp] using he)
      simp [hp, hrest]

theorem ledger_unsubscribe {ch : ChannelRef} {n : UInt64}
    (h : (w.observer? ch n).all Observer.isClients = true) :
    (w.modifyChannel ch fun c => c.unsubscribe n).ledger = w.ledger := by
  apply ledger_modifyChannel (fun c => by cases c <;> rfl)
  intro s x hch hx
  subst hch
  cases hc : x.channel with
  | fired v => rfl
  | waiting k os =>
    apply sum_eraseP
    intro e he
    simpa [observer?, observers, hx, hc, Channel.observers, he] using h

theorem ledger_subscribe (ch : ChannelRef) {o : Observer} (ho : o.isClients) :
    (w.modifyChannel ch fun c => (c.subscribe o).2).ledger = w.ledger := by
  apply ledger_modifyChannel (fun c => by cases c <;> rfl)
  intro s x _ _
  cases hc : x.channel with
  | fired v => rfl
  | waiting k os => simp [Channel.subscribe, Channel.observers, Observer.dues_of_isClients ho]

/-- A participant joins, if the counter is open. -/
theorem deals_addChild {c : ContextNo} (hk : w.keepsTo t (.call (.addChild c)) = true) :
    Deals t verdict w.ledger (w.call (.addChild c)).ledger := by
  simp only [World.call]
  split
  · rename_i w' hw'
    obtain ⟨x, slots, hx, hadd, rfl⟩ := takeSlot_eq_some hw'
    have hmid : ((w.modifyContext c fun x => { x with slots := slots }).point).ledger =
        w.ledger.recount c slots := ledger_modifyContext fun _ _ => rfl
    rw [ledger_answered, ledger_joined, hmid]
    refine .single (Ledger.Step.deal (.join (account_of hx) hadd ?_) rfl)
    intro hb
    simp only [keepsTo, hb, Bool.or_eq_true] at hk
    rcases hk with hk | hk
    · cases hk
    · exact count_lt_of_hasRoom hx hk
  · unfold World.refuseSlot
    rw [ledger_refused, ledger_log]
    exact .refl

/-- A participant is about to leave, and no other one is. -/
theorem deals_childCompleted {c : ContextNo} (hnone : w.ledger.leaving c = 0) (hl : w.isLive c = true)
    (hk : w.keepsTo t (.call (.childCompleted c)) = true) :
    Deals t verdict w.ledger (w.call (.childCompleted c)).ledger := by
  obtain ⟨x, hx, _⟩ := exists_of_isLive hl
  simp only [World.call]
  rw [ledger_push_owe (d := .slot c .participant) (by simp [Frame.dues])]
  refine .single (Ledger.Step.deal (.leave (account_of hx) ?_) rfl)
  intro hm
  simp only [keepsTo, hm, Bool.or_eq_true, decide_eq_true_eq] at hk
  rcases hk with hk | hk
  · cases hk
  · rw [hnone]
    show ((0 : Nat) : Int) < (w.joins c : Int) - w.leaves c
    omega

theorem ledger_call_subscribe (ch : ChannelRef) (label : Option Nat) (keeps : List Ref) :
    (w.call (.subscribe ch label keeps)).ledger = w.ledger := by
  have hclient : (label.elim Observer.empty fun label => .client label keeps).isClients = true := by
    cases label <;> rfl
  simp only [World.call]
  rcases subscribe_cases w ch (label.elim .empty fun label => .client label keeps) with
    ⟨_, heq⟩ | ⟨v, _, heq⟩
  · rw [heq]
    exact ledger_subscribe ch hclient
  · rw [heq]
    dsimp only
    rw [ledger_replay, Observer.dues_of_isClients hclient, zero_add]
    exact ledger_returning _ _

/-- A call is some steps of the books. It uses only what exists, and keeps to the terms. -/
theorem deals_call (hnone : ∀ c, w.ledger.leaving c = 0) (call : Call)
    (hl : ∀ r ∈ call.uses, w.isLiveRef r = true)
    (hun : ∀ ch n, call = .unsubscribe ch n → (w.observer? ch n).all Observer.isClients = true)
    (hk : w.keepsTo t (.call call) = true) :
    Deals t (Move.call call).verdict? w.ledger (w.call call).ledger := by
  have hsame : ∀ {v : Option (ContextNo × Response)} {w' : World}, w'.ledger = w.ledger →
      Deals t v w.ledger w'.ledger := fun h => h ▸ .refl
  cases call with
  | createRoot spec =>
    exact deals_createRoot fun s hs => hl (.signal s) (by simp [Call.uses, hs])
  | createChild parent location handler correlation =>
    refine deals_createChild ?_ handler correlation
    intro hb hloc
    simp only [keepsTo, hb, Bool.or_eq_true] at hk
    rcases hk with (hk | hk) | hk
    · cases hk
    · rw [Option.isNone_iff_eq_none] at hk
      rw [hk] at hloc
      cases hloc
    · exact hk
  | success c result => exact deals_success c result
  | error c failure =>
    cases failure with
    | none => exact .refl
    | some e => exact deals_error c e
  | addChild c => exact deals_addChild hk
  | childCompleted c =>
    exact deals_childCompleted (hnone c) (hl (.context c) (List.mem_singleton_self _)) hk
  | subscribe ch label keeps => exact hsame (ledger_call_subscribe ch label keeps)
  | unsubscribe ch n =>
    apply hsame
    simp only [World.call]
    rw [ledger_answered, ledger_releaseAll]
    exact ledger_unsubscribe (hun ch n rfl)
  | fireBefore c r => cases hk
  | fireResponse c r => cases hk
  | fireCompletion c => cases hk
  | fireSignal s r =>
    simp only [World.call, World.firing]
    split
    · exact .refl
    · have hfire := @deals_fireSignal t (Move.call (.fireSignal s r)).verdict?
        (w.push [.returning (.flag true) []]) s r
      rwa [ledger_returning] at hfire
  | wait ch =>
    apply hsame
    simp only [World.call]
    rw [ledger_answered]
    exact ledger_modifyChannel (fun c => by cases c <;> rfl) fun s x _ _ => by simp
  | makeSignal r =>
    simp only [World.call]
    rw [ledger_returning]
    exact deals_makeSignal r
  | hold r =>
    apply hsame
    simp only [World.call]
    rw [ledger_answered, ledger_hold]
  | drop r =>
    apply hsame
    simp only [World.call, World.drop]
    rw [ledger_answered, ledger_releaseAll]
    cases r with
    | context c => exact ledger_modifyContext_same fun _ _ => rfl
    | signal s => exact ledger_modifySignal_same fun _ _ => rfl
  | register id c =>
    apply hsame
    simp only [World.call]
    split <;> rfl
  | unregister id c => exact .refl
  | setThreshold level => exact .refl
  | addProcessor c path => exact hsame (ledger_modifyContext_same fun _ _ => rfl)

end World

end FanIn
