import FanIn.Proofs.Tree.Custody
import FanIn.Proofs.Tree.Shift

/-!
# How long contexts live

A context exists as long as something needs it: a client that holds it, the link it was given, an error
that is still being handled, or a child that is not complete. As long as observers of clients hold no
contexts, that is all: contexts refer to their parents alone, which are older, so no two of them keep
each other alive.

Main statement: `lives_while_needed`.
-/

namespace FanIn

/-- Whether observers that a client lets wait hold no contexts. -/
def Move.isModest : Move → Bool
  | call (.subscribe _ _ keeps) => keeps.all fun
    | .context _ => false
    | .signal _ => true
  | _ => true

/-- Whether an observer is there to finish the handling of an error of a context. -/
def Observer.isErrorOf (c : ContextNo) : Observer → Bool
  | settleError d _ _ => d == c
  | _ => false

namespace World

variable {t : Terms} {w w' : World}

/-! ## What observers hold -/

/-- No observer of a client that waits anywhere holds a context. -/
def Modest (w : World) : Prop :=
  ∀ ch n label keeps c, (n, .client label keeps) ∈ w.observers ch → .context c ∉ keeps

theorem Modest.move (h : w.Modest) {m : Move} (hm : m.isModest = true) : (w.move m).Modest := by
  intro ch n label keeps c he hc
  rcases observers_move he with he | hnew
  · exact h ch n label keeps c he hc
  · rcases subscribe_of_use hnew with ⟨l, refs, rfl, ho⟩ | ⟨_, _, _, _, _, ho⟩ |
      ⟨_, _, _, _, _, _, _, _, _, ho⟩
    · cases l with
      | none => cases ho
      | some l =>
        obtain ⟨rfl, rfl⟩ := Observer.client.inj ho
        cases List.all_eq_true.1 hm _ hc
    · cases ho
    · cases ho

/-- Only a parent is held by a context, and only until that is complete. -/
theorem Modest.hold_of_refs (h : w.Modest) (ht : w.Tidy w.completed) {c p : ContextNo} {x : Context}
    (hx : w.contexts[c]? = some x) (hp : .context p ∈ x.refs) : x.hold = some p := by
  rcases Context.mem_refs.1 hp with ⟨⟨n, o⟩, he, hr⟩ | ⟨q, hq, heq⟩
  · have hclients := (ht.contexts c x hx).clients ⟨n, o⟩ he
    cases o with
    | client label keeps =>
      have hwaits : ∃ ch, (n, .client label keeps) ∈ w.observers ch := by
        simp only [Context.waiting, List.mem_append] at he
        rcases he with (he | he) | he
        · exact ⟨.before c, by simpa [observers, hx] using he⟩
        · exact ⟨.response c, by simpa [observers, hx] using he⟩
        · exact ⟨.completion c, by simpa [observers, hx] using he⟩
      obtain ⟨ch, hwaits⟩ := hwaits
      exact absurd hr (h ch n label keeps p hwaits)
    | empty => cases hr
    | settleLink d => cases hclients
    | settleError d e r => cases hclients
  · cases heq
    exact hq

/-! ## What needs a context -/

/-- A step from a child that is not complete to its parent. -/
def Leans (w : World) (d c : ContextNo) : Prop :=
  ∃ x, w.contexts[d]? = some x ∧ x.isComplete = false ∧ x.parent = some c

theorem leans_iff {d c : ContextNo} : w.Leans d c ↔
    (w.contexts[d]?).any (fun x => !x.isComplete && x.parent == some c) = true := by
  rw [Option.any_eq_true]
  simp only [Leans, Bool.and_eq_true, Bool.not_eq_true', beq_iff_eq]

/-- Something outside of the tree needs a context: a client holds it, or it was given a link that exists
and has not fired, or its error waits for a signal that exists and has not fired. -/
def Anchored (w : World) (c : ContextNo) : Prop :=
  0 < w.holders (.context c) ∨
  (∃ x s, w.contexts[c]? = some x ∧ x.link = some s ∧ w.isLiveSignal s = true ∧
    w.isFired (.signal s) = false) ∨
  ∃ s, w.isLiveSignal s = true ∧ w.isFired (.signal s) = false ∧
    ∃ e ∈ w.observers (.signal s), e.2.isErrorOf c = true

/-- A context holds its parent as long as it exists and is not complete. -/
theorem Tidy.hold_iff (h : w.Tidy w.completed) {c p : ContextNo} {x : Context} (hx : w.contexts[c]? = some x) :
    x.hold = some p ↔ x.isLive = true ∧ x.isComplete = false ∧ x.parent = some p := by
  rw [(h.contexts c x hx).tether, completed_of_getElem? hx]
  cases x.isLive <;> cases x.isComplete <;> simp

/-- A context waits at its link until that fires. -/
theorem Orderly.waits_at_link (h : w.Orderly t) {c : ContextNo} {s : SignalNo} :
    (∃ n, (n, .settleLink c) ∈ w.observers (.signal s)) ↔
      ∃ x, w.contexts[c]? = some x ∧ x.link = some s ∧ w.isFired (.signal s) = false := by
  constructor
  · rintro ⟨n, he⟩
    have hunfired := isFired_of_observers he
    cases hy : w.signals[s]? with
    | none => simp [observers, hy] at he
    | some y =>
      have hdue : Due.slot c .link ∈ y.pledge.dues :=
        mem_sum_map.2 ⟨(n, .settleLink c), by simpa [observers, hy] using he,
          Multiset.mem_singleton_self _⟩
      have hpledge : w.ledger.pledges[s]? = some y.pledge := by rw [pledges_ledger, hy]; rfl
      rcases h.pledged.kinds s _ _ hpledge hdue with ⟨d, a, heq, ha, hl⟩ | ⟨_, _, heq⟩
      · cases heq
        rw [accounts_ledger] at ha
        obtain ⟨x, hx, rfl⟩ := Option.map_eq_some_iff.1 ha
        exact ⟨x, hx, hl, hunfired⟩
      · cases heq
  · rintro ⟨x, hx, hl, hunfired⟩
    obtain ⟨p, hp, hfired⟩ := h.pledged.links c _ s (account_of hx) hl
    rw [pledges_ledger] at hp
    obtain ⟨y, hy, rfl⟩ := Option.map_eq_some_iff.1 hp
    rcases hfired with hfired | hdue
    · have hfired : y.channel.isFired = true := hfired
      simp [isFired, value?, hy, Channel.isFired] at hunfired hfired
      simp [hunfired] at hfired
    · obtain ⟨⟨n, o⟩, he, hd⟩ := mem_sum_map.1 hdue
      cases o with
      | settleLink d =>
        cases Multiset.mem_singleton.1 hd
        exact ⟨n, by simpa [observers, hy] using he⟩
      | settleError d e r => cases Multiset.mem_singleton.1 hd
      | client label keeps => cases hd
      | empty => cases hd

theorem Tidy.observer_live {told : ContextNo → Bool} (h : w.Tidy told) {s : SignalNo} {n : UInt64} {o : Observer}
    (he : (n, o) ∈ w.observers (.signal s)) (hl : w.isLiveSignal s = true) {r : Ref}
    (hr : r ∈ o.refs) : w.isLiveRef r = true := by
  obtain ⟨y, hy, hyl⟩ := exists_of_isLiveSignal hl
  refine h.signal_live hy hyl (List.mem_flatMap.2 ⟨(n, o), ?_, hr⟩)
  simpa [observers, hy] using he

/-- Whatever needs a context keeps it alive, at any moment. -/
theorem Orderly.anchored_live (h : w.Orderly t) {c : ContextNo} (hc : w.Anchored c) :
    w.isLive c = true := by
  rcases hc with hpos | ⟨x, s, hx, hl, hlive, hunfired⟩ | ⟨s, hlive, _, ⟨n, o⟩, he, hc⟩
  · exact h.tidy.held_live (r := .context c) hpos
  · obtain ⟨n, he⟩ := h.waits_at_link.2 ⟨x, hx, hl, hunfired⟩
    exact h.tidy.observer_live he hlive (r := .context c) (List.mem_singleton_self _)
  · refine h.tidy.observer_live he hlive (r := .context c) ?_
    cases o with
    | settleError d e result =>
      obtain rfl : d = c := beq_iff_eq.1 hc
      simp [Observer.refs]
    | _ => cases hc

/-- A child that exists and is not complete keeps its parent alive. -/
theorem Tidy.leans_live (h : w.Tidy w.completed) {d c : ContextNo} (hlean : w.Leans d c)
    (hd : w.isLive d = true) : w.isLive c = true := by
  obtain ⟨x, hx, hopen, hp⟩ := hlean
  obtain ⟨y, hy, hyl⟩ := exists_of_isLive hd
  obtain rfl := Option.some.inj (hy.symm.trans hx)
  have hhold := (h.hold_iff hy).2 ⟨hyl, hopen, hp⟩
  exact h.context_live hy hyl (r := .context c) (Context.mem_refs.2 (.inr ⟨c, hhold, rfl⟩))

/-- When nothing is under way, what refers to a context is outside of the tree, or a child that is not
complete. -/
theorem Modest.holds_cases (hm : w.Modest) (h : w.Orderly t) (idle : w.stack = []) {c : ContextNo}
    (hc : w.Holds (.context c)) : w.Anchored c ∨ ∃ d, w.isLive d = true ∧ w.Leans d c := by
  rcases hc with hpos | ⟨f, hf, _⟩ | ⟨d, hd, _⟩ | ⟨d, x, hx, hl, hr⟩ | ⟨s, y, hy, hl, hr⟩
  · exact .inl (.inl hpos)
  · rw [idle] at hf
    cases hf
  · rw [h.queue_none idle] at hd
    cases hd
  · obtain ⟨_, hopen, hp⟩ := (h.tidy.hold_iff hx).1 (hm.hold_of_refs h.tidy hx hr)
    exact .inr ⟨d, by simp [World.isLive, hx, hl], x, hx, hopen, hp⟩
  · left
    have hlive : w.isLiveSignal s = true := by simp [isLiveSignal, hy, hl]
    obtain ⟨⟨n, o⟩, he, hr⟩ := List.mem_flatMap.1 hr
    have hwaits : (n, o) ∈ w.observers (.signal s) := by simpa [observers, hy] using he
    cases o with
    | client label keeps => exact absurd hr (hm _ n label keeps c hwaits)
    | empty => cases hr
    | settleLink d =>
      cases List.mem_singleton.1 hr
      obtain ⟨x, hx, hlink, hunfired⟩ := h.waits_at_link.1 ⟨n, hwaits⟩
      exact .inr (.inl ⟨x, s, hx, hlink, hlive, hunfired⟩)
    | settleError d e result =>
      have hd : c = d := by simpa [Observer.refs] using hr
      subst hd
      exact .inr (.inr ⟨s, hlive, isFired_of_observers hwaits, _, hwaits, beq_self_eq_true c⟩)

/-- A context exists exactly as long as something needs it, or a younger one that leans on it. -/
theorem Modest.live_iff (hm : w.Modest) (h : w.Orderly t) (hk : w.Kept) (idle : w.stack = [])
    (c : ContextNo) : w.isLive c = true ↔ ∃ d, w.Anchored d ∧ Relation.ReflTransGen w.Leans d c := by
  constructor
  · intro hc
    -- children have greater numbers, of which there are only so many
    induction hn : w.contexts.size - c using Nat.strong_induction_on generalizing c with
    | _ n ih =>
      obtain ⟨x, hx, _⟩ := exists_of_isLive hc
      rcases hm.holds_cases h idle (hk.holds (r := .context c) hc) with hanchor | ⟨d, hd, hlean⟩
      · exact ⟨c, hanchor, .refl⟩
      · obtain ⟨y, hy, hopen, hp⟩ := hlean
        have hcd : c < d := h.lt_of_isChild ⟨y, hy, hp⟩
        have hfewer := Nat.sub_lt_sub_left (lt_of_getElem?_eq_some hx) hcd
        obtain ⟨a, hanchor, hpath⟩ := ih _ (hn ▸ hfewer) d hd rfl
        exact ⟨a, hanchor, hpath.tail ⟨y, hy, hopen, hp⟩⟩
  · rintro ⟨d, hanchor, hpath⟩
    induction hpath with
    | refl => exact h.anchored_live hanchor
    | tail _ hlean ih => exact h.tidy.leans_live hlean ih

/-! ## Telling parents -/

/-- A completion that fires leads to the parent being told, whoever else knows that. -/
theorem Orderly.climb_tells (h : w.Orderly t) {c : ContextNo} {q : List ContextNo} {x : Context}
    {rest : List Frame} (hs : w.stack = .climb :: rest) (hq : w.queue = some (c :: q))
    (hx : w.contexts[c]? = some x) : ∃ os, (w.move .advance).stack =
      .deliver (.completion c) false .done os os :: .told c x.parent :: .climb :: rest := by
  have hlive : w.isLive c = true := h.tidy.queue_live (by rw [hq]; exact List.mem_cons_self)
  obtain ⟨y, hy, hyl⟩ := exists_of_isLive hlive
  obtain rfl := Option.some.inj (hy.symm.trans hx)
  have hopen := h.head_open hq hy
  have hhold : y.hold = y.parent := by
    rw [(h.tidy.contexts c y hy).tether, hyl, completed_of_getElem? hy, hopen]
    rfl
  rw [stack_move]
  refine ⟨(w.observers (.completion c)).map Prod.snd, ?_⟩
  show w.shiftWork = _
  unfold shiftWork climbingFrames
  rw [hs, hq]
  dsimp only
  rw [firingFrames_eq (h.head_waits hq), hy, Option.bind_some, hhold]
  rfl

/-- Letting go changes no counter. -/
theorem slots_releaseAll {p : ContextNo} {x : Context} (hx : w.contexts[p]? = some x)
    (refs : List Ref) :
    ∃ y, (w.releaseAll refs).contexts[p]? = some y ∧ y.slots = x.slots := by
  have hacc : (w.releaseAll refs).ledger.accounts[p]? = some x.account := by
    rw [ledger_releaseAll]
    exact account_of hx
  rw [accounts_ledger] at hacc
  obtain ⟨y, hy, heq⟩ := Option.map_eq_some_iff.1 hacc
  exact ⟨y, hy, congrArg Account.slots heq⟩

/-- A parent gives up the slot that it kept for a child. It waits in the queue if that was its last. -/
theorem tellParent_of_release {c p : ContextNo} {x : Context} {last : Bool} {slots : Counter}
    {q : List ContextNo} (hx : w.contexts[p]? = some x) (hrel : x.slots.release = some (last, slots))
    (hq : w.queue = some q) :
    (∃ y, (w.tellParent c (some p)).contexts[p]? = some y ∧ y.slots = slots) ∧
      (last = true → p ∈ (w.tellParent c (some p)).queue.getD []) := by
  have hget : (w.modifyContext p fun x => { x with slots := slots }).contexts[p]? =
      some { x with slots := slots } := by
    rw [getElem?_modifyContext, if_pos rfl, hx]
    rfl
  simp only [World.tellParent, hx, Option.bind_some, hrel]
  cases last with
  | false =>
    simp only [Bool.false_eq_true, if_false]
    exact ⟨slots_releaseAll (x := { x with slots := slots }) (by exact hget) _,
      fun hlast => by cases hlast⟩
  | true =>
    simp only [if_true]
    refine ⟨slots_releaseAll (x := { x with slots := slots }) (by exact hget) _, fun _ => ?_⟩
    simp [hq]

/-- A parent that is told exists, and so it does while it waits in the queue. -/
theorem Orderly.told_parent (h : w.Orderly t) {c p : ContextNo} {rest : List Frame}
    (hs : w.stack = .told c (some p) :: rest) : w.isLive p = true ∧
      ∃ x, w.contexts[p]? = some x ∧ (t.strict = true → x.slots.release ≠ none) ∧
        ∀ last slots, x.slots.release = some (last, slots) →
          (∃ y, (w.move .advance).contexts[p]? = some y ∧ y.slots = slots) ∧
            (last = true → p ∈ (w.move .advance).queue.getD [] ∧
              (w.move .advance).isLive p = true) := by
  have hlive : w.isLive p = true := by
    apply h.tidy.frame_live (f := .told c (some p)) (r := .context p)
    · rw [hs]
      exact List.mem_cons_self
    · simp [Frame.refs]
  obtain ⟨x, hx, _⟩ := exists_of_isLive hlive
  refine ⟨hlive, x, hx, fun ht hnone => h.release_ne_none hs ht (by rw [hx]; exact hnone), ?_⟩
  intro last slots hrel
  obtain ⟨q, hq⟩ := h.order.queue_of_told hs
  have hmove : w.move .advance = World.tellParent { w with stack := rest } c (some p) := by
    show w.advance = _
    unfold World.advance
    rw [hs]
  have hleft := tellParent_of_release (w := { w with stack := rest }) (c := c) hx hrel hq
  rw [← hmove] at hleft
  have hdue : (within t).allows w .advance = true := by
    simp [within, allows, keepsTo, isClientsTurn, hs, Frame.isClients]
  refine ⟨hleft.1, fun hlast => ⟨hleft.2 hlast, ?_⟩⟩
  exact (h.move hdue).tidy.queue_live (hleft.2 hlast)

/-! ## Lifetimes -/

/-- **Contexts live exactly as long as something needs them.** Clients fire no channel of a context, and
their observers hold no contexts. Then, of any world that a run reaches:
* when nothing is under way, a context exists if and only if steps from a child that is not complete to
  its parent lead to it from a context that a client holds, that was given a link which exists and has not
  fired, or whose error waits for a signal which exists and has not fired;
* a context refers to no other context than its parent, which is older, and only until it is complete;
* a context that is not complete finds its parent, whose id it knows;
* a completion that fires is followed by the telling of the parent;
* whoever held the parent, it exists when it is told, it gives up the slot kept for the child, and it
  waits in the queue if that was its last. There is a slot to give up if clients keep to strict terms. -/
theorem lives_while_needed {threshold : Log.Level} {moves : List Move}
    (h : ((within t).restrict fun _ m => m.isModest).legal (start threshold) moves = true)
    (hw : (within t).run (start threshold) moves = w) :
    (w.stack = [] → ∀ c, w.isLive c = true ↔
      ∃ d, w.Anchored d ∧ Relation.ReflTransGen w.Leans d c) ∧
    (∀ (c : ContextNo) (x : Context) (p : ContextNo), w.contexts[c]? = some x → .context p ∈ x.refs →
      x.parent = some p ∧ x.isComplete = false ∧ p < c) ∧
    (∀ (c : ContextNo) (x : Context) (p : ContextNo), w.contexts[c]? = some x → x.isLive = true →
      x.isComplete = false → x.parent = some p → w.parent? x = some p ∧ w.parentId? x = some (w.idOf p)) ∧
    (∀ (c : ContextNo) q (x : Context) rest, w.stack = .climb :: rest → w.queue = some (c :: q) →
      w.contexts[c]? = some x → ∃ os, (w.move .advance).stack =
        .deliver (.completion c) false .done os os :: .told c x.parent :: .climb :: rest) ∧
    ∀ c p rest, w.stack = .told c (some p) :: rest → w.isLive p = true ∧
      ∃ x, w.contexts[p]? = some x ∧ (t.strict = true → x.slots.release ≠ none) ∧
        ∀ last slots, x.slots.release = some (last, slots) →
          (∃ y, (w.move .advance).contexts[p]? = some y ∧ y.slots = slots) ∧
            (last = true → p ∈ (w.move .advance).queue.getD [] ∧
              (w.move .advance).isLive p = true) := by
  have hreach : w.Reachable t := ⟨threshold, moves, Machine.legal_of_restrict _ h, hw⟩
  have horderly := hreach.orderly
  have hmodest : w.Modest := by
    rw [← hw]
    refine ((within t).restrict fun _ m => m.isModest).invariant (P := Modest)
      (fun v m hv hm => hv.move (Bool.and_eq_true_iff.1 hm).2) ?_ h
    intro ch n label keeps c he
    cases ch <;> cases he
  refine ⟨fun idle => hmodest.live_iff horderly hreach.kept idle, ?_, ?_,
    fun c q x rest hs hq hx => horderly.climb_tells hs hq hx,
    fun c p rest hs => horderly.told_parent hs⟩
  · intro c x p hx hp
    have hhold := hmodest.hold_of_refs horderly.tidy hx hp
    obtain ⟨_, hopen, hparent⟩ := (horderly.tidy.hold_iff hx).1 hhold
    exact ⟨hparent, hopen, horderly.lt_of_isChild ⟨x, hx, hparent⟩⟩
  · intro c x p hx hl hopen hparent
    have hlean : w.isLive p = true :=
      horderly.tidy.leans_live ⟨x, hx, hopen, hparent⟩ (by simp [World.isLive, hx, hl])
    exact ⟨by simp [World.parent?, hparent, hlean], by simp [World.parentId?, hparent]⟩

/-- A root with a link, its child, and a grandchild whose error is given to a handler that returns a
signal. The client keeps the two signals, and none of the contexts. -/
def orphanMoves : List Move :=
  [.call (.makeSignal none), .advance,
    .call (.createRoot
      { origin := .bridge "a" "" (some 0), location := some ⟨"box", "a"⟩, link := some 0 }), .advance,
    .call (.createChild 0 (some ⟨"box", "b"⟩) none none), .advance,
    .call (.createChild 1 (some ⟨"box", "c"⟩) none none), .advance,
    .call (.makeSignal none), .advance, .call (.hold (.signal 1)),
    .call (.error 2 (some .outOfMemory)), .handled (.signal 1), .advance,
    .call (.drop (.context 0)), .call (.drop (.context 1)), .call (.drop (.context 2))]

theorem lives_while_needed_orphans : ∃ w : World,
    (within { matched := false, bounded := false }).run start orphanMoves = w ∧ w.stack = [] ∧
      (∀ c < 3, w.holders (.context c) = 0) ∧ w.isLive 0 = true ∧ w.isLive 1 = true ∧
        w.isLive 2 = true := by
  have legal : ((within { matched := false, bounded := false }).restrict
      fun _ m => m.isModest).legal start orphanMoves = true := by decide +kernel
  have idle : ((within { matched := false, bounded := false }).run start orphanMoves).stack = [] := by
    have hnone : ((within { matched := false, bounded := false }).run start orphanMoves).stack.isEmpty =
      true := by decide +kernel
    exact List.isEmpty_iff.1 hnone
  have hlive := (lives_while_needed legal rfl).1 idle
  -- the error of the grandchild still waits for its handler, and so all three are needed
  have anchored : ((within { matched := false, bounded := false }).run start orphanMoves).Anchored 2 :=
    .inr (.inr ⟨1, by decide +kernel, by decide +kernel, List.any_eq_true.1 (by decide +kernel)⟩)
  have leans : ∀ c < 2, ((within { matched := false, bounded := false }).run start
      orphanMoves).Leans (c + 1) c := by
    simp only [leans_iff]
    decide +kernel
  exact ⟨_, rfl, idle, by decide +kernel, (hlive 0).2 ⟨2, anchored,
    .tail (.tail .refl (leans 1 (by decide))) (leans 0 (by decide))⟩,
    (hlive 1).2 ⟨2, anchored, .tail .refl (leans 1 (by decide))⟩, (hlive 2).2 ⟨2, anchored, .refl⟩⟩

end World

end FanIn
