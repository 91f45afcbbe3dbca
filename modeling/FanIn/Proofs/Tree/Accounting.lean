import FanIn.Proofs.Tree.Refusal

/-!
# What the counter of a context counts

The counter of a context counts one for its own outcome until that has been delivered, one for its link
until that has been settled, one for each of its children until the completion of that has been told to it,
and its participants: as many as have joined and not left. A child that is not created after all holds a
slot for as long as it takes to give it up again, which is before anyone gets to see it.

This is so in every world, in the middle of whatever callbacks, as long as clients keep the balance of
participants; channels of contexts they may fire as they like. So no slot fails to be given up, a counter
that has come to zero stays there, and a child that is not created changes no counter.

Main statement: `counters_exact`.
-/

namespace FanIn

namespace Frame

/-- Whether a completion is being told in the frame. -/
def isTold : Frame → Bool
  | told .. => true
  | _ => false

/-- Whether the completion of a context is being told in the frame. -/
def tellsOf (d : ContextNo) : Frame → Bool
  | told e _ => e == d
  | _ => false

/-- Whether a context is to be told in the frame that a child of it is complete. -/
def tellsTo (c : ContextNo) : Frame → Bool
  | told _ p => p == some c
  | _ => false

/-- Whether a context gets back in the frame what it gave to a child that was not created. -/
def refunds (c : ContextNo) : Frame → Bool
  | giveUp d (.child _) => d == c
  | _ => false

end Frame

namespace World

/-- Whether a context has its outcome still to deliver: it is undecided, or it is decided and the work under
way or a signal is still to publish it, or it has been published and the slot kept for it is just about to
be given up. -/
def delivering (w : World) (c : ContextNo) : Bool := 0 < w.ledger.ownKept c

/-- Whether the link of a context has still to be settled: whatever settles it waits at its signal, or is
being notified. -/
def linking (w : World) (c : ContextNo) : Bool := 0 < w.ledger.linkDues c

/-- Whether a context has a child that it has not been told to be complete. The child has slots left, or
waits in the queue, or its completion is just being told. -/
def awaits (w : World) (c d : ContextNo) : Bool := (w.contexts[d]?).any fun x => x.parent == some c &&
  (x.slots.count != 0 || (w.queue.getD []).contains d || w.stack.any (Frame.tellsOf d))

/-- How many children of a context it has not been told to be complete. -/
def awaited (w : World) (c : ContextNo) : Nat := (List.range w.contexts.size).countP (w.awaits c)

/-- How many slots of a context are about to be given up because no child was created. -/
def refunded (w : World) (c : ContextNo) : Nat := w.stack.countP (Frame.refunds c)

end World

namespace Due

/-- Whether a context keeps a slot for it that it gave to a child. -/
def isChildOf (c : ContextNo) : Due → Bool
  | slot d (.child _) => d == c
  | _ => false

end Due

namespace Ledger

variable {L : Ledger}

/-- What is owed to a context is for its own work, for its link or for children. -/
theorem owed_eq (L : Ledger) (c : ContextNo) :
    L.owed c = L.ownDues c + L.linkDues c + L.dues.countP fun d => d.isChildOf c := by
  unfold owed ownDues linkDues
  induction L.dues using Multiset.induction_on with
  | empty => rfl
  | cons d s ih =>
    have hone : (if d.isOwedTo c = true then 1 else 0) = (if d.isOwnOf c = true then 1 else 0) +
        (if d.isLinkOf c = true then 1 else 0) + if d.isChildOf c = true then 1 else 0 := by
      cases d with
      | outcome e r => simp [Due.isOwnOf, Due.isLinkOf, Due.isChildOf]
      | slot e share => cases share <;> simp [Due.isOwnOf, Due.isLinkOf, Due.isChildOf]
    simp only [Multiset.countP_cons, ih, hone]
    omega

/-- A sum of ones counts. -/
theorem countP_range {α : Type} (p : α → Bool) (l : List α) :
    (l.map fun a => if p a then 1 else 0).sum = (List.range l.length).countP fun i => (l[i]?).any p := by
  induction l with
  | nil => rfl
  | cons a l ih =>
    rw [List.map_cons, List.sum_cons, ih, List.length_cons, List.range_succ_eq_map, List.countP_cons,
      List.countP_map, Nat.add_comm]
    rfl

/-- Who is counted for one reason or for another, but for one of them only. -/
theorem countP_or {α : Type} {p q r : α → Bool} {l : List α} (hor : ∀ a ∈ l, p a = (q a || r a))
    (hone : ∀ a ∈ l, ¬ (q a = true ∧ r a = true)) : l.countP p = l.countP q + l.countP r := by
  induction l with
  | nil => rfl
  | cons a l ih =>
    obtain ⟨ha, hl⟩ := List.forall_mem_cons.1 hor
    obtain ⟨ha', hl'⟩ := List.forall_mem_cons.1 hone
    rw [List.countP_cons, List.countP_cons, List.countP_cons, ih hl hl', ha]
    cases hq : q a <;> cases hr : r a <;> simp [hq, hr] at ha' ⊢ <;> omega

theorem openChildren_eq (L : Ledger) (c : ContextNo) : L.openChildren c =
    (List.range L.accounts.length).countP fun d => (L.accounts[d]?).any (isOpenChild c) :=
  countP_range (isOpenChild c) L.accounts

/-- What a counter counts, if it has not overflowed. -/
theorem Sound.count (h : L.Sound .both) {c : ContextNo} {a : Account} (hc : L.accounts[c]? = some a) :
    a.slots.count = L.ownKept c + L.linkDues c + ((L.dues.countP fun d => d.isChildOf c) +
      L.openChildren c) + L.guests c := by
  have hnonneg := (h.unstuck rfl).nonneg c a hc
  have hcount := ((h.balanced rfl).count c a hc).resolve_left (not_lt.2 hnonneg)
  have hstate := stateOf_of_getElem? hc
  rw [hcount]
  unfold weight ownKept
  rw [owed_eq, hstate]
  split <;> push_cast <;> omega

end Ledger

namespace World

open Ledger Stack

variable {L : Ledger} {w : World} {c : ContextNo}

/-! ## What the frames under way stand for -/

theorem countP_due (p : Due → Bool) (d : Due) :
    Multiset.countP (fun d => p d = true) {d} = if p d then 1 else 0 :=
  (Multiset.countP_cons _ d 0).trans (Nat.zero_add _)

/-- No observer stands for a child. -/
theorem isChildOf_observer {o : Observer} {d : Due} (hd : d ∈ o.dues) (c : ContextNo) :
    d.isChildOf c = false := by
  rcases Observer.cases_dues hd with ⟨c', rfl⟩ | ⟨c', r, rfl⟩ <;> rfl

/-- A frame stands for a child that has completed, or for one that was not created. -/
theorem isChildOf_frame (f : Frame) (c : ContextNo) : f.dues.countP (fun d => d.isChildOf c = true) =
    (if f.tellsTo c then 1 else 0) + if f.refunds c then 1 else 0 := by
  cases f with
  | deliver ch replay v todo spent =>
    refine Multiset.countP_eq_zero.2 fun d hd => ?_
    obtain ⟨o, _, hd⟩ := mem_sum_map.1 hd
    rw [isChildOf_observer hd]
    decide
  | told d p =>
    cases p with
    | none => rfl
    | some p => exact (countP_due _ _).trans (by simp [Frame.tellsTo, Frame.refunds, Due.isChildOf])
  | giveUp d share =>
    refine (countP_due _ _).trans ?_
    cases share <;> simp [Frame.tellsTo, Frame.refunds, Due.isChildOf]
  | handler n d e s => exact countP_due _ _
  | respond d r => exact countP_due _ _
  | answer d r => exact countP_due _ _
  | _ => rfl

/-- What is due to a context for children is due by the frames under way. -/
theorem childDues_eq (w : World) (c : ContextNo) : w.ledger.dues.countP (fun d => d.isChildOf c = true) =
    w.stack.countP (Frame.tellsTo c) + w.refunded c := by
  have hpledges : (w.ledger.pledges.map Pledge.dues).sum.countP (fun d => d.isChildOf c = true) = 0 := by
    refine Multiset.countP_eq_zero.2 fun d hd => ?_
    obtain ⟨p, hp, hd⟩ := mem_sum_map.1 hd
    obtain ⟨x, _, rfl⟩ := List.mem_map.1 hp
    obtain ⟨o, _, hd⟩ := mem_sum_map.1 hd
    rw [isChildOf_observer hd]
    decide
  have hframes : ∀ l : List Frame, (l.map Frame.dues).sum.countP (fun d => d.isChildOf c = true) =
      l.countP (Frame.tellsTo c) + l.countP (Frame.refunds c) := by
    intro l
    induction l with
    | nil => rfl
    | cons f l ih =>
      rw [List.map_cons, List.sum_cons, Multiset.countP_add, isChildOf_frame, ih, List.countP_cons,
        List.countP_cons]
      omega
  unfold Ledger.dues
  rw [Multiset.countP_add, hpledges, Nat.zero_add]
  exact hframes w.stack

/-- Every completion that is being told is told by a frame that climbs. -/
theorem told_le_climbers {stack : List Frame} (h : Leaned stack) :
    stack.countP Frame.isTold ≤ climbers stack ∧
      ∀ below, stack = .climb :: below → stack.countP Frame.isTold + 1 ≤ climbers stack := by
  induction stack with
  | nil => exact ⟨Nat.le_refl 0, nofun⟩
  | cons f rest ih =>
    obtain ⟨hle, hclimb⟩ := ih h.2
    have hcons : climbers (f :: rest) = climbers rest + if f.isClimb then 1 else 0 := List.countP_cons
    constructor
    · rw [List.countP_cons, hcons]
      cases f with
      | told c p =>
        obtain ⟨below, rfl⟩ := h.1
        exact hclimb below rfl
      | _ => exact Nat.le_trans hle (Nat.le_add_right _ _)
    · rintro below hs
      obtain ⟨rfl, -⟩ := List.cons.inj hs
      rw [List.countP_cons, hcons]
      exact Nat.succ_le_succ hle

/-- One completion is told at a time. -/
theorem Reckoned.told_le_one (h : Reckoned L w) : w.stack.countP Frame.isTold ≤ 1 := by
  have hrungs : rungs w.queue ≤ 1 := by
    cases w.queue <;> simp [rungs]
  have hclimbs : climbers w.stack = rungs w.queue := h.climbs
  rcases h.footed with hleaned | ⟨f, rest, hs, hf, hleaned⟩
  · exact Nat.le_trans (told_le_climbers hleaned).1 (hclimbs ▸ hrungs)
  · rw [hs] at hclimbs ⊢
    cases f with
    | giveUp c share =>
      exact Nat.le_trans (told_le_climbers hleaned).1 (Nat.le_trans (Nat.le_of_eq hclimbs) hrungs)
    | _ => cases hf

/-! ## Children -/

/-- By the books, what a context has not been told of is complete unless it has slots left or waits in the
queue. -/
theorem Reckoned.isOpenChild_iff (h : Reckoned L w) {d : ContextNo} {x : Context} {a : Account}
    (ha : L.accounts[d]? = some a) (hab : a.bare = x.account.bare) :
    isOpenChild c a = (x.parent == some c && (x.slots.count != 0 || (w.queue.getD []).contains d)) := by
  have hslots : a.slots = x.slots := Account.slots_of_bare hab
  have hparent : a.parent = x.parent := Account.parent_of_bare hab
  have hopen : a.isComplete = false ↔ x.slots.count ≠ 0 ∨ d ∈ w.queue.getD [] := by
    rw [← hslots, ← h.queue]
    constructor
    · intro hopen
      by_cases hzero : a.slots.count = 0
      · refine .inr (((h.sound.unstuck rfl).drained d a ha hzero).resolve_left ?_)
        rw [hopen]
        exact Bool.false_ne_true
      · exact .inl hzero
    · rintro (hcount | hqueue)
      · refine Bool.eq_false_iff.2 fun hcomp => hcount ?_
        exact h.sound.sane.complete d a ha hcomp
      · obtain ⟨b, hb, -, hopen⟩ := h.sound.sane.queued d hqueue
        obtain rfl := Option.some.inj (hb.symm.trans ha)
        exact hopen
  unfold isOpenChild
  rw [hparent]
  cases x.parent == some c with
  | false => rfl
  | true =>
    rw [Bool.true_and, Bool.true_and, Bool.eq_iff_iff]
    simpa using hopen

/-- A child that a context is just being told of, counted among all contexts or among the frames. -/
theorem Reckoned.countP_told (h : Reckoned L w) (c : ContextNo) :
    ((List.range w.contexts.size).countP fun d =>
      (w.contexts[d]?).any (fun x => x.parent == some c) && w.stack.any (Frame.tellsOf d)) =
    w.stack.countP (Frame.tellsTo c) := by
  have hany : ∀ d, w.stack.any (Frame.tellsOf d) = (w.stack.filter Frame.isTold).any (Frame.tellsOf d) := by
    intro d
    rw [List.any_filter]
    congr 1
    funext f
    cases f <;> rfl
  have hcount : w.stack.countP (Frame.tellsTo c) =
      (w.stack.filter Frame.isTold).countP (Frame.tellsTo c) := by
    rw [List.countP_filter]
    congr 1
    funext f
    cases f <;> simp [Frame.tellsTo, Frame.isTold]
  have hone := h.told_le_one
  rw [List.countP_eq_length_filter] at hone
  simp only [hany, hcount]
  match hl : w.stack.filter Frame.isTold, hone with
  | [], _ => simp
  | [f], _ =>
    obtain ⟨hmem, hf⟩ := List.mem_filter.1 (hl ▸ List.mem_singleton_self f : f ∈ w.stack.filter Frame.isTold)
    cases f with
    | told d p =>
      obtain ⟨⟨x, hx, rfl⟩, -⟩ := h.tidy.frames _ hmem
      have hlt : d < w.contexts.size := lt_of_getElem?_eq_some hx
      have hhits : ((List.range w.contexts.size).countP fun e =>
          (w.contexts[e]?).any (fun x => x.parent == some c) && [Frame.told d x.parent].any (Frame.tellsOf e)) =
          (List.range w.contexts.size).countP fun e => e == d && x.parent == some c := by
        refine List.countP_congr fun e _ => ?_
        by_cases hed : d = e
        · subst hed
          simp [Frame.tellsOf, hx]
        · simp [Frame.tellsOf, hed, Ne.symm hed]
      rw [hhits]
      cases hp : x.parent == some c with
      | false => simp [Frame.tellsTo, hp]
      | true =>
        have honce : (List.range w.contexts.size).count d = 1 :=
          List.count_eq_one_of_mem List.nodup_range (List.mem_range.2 hlt)
        simpa [Frame.tellsTo, hp, List.count] using honce
    | _ => cases hf
  | _ :: _ :: _, hone => exact absurd hone (by simp)

/-- The children that a context has not been told of are those not complete, and the one it is just being
told of. -/
theorem Reckoned.awaited_eq (h : Reckoned L w) (c : ContextNo) :
    w.awaited c = L.openChildren c + w.stack.countP (Frame.tellsTo c) := by
  have hawaits : ∀ d ∈ List.range w.contexts.size,
      w.awaits c d = ((L.accounts[d]?).any (isOpenChild c) ||
        ((w.contexts[d]?).any (fun x => x.parent == some c) && w.stack.any (Frame.tellsOf d))) ∧
      ¬ ((L.accounts[d]?).any (isOpenChild c) = true ∧
        ((w.contexts[d]?).any (fun x => x.parent == some c) && w.stack.any (Frame.tellsOf d)) = true) := by
    intro d hd
    have hlt : d < w.contexts.size := List.mem_range.1 hd
    have hx : w.contexts[d]? = some w.contexts[d] := Array.getElem?_eq_getElem hlt
    obtain ⟨a, ha, hab⟩ := h.account hx
    have hopen := h.isOpenChild_iff (c := c) ha hab
    unfold awaits
    rw [hx, ha]
    simp only [Option.any_some]
    constructor
    · rw [hopen, ← Bool.and_or_distrib_left]
    · rintro ⟨hchild, htold⟩
      -- what is being told is complete by the books
      obtain ⟨f, hf, hof⟩ := List.any_eq_true.1 (Bool.and_eq_true_iff.1 htold).2
      cases f with
      | told e p =>
        obtain rfl := beq_iff_eq.1 hof
        have hcomp := (told_of_getElem? ha).symm.trans (h.announced e p hf)
        simp [isOpenChild, hcomp] at hchild
      | _ => cases hof
  rw [openChildren_eq, ← h.countP_told c, h.length]
  exact countP_or (fun d hd => (hawaits d hd).1) fun d hd => (hawaits d hd).2

/-! ## What counters count -/

/-- What the counter of a context counts. -/
theorem Reckoned.count (h : Reckoned L w) {x : Context} (hx : w.contexts[c]? = some x) :
    x.slots.count = (if w.delivering c then 1 else 0) + (if w.linking c then 1 else 0) + w.awaited c +
      w.refunded c + ((w.joins c : Int) - w.leaves c) := by
  obtain ⟨a, ha, hab⟩ := h.account hx
  have hcount := h.sound.count ha
  have hown : L.ownKept c = w.ledger.ownKept c := by
    refine ownKept_congr ?_ (dues_of_bare h.books)
    rw [stateOf_of_getElem? ha, stateOf_of_getElem? (account_of hx)]
    exact Account.state_of_bare hab
  have hlink : L.linkDues c = w.ledger.linkDues c := linkDues_congr (dues_of_bare h.books)
  have honce : L.linkDues c ≤ 1 := by
    have hle := h.links c a ha
    split at hle <;> omega
  have hguests : L.guests c = (w.joins c : Int) - w.leaves c := congrFun (guests_of_bare h.books) c
  have hchildren := h.awaited_eq c
  have hdelivering : (if w.delivering c then (1 : Int) else 0) = L.ownKept c := by
    have hle := h.own c
    unfold delivering
    rw [← hown]
    simp only [decide_eq_true_eq]
    split <;> omega
  have hlinking : (if w.linking c then (1 : Int) else 0) = L.linkDues c := by
    unfold linking
    rw [← hlink]
    simp only [decide_eq_true_eq]
    split <;> omega
  rw [dues_of_bare h.books, childDues_eq, Account.slots_of_bare hab] at hcount
  have hcount : x.slots.count = _ := hcount
  rw [hcount, hdelivering, hlinking, hchildren, hguests]
  push_cast
  omega

/-- On the client's turn no slot is about to be given up. -/
theorem Reckoned.refunded_eq_zero (h : Reckoned L w) (hturn : w.isClientsTurn = true) (c : ContextNo) :
    w.refunded c = 0 := by
  have hclients := clients_of_turn hturn
  refine List.countP_eq_zero.2 fun f hf => ?_
  cases f with
  | giveUp d share =>
    obtain ⟨above, below, hs⟩ := List.append_of_mem hf
    have hleaned := h.footed.of_clients hclients
    rw [hs] at hleaned
    rcases hleaned.of_append.1.1 with rfl | rfl <;> exact Bool.false_ne_true
  | _ => exact Bool.false_ne_true

/-- Only a context that was created with a link keeps a slot for one, and it does so until the signal
fires. -/
theorem Reckoned.linking_iff (h : Reckoned L w) {x : Context} (hx : w.contexts[c]? = some x) :
    (w.linking c = true → x.link.isSome = true) ∧
      ∀ s, x.link = some s → w.isFired (.signal s) = false → w.linking c = true := by
  obtain ⟨a, ha, hab⟩ := h.account hx
  have hlink : a.link = x.link := Account.link_of_bare hab
  have hdues : L.linkDues c = w.ledger.linkDues c := linkDues_congr (dues_of_bare h.books)
  unfold linking
  rw [← hdues]
  constructor
  · intro hpos
    have hle := h.links c a ha
    rw [hlink] at hle
    by_contra hnone
    rw [if_neg hnone] at hle
    exact absurd (of_decide_eq_true hpos) (Nat.not_lt.2 hle)
  · intro s hs hopen
    obtain ⟨p, hp, hor⟩ := h.pledged.links c a s ha (hlink.trans hs)
    have hmem : .slot c .link ∈ p.dues := by
      refine hor.resolve_left fun hfired => ?_
      rw [pledges_of_bare h.books, pledges_ledger] at hp
      obtain ⟨y, hy, rfl⟩ := Option.map_eq_some_iff.1 hp
      have hvalue : y.channel.isFired = true := hfired
      have hnot : w.isFired (.signal s) = y.channel.isFired := by
        unfold isFired value? Channel.isFired
        simp [hy]
      rw [hopen, hvalue] at hnot
      cases hnot
    have hdue : Due.slot c .link ∈ L.dues :=
      Multiset.mem_add.2 (.inl (mem_sum_map.2 ⟨p, List.mem_of_getElem? hp, hmem⟩))
    exact decide_eq_true (Multiset.countP_pos.2 ⟨_, hdue, by simp [Due.isLinkOf]⟩)

/-- A context whose outcome is undecided has it still to deliver. -/
theorem delivering_of_pending {x : Context} (hx : w.contexts[c]? = some x) (hs : x.state = .pending) :
    w.delivering c = true := by
  have hstate : w.ledger.stateOf c = .pending := (stateOf_of_getElem? (account_of hx)).trans hs
  unfold delivering ownKept
  rw [if_pos hstate]
  exact decide_eq_true (Nat.lt_of_lt_of_le Nat.zero_lt_one (Nat.le_add_right _ _))

/-! ## Counters at zero -/

theorem Reckoned.counter?_eq (h : Reckoned L w) (c : ContextNo) : w.counter? c = L.counter? c := by
  unfold World.counter? Ledger.counter?
  cases hx : w.contexts[c]? with
  | none =>
    have hlen : L.accounts.length ≤ c := h.length ▸ Array.getElem?_eq_none_iff.1 hx
    rw [List.getElem?_eq_none hlen]
    rfl
  | some x =>
    obtain ⟨a, ha, hab⟩ := h.account hx
    rw [ha]
    exact congrArg some (Account.slots_of_bare hab).symm

/-- A counter that has come to zero stays as it is. -/
theorem Reckoned.zero_for_good (h : Reckoned L w) {k : Counter} (hc : w.counter? c = some k)
    (hk : k.count = 0) {more : List Move} (hmore : paced.legal w more = true) :
    (paced.run w more).counter? c = some k := by
  have hboth := paced.invariant (P := fun v => v.counter? c = some k ∧ ∃ K, Reckoned K v)
    (fun v m hv hm => by
      obtain ⟨hc, K, hK⟩ := hv
      obtain ⟨K', hK', hsteps, -⟩ := hK.move hm
      refine ⟨?_, K', hK'⟩
      rw [hK.counter?_eq] at hc
      show (v.move m).counter? c = some k
      rw [hK'.counter?_eq]
      exact hsteps.closed hc (Int.le_of_eq hk))
    ⟨hc, L, h⟩ hmore
  exact hboth.1

/-- Who is complete has been told by the library, if no client has fired the completion. -/
theorem told_of_complete {threshold : Log.Level} {moves : List Move}
    (h : paced.legal (start threshold) moves = true) (c : ContextNo) :
    ∃ L, Reckoned L (paced.run (start threshold) moves) ∧
      ((paced.run (start threshold) moves).completed c = true →
        .call (.fireCompletion c) ∈ moves ∨ L.told c = true) := by
  refine paced.run_induction (P := fun moves w => ∃ L, Reckoned L w ∧
    (w.completed c = true → .call (.fireCompletion c) ∈ moves ∨ L.told c = true))
    ⟨{}, reckoned_start threshold, fun hcomp => nomatch hcomp⟩ ?_ h
  rintro moves m ⟨L, hL, ih⟩ hm
  obtain ⟨L', hL', -, htold⟩ := hL.move hm
  refine ⟨L', hL', fun hcomp => ?_⟩
  rw [htold, toldAfter_eq_true]
  rcases completed_of_move hcomp with hold | hclimb | rfl
  · rcases ih hold with hmem | htold
    · exact .inl (List.mem_append_left _ hmem)
    · exact .inr (.inl htold)
  · exact .inr (.inr hclimb)
  · exact .inl (List.mem_append_right _ (List.mem_singleton_self _))

/-- A complete context has nothing left to wait for, unless a client has fired its completion. -/
theorem count_of_complete {threshold : Log.Level} {moves : List Move}
    (h : paced.legal (start threshold) moves = true) {x : Context}
    (hx : (paced.run (start threshold) moves).contexts[c]? = some x) (hcomp : x.isComplete = true)
    (hnot : .call (.fireCompletion c) ∉ moves) : x.slots.count = 0 := by
  obtain ⟨L, hL, htold⟩ := told_of_complete h c
  obtain ⟨a, ha, hab⟩ := hL.account hx
  have htold := (htold ((completed_of_getElem? hx).trans hcomp)).resolve_left hnot
  rw [told_of_getElem? ha] at htold
  have hslots : a.slots = x.slots := Account.slots_of_bare hab
  rw [← hslots]
  exact hL.sound.sane.complete c a ha htold

/-! ## All of it -/

/-- **What a counter counts, at every moment.** As long as clients keep the balance of participants, whatever
channels they fire and however their callbacks nest: the counter of a context is one for its own outcome if
that has not been delivered, one for its link if that has not been settled, the number of its children that
it has not been told to be complete, the number of participants that have joined it and not left, and, only
while the creation of a child is failing, the slot for that child. So no slot ever fails to be given up, and
no call fails for that; a counter that has come to zero, as that of every context has whose completion the
library and not a client has fired, is zero for good; and a child that is not created leaves all counters as
they were. -/
theorem counters_exact {threshold : Log.Level} {moves : List Move}
    (h : paced.legal (start threshold) moves = true) {w : World}
    (hw : paced.run (start threshold) moves = w) :
    (∀ (c : ContextNo) (x : Context), w.contexts[c]? = some x →
      x.slots.count = (if w.delivering c then 1 else 0) + (if w.linking c then 1 else 0) + w.awaited c +
        w.refunded c + ((w.joins c : Int) - w.leaves c) ∧
      (x.state = .pending → w.delivering c = true) ∧
      (w.linking c = true → x.link.isSome = true) ∧
      (∀ s, x.link = some s → w.isFired (.signal s) = false → w.linking c = true) ∧
      (x.isComplete = true → .call (.fireCompletion c) ∉ moves → x.slots.count = 0) ∧
      (x.slots.count = 0 → ∀ more, paced.legal w more = true →
        (paced.run w more).counter? c = some x.slots)) ∧
    (w.isClientsTurn = true → ∀ c, w.refunded c = 0) ∧
    w.fails = false ∧ (∀ f, w.reply = .error f → f.isOverRelease = false) ∧
    ∀ (parent : ContextNo) (location : Option Location) (handler : Option Nat)
      (correlation : Option String),
      paced.allows w (.call (.createChild parent location handler correlation)) = true →
      ∃ n, let v := advance^[n] (w.call (.createChild parent location handler correlation))
        (∀ k < n, (advance^[k] (w.call (.createChild parent location handler correlation))).isClientsTurn =
          false) ∧ v.stack = w.stack ∧
        (v.reply = .ok (.context w.contexts.size) ∨
          (∃ f, v.reply = .error f) ∧ ∀ d, v.counter? d = w.counter? d) := by
  subst hw
  obtain ⟨L, hL⟩ := exists_reckoned h
  refine ⟨fun c x hx => ?_, hL.refunded_eq_zero, hL.sure, (sober_of_legal h).reply,
    fun parent location handler correlation hm => hL.createChild_or_unchanged hm⟩
  have hlinking := hL.linking_iff hx
  refine ⟨hL.count hx, delivering_of_pending hx, hlinking.1, hlinking.2, count_of_complete h hx, ?_⟩
  intro hzero more hmore
  refine hL.zero_for_good ?_ hzero hmore
  unfold counter?
  rw [hx]
  rfl

/-- A root with a link and a participant has a child that completes, and an observer of that runs, which
fires the completion of the root. -/
def tallyingMoves : List Move :=
  [Move.call (.makeSignal none), .advance,
    .call (.createRoot
      { origin := .bridge "a" "" (some 0), location := some ⟨"box", "a"⟩, link := some 0 }), .advance,
    .call (.addChild 0), .call (.createChild 0 (some ⟨"box", "b"⟩) none none), .advance,
    .call (.subscribe (.completion 1) (some 7) []), .call (.success 1 none)] ++
    List.replicate 7 Move.advance ++ [Move.call (.fireCompletion 0), .advance, .advance]

theorem counters_exact_tallying :
    ∃ w : World, paced.run start tallyingMoves = w ∧ w.isClientsTurn = true ∧ w.stack ≠ [] ∧
      ∃ x, w.contexts[0]? = some x ∧ x.isComplete = true ∧ w.delivering 0 = true ∧ w.linking 0 = true ∧
        w.awaited 0 = 1 ∧ x.slots.count = 4 ∧ x.slots.count = (if w.delivering 0 then 1 else 0) +
          (if w.linking 0 then 1 else 0) + w.awaited 0 + w.refunded 0 + ((w.joins 0 : Int) - w.leaves 0) := by
  have legal : paced.legal start tallyingMoves = true := by decide +kernel
  have running : (paced.run start tallyingMoves).isClientsTurn = true := by decide +kernel
  have busy : (paced.run start tallyingMoves).stack.isEmpty = false := by decide +kernel
  have counted : ((paced.run start tallyingMoves).contexts[0]?.any fun x =>
      x.isComplete && x.state == .pending && x.link == some 0 && x.slots.count == 4) = true := by
    decide +kernel
  have unsettled : (paced.run start tallyingMoves).isFired (.signal 0) = false := by decide +kernel
  have awaited : (paced.run start tallyingMoves).awaited 0 = 1 := by decide +kernel
  obtain ⟨x, hx, hcount⟩ := Option.any_eq_true _ _ |>.1 counted
  simp only [Bool.and_eq_true, beq_iff_eq] at hcount
  obtain ⟨⟨⟨hcomp, hstate⟩, hlink⟩, hfour⟩ := hcount
  obtain ⟨hexact, hdelivering, -, hlinking, -⟩ := (counters_exact legal rfl).1 0 x hx
  exact ⟨_, rfl, running, List.isEmpty_eq_false_iff.1 busy, x, hx, hcomp, hdelivering hstate,
    hlinking 0 hlink unsettled, awaited, hfour, hexact⟩

/-- A client fires the completion of a root, which then succeeds. -/
def earlyMoves : List Move :=
  [.call (.createRoot { origin := .bridge "a" "" (some 0), location := some ⟨"box", "a"⟩ }), .advance,
    .call (.fireCompletion 0), .advance, .advance]

/-- The counter of a context counts on after a client has fired its completion. -/
theorem counts_on_after_fired :
    ¬ ∀ (moves more : List Move) (c : ContextNo) (x : Context),
      paced.legal start (moves ++ more) = true → (paced.run start moves).contexts[c]? = some x →
        x.isComplete = true → (paced.run start (moves ++ more)).counter? c = some x.slots := by
  intro h
  have legal : paced.legal start
      (earlyMoves ++ .call (.success 0 none) :: List.replicate 5 .advance) = true := by
    decide +kernel
  have before : ((paced.run start earlyMoves).contexts[0]?.any fun x =>
      x.isComplete && x.slots.count == 1) = true := by decide +kernel
  have after : ((paced.run start (earlyMoves ++ .call (.success 0 none) ::
      List.replicate 5 .advance)).counter? 0).any (fun k => k.count == 0) = true := by decide +kernel
  obtain ⟨x, hx, hone⟩ := Option.any_eq_true _ _ |>.1 before
  simp only [Bool.and_eq_true, beq_iff_eq] at hone
  rw [h _ _ 0 x legal hx hone.1] at after
  have hzero : x.slots.count = 0 := by simpa using after
  omega

end World

end FanIn
