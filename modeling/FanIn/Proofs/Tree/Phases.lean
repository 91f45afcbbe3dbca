import FanIn.Proofs.Tree.Overflow
import FanIn.Proofs.Tree.Publication
import FanIn.Proofs.Tree.Shares
import FanIn.Proofs.Tree.Verdict

/-!
# The phases of a context

A context whose outcome is decided tells it on its first channel, then on its second, then gives up the
slot for its own work, and only after that can its completion be told. Each of these is over before the
next begins: no one who had registered at a channel is notified of it once the next phase has come.

What is behind this is the slot for the context's own work. It is kept until it is given up, which is
after both channels have told the outcome, and it is given up once.

Main statement: `phases_in_order`.
-/

namespace FanIn

/-- What a context goes through. -/
inductive Phase where
  | before
  | response
  | release
  | completion
  deriving DecidableEq

/-- Whether a context gives up the slot for its own work. -/
def Event.releases (c : ContextNo) : Event → Bool
  | left d share => d == c && share == .own
  | _ => false

theorem Event.eq_of_releases {c : ContextNo} {e : Event} (h : e.releases c = true) :
    e = .left c .own := by
  cases e with
  | left d share =>
    obtain ⟨hd, hshare⟩ := Bool.and_eq_true_iff.1 h
    rw [beq_iff_eq.1 hd, beq_iff_eq.1 hshare]
  | _ => cases h

namespace Phase

/-- The phases in their order. -/
def rank : Phase → Nat
  | before => 0
  | response => 1
  | release => 2
  | completion => 3

/-- The channel that tells of a phase. -/
def channel? (c : ContextNo) : Phase → Option ChannelRef
  | before => some (.before c)
  | response => some (.response c)
  | release => none
  | completion => some (.completion c)

/-- Whether an event is part of a phase: the channel fires, or tells one of those that had registered. -/
def includes (c : ContextNo) (p : Phase) (e : Event) : Bool :=
  (p.channel? c).elim (e.releases c) e.announces

/-- Whether an event shows that a phase has come: the channel may also tell one that comes late. -/
def shows (c : ContextNo) (p : Phase) (e : Event) : Bool :=
  (p.channel? c).elim (e.releases c) e.tells

/-- Whether a frame is there for a phase: it notifies those that had registered at the channel, or gives
up the slot. -/
def occupies (c : ContextNo) (p : Phase) (f : Frame) : Bool :=
  match p.channel? c, f with
  | some ch, f => f.delivers ch
  | none, .giveUp d share => d == c && share == .own
  | none, _ => false

variable {c : ContextNo} {p q : Phase} {e : Event}

theorem channel?_inj {ch : ChannelRef} (hp : p.channel? c = some ch) (hq : q.channel? c = some ch) :
    p = q := by
  cases p <;> cases hp <;> cases q <;> first | rfl | cases hq

theorem eq_release (h : p.channel? c = none) : p = .release := by
  cases p <;> first | rfl | cases h

theorem shows_of_includes (h : p.includes c e = true) : p.shows c e = true := by
  unfold includes at h
  unfold shows
  cases hch : p.channel? c with
  | none =>
    rw [hch] at h
    exact h
  | some ch =>
    rw [hch] at h
    exact Event.tells_of_announces h

/-- What a context does is noted. -/
theorem isNotable_of_shows (h : p.shows c e = true) : e.isNotable = true := by
  unfold shows at h
  cases hch : p.channel? c with
  | none =>
    rw [hch] at h
    rw [Event.eq_of_releases h]
    rfl
  | some ch =>
    rw [hch] at h
    cases e <;> first | rfl | cases h

/-- An event shows one phase. -/
theorem shows_inj (hp : p.shows c e = true) (hq : q.shows c e = true) : p = q := by
  unfold shows at hp hq
  cases hp' : p.channel? c with
  | none =>
    cases hq' : q.channel? c with
    | none => rw [eq_release hp', eq_release hq']
    | some ch =>
      rw [hp'] at hp
      rw [hq', Event.eq_of_releases hp] at hq
      cases hq
  | some ch =>
    rw [hp'] at hp
    cases hq' : q.channel? c with
    | none =>
      rw [hq'] at hq
      rw [Event.eq_of_releases hq] at hp
      cases hp
    | some ch' =>
      rw [hq'] at hq
      obtain rfl := Event.tells_inj hp hq
      exact channel?_inj hp' hq'

end Phase

namespace Ledger

variable {L : Ledger}

/-- Giving up a slot that is due takes it off what is kept, and nothing else. -/
theorem ownKept_handBack (L : Ledger) (d : ContextNo) (share : Share) (o : Option (Bool × Counter))
    (c : ContextNo) : (L.handBack d share o).ownKept c = L.ownKept c := by
  cases o with
  | none => rfl
  | some r => exact ownKept_release L d share r.2 r.1 c

end Ledger

namespace World

open Stack

variable {t : Terms} {w : World} {m : Move} {c : ContextNo} {p q : Phase} {e : Event}

/-- Whether a phase has come. -/
def Reached (w : World) (c : ContextNo) (p : Phase) : Prop :=
  (p.channel? c).elim (.left c .own ∈ w.chronicle) fun ch => w.isFired ch = true

/-! ## The slot for a context's own work -/

/-- What is due by a frame of the stack is kept. -/
theorem ownKept_pos {f : Frame} (hf : f ∈ w.stack) {d : Due} (hd : d ∈ f.dues)
    (hown : d.isOwnOf c = true) : 0 < w.ledger.ownKept c := by
  have hdue : d ∈ w.ledger.dues := Multiset.mem_add.2 (.inr (mem_sum_map.2 ⟨f, hf, hd⟩))
  have hpos : 0 < w.ledger.ownDues c := Multiset.countP_pos.2 ⟨d, hdue, hown⟩
  exact Nat.lt_of_lt_of_le hpos (Nat.le_add_left _ _)

/-- A context keeps at most one slot for its own work. -/
theorem Reachable.ownKept_le_one (h : w.Reachable t) (c : ContextNo) : w.ledger.ownKept c ≤ 1 :=
  h.keeps (P := fun w => w.ledger.ownKept c ≤ 1) (fun _ => Nat.le_refl 1) fun _ _ hv hm ih =>
    Nat.le_trans ((hv.steps hm).ownKept_le c) ih

/-- When that slot is given up, there is one less. -/
theorem Orderly.ownKept_giveUp (h : w.Orderly t) {rest : List Frame}
    (hs : w.stack = .giveUp c .own :: rest) :
    (w.move .advance).ledger.ownKept c + 1 = w.ledger.ownKept c := by
  obtain ⟨x, hx, _⟩ := exists_of_isLive (h.order.live_of_giveUp h.tidy hs)
  have hmove : w.move .advance = World.giveUpSlot { w with stack := rest } c .own := by
    show w.advance = _
    unfold World.advance
    rw [hs]
  rw [hmove, ledger_giveUpSlot (w := { w with stack := rest }) hx, Ledger.ownKept_handBack,
    ledger_pop_owe (f := .giveUp c .own) hs rfl, Ledger.ownKept_owe]
  simp [Due.isOwnOf]

/-- Once it has been given up, there is none. -/
theorem Reachable.ownKept_of_left (h : w.Reachable t) (hleft : .left c .own ∈ w.chronicle) :
    w.ledger.ownKept c = 0 := by
  refine h.induction (P := fun w => .left c .own ∈ w.chronicle → w.ledger.ownKept c = 0)
    (fun _ hleft => nomatch hleft) ?_ hleft
  intro v m hv hm ih hleft
  rw [chronicle_move] at hleft
  rcases List.mem_append.1 hleft with hold | hnew
  · have hle := (hv.orderly.steps hm).ownKept_le c
    rw [ih hold] at hle
    exact Nat.le_zero.1 hle
  · obtain ⟨rest, hs⟩ := own_of_left hm hnew
    obtain rfl := eq_advance hm hs rfl
    have hgive := hv.orderly.ownKept_giveUp hs
    have hone := hv.ownKept_le_one c
    omega

/-- A slot that is about to be given up is owed. -/
theorem owed_of_giveUp {share : Share} (hmem : .giveUp c share ∈ w.stack)
    (hshare : share ≠ .participant) : 0 < w.ledger.owed c := by
  have hdue : Due.slot c share ∈ w.ledger.dues :=
    Multiset.mem_add.2 (.inr (mem_sum_map.2 ⟨_, hmem, Multiset.mem_singleton_self _⟩))
  exact Multiset.countP_pos.2 ⟨_, hdue, by simp [Due.isOwedTo, hshare]⟩

/-- Once an outcome has been told on both channels, the slot is about to be given up, or has been, or
the counter of its context has run over. -/
theorem Reachable.own_of_response (h : w.Reachable t) (ht : t.matched = true)
    (hfired : w.isFired (.response c) = true) : .giveUp c .own ∈ w.stack ∨
      .left c .own ∈ w.chronicle ∨ w.ledger.Overflowed c := by
  refine h.induction (P := fun w => w.isFired (.response c) = true → .giveUp c .own ∈ w.stack ∨
      .left c .own ∈ w.chronicle ∨ w.ledger.Overflowed c)
    (fun _ hfired => nomatch hfired) ?_ hfired
  intro v m hv hm ih hfired
  rcases response_of_move hm hfired with ⟨r, hr⟩ | hold
  · -- the frame that tells the outcome becomes the one that gives up the slot
    rcases hv.orderly.stays hr rfl rfl m with hstays | ⟨rest, hs⟩
    · have hopen := ((hv.move hm).orderly.of_untold hstays
        (Frame.untold_pos (Multiset.mem_singleton_self _))).1
      cases hopen.symm.trans hfired
    · obtain rfl := eq_advance hm hs rfl
      left
      rw [stack_move]
      simp [shift, shiftWork, hs]
  · rcases ih hold with hmem | hleft | hover
    · rcases hv.orderly.stays hmem rfl rfl m with hstays | ⟨rest, hs⟩
      · exact .inl hstays
      · obtain rfl := eq_advance hm hs rfl
        obtain ⟨x, hx, _⟩ := exists_of_isLive (hv.orderly.order.live_of_giveUp hv.orderly.tidy hs)
        cases hrel : x.slots.release with
        | some r =>
          right; left
          rw [chronicle_move]
          refine List.mem_append_right _ ?_
          simp [notes, workNotes, hs, leavingNotes, hx, hrel]
        | none =>
          -- the slot was due, so the counter was not at zero but below
          right; right
          have hclosed := Counter.release_eq_none.1 hrel
          refine (hv.orderly.steps hm).overflowed ⟨x.slots, counter?_of hx, ?_⟩
          have howed := owed_of_giveUp hmem (by decide)
          have hguests := (hv.orderly.sound.balanced ht).leaving c
          rcases (hv.orderly.sound.balanced ht).count c _ (account_of hx) with hneg | hcount
          · exact hneg
          · have hcount : x.slots.count = _ := hcount
            unfold Ledger.weight at hcount
            split at hcount <;> omega
    · right; left
      rw [chronicle_move]
      exact List.mem_append_left _ hleft
    · exact .inr (.inr ((hv.orderly.steps hm).overflowed hover))

/-- A complete context has given up the slot for its own work. -/
theorem Reachable.left_of_complete (h : w.Reachable t) (ht : t.matched = true)
    (hfired : w.isFired (.completion c) = true) : .left c .own ∈ w.chronicle := by
  obtain ⟨x, hx, hcomp⟩ := isFired_completion.1 hfired
  have hacc : w.ledger.accounts[c]? = some x.account := account_of hx
  have howed := (h.orderly.sound.of_complete ht h.orderly.pledged hacc hcomp).2.2
  have hzero := h.orderly.sound.sane.complete c _ hacc hcomp
  have htold := (h.orderly.of_complete ht hfired).1.told
  rcases h.own_of_response ht htold with hmem | hleft | ⟨s, hs, hneg⟩
  · have hpos := owed_of_giveUp hmem (by decide)
    omega
  · exact hleft
  · rw [counter?_of hx] at hs
    cases hs
    exact absurd hzero (Int.ne_of_lt hneg)

/-! ## One phase after the other -/

/-- A phase comes after those before it. -/
theorem Reachable.reached (h : w.Reachable t) (ht : t.matched = true) (hq : w.Reached c q)
    (hlt : p.rank < q.rank) : w.Reached c p := by
  have hbefore : w.isFired (.response c) = true → w.isFired (.before c) = true :=
    fun hfired => h.published.before c (.inr hfired)
  have hresponse : .left c .own ∈ w.chronicle → w.isFired (.response c) = true :=
    fun hleft => h.published.response c (.inr hleft)
  have hrelease : w.isFired (.completion c) = true → .left c .own ∈ w.chronicle :=
    h.left_of_complete ht
  cases p <;> cases q <;>
    first
    | exact absurd hlt (by decide)
    | exact hbefore hq
    | exact hresponse hq
    | exact hrelease hq
    | exact hbefore (hresponse hq)
    | exact hresponse (hrelease hq)
    | exact hbefore (hresponse (hrelease hq))

/-- Those who had registered at a channel are notified on what the firing of the channel lies on. -/
theorem Orderly.lies_of_delivers (h : w.Orderly t) {ch : ChannelRef} {f : Frame} (hf : f ∈ w.stack)
    (hd : f.delivers ch = true) : ∃ above below, w.stack = above ++ f :: below ∧ LiesOn ch below := by
  cases f with
  | deliver ch' replay v todo spent =>
    obtain ⟨hch, hreplay⟩ := Bool.and_eq_true_iff.1 hd
    obtain rfl := beq_iff_eq.1 hch
    obtain rfl : replay = false := by simpa using hreplay
    obtain ⟨above, below, hs⟩ := List.append_of_mem hf
    exact ⟨above, below, hs, (h.order.fits_of_mem hs rfl).2⟩
  | _ => cases hd

/-- When a phase has come, no work is under way for those before it. -/
theorem Reachable.quiet (h : w.Reachable t) (ht : t.matched = true) (hq : w.Reached c q)
    (hlt : p.rank < q.rank) {f : Frame} (hf : f ∈ w.stack) : p.occupies c f = false := by
  refine Bool.eq_false_iff.2 fun hoccupies => ?_
  cases p with
  | before =>
    obtain ⟨above, below, hs, r, rest, rfl⟩ := h.orderly.lies_of_delivers hf hoccupies
    -- the second channel is still to be fired
    have hmem : Frame.answer c r ∈ w.stack := by
      rw [hs]
      simp
    have hopen := (h.orderly.of_untold hmem (Frame.untold_pos (Multiset.mem_singleton_self _))).1
    have hfired : w.isFired (.response c) = true := by
      by_cases hr : q = .response
      · subst hr
        exact hq
      · have hafter : Phase.response.rank < q.rank := by
          cases q <;> first | exact absurd rfl hr | exact absurd hlt (by decide) | decide
        exact h.reached ht hq hafter
    cases hopen.symm.trans hfired
  | response =>
    obtain ⟨above, below, hs, rest, rfl⟩ := h.orderly.lies_of_delivers hf hoccupies
    -- the slot is still to be given up
    have hmem : Frame.giveUp c .own ∈ w.stack := by
      rw [hs]
      simp
    have hleft : .left c .own ∈ w.chronicle := by
      cases q with
      | release => exact hq
      | completion => exact h.left_of_complete ht hq
      | _ => exact absurd hlt (by decide)
    have hpos := ownKept_pos hmem (Multiset.mem_singleton_self _) (c := c) (by simp [Due.isOwnOf])
    have hzero := h.ownKept_of_left hleft
    omega
  | release =>
    cases f with
    | giveUp d share =>
      obtain ⟨hd, hshare⟩ := Bool.and_eq_true_iff.1 hoccupies
      obtain rfl := beq_iff_eq.1 hd
      obtain rfl := beq_iff_eq.1 hshare
      cases q with
      | completion =>
        obtain ⟨x, hx, hcomp⟩ := isFired_completion.1 hq
        have howed := (h.orderly.sound.of_complete ht h.orderly.pledged (account_of hx) hcomp).2.2
        have hpos := owed_of_giveUp hf (by decide)
        omega
      | _ => exact absurd hlt (by decide)
    | _ => cases hoccupies
  | completion => cases q <;> exact absurd hlt (by decide)

/-! ## What is noted in which order -/

/-- What the chronicle shows has come. -/
theorem Orderly.reached_of_shows (h : w.Orderly t) (he : e ∈ w.chronicle)
    (hshows : p.shows c e = true) : w.Reached c p := by
  unfold Phase.shows at hshows
  unfold Reached
  cases hch : p.channel? c with
  | none =>
    rw [hch] at hshows
    rw [Event.eq_of_releases hshows] at he
    exact he
  | some ch =>
    rw [hch] at hshows
    have htelling : e ∈ w.tellings := by
      rw [tellings_eq]
      exact List.mem_filter.2 ⟨he, Event.isTelling_of_tells hshows⟩
    obtain ⟨v, hv⟩ := h.tidy.value_of_tells htelling hshows
    exact Option.isSome_iff_exists.2 ⟨v, hv⟩

/-- A move notes something of a phase that has not come, or by a frame that is there for the phase. -/
theorem reached_or_occupied (hm : (within t).allows w m = true) (he : e ∈ w.notes m)
    (hincludes : p.includes c e = true) :
    (∃ ch, p.channel? c = some ch ∧ w.isFired ch = false) ∨ ∃ f ∈ w.stack, p.occupies c f = true := by
  unfold Phase.includes at hincludes
  unfold Phase.occupies
  cases hch : p.channel? c with
  | none =>
    rw [hch] at hincludes
    rw [Event.eq_of_releases hincludes] at he
    obtain ⟨rest, hs⟩ := own_of_left hm he
    exact .inr ⟨.giveUp c .own, hs ▸ List.mem_cons_self, by simp⟩
  | some ch =>
    rw [hch] at hincludes
    have htells := ((notesOne_notes m).tells he
      (Event.isTelling_of_tells (Event.tells_of_announces hincludes))).1
    cases e with
    | fired ch' v =>
      obtain rfl := beq_iff_eq.1 hincludes
      refine .inl ⟨ch', rfl, ?_⟩
      unfold isFired
      rw [htells.2]
      rfl
    | observed ch' l v =>
      obtain rfl := beq_iff_eq.1 hincludes
      obtain ⟨keeps, todo, spent, rest, hs⟩ := htells
      exact .inr ⟨_, hs ▸ List.mem_cons_self, by simp [Frame.delivers]⟩
    | _ => cases hincludes

/-- Nothing of a phase is noted once a later one has come. -/
theorem Reachable.not_includes (h : w.Reachable t) (ht : t.matched = true)
    (hm : (within t).allows w m = true) (hq : w.Reached c q) (hlt : p.rank < q.rank)
    (he : e ∈ w.notes m) : p.includes c e = false := by
  refine Bool.eq_false_iff.2 fun hincludes => ?_
  rcases reached_or_occupied hm he hincludes with ⟨ch, hch, hopen⟩ | ⟨f, hf, hoccupies⟩
  · have hp := h.reached ht hq hlt
    unfold Reached at hp
    rw [hch] at hp
    cases hopen.symm.trans hp
  · cases (h.quiet ht hq hlt hf).symm.trans hoccupies

/-- A move notes something of one phase of a context at most. -/
theorem eq_of_shows (hm : (within t).allows w m = true) {e' : Event} (he : e ∈ w.notes m)
    (he' : e' ∈ w.notes m) (hp : p.shows c e = true) (hq : q.shows c e' = true) : p = q := by
  have hleaving : ∀ {e₁ e₂ : Event}, e₁ ∈ w.notes m → e₂ ∈ w.notes m → e₁ = .left c .own →
      e₂.isTelling = false := by
    rintro e₁ e₂ he₁ he₂ rfl
    obtain ⟨rest, hs⟩ := own_of_left hm he₁
    obtain rfl := eq_advance hm hs rfl
    simp only [notes, workNotes, hs] at he₂
    rcases mem_leavingNotes he₂ with rfl | rfl <;> rfl
  cases hp' : p.channel? c with
  | none =>
    have hleft : e = .left c .own := Event.eq_of_releases (by simpa [Phase.shows, hp'] using hp)
    cases hq' : q.channel? c with
    | none => rw [Phase.eq_release hp', Phase.eq_release hq']
    | some ch =>
      have htells : e'.tells ch = true := by simpa [Phase.shows, hq'] using hq
      cases (hleaving he he' hleft).symm.trans (Event.isTelling_of_tells htells)
  | some ch =>
    have htells : e.tells ch = true := by simpa [Phase.shows, hp'] using hp
    cases hq' : q.channel? c with
    | none =>
      have hleft : e' = .left c .own := Event.eq_of_releases (by simpa [Phase.shows, hq'] using hq)
      cases (hleaving he' he hleft).symm.trans (Event.isTelling_of_tells htells)
    | some ch' =>
      have htells' : e'.tells ch' = true := by simpa [Phase.shows, hq'] using hq
      have hone := ((notesOne_notes m).tells he (Event.isTelling_of_tells htells)).2
      have hone' := ((notesOne_notes m).tells he' (Event.isTelling_of_tells htells')).2
      obtain rfl : e = e' := (List.cons.inj (hone.symm.trans hone')).1
      exact Phase.shows_inj hp hq

/-- Nothing of a phase comes after anything that shows a later one. -/
theorem Reachable.noted_in_order (h : w.Reachable t) (ht : t.matched = true)
    (hlt : p.rank < q.rank) : w.chronicle.Pairwise fun e e' =>
      ¬ (q.shows c e = true ∧ p.includes c e' = true) := by
  refine h.induction (P := fun w => w.chronicle.Pairwise fun e e' =>
    ¬ (q.shows c e = true ∧ p.includes c e' = true)) (fun _ => .nil) ?_
  intro v m hv hm ih
  rw [chronicle_move, List.pairwise_append]
  refine ⟨ih, ?_, ?_⟩
  · refine List.pairwise_of_forall_mem_list ?_
    rintro e he e' he' ⟨hshows, hincludes⟩
    have heq := eq_of_shows hm he' he (Phase.shows_of_includes hincludes) hshows
    exact absurd hlt (Nat.not_lt.2 (Nat.le_of_eq (congrArg Phase.rank heq.symm)))
  · rintro e he e' he' ⟨hshows, hincludes⟩
    have hreached := hv.orderly.reached_of_shows he hshows
    cases (hv.not_includes ht hm hreached hlt he').symm.trans hincludes

/-- Two events in the order in which they happened. -/
theorem Reachable.phase_first (h : w.Reachable t) (ht : t.matched = true) (hlt : p.rank < q.rank)
    {i j : Nat} {e e' : Event} (hi : w.history[i]? = some e) (hj : w.history[j]? = some e')
    (hincludes : p.includes c e = true) (hshows : q.shows c e' = true) : i < j := by
  have horder := h.noted_in_order (c := c) ht hlt
  unfold chronicle at horder
  rw [List.pairwise_filter, List.pairwise_iff_getElem] at horder
  rw [← Array.getElem?_toList] at hi hj
  obtain ⟨hi', rfl⟩ := List.getElem?_eq_some_iff.1 hi
  obtain ⟨hj', rfl⟩ := List.getElem?_eq_some_iff.1 hj
  have hshown := Phase.shows_of_includes hincludes
  rcases Nat.lt_trichotomy i j with hij | rfl | hij
  · exact hij
  · have heq := Phase.shows_inj hshown hshows
    exact absurd hlt (Nat.not_lt.2 (Nat.le_of_eq (congrArg Phase.rank heq.symm)))
  · exact absurd ⟨hshows, hincludes⟩ (horder j i hj' hi' hij (Phase.isNotable_of_shows hshows)
      (Phase.isNotable_of_shows hshown))

/-! ## The phases -/

/-- What the second channel carries is failed exactly if the context is. -/
theorem Reachable.failed_iff (h : w.Reachable t) {r : Response}
    (hr : w.value? (.response c) = some (.response r)) : r.isFailed = true ↔ w.stateOf c = .failed := by
  obtain ⟨threshold, moves, hlegal, rfl⟩ := h
  have hobeys := obeys_run hlegal c
  obtain ⟨s, hs, heq⟩ := hobeys.of_value? (.inr rfl) hr
  obtain rfl := Value.response.inj heq
  have hstate := hobeys.state
  rw [hs] at hstate
  rw [hstate]
  show _ ↔ r.state = .failed
  unfold Response.state
  cases r.isFailed <;> simp

/-- An outcome that is told has been decided. -/
theorem Reachable.decided_of_before (h : w.Reachable t) (hfired : w.isFired (.before c) = true) :
    w.stateOf c ≠ .pending := by
  intro hpending
  obtain ⟨v, hv⟩ := Option.isSome_iff_exists.1 hfired
  obtain ⟨r, hr, _⟩ := (h.obeys_none hpending).of_value? (.inl rfl) hv
  cases hr

/-- **Each context goes through its phases in order.** Its completion fires only after its second channel,
that one only after its first, and that one only after its outcome has been decided; what the second
channel carries is failed exactly if the context is. Whatever the firing of a channel tells those who had
registered, and the giving up of the slot for the context's own work, comes before anything of a later
phase, and no one is notified of a phase any more once a later one has come. A context that is complete
has given up that slot. -/
theorem phases_in_order (h : w.Reachable { matched := true, bounded := false }) (c : ContextNo) :
    (w.isFired (.completion c) = true → w.isFired (.response c) = true) ∧
    (w.isFired (.response c) = true → w.isFired (.before c) = true) ∧
    (w.isFired (.before c) = true → w.stateOf c ≠ .pending) ∧
    (∀ r, w.value? (.response c) = some (.response r) →
      (r.isFailed = true ↔ w.stateOf c = .failed)) ∧
    (w.isFired (.completion c) = true → ∃ i : Nat, w.history[i]? = some (.left c .own)) ∧
    ∀ p q : Phase, p.rank < q.rank →
      (∀ (i j : Nat) (e e' : Event), w.history[i]? = some e → w.history[j]? = some e' →
        p.includes c e = true → q.shows c e' = true → i < j) ∧
      ((∃ (j : Nat) (e : Event), w.history[j]? = some e ∧ q.shows c e = true) →
        ∀ f ∈ w.stack, p.occupies c f = false) := by
  refine ⟨fun hfired => (h.orderly.of_complete rfl hfired).1.told,
    fun hfired => h.published.before c (.inr hfired), h.decided_of_before, fun r => h.failed_iff,
    fun hfired => ?_, fun p q hlt => ⟨?_, ?_⟩⟩
  · have hmem := List.mem_of_mem_filter (h.left_of_complete rfl hfired)
    obtain ⟨i, hi⟩ := List.getElem?_of_mem hmem
    exact ⟨i, Array.getElem?_toList.symm.trans hi⟩
  · intro i j e e' hi hj hincludes hshows
    exact h.phase_first rfl hlt hi hj hincludes hshows
  · rintro ⟨j, e, hj, hshows⟩ f hf
    have hmem : e ∈ w.chronicle := by
      rw [← Array.getElem?_toList] at hj
      exact List.mem_filter.2 ⟨List.mem_of_getElem? hj, Phase.isNotable_of_shows hshows⟩
    exact h.quiet rfl (h.orderly.reached_of_shows hmem hshows) hlt hf

/-- While a context tells its outcome on the first channel, it gets a child, which is completed at once, and
someone registers at its completion. -/
def unfoldingMoves : List Move :=
  [Move.call (.createRoot { origin := .bridge "a" "" (some 0), location := some ⟨"box", "a"⟩ }), .advance,
    .call (.subscribe (.before 0) (some 7) []), .call (.subscribe (.response 0) (some 8) []),
    .call (.success 0 none), .advance, .advance,
    .call (.createChild 0 (some ⟨"box", "b"⟩) none none), .advance, .call (.success 1 none)] ++
    List.replicate 10 Move.advance ++ [Move.call (.subscribe (.completion 0) (some 9) []), .finish none] ++
    List.replicate 3 Move.advance ++ Move.finish none :: List.replicate 4 Move.advance

theorem phases_in_order_unfolding :
    ∃ w : World, w.Reachable { matched := true, bounded := false } ∧ w.stack ≠ [] ∧
      w.isFired (.completion 0) = true ∧ w.isFired (.before 0) = true ∧ w.stateOf 0 = .succeeded ∧
        (∃ i : Nat, w.history[i]? = some (.left 0 .own)) ∧
        ∀ p q : Phase, p.rank < q.rank → ∀ (i j : Nat) (e e' : Event), w.history[i]? = some e →
          w.history[j]? = some e' → p.includes 0 e = true → q.shows 0 e' = true → i < j := by
  have legal : (within { matched := true, bounded := false }).legal start unfoldingMoves = true := by
    decide +kernel
  have fired : ((within { matched := true, bounded := false }).run start unfoldingMoves).isFired
      (.completion 0) = true := by decide +kernel
  have busy : ((within { matched := true, bounded := false }).run start
      unfoldingMoves).stack.isEmpty = false := by decide +kernel
  have reachable : ((within { matched := true, bounded := false }).run start
      unfoldingMoves).Reachable { matched := true, bounded := false } := ⟨_, _, legal, rfl⟩
  obtain ⟨hresponse, hbefore, _, _, hleft, horder⟩ := phases_in_order reachable 0
  refine ⟨_, reachable, List.isEmpty_eq_false_iff.1 busy, fired, hbefore (hresponse fired), ?_,
    hleft fired, fun p q hlt => (horder p q hlt).1⟩
  decide +kernel

end World

end FanIn
