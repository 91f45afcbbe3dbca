import FanIn.Proofs.Tree.Completion
import FanIn.Proofs.Tree.Tellings

/-!
# Completion is told from the bottom up

No channel fires twice. And a context does not tell its completion before every context below it has
told its own to all who had registered for it: as long as one of them is still to be told, the slot
that the parent keeps for the child has not been given up.

Whoever subscribes to a completion that has been told is told at once, whatever else is under way.
Such an observer may well be running while a context further up completes.
-/

namespace FanIn

/-! ## Events of a channel -/

namespace Event

/-- Whether a channel fires. -/
def fires (ch : ChannelRef) : Event → Bool
  | fired ch' _ => ch' == ch
  | _ => false

/-- Whether a channel fires, or tells an observer that was registered when it fired. -/
def announces (ch : ChannelRef) : Event → Bool
  | fired ch' _ => ch' == ch
  | observed ch' _ _ => ch' == ch
  | _ => false

/-- Whether a channel tells its value, to whomever. -/
def tells (ch : ChannelRef) : Event → Bool
  | fired ch' _ => ch' == ch
  | observed ch' _ _ => ch' == ch
  | replayed ch' _ _ => ch' == ch
  | _ => false

theorem tells_of_announces {e : Event} {ch : ChannelRef} (h : e.announces ch = true) :
    e.tells ch = true := by
  cases e <;> first | exact h | cases h

theorem announces_of_fires {e : Event} {ch : ChannelRef} (h : e.fires ch = true) :
    e.announces ch = true := by
  cases e <;> first | exact h | cases h

/-- An event tells of one channel. -/
theorem tells_inj {e : Event} {ch ch' : ChannelRef} (h : e.tells ch = true)
    (h' : e.tells ch' = true) : ch = ch' := by
  cases e <;> first | exact (beq_iff_eq.1 h).symm.trans (beq_iff_eq.1 h') | cases h

theorem isTelling_of_tells {e : Event} {ch : ChannelRef} (h : e.tells ch = true) :
    e.isTelling = true := by
  cases e <;> first | rfl | cases h

end Event

namespace World

open Stack

variable {t : Terms} {w w' : World}

/-- How often a channel has fired. -/
def firings (w : World) (ch : ChannelRef) : Nat := w.history.countP (Event.fires ch)

/-- What is told of a channel is told because it has fired. -/
theorem Tidy.value_of_tells {told : ContextNo → Bool} (h : w.Tidy told) {e : Event}
    (he : e ∈ w.tellings) {ch : ChannelRef}
    (ht : e.tells ch = true) : ∃ v, w.value? ch = some v := by
  have hattests := h.events e (List.mem_of_mem_filter he)
  cases e with
  | fired ch' v =>
    obtain rfl := beq_iff_eq.1 ht
    exact ⟨v, hattests⟩
  | observed ch' l v =>
    obtain rfl := beq_iff_eq.1 ht
    exact ⟨v, hattests⟩
  | replayed ch' l v =>
    obtain rfl := beq_iff_eq.1 ht
    exact ⟨v, hattests⟩
  | _ => cases ht

theorem firings_eq (ch : ChannelRef) : w.firings ch = w.tellings.countP (Event.fires ch) := by
  unfold firings tellings
  rw [List.countP_filter, ← Array.countP_toList]
  apply List.countP_congr
  intro e _
  constructor
  · intro h
    rw [h, Event.isTelling_of_tells (Event.tells_of_announces (Event.announces_of_fires h))]
    rfl
  · intro h
    exact (Bool.and_eq_true_iff.1 h).1

/-- A channel fires at most once. -/
theorem Reachable.firings_le_one (h : w.Reachable t) (ch : ChannelRef) : w.firings ch ≤ 1 := by
  apply h.keeps (P := fun w => w.firings ch ≤ 1) (fun _ => Nat.zero_le 1)
  intro v m hv hm ih
  rw [firings_eq] at ih ⊢
  rcases tellings_move (w := v) m with heq | ⟨e, he, heq⟩
  · rw [heq]
    exact ih
  · rw [heq, List.countP_append, List.countP_singleton]
    split
    · rename_i hfires
      -- it had not fired, so nothing had been told of it
      have hnone : v.tellings.countP (Event.fires ch) = 0 := by
        apply List.countP_eq_zero.2
        intro e' he' hfires'
        cases e with
        | fired ch' u =>
          obtain rfl := beq_iff_eq.1 hfires
          obtain ⟨u', hu'⟩ := hv.tidy.value_of_tells he'
            (Event.tells_of_announces (Event.announces_of_fires hfires'))
          cases he.2.symm.trans hu'
        | _ => cases hfires
      omega
    · exact ih

/-! ## Who still notifies -/

/-- As long as a context notifies those who were registered when it completed, its parent is not
complete. -/
theorem Orderly.parent_open (h : w.Orderly t) (ht : t.matched = true) {b d : ContextNo}
    (hd : w.IsChild b d) {v : Value} {todo spent : List Observer}
    (hmem : .deliver (.completion d) false v todo spent ∈ w.stack) :
    w.isFired (.completion b) = false := by
  by_contra hb
  rw [Bool.not_eq_false] at hb
  obtain ⟨above, rest, hs⟩ := List.append_of_mem hmem
  obtain ⟨p, below, rfl⟩ := (h.order.fits_of_mem hs rfl).2
  have htold : Frame.told d p ∈ w.stack := by
    rw [hs]
    simp
  -- the frame underneath is to tell the parent, whose slot is therefore owed
  obtain ⟨⟨x, hx, hp⟩, _⟩ := h.tidy.frames _ htold
  obtain ⟨y, hy, hparent⟩ := hd
  obtain rfl := Option.some.inj (hy.symm.trans hx)
  obtain rfl := hp.symm.trans hparent
  have hdue : Due.slot b (.child d) ∈ w.ledger.dues := by
    refine Multiset.mem_add.2 (.inr (mem_sum_map.2 ⟨_, htold, ?_⟩))
    exact Multiset.mem_singleton_self _
  obtain ⟨z, hz, hcomp⟩ := isFired_completion.1 hb
  have hacc : w.ledger.accounts[b]? = some z.account := account_of hz
  have howed := (h.sound.of_complete ht h.pledged hacc hcomp).2.2
  have hpos : 0 < w.ledger.owed b := Multiset.countP_pos.2 ⟨_, hdue, by simp⟩
  omega

/-- The same for all contexts further up. -/
theorem Orderly.ancestors_open (h : w.Orderly t) (ht : t.matched = true) {a d : ContextNo}
    (hd : Relation.TransGen w.IsChild a d) {v : Value} {todo spent : List Observer}
    (hmem : .deliver (.completion d) false v todo spent ∈ w.stack) :
    w.isFired (.completion a) = false := by
  obtain ⟨b, hab, hbd⟩ := Relation.TransGen.tail'_iff.1 hd
  have hopen := h.parent_open ht hbd hmem
  by_contra ha
  rw [Bool.not_eq_false] at ha
  rw [h.subtree_complete ht ha hab] at hopen
  cases hopen

/-! ## What is told before what -/

/-- A parent is for good. -/
theorem isChild_of_move (h : w.Orderly t) {m : Move} (hm : (within t).allows w m = true)
    {a d : ContextNo} (hd : (w.move m).IsChild a d) (hlt : d < w.contexts.size) :
    w.IsChild a d := by
  obtain ⟨y, hy, hp⟩ := hd
  have hx : w.contexts[d]? = some w.contexts[d] := Array.getElem?_eq_getElem hlt
  have hacc : w.ledger.accounts[d]? = some w.contexts[d].account := account_of hx
  obtain ⟨b, hb, hparent⟩ := (h.steps hm).parent hacc
  rw [accounts_ledger, hy] at hb
  obtain rfl := Option.some.inj hb
  exact ⟨_, hx, hparent.symm.trans hp⟩

theorem Orderly.lt_of_below (h : w.Orderly t) {a d : ContextNo}
    (hd : Relation.TransGen w.IsChild a d) : a < d := by
  induction hd with
  | single hchild => exact h.lt_of_isChild hchild
  | tail _ hchild ih => exact Nat.lt_trans ih (h.lt_of_isChild hchild)

/-- What is below a context that there was was below it before. -/
theorem below_of_move (h : w.Orderly t) {m : Move} (hm : (within t).allows w m = true)
    {a d : ContextNo} (hd : Relation.TransGen (w.move m).IsChild a d) (hlt : d < w.contexts.size) :
    Relation.TransGen w.IsChild a d := by
  induction hd with
  | single hchild => exact .single (isChild_of_move h hm hchild hlt)
  | tail _ hchild ih =>
    have hold := isChild_of_move h hm hchild hlt
    exact .tail (ih (Nat.lt_trans (h.lt_of_isChild hold) hlt)) hold

theorem lt_of_value? {c : ContextNo} {v : Value} (h : w.value? (.completion c) = some v) :
    c < w.contexts.size := by
  obtain ⟨x, hx, _⟩ := Option.bind_eq_some_iff.1 h
  exact lt_of_getElem?_eq_some hx

/-- Nothing that the firing of a descendant's completion tells comes after anything that is told of a
completion further up. -/
theorem Reachable.told_in_order (h : w.Reachable t) (ht : t.matched = true) (a d : ContextNo) :
    Relation.TransGen w.IsChild a d → w.tellings.Pairwise fun e e' =>
      ¬ (e.tells (.completion a) = true ∧ e'.announces (.completion d) = true) := by
  refine h.keeps (P := fun w => Relation.TransGen w.IsChild a d → w.tellings.Pairwise fun e e' =>
    ¬ (e.tells (.completion a) = true ∧ e'.announces (.completion d) = true))
    (fun _ _ => List.Pairwise.nil) ?_
  intro v m hv hm ih hd
  have hold : v.tellings.Pairwise fun e e' =>
      ¬ (e.tells (.completion a) = true ∧ e'.announces (.completion d) = true) := by
    by_cases hlt : d < v.contexts.size
    · exact ih (below_of_move hv hm hd hlt)
    · -- nothing is told of a context that there is not
      refine List.pairwise_of_forall_mem_list fun e _ e' he' hboth => hlt ?_
      obtain ⟨u, hu⟩ := hv.tidy.value_of_tells he' (Event.tells_of_announces hboth.2)
      exact lt_of_value? hu
  rcases tellings_move (w := v) m with heq | ⟨e', he', heq⟩
  · rw [heq]
    exact hold
  · rw [heq, List.pairwise_append]
    refine ⟨hold, List.pairwise_singleton _ _, ?_⟩
    intro e he e'' he''
    obtain rfl := List.mem_singleton.1 he''
    rintro ⟨hup, hdown⟩
    obtain ⟨u, hu⟩ := hv.tidy.value_of_tells he hup
    have hfired : v.isFired (.completion a) = true := Option.isSome_iff_exists.2 ⟨u, hu⟩
    cases e'' with
    | fired ch u' =>
      obtain rfl := beq_iff_eq.1 hdown
      have hbelow := below_of_move hv hm hd he'.1
      have hcomp := hv.subtree_complete ht hfired hbelow.to_reflTransGen
      obtain ⟨u'', hu''⟩ := Option.isSome_iff_exists.1 hcomp
      cases he'.2.symm.trans hu''
    | observed ch l u' =>
      obtain rfl := beq_iff_eq.1 hdown
      obtain ⟨keeps, todo, spent, rest, hs⟩ := he'
      have hmem : Frame.deliver (.completion d) false u' (.client l keeps :: todo) spent ∈
          v.stack := by
        rw [hs]
        exact List.mem_cons_self
      have hbelow := below_of_move hv hm hd (lt_of_value? (hv.tidy.frames _ hmem))
      rw [hv.ancestors_open ht hbelow hmem] at hfired
      cases hfired
    | _ => cases hdown

/-- Two events in the order in which they happened. -/
theorem Reachable.announced_first (h : w.Reachable t) (ht : t.matched = true) {a d : ContextNo}
    (hd : Relation.TransGen w.IsChild a d) {i j : Nat} {e e' : Event}
    (hi : w.history[i]? = some e) (hj : w.history[j]? = some e')
    (hdown : e'.announces (.completion d) = true) (hup : e.tells (.completion a) = true) :
    j < i := by
  have horder := h.told_in_order ht a d hd
  unfold tellings at horder
  rw [List.pairwise_filter, List.pairwise_iff_getElem] at horder
  rw [← Array.getElem?_toList] at hi hj
  obtain ⟨hi', rfl⟩ := List.getElem?_eq_some_iff.1 hi
  obtain ⟨hj', rfl⟩ := List.getElem?_eq_some_iff.1 hj
  rcases Nat.lt_trichotomy j i with hlt | rfl | hlt
  · exact hlt
  · have heq := Event.tells_inj hup (Event.tells_of_announces hdown)
    exact absurd (ChannelRef.completion.inj heq) (Nat.ne_of_lt (h.orderly.lt_of_below hd))
  · exact absurd ⟨hup, hdown⟩ (horder i j hi' hj' hlt
      (Event.isTelling_of_tells hup)
      (Event.isTelling_of_tells (Event.tells_of_announces hdown)))

/-- **Completion is told from the bottom up.** Every completion fires at most once. For a context and
any context below it, whatever the firing of the lower completion tells is told before anything is told
of the upper one. And once the upper one is told, the lower one has fired and is not telling it to
anyone any more: an observer of it that still runs has subscribed after it was told. -/
theorem completion_bottom_up (h : w.Reachable { matched := true, bounded := false }) :
    (∀ c, w.firings (.completion c) ≤ 1) ∧
    ∀ a d, Relation.TransGen w.IsChild a d →
      (∀ (i j : Nat) (e e' : Event), w.history[i]? = some e → w.history[j]? = some e' →
        e'.announces (.completion d) = true → e.tells (.completion a) = true → j < i) ∧
      (w.isFired (.completion a) = true → w.isFired (.completion d) = true ∧
        (∀ v todo spent, .deliver (.completion d) false v todo spent ∉ w.stack) ∧
        ∀ above l v below, w.stack = above ++ .observer (.completion d) l v :: below →
          ∃ todo spent rest, below = .deliver (.completion d) true v todo spent :: rest) := by
  refine ⟨fun c => h.firings_le_one (.completion c), fun a d hd => ⟨?_, ?_⟩⟩
  · intro i j e e' hi hj hdown hup
    exact h.announced_first rfl hd hi hj hdown hup
  · intro ha
    have hnone : ∀ v todo spent, .deliver (.completion d) false v todo spent ∉ w.stack := by
      intro v todo spent hmem
      rw [h.orderly.ancestors_open rfl hd hmem] at ha
      cases ha
    refine ⟨h.orderly.subtree_complete rfl ha hd.to_reflTransGen, hnone, ?_⟩
    intro above l v below hs
    obtain ⟨replay, todo, spent, rest, rfl⟩ := h.orderly.order.fits_of_mem hs rfl
    cases replay with
    | true => exact ⟨todo, spent, rest, rfl⟩
    | false => exact absurd (by rw [hs]; simp) (hnone v todo spent)

/-- A parent whose child completes first, with someone registered at each of the two completions. -/
def nestedMoves : List Move :=
  [Move.call (.createRoot { origin := .bridge "a" "" (some 0), location := some ⟨"box", "a"⟩ }), .advance,
    .call (.createChild 0 (some ⟨"box", "b"⟩) none none), .advance,
    .call (.subscribe (.completion 0) (some 7) []), .call (.subscribe (.completion 1) (some 8) []),
    .call (.success 0 none)] ++ List.replicate 6 Move.advance ++
  Move.call (.success 1 none) :: List.replicate 7 Move.advance ++
  Move.finish none :: List.replicate 4 Move.advance

theorem completion_bottom_up_nested :
    ∃ w : World, w.Reachable { matched := true, bounded := false } ∧
      Relation.TransGen w.IsChild 0 1 ∧ w.isFired (.completion 0) = true ∧
        ∀ (i j : Nat) (e e' : Event), w.history[i]? = some e → w.history[j]? = some e' →
          e'.announces (.completion 1) = true → e.tells (.completion 0) = true → j < i := by
  have legal : (within { matched := true, bounded := false }).legal start nestedMoves = true := by
    decide +kernel
  have reachable : ((within { matched := true, bounded := false }).run start nestedMoves).Reachable
      { matched := true, bounded := false } := ⟨_, _, legal, rfl⟩
  have child : ((within { matched := true, bounded := false }).run start nestedMoves).IsChild 0 1 := by
    decide +kernel
  have below := Relation.TransGen.single child
  exact ⟨_, reachable, below, by decide +kernel, ((completion_bottom_up reachable).2 0 1 below).1⟩

/-- Someone subscribes to the completion of a child which has been told, and while it runs finishes the
parent, whose completion is told at once. -/
def lateMoves : List Move :=
  [Move.call (.createRoot { origin := .bridge "a" "" (some 0), location := some ⟨"box", "a"⟩ }), .advance,
    .call (.createChild 0 (some ⟨"box", "b"⟩) none none), .advance,
    .call (.subscribe (.completion 0) (some 7) []), .call (.success 1 none)] ++
    List.replicate 10 Move.advance ++
  [Move.call (.subscribe (.completion 1) (some 8) []), .advance, .call (.success 0 none)] ++
    List.replicate 7 Move.advance

/-- Whether an observer of a completion runs. -/
def runsAt (w : World) (c : ContextNo) : Bool :=
  w.stack.any fun f => match f with
    | .observer (.completion d) _ _ => d == c
    | _ => false

/-- An observer of a completion may run while one of a completion further down is still running. -/
theorem late_observer_outlasts : ¬ ∀ w : World, w.Reachable { matched := true, bounded := false } →
    ∀ a d, Relation.TransGen w.IsChild a d → w.runsAt a = true → w.runsAt d = false := by
  intro h
  have legal : (within { matched := true, bounded := false }).legal start lateMoves = true := by
    decide +kernel
  have child : ((within { matched := true, bounded := false }).run start lateMoves).IsChild 0 1 := by
    decide +kernel
  have apart := h _ ⟨_, _, legal, rfl⟩ 0 1 (.single child) (by decide +kernel)
  have both : ((within { matched := true, bounded := false }).run start lateMoves).runsAt 1 = true := by
    decide +kernel
  exact absurd (both.symm.trans apart) (by decide)

end World

end FanIn
