import FanIn.Proofs.Tree.Orderly

/-!
# When contexts are complete

Whenever no work is under way, a context is complete exactly if it and all contexts below it are
done: their outcomes are told, the signals of their links have fired, and the participants that
joined them have left.

In the books this holds of each context and its children (`Sound.complete_iff`). From children to
whole subtrees it goes by induction, down the tree in one direction and up in the other.
-/

namespace FanIn

/-! ## One context and its children -/

namespace Ledger

variable {t : Terms} {L : Ledger}

/-- A context is done by itself. -/
structure IsDone (L : Ledger) (c : ContextNo) (a : Account) : Prop where
  told : a.response.isSome = true
  linked : ∀ s, a.link = some s → ∃ p, L.pledges[s]? = some p ∧ p.isFired = true
  left : L.guests c = 0

theorem openChildren_eq_zero {c : ContextNo} : L.openChildren c = 0 ↔
    ∀ (d : ContextNo) (b : Account), L.accounts[d]? = some b → b.parent = some c →
      b.isComplete = true := by
  unfold openChildren
  rw [List.sum_eq_zero_iff_forall_eq_nat]
  constructor
  · intro h d b hb hp
    have hb' := h _ (List.mem_map.2 ⟨b, List.mem_of_getElem? hb, rfl⟩)
    by_contra hopen
    simp [isOpenChild, hp, hopen] at hb'
  · intro h n hn
    obtain ⟨b, hb, rfl⟩ := List.mem_map.1 hn
    obtain ⟨d, hd⟩ := List.getElem?_of_mem hb
    rw [if_neg]
    intro hopen
    simp only [isOpenChild, Bool.and_eq_true, beq_iff_eq, Bool.not_eq_true'] at hopen
    rw [h d b hd hopen.1] at hopen
    cases hopen.2

/-- An outcome that is due is owed. -/
theorem untold_le_owed (L : Ledger) (c : ContextNo) : L.untold c ≤ L.owed c := by
  unfold untold owed
  rw [Multiset.countP_eq_card_filter, Multiset.countP_eq_card_filter]
  refine Multiset.card_le_card (Multiset.monotone_filter_right _ ?_)
  intro d hd
  cases d with
  | outcome e r => exact hd
  | slot e share => cases hd

/-- A complete context is done, its children are complete, and nothing is owed to it. -/
theorem Sound.of_complete (h : L.Sound t) (ht : t.matched = true) (hp : L.Pledged) {c : ContextNo}
    {a : Account} (hc : L.accounts[c]? = some a) (ha : a.isComplete = true) :
    L.IsDone c a ∧ L.openChildren c = 0 ∧ L.owed c = 0 := by
  have hb := h.balanced ht
  have hzero := h.sane.complete c a hc ha
  have hguests := hb.leaving c
  have huntold := L.untold_le_owed c
  have houtcome := h.sane.outcome c a hc
  -- nothing is left to wait for, of any kind
  have hcount : L.owed c = 0 ∧ L.openChildren c = 0 ∧ L.guests c = 0 ∧ a.state ≠ .pending := by
    rcases hb.count c a hc with hneg | hcount
    · omega
    · unfold weight at hcount
      by_cases hs : a.state = .pending
      · rw [if_pos hs] at hcount
        omega
      · rw [if_neg hs] at hcount
        exact ⟨by omega, by omega, by omega, hs⟩
  obtain ⟨howed, hopen, hleft, hstate⟩ := hcount
  refine ⟨⟨?_, ?_, hleft⟩, hopen, howed⟩
  · rw [if_neg hstate] at houtcome
    split at houtcome
    · assumption
    · omega
  · intro s hs
    obtain ⟨p, hps, hfired | hdue⟩ := hp.links c a s hc hs
    · exact ⟨p, hps, hfired⟩
    · -- the slot for the link would still be owed
      have hmem : Due.slot c .link ∈ L.dues := by
        refine Multiset.mem_add.2 (.inl ?_)
        exact World.mem_sum_map.2 ⟨p, List.mem_of_getElem? hps, hdue⟩
      have hpos : 0 < L.owed c := Multiset.countP_pos.2 ⟨_, hmem, by simp⟩
      omega

/-- When nothing is under way, a context that is done is complete once its children are. -/
theorem Sound.complete (h : L.Sound t) (ht : t.strict = true) (hp : L.Pledged)
    (hw : L.work = 0) (hq : L.queue = []) {c : ContextNo} {a : Account}
    (hc : L.accounts[c]? = some a) (hd : L.IsDone c a) (hopen : L.openChildren c = 0) :
    a.isComplete = true := by
  have hb := h.balanced (Bool.and_eq_true_iff.1 ht).1
  have hu := h.unstuck ht
  have houtcome := h.sane.outcome c a hc
  rw [if_pos hd.told] at houtcome
  have hstate : a.state ≠ .pending := by
    intro hs
    rw [if_pos hs] at houtcome
    omega
  rw [if_neg hstate] at houtcome
  -- whatever is due is due by a signal: the outcome, or the slot for the link
  have howed : L.owed c = 0 := by
    apply Multiset.countP_eq_zero.2
    intro d hdue howed
    have hdues := hdue
    unfold dues at hdue
    rw [hw, add_zero] at hdue
    obtain ⟨p, hpm, hdp⟩ := World.mem_sum_map.1 hdue
    obtain ⟨s, hs⟩ := List.getElem?_of_mem hpm
    rcases hp.kinds s p d hs hdp with ⟨e, b, rfl, hb', hl⟩ | ⟨e, r, rfl⟩
    · have he : e = c := Due.owner_of_isOwedTo howed
      subst he
      obtain rfl := Option.some.inj (hb'.symm.trans hc)
      obtain ⟨p', hp', hfired⟩ := hd.linked s hl
      obtain rfl := Option.some.inj (hp'.symm.trans hs)
      rw [hp.fired s p' hs hfired] at hdp
      exact Multiset.notMem_zero _ hdp
    · have he : e = c := Due.owner_of_isOwedTo howed
      subst he
      have hpos : 0 < L.untold e := Multiset.countP_pos.2 ⟨_, hdues, by simp⟩
      omega
  have hweight : L.weight c = 0 := by
    unfold weight
    rw [howed, hopen, hd.left]
    rfl
  have hzero : a.slots.count = 0 := by
    have hnonneg := hu.nonneg c a hc
    rcases hb.count c a hc with hneg | hcount
    · omega
    · rw [if_neg hstate, hweight] at hcount
      exact hcount
  rcases hu.drained c a hc hzero with hcomp | hmem
  · exact hcomp
  · rw [hq] at hmem
    cases hmem

end Ledger

/-! ## Whole subtrees -/

namespace World

/-- One context is the parent of another. -/
def IsChild (w : World) (a d : ContextNo) : Prop :=
  ∃ x, w.contexts[d]? = some x ∧ x.parent = some a

theorem isChild_iff {w : World} {a d : ContextNo} : w.IsChild a d ↔
    (w.contexts[d]?).any (fun x => x.parent == some a) = true := by
  rw [Option.any_eq_true]
  simp only [IsChild, beq_iff_eq]

instance (w : World) (a d : ContextNo) : Decidable (w.IsChild a d) :=
  decidable_of_iff _ isChild_iff.symm

/-- A context is done by itself: its outcome is told, its link has been signaled, and all participants
that joined it have left. -/
structure IsDone (w : World) (c : ContextNo) : Prop where
  told : w.isFired (.response c) = true
  linked : ∀ x s, w.contexts[c]? = some x → x.link = some s → w.isFired (.signal s) = true
  left : w.joins c = w.leaves c

variable {t : Terms} {w w' : World}

theorem isFired_completion {c : ContextNo} : w.isFired (.completion c) = true ↔
    ∃ x, w.contexts[c]? = some x ∧ x.isComplete = true := by
  unfold isFired value?
  cases hx : w.contexts[c]? <;> simp [hx, Context.isComplete, Channel.isFired]

theorem isFired_response {c : ContextNo} : w.isFired (.response c) = true ↔
    ∃ x, w.contexts[c]? = some x ∧ x.response.value?.isSome = true := by
  unfold isFired value?
  cases hx : w.contexts[c]? <;> simp [hx]

theorem isFired_signal {s : SignalNo} : w.isFired (.signal s) = true ↔
    ∃ p, w.ledger.pledges[s]? = some p ∧ p.isFired = true := by
  unfold isFired value?
  rw [pledges_ledger]
  cases hx : w.signals[s]? <;> simp [hx, Signal.pledge, Channel.isFired]

/-- What the books and the world call done is the same. -/
theorem isDone_iff {c : ContextNo} {x : Context} (hx : w.contexts[c]? = some x) :
    w.IsDone c ↔ w.ledger.IsDone c x.account := by
  constructor
  · intro h
    refine ⟨?_, fun s hs => isFired_signal.1 (h.linked x s hx hs), ?_⟩
    · obtain ⟨y, hy, hfired⟩ := isFired_response.1 h.told
      obtain rfl := Option.some.inj (hy.symm.trans hx)
      exact hfired
    · show (w.joins c : Int) - w.leaves c = 0
      rw [h.left]
      omega
  · intro h
    refine ⟨isFired_response.2 ⟨x, hx, h.told⟩, ?_, ?_⟩
    · intro y s hy hs
      obtain rfl := Option.some.inj (hy.symm.trans hx)
      exact isFired_signal.2 (h.linked s hs)
    · have hleft : (w.joins c : Int) - w.leaves c = 0 := h.left
      omega

theorem openChildren_ledger {c : ContextNo} : w.ledger.openChildren c = 0 ↔
    ∀ d, w.IsChild c d → w.isFired (.completion d) = true := by
  rw [Ledger.openChildren_eq_zero]
  constructor
  · rintro h d ⟨x, hx, hp⟩
    have hacc : w.ledger.accounts[d]? = some x.account := account_of hx
    exact isFired_completion.2 ⟨x, hx, h d _ hacc hp⟩
  · intro h d b hb hp
    rw [accounts_ledger] at hb
    obtain ⟨x, hx, rfl⟩ := Option.map_eq_some_iff.1 hb
    obtain ⟨y, hy, hfired⟩ := isFired_completion.1 (h d ⟨x, hx, hp⟩)
    obtain rfl := Option.some.inj (hy.symm.trans hx)
    exact hfired

/-- A complete context is done, and its children are complete. -/
theorem Orderly.of_complete (h : w.Orderly t) (ht : t.matched = true) {c : ContextNo}
    (hc : w.isFired (.completion c) = true) :
    w.IsDone c ∧ ∀ d, w.IsChild c d → w.isFired (.completion d) = true := by
  obtain ⟨x, hx, hcomp⟩ := isFired_completion.1 hc
  have hacc : w.ledger.accounts[c]? = some x.account := account_of hx
  obtain ⟨hdone, hopen, _⟩ := h.sound.of_complete ht h.pledged hacc hcomp
  exact ⟨(isDone_iff hx).2 hdone, openChildren_ledger.1 hopen⟩

/-- Whatever is below a complete context is complete, at any moment. -/
theorem Orderly.subtree_complete (h : w.Orderly t) (ht : t.matched = true) {c d : ContextNo}
    (hc : w.isFired (.completion c) = true) (hd : Relation.ReflTransGen w.IsChild c d) :
    w.isFired (.completion d) = true := by
  induction hd with
  | refl => exact hc
  | tail _ hchild ih => exact (h.of_complete ht ih).2 _ hchild

/-- No one waits in the queue once the outermost call has returned. -/
theorem Orderly.queue_none (h : w.Orderly t) (idle : w.stack = []) : w.queue = none := by
  have hclimbs := (h.order.inOrder (by rw [idle]; trivial)).climbs
  rw [idle] at hclimbs
  cases hq : w.queue with
  | none => rfl
  | some q =>
    rw [hq] at hclimbs
    cases hclimbs

theorem Orderly.queue_idle (h : w.Orderly t) (idle : w.stack = []) : w.ledger.queue = [] := by
  show w.queue.getD [] = []
  rw [h.queue_none idle]
  rfl

/-- A child is younger than its parent. -/
theorem Orderly.lt_of_isChild (h : w.Orderly t) {a d : ContextNo} (hd : w.IsChild a d) : a < d := by
  obtain ⟨x, hx, hp⟩ := hd
  have hacc : w.ledger.accounts[d]? = some x.account := account_of hx
  exact h.sound.sane.parents d _ a hacc hp

/-- When nothing is under way, a context is complete if it and all contexts below it are done. -/
theorem Orderly.complete_of_subtree (h : w.Orderly t) (ht : t.strict = true) (idle : w.stack = [])
    (c : ContextNo) (hdone : ∀ d, Relation.ReflTransGen w.IsChild c d → w.IsDone d) :
    w.isFired (.completion c) = true := by
  -- children have greater numbers, of which there are only so many
  induction hn : w.contexts.size - c using Nat.strong_induction_on generalizing c with
  | _ n ih =>
    obtain ⟨x, hx, _⟩ := isFired_response.1 (hdone c .refl).told
    have hlt : c < w.contexts.size := (Array.getElem?_eq_some_iff.1 hx).1
    have hchildren : ∀ d, w.IsChild c d → w.isFired (.completion d) = true := by
      intro d hd
      have hcd := h.lt_of_isChild hd
      refine ih (w.contexts.size - d) (hn ▸ Nat.sub_lt_sub_left hlt hcd) d (fun e he => hdone e ?_) rfl
      exact .head hd he
    have hacc : w.ledger.accounts[c]? = some x.account := account_of hx
    have hwork : w.ledger.work = 0 := by simp [ledger, idle]
    have hcomp := h.sound.complete ht h.pledged hwork (h.queue_idle idle) hacc
      ((isDone_iff hx).1 (hdone c .refl)) (openChildren_ledger.2 hchildren)
    exact isFired_completion.2 ⟨x, hx, hcomp⟩

/-- **Completion is exactly that the whole subtree is done.** Whenever no call is in progress, a
context has told its completion if and only if it and every context ever created below it are done.
So which contexts are complete depends on the tree and on who is done in it alone, in whatever order
that came about. -/
theorem complete_iff_subtree_done
    (h : w.Reachable { matched := true, bounded := true }) (idle : w.stack = []) :
    (∀ c, w.isFired (.completion c) = true ↔
      ∀ d, Relation.ReflTransGen w.IsChild c d → w.IsDone d) ∧
    ∀ w' : World, w'.Reachable { matched := true, bounded := true } → w'.stack = [] →
      (∀ a d, w'.IsChild a d ↔ w.IsChild a d) → (∀ d, w'.IsDone d ↔ w.IsDone d) →
        ∀ c, w'.isFired (.completion c) = w.isFired (.completion c) := by
  have hiff : ∀ {v : World}, v.Reachable { matched := true, bounded := true } → v.stack = [] →
      ∀ c, v.isFired (.completion c) = true ↔
        ∀ d, Relation.ReflTransGen v.IsChild c d → v.IsDone d :=
    fun hv hidle c => ⟨fun hc d hd =>
        (hv.orderly.of_complete rfl (hv.orderly.subtree_complete rfl hc hd)).1,
      hv.orderly.complete_of_subtree rfl hidle c⟩
  refine ⟨hiff h idle, fun w' h' idle' htree hdone c => Bool.eq_iff_iff.2 ?_⟩
  have hchild : w'.IsChild = w.IsChild := funext fun a => funext fun d => propext (htree a d)
  rw [hiff h' idle' c, hiff h idle c, hchild]
  exact forall_congr' fun d => imp_congr_right fun _ => hdone d

/-- A root with a link, a child and a participant. The participant leaves and the link is signaled
while the completion of the child is told. -/
def familyMoves : List Move :=
  [Move.call (.makeSignal none), .advance,
    .call (.createRoot
      { origin := .bridge "a" "" (some 0), location := some ⟨"box", "a"⟩, link := some 0 }), .advance,
    .call (.createChild 0 (some ⟨"box", "b"⟩) none none), .advance, .call (.addChild 0),
    .call (.success 0 none)] ++ List.replicate 6 Move.advance ++
  [Move.call (.subscribe (.completion 1) (some 7) []), .call (.success 1 none)] ++
    List.replicate 7 Move.advance ++
  [Move.call (.childCompleted 0), .advance, .advance, .call (.fireSignal 0 {})] ++
    List.replicate 4 Move.advance ++ Move.finish none :: List.replicate 7 Move.advance

theorem complete_iff_subtree_done_family :
    ∃ w : World, w.Reachable { matched := true, bounded := true } ∧ w.stack = [] ∧
      w.isFired (.completion 0) = true ∧
        ∀ d, Relation.ReflTransGen w.IsChild 0 d → w.IsDone d := by
  have legal : (within { matched := true, bounded := true }).legal start familyMoves = true := by
    decide +kernel
  have idle : ((within { matched := true, bounded := true }).run start familyMoves).stack = [] :=
    List.isEmpty_iff.1 (by decide +kernel)
  have fired : ((within { matched := true, bounded := true }).run start familyMoves).isFired
      (.completion 0) = true := by decide +kernel
  have reachable : ((within { matched := true, bounded := true }).run start familyMoves).Reachable
      { matched := true, bounded := true } := ⟨_, _, legal, rfl⟩
  exact ⟨_, reachable, idle, fired, ((complete_iff_subtree_done reachable idle).1 0).1 fired⟩

end World

end FanIn
