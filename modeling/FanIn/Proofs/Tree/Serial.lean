import FanIn.Proofs.Tree.Answer
import FanIn.Proofs.Tree.Herald
import FanIn.Proofs.Tree.Overrun
import FanIn.Proofs.Tree.Return
import FanIn.Proofs.Tree.Values

/-!
# Completions one after the other

Completions fire in the order in which the counters reached zero. While one is told no other one fires,
because whoever climbs to the next is the frame below the telling. And since the climb ends, a context
whose counter has reached zero completes before the outermost call returns, whatever clients do
meanwhile or leave undone.

Main statement: `completions_serialised`.
-/

namespace FanIn

namespace World

open Ledger Stack

variable {t : Terms} {w w' : World}

/-! ## Order -/

/-- What has completed and what is still to complete is in the order in which counters reached zero. -/
theorem Reachable.served (h : w.Reachable t) :
    (w.completions ++ w.queue.getD []).Sublist w.drains := by
  refine h.keeps (P := fun w => (w.completions ++ w.queue.getD []).Sublist w.drains)
    (fun _ => .slnil) ?_
  intro v m hv hm ih
  rw [completions_move, drains_move]
  rcases serves_move hv hm with hserves | ⟨_, hnil, hnone⟩
  · rw [List.append_assoc, hserves, ← List.append_assoc]
    exact ih.append_right _
  · rw [hnil, hnone]
    simpa using (List.sublist_append_left _ _).trans ih

/-- On strict terms nothing is missing. -/
theorem Reachable.served_all (h : w.Reachable t) (ht : t.strict = true) :
    w.completions ++ w.queue.getD [] = w.drains := by
  refine h.keeps (P := fun w => w.completions ++ w.queue.getD [] = w.drains) (fun _ => rfl) ?_
  intro v m hv hm ih
  rw [completions_move, drains_move]
  rcases serves_move hv hm with hserves | ⟨hloose, _⟩
  · rw [List.append_assoc, hserves, ← List.append_assoc, ih]
  · rw [ht] at hloose
    cases hloose

/-- If a counter reaches zero with what is noted, it was open before, and nothing completes. -/
def Closes (w : World) (es : List Event) : Prop :=
  es.filterMap Event.drains? = [] ∨ ∃ c x r, w.contexts[c]? = some x ∧ x.slots.release = some r ∧
    es.filterMap Event.drains? = [c] ∧ es.filterMap Event.completes? = []

theorem closes_leaving (c : ContextNo) (share : Share) : w.Closes (w.leavingNotes c share) := by
  unfold leavingNotes
  split
  · exact .inl rfl
  · rename_i last slots hrel
    cases last with
    | false => exact .inl rfl
    | true =>
      obtain ⟨x, hx, hrel⟩ := Option.bind_eq_some_iff.1 hrel
      exact .inr ⟨c, x, _, hx, hrel, rfl, rfl⟩

theorem closes_move {m : Move} (hm : (within t).allows w m = true) : w.Closes (w.notes m) := by
  cases m with
  | advance =>
    show w.Closes w.workNotes
    unfold workNotes
    split
    · rename_i replay v label keeps todo spent rest _
      cases replay <;> exact .inl rfl
    · exact .inl (drains?_firingNotes _ _)
    · exact .inl (drains?_firingNotes _ _)
    · exact closes_leaving _ _
    · split
      · exact .inl (drains?_firingNotes _ _)
      · exact .inl rfl
    · exact closes_leaving _ _
    · exact .inl (drains?_firingNotes _ _)
    · exact .inl rfl
  | call call => exact .inl (silent_callNotes (Bool.and_eq_true_iff.1 hm).2).2
  | finish thrown => exact .inl rfl
  | handled a => exact .inl rfl

/-- The counter of a context has reached zero. -/
def IsDrained (w : World) (c : ContextNo) : Prop :=
  ∃ x, w.contexts[c]? = some x ∧ x.slots.count = 0

theorem isDrained_iff {c : ContextNo} :
    w.IsDrained c ↔ ∃ k, w.ledger.counter? c = some k ∧ k.count = 0 := by
  constructor
  · rintro ⟨x, hx, hzero⟩
    exact ⟨_, counter?_of hx, hzero⟩
  · rintro ⟨k, hk, hzero⟩
    obtain ⟨a, ha, rfl⟩ := Option.map_eq_some_iff.1 hk
    rw [accounts_ledger] at ha
    obtain ⟨x, hx, rfl⟩ := Option.map_eq_some_iff.1 ha
    exact ⟨x, hx, hzero⟩

/-- Whoever is in the queue has a counter of zero, and is not complete. -/
theorem Orderly.of_queued (h : w.Orderly t) {c : ContextNo} (hc : c ∈ w.queue.getD []) :
    w.IsDrained c ∧ w.isFired (.completion c) = false := by
  obtain ⟨a, ha, hzero, hopen⟩ := h.sound.sane.queued c hc
  rw [accounts_ledger] at ha
  obtain ⟨x, hx, rfl⟩ := Option.map_eq_some_iff.1 ha
  refine ⟨⟨x, hx, hzero⟩, ?_⟩
  rw [← Bool.not_eq_true, isFired_completion]
  rintro ⟨y, hy, hcomp⟩
  obtain rfl := Option.some.inj (hy.symm.trans hx)
  exact absurd (hcomp.symm.trans hopen) (by decide)

/-- Counters reach zero once, and stay there. -/
theorem Reachable.drains_once (h : w.Reachable t) :
    w.drains.Nodup ∧ ∀ c ∈ w.drains, w.IsDrained c := by
  refine h.keeps (P := fun w => w.drains.Nodup ∧ ∀ c ∈ w.drains, w.IsDrained c)
    (fun _ => ⟨List.nodup_nil, nofun⟩) ?_
  rintro v m hv hm ⟨hnodup, hdrained⟩
  have hkeep : ∀ c ∈ v.drains, (v.move m).IsDrained c := by
    intro c hc
    obtain ⟨k, hk, hzero⟩ := isDrained_iff.1 (hdrained c hc)
    exact isDrained_iff.2 ⟨k, (hv.steps hm).closed hk (Int.le_of_eq hzero), hzero⟩
  rw [drains_move]
  rcases closes_move hm with hnil | ⟨c, x, r, hx, hrel, hone, hnone⟩
  · rw [hnil, List.append_nil]
    exact ⟨hnodup, hkeep⟩
  · rw [hone]
    constructor
    · -- a counter that has been at zero has nothing to give up
      rw [List.nodup_append_comm, List.singleton_append, List.nodup_cons]
      refine ⟨fun hc => ?_, hnodup⟩
      obtain ⟨y, hy, hzero⟩ := hdrained c hc
      obtain rfl := Option.some.inj (hy.symm.trans hx)
      have hpos := (Counter.count_release hrel).1
      omega
    · intro d hd
      rcases List.mem_append.1 hd with hd | hd
      · exact hkeep d hd
      · obtain rfl := List.mem_singleton.1 hd
        rcases serves_move hv hm with hserves | ⟨_, hnil, _⟩
        · rw [hone, hnone, List.nil_append] at hserves
          refine ((hv.move hm).of_queued (c := d) ?_).1
          rw [hserves]
          simp
        · rw [hnil] at hone
          cases hone

/-- An event that says that a context completes says that its channel fires. -/
theorem completes?_eq_some {e : Event} {c : ContextNo} :
    e.completes? = some c ↔ ∃ v, e.carries? (.completion c) = some v := by
  cases e with
  | fired ch v =>
    cases ch with
    | completion d => by_cases hd : d = c <;> simp [Event.completes?, Event.carries?, hd]
    | _ => simp [Event.completes?, Event.carries?]
  | _ => simp [Event.completes?, Event.carries?]

/-- A context has completed exactly if it is among the completions. -/
theorem Reachable.mem_completions (h : w.Reachable t) {c : ContextNo} :
    c ∈ w.completions ↔ w.isFired (.completion c) = true := by
  obtain ⟨threshold, moves, _, rfl⟩ := h
  have hvalue := value?_run threshold moves (.completion c) nofun
  have hrun : (within t).run (start threshold) moves = machine.run (start threshold) moves := rfl
  rw [hrun, completions_eq, isFired, hvalue, List.findSome?_isSome_iff, List.mem_filterMap]
  simp only [completes?_eq_some, Option.isSome_iff_exists]

/-! ## What waits in the queue -/

/-- A counter is at zero exactly if it was noted to have reached it. -/
theorem Reachable.mem_drains (h : w.Reachable t) {c : ContextNo} : c ∈ w.drains ↔ w.IsDrained c := by
  refine ⟨h.drains_once.2 c, ?_⟩
  refine h.induction (P := fun w => w.IsDrained c → c ∈ w.drains) (fun _ => ?_) ?_
  · rintro ⟨x, hx, _⟩
    cases hx
  · intro v m hv hm ih hdrained
    rw [drains_move, List.mem_append]
    obtain ⟨k, hk, hzero⟩ := isDrained_iff.1 hdrained
    rcases (hv.orderly.dealt hm).emptied hk hzero with hold | hqueued
    · exact .inl (ih (isDrained_iff.2 ⟨k, hold, hzero⟩))
    · -- whoever is in the queue was there before, or has been noted to enter it
      have hqueued : c ∈ (v.move m).queue.getD [] := hqueued
      rcases serves_move hv.orderly hm with hserves | ⟨_, _, hnone⟩
      · have hmem := List.mem_append_right ((v.notes m).filterMap Event.completes?) hqueued
        rw [hserves] at hmem
        exact (List.mem_append.1 hmem).imp (fun hold => ih (hv.orderly.of_queued hold).1) id
      · rw [hnone] at hqueued
        cases hqueued

/-- On strict terms a context whose counter is at zero has completed or waits in the queue. -/
theorem Reachable.isDrained_iff_of_strict (h : w.Reachable t) (ht : t.strict = true)
    {c : ContextNo} : w.IsDrained c ↔ c ∈ w.completions ∨ c ∈ w.queue.getD [] := by
  rw [← List.mem_append, h.served_all ht, h.mem_drains]

/-- What was drained stays drained. -/
theorem drains_grow (w : World) (moves : List Move) :
    w.drains <+: (machine.run w moves).drains := by
  induction moves generalizing w with
  | nil => exact List.prefix_rfl
  | cons m moves ih =>
    refine List.IsPrefix.trans ?_ (ih (w.move m))
    rw [drains_move]
    exact List.prefix_append _ _

/-- In range, a counter that is not open is at zero. -/
theorem refuses_addChild (hturn : w.isClientsTurn = true) (hr : w.inRange = true) {c : ContextNo}
    {x : Context} (hx : w.contexts[c]? = some x) :
    w.Refuses (.addChild c) ↔ x.slots.count = 0 := by
  obtain ⟨hclosed, hopen⟩ := answers_addChild hx
  have hnonneg := nonneg_of_inRange hr hx
  constructor
  · rintro ⟨text, hanswer⟩
    by_contra hne
    cases (hopen (by omega)).unique hturn hanswer
  · intro hzero
    exact ⟨_, hclosed (Int.le_of_eq hzero)⟩

theorem refuses_createChild (hturn : w.isClientsTurn = true) (hr : w.inRange = true) {c : ContextNo}
    {x : Context} (hx : w.contexts[c]? = some x) (location : Location) (handler : Option Nat)
    (correlation : Option String)
    (hr' : (w.call (.createChild c (some location) handler correlation)).inRange = true) :
    w.Refuses (.createChild c (some location) handler correlation) ↔ x.slots.count = 0 := by
  obtain ⟨hclosed, hopen⟩ := answers_createChild hx hturn location handler correlation
  have hnonneg := nonneg_of_inRange hr hx
  constructor
  · rintro ⟨text, hanswer⟩
    by_contra hne
    rcases hopen (by omega) hr' with hnew | ⟨id, hused⟩
    · cases hnew.unique hturn hanswer
    · cases hused.unique hturn hanswer
  · intro hzero
    exact ⟨_, hclosed (Int.le_of_eq hzero)⟩

/-- Whoever is in the queue has completed when the outermost call has returned. -/
theorem Reachable.completes_queued (h : w.Reachable t) {c : ContextNo} (hc : c ∈ w.queue.getD [])
    {moves : List Move} (hstrict : (machine.run w moves).Reachable { matched := true, bounded := true })
    (idle : (machine.run w moves).stack = []) :
    (machine.run w moves).isFired (.completion c) = true := by
  have hall := hstrict.served_all rfl
  rw [hstrict.orderly.queue_none idle, Option.getD_none, List.append_nil] at hall
  rw [← hstrict.mem_completions, hall]
  apply (drains_grow w moves).subset
  exact h.served.subset (List.mem_append_right _ hc)

/-- Whoever had registered for a completion is told of it before the next completion fires. -/
theorem Reachable.observed_last_history (h : w.Reachable t) {before after : List Event}
    {c : ContextNo} {l : Nat} {v : Value}
    (hsplit : w.history.toList = before ++ .observed (.completion c) l v :: after) :
    (before.filterMap Event.completes?).getLast? = some c := by
  have htellings : w.tellings = before.filter Event.isTelling ++
      .observed (.completion c) l v :: after.filter Event.isTelling := by
    rw [tellings, hsplit, List.filter_append, List.filter_cons_of_pos rfl]
  have hlast := h.observed_last _ c l v _ htellings
  rw [List.filterMap_filter] at hlast
  rw [← hlast]
  congr 1
  apply List.filterMap_congr
  intro e _
  cases e <;> rfl

theorem pending_eq_zero {c : Counter} : c.pending = 0 ↔ c.count = 0 := by
  rw [← Int32.toInt_inj]
  rfl

/-- **Completions are serialised in the order in which the counters reach zero.** At every moment of a
run:

* counters reach zero once, and completions fire in that order, with those that are still to fire in the
  queue;
* whoever is told of a completion that fires is told before the next one fires, and while one is told
  none fires;
* nothing waits in the queue when the outermost call has returned;
* a counter is at zero exactly if the completion has fired or the context waits in the queue, and in
  these cases alone no one may join the context any more;
* whoever waits in the queue completes before the outermost call returns, in any continuation, and there
  are continuations without any further call.

Where it matters, no counter has been asked to count more than it can. -/
theorem completions_serialised (h : w.Reachable { matched := true, bounded := false }) :
    (w.drains.Nodup ∧ (w.completions ++ w.queue.getD []).Sublist w.drains ∧
      (w.inRange = true → w.completions ++ w.queue.getD [] = w.drains)) ∧
    ((∀ before c l v after, w.history.toList = before ++ .observed (.completion c) l v :: after →
        (before.filterMap Event.completes?).getLast? = some c) ∧
      (∀ c ∈ w.announcing, w.announcing = [c] ∧ w.completions.getLast? = some c) ∧
      ∀ m, (within { matched := true, bounded := false }).allows w m = true →
        (w.move m).completions ≠ w.completions → w.announcing = []) ∧
    (w.stack = [] → w.queue = none) ∧
    (w.inRange = true → ∀ c x, w.contexts[c]? = some x →
      (x.slots.pending = 0 ↔ w.isFired (.completion c) = true ∨ c ∈ w.queue.getD []) ∧
      (w.isClientsTurn = true →
        (w.Refuses (.addChild c) ↔ x.slots.pending = 0) ∧
        ∀ location handler correlation,
          (w.call (.createChild c (some location) handler correlation)).inRange = true →
            (w.Refuses (.createChild c (some location) handler correlation) ↔
              x.slots.pending = 0))) ∧
    ∀ c ∈ w.queue.getD [],
      (∀ moves, (within { matched := true, bounded := false }).legal w moves = true →
        (machine.run w moves).inRange = true → (machine.run w moves).stack = [] →
          (machine.run w moves).isFired (.completion c) = true) ∧
      (w.inRange = true →
        ∃ moves, (within { matched := true, bounded := false }).legal w moves = true ∧
          (∀ m ∈ moves, m.isCall = false) ∧ (machine.run w moves).stack = [] ∧
            (machine.run w moves).isFired (.completion c) = true) := by
  have hstrict : w.inRange = true → w.Reachable { matched := true, bounded := true } := h.bounded
  refine ⟨⟨h.drains_once.1, h.served, fun hr => (hstrict hr).served_all rfl⟩, ⟨?_, h.announcing, ?_⟩,
    h.orderly.queue_none, ?_, ?_⟩
  · intro before c l v after hsplit
    exact h.observed_last_history hsplit
  · intro m hm hne
    rcases completes_notes hm with hnil | ⟨c, rest, hs, _⟩
    · rw [completions_move, hnil, List.append_nil] at hne
      exact absurd rfl hne
    · exact h.orderly.order.announcing_le.2 rest hs
  · intro hr c x hx
    have hzero : x.slots.pending = 0 ↔ x.slots.count = 0 := pending_eq_zero
    have hdrained : w.IsDrained c ↔ x.slots.count = 0 := by
      constructor
      · rintro ⟨y, hy, hy0⟩
        obtain rfl := Option.some.inj (hy.symm.trans hx)
        exact hy0
      · exact fun h0 => ⟨x, hx, h0⟩
    refine ⟨?_, fun hturn => ⟨?_, ?_⟩⟩
    · rw [hzero, ← hdrained, (hstrict hr).isDrained_iff_of_strict rfl, h.mem_completions]
    · rw [hzero]
      exact refuses_addChild hturn hr hx
    · intro location handler correlation hr'
      rw [hzero]
      exact refuses_createChild hturn hr hx location handler correlation hr'
  · intro c hc
    constructor
    · intro moves hlegal hr idle
      exact h.completes_queued hc ((h.run hlegal).bounded hr) idle
    · intro hr
      obtain ⟨moves, hlegal, hcalls, idle⟩ := (hstrict hr).orderly.returns
      exact ⟨moves, legal_of_no_calls hlegal hcalls, hcalls, idle,
        h.completes_queued hc ((hstrict hr).run hlegal) idle⟩

/-- A parent with a child, and another root, which an observer of the child's completion finishes. -/
def serialMoves : List Move :=
  [Move.call (.createRoot { origin := .bridge "a" "" (some 0), location := some ⟨"box", "a"⟩ }), .advance,
    .call (.createChild 0 (some ⟨"box", "b"⟩) none none), .advance,
    .call (.createRoot { origin := .bridge "c" "" (some 0), location := some ⟨"box", "c"⟩ }), .advance,
    .call (.subscribe (.completion 1) (some 7) []), .call (.success 1 none)] ++
    List.replicate 7 Move.advance ++ [Move.call (.success 2 none)] ++ List.replicate 6 Move.advance

/-- In the middle of telling the first completion the second context waits in the queue. -/
theorem completions_serialised_reentrant : ∃ w : World,
    w.Reachable { matched := true, bounded := false } ∧ w.announcing = [1] ∧
      w.drains = [1, 2] ∧ w.queue = some [2] ∧
        ∃ moves, (within { matched := true, bounded := false }).legal w moves = true ∧
          (∀ m ∈ moves, m.isCall = false) ∧ (machine.run w moves).stack = [] ∧
            (machine.run w moves).isFired (.completion 2) = true := by
  have legal : (within { matched := true, bounded := false }).legal start serialMoves = true := by
    decide +kernel
  have queued : ((within { matched := true, bounded := false }).run start serialMoves).queue =
      some [2] := by decide +kernel
  have reachable : ((within { matched := true, bounded := false }).run start serialMoves).Reachable
      { matched := true, bounded := false } := ⟨_, _, legal, rfl⟩
  have waits : 2 ∈ ((within { matched := true, bounded := false }).run start serialMoves).queue.getD
      [] := by
    rw [queued]
    exact List.mem_singleton_self 2
  exact ⟨_, reachable, by decide +kernel, by decide +kernel, queued,
    ((completions_serialised reachable).2.2.2.2 2 waits).2 (by decide +kernel)⟩

/-- The counter must not have overflowed. If it has, the context takes nobody any more, although its counter
is not at zero. -/
theorem overrun_refuses_participants : ¬ ∀ (w : World) (c : ContextNo) (x : Context),
    w.Reachable { matched := true, bounded := false } → w.contexts[c]? = some x →
      w.isClientsTurn = true → (w.Refuses (.addChild c) ↔ x.slots.pending = 0) := by
  intro hclaim
  obtain ⟨x, hx, hcount⟩ := count_overrun
  have hrefuses := (answers_addChild hx).1 (by omega)
  have hzero := (hclaim _ 0 x reachable_overrun hx (by decide +kernel)).1 ⟨_, hrefuses⟩
  rw [pending_eq_zero] at hzero
  omega

end World

end FanIn
