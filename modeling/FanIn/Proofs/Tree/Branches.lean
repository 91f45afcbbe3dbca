import Mathlib.Algebra.Order.BigOperators.Group.Finset
import FanIn.Proofs.Tree.Inheritance
import FanIn.Proofs.Tree.Numbering
import FanIn.Proofs.Tree.Promises

/-!
# Branches that report

All contexts of a tree share what has been collected of the time they spent, if the flow that the root was
created from asks for it. Each context reports once, when its outcome begins to be published: at once if it
has succeeded, and if it has failed not before the handler's outcome is known. A terminal call that comes
too late reports nothing, and a context that was destroyed has reported all the same.

Main statement: `branches_report_once`. Nothing is asked of clients.
-/

namespace FanIn

/-- The flow that a root was created from, if it collects the time spent. -/
def RootSpec.collector? (spec : RootSpec) : Option Flow :=
  match spec.origin with
  | .flow flow _ => flow.filter Flow.statistics
  | .bridge .. => none

/-- Whether the outcome of a context began to be published. -/
def Event.isPublishingOf (c : ContextNo) : Event → Bool
  | publishing d _ => d == c
  | _ => false

namespace World

/-- What a tree has collected: for which flow, and from how many branches. -/
def tally (w : World) (tree : Nat) : Option (String × UInt64) :=
  ((w.trees[tree]?).bind Tree.effort).map fun e => (e.flow, e.branches)

/-- Whether the outcome of a context has begun to be published. -/
def hasReported (w : World) (c : ContextNo) : Bool := w.chronicle.any (Event.isPublishingOf c)

/-- The contexts of the tree of a root that have reported, whatever has become of them. -/
def reporters (w : World) (r : ContextNo) : Finset ContextNo :=
  (Finset.range w.contexts.size).filter fun c => w.rootOf c = r ∧ w.hasReported c = true

/-- The handler's outcome for the error of a context is not known: the handler runs, or the signal that it
returned has not fired, or has fired and the error is yet to be told. -/
inductive Outstanding (w : World) (c : ContextNo) : Prop
  | asked {n : Nat} {e : Failure} {result : SignalNo} : .handler n c e result ∈ w.stack → Outstanding w c
  | waiting {s : SignalNo} {k : UInt64} {e : Failure} {result : SignalNo} :
      (k, .settleError c e result) ∈ w.observers (.signal s) → Outstanding w c
  | notified {ch : ChannelRef} {replay : Bool} {v : Value} {todo spent : List Observer} {e : Failure}
      {result : SignalNo} : .deliver ch replay v todo spent ∈ w.stack →
      .settleError c e result ∈ todo → Outstanding w c

variable {w : World} {m : Move} {c r : ContextNo}

theorem effort_tree (spec : RootSpec) :
    spec.tree.effort = spec.collector?.map fun flow => { flow := flow.name } := by
  obtain ⟨origin, location, correlation, link, settings⟩ := spec
  cases origin with
  | bridge id serverId handler => rfl
  | flow flow fresh =>
    cases flow with
    | none => rfl
    | some flow => cases h : flow.statistics <;> simp [RootSpec.tree, RootSpec.collector?, Option.filter, h]

/-! ## What trees collect -/

/-- A tree collects what a branch reports, and nothing else. -/
theorem tally_move {t : Nat} (ht : t < w.trees.size) (m : Move) :
    (w.move m).tally t = (w.marked m).tally t := by
  rcases m.enters_cases with ⟨call, rfl, hc⟩ | hnone
  · have hmarked : w.marked (.call call) = w := by cases call <;> first | rfl | cases hc
    have henters := enters_call (w := w) hc
    have hrecord : (w.move (.call call)).tally t =
        (((w.call call).record.trees[t]?).bind Tree.effort).map fun e => (e.flow, e.branches) := rfl
    have hnumbered : ∀ i : Nat, ((w.trees.modify i fun t => { t with numbered := t.numbered + 1 })[t]?).bind
        Tree.effort = (w.trees[t]?).bind Tree.effort := fun i => by
      rw [Array.getElem?_modify]
      split
      · cases w.trees[t]? <;> rfl
      · rfl
    rw [hrecord, hmarked, tally]
    generalize (w.call call).record = R at henters
    cases henters with
    | refused quiet => rfl
    | root valid free => rw [Array.getElem?_push, if_neg (Nat.ne_of_lt ht)]
    | child hx taken free => rw [hnumbered]
    | rejected hx taken used => rw [hnumbered]
  · refine Endures.move (P := fun v => v.tally t = (w.marked m).tally t) ⟨fun h hR => ?_, fun h _ => ?_⟩ rfl
      hnone (.inr fun _ _ h => h)
    · have htrees := congrArg Record.trees hR
      rw [← h, tally, tally]
      exact congrArg (fun trees : Array Tree => ((trees[t]?).bind Tree.effort).map _) htrees
    · rw [← h, tally, trees_destroy, tally]

/-- One more branch reports. -/
theorem tally_reportBranch {x : Context} (hx : w.contexts[c]? = some x) (t : Nat) :
    (w.reportBranch c).tally t =
      if x.tree = t then (w.tally t).map fun e => (e.1, e.2 + 1) else w.tally t := by
  unfold reportBranch tally
  rw [hx]
  simp only [Array.getElem?_modify]
  split
  · cases ht : w.trees[t]? with
    | none => simp
    | some tree => cases he : tree.effort <;> simp [he, Effort.add]
  · rfl

/-! ## Who has reported -/

theorem hasReported_iff : w.hasReported c = true ↔ ∃ r, .publishing c r ∈ w.chronicle := by
  simp only [hasReported, List.any_eq_true]
  constructor
  · rintro ⟨e, he, hc⟩
    cases e with
    | publishing d r =>
      obtain rfl : d = c := by simpa [Event.isPublishingOf] using hc
      exact ⟨r, he⟩
    | _ => cases hc
  · rintro ⟨r, hr⟩
    exact ⟨_, hr, by simp [Event.isPublishingOf]⟩

/-- Promises are made of outcomes that are decided. -/
theorem Faithful.state_of_promise (h : w.Faithful) {s : State} (hs : s ≠ .pending)
    (hpos : 0 < w.promises (c, s) + w.publications (c, s)) : w.stateOf c = s := by
  by_contra hne
  have hsettled := h.settled (c, s) hs
  rw [if_neg hne] at hsettled
  omega

theorem publications_pos {s : State} :
    0 < w.publications (c, s) ↔ ∃ r, .publishing c r ∈ w.chronicle ∧ r.state = s := by
  simp only [publications, List.countP_pos_iff]
  constructor
  · rintro ⟨e, he, hp⟩
    cases e with
    | publishing d r =>
      obtain ⟨rfl, rfl⟩ : c = d ∧ s = r.state := by simpa [Event.publishes] using hp
      exact ⟨r, he, rfl⟩
    | _ => cases hp
  · rintro ⟨r, hr, rfl⟩
    exact ⟨_, hr, by simp [Event.publishes]⟩

/-- What publishes an outcome is on top. -/
theorem Prompt.respond_iff {stack : List Frame} (h : Prompt stack) {r : Response} :
    .respond c r ∈ stack ↔ ∃ rest, stack = .respond c r :: rest := by
  cases stack with
  | nil => simp
  | cons f rest =>
    rw [List.mem_cons]
    constructor
    · rintro (rfl | hmem)
      · exact ⟨rest, rfl⟩
      · cases h _ hmem
    · rintro ⟨rest', heq⟩
      exact .inl (List.cons.inj heq).1.symm

theorem promised_pos {p : ContextNo × State} {stack : List Frame} :
    0 < promised p stack ↔ ∃ f ∈ stack, 0 < f.promises p := by
  induction stack with
  | nil => simp
  | cons f rest ih => simp [promised_cons, ih]

theorem pledged_pos {p : ContextNo × State} :
    0 < w.pledged p ↔ ∃ s e, e ∈ w.observers (.signal s) ∧ e.2.promises p = true := by
  simp only [pledged, Finset.sum_pos_iff, Finset.mem_range, pledgedAt, List.countP_pos_iff]
  constructor
  · rintro ⟨s, -, e, he, hp⟩
    exact ⟨s, e, he, hp⟩
  · rintro ⟨s, e, he, hp⟩
    refine ⟨s, ?_, e, he, hp⟩
    by_contra hs
    simp [observers, hs] at he

theorem Observer.promises_iff {o : Observer} {p : ContextNo × State} :
    o.promises p = true ↔ ∃ e result, o = .settleError p.1 e result ∧ p.2 = .failed := by
  cases o with
  | settleError d e result =>
    obtain ⟨c, s⟩ := p
    constructor
    · intro hp
      obtain ⟨rfl, rfl⟩ : c = d ∧ s = .failed := by simpa [Observer.promises] using hp
      exact ⟨e, result, rfl, rfl⟩
    · rintro ⟨e', result', heq, rfl⟩
      cases heq
      exact beq_self_eq_true _
  | _ => simp [Observer.promises]

/-- Whatever is promised is that the handling of an error will end, or is about to be published. -/
theorem promises_pos {s : State} : 0 < w.promises (c, s) ↔
    (s = .failed ∧ w.Outstanding c) ∨ ∃ r, .respond c r ∈ w.stack ∧ r.state = s := by
  rw [promises, Nat.add_pos_iff_pos_or_pos, promised_pos, pledged_pos]
  constructor
  · rintro (⟨f, hf, hpos⟩ | ⟨i, ⟨k, o⟩, he, hp⟩)
    · cases f with
      | handler n d e result =>
        obtain ⟨rfl, rfl⟩ : c = d ∧ s = .failed := by
          simpa [Frame.promises, Nat.pos_iff_ne_zero] using hpos
        exact .inl ⟨rfl, .asked hf⟩
      | deliver ch replay v todo spent =>
        obtain ⟨o, ho, hp⟩ := List.countP_pos_iff.1 hpos
        obtain ⟨e, result, rfl, hs⟩ := Observer.promises_iff.1 hp
        exact .inl ⟨hs, .notified hf ho⟩
      | respond d r =>
        obtain ⟨rfl, rfl⟩ : c = d ∧ s = r.state := by
          simpa [Frame.promises, Nat.pos_iff_ne_zero] using hpos
        exact .inr ⟨r, hf, rfl⟩
      | _ => exact absurd hpos (Nat.lt_irrefl 0)
    · obtain ⟨e, result, rfl, hs⟩ := Observer.promises_iff.1 hp
      exact .inl ⟨hs, .waiting he⟩
  · rintro (⟨rfl, hout⟩ | ⟨r, hr, rfl⟩)
    · cases hout with
      | asked hf => exact .inl ⟨_, hf, by simp [Frame.promises]⟩
      | waiting he => exact .inr ⟨_, _, he, by simp [Observer.promises]⟩
      | notified hf ho =>
        exact .inl ⟨_, hf, List.countP_pos_iff.2 ⟨_, ho, by simp [Observer.promises]⟩⟩
    · exact .inl ⟨_, hr, by simp [Frame.promises]⟩

/-- The handling of an error is outstanding only if the context has failed. -/
theorem Faithful.failed (h : w.Faithful) (hout : w.Outstanding c) : w.stateOf c = .failed := by
  have hpos : 0 < w.promises (c, .failed) := promises_pos.2 (.inl ⟨rfl, hout⟩)
  exact h.state_of_promise nofun (by omega)

/-- **Who has reported.** A context has, unless it is pending, or the handling of its error is outstanding,
or its outcome is published next. -/
theorem Faithful.hasReported_iff (h : w.Faithful) : w.hasReported c = true ↔
    w.stateOf c ≠ .pending ∧ ¬ w.Outstanding c ∧ ¬ ∃ r rest, w.stack = .respond c r :: rest := by
  constructor
  · intro hc
    obtain ⟨r, hr⟩ := World.hasReported_iff.1 hc
    have hpublished : 0 < w.publications (c, r.state) := publications_pos.2 ⟨r, hr, rfl⟩
    have hstate := h.state_of_promise r.state_ne_pending (Nat.lt_add_left _ hpublished)
    have hsettled := h.settled (c, r.state) r.state_ne_pending
    rw [if_pos hstate] at hsettled
    refine ⟨hstate ▸ r.state_ne_pending, fun hout => ?_, ?_⟩
    · have hpos : 0 < w.promises (c, .failed) := promises_pos.2 (.inl ⟨rfl, hout⟩)
      rw [← h.failed hout, hstate] at hpos
      omega
    · rintro ⟨r', rest, hs⟩
      have hpos : 0 < w.promises (c, r'.state) := promises_pos.2 (.inr ⟨r', hs ▸ List.mem_cons_self, rfl⟩)
      rw [← h.state_of_promise r'.state_ne_pending (Nat.lt_add_right _ hpos), hstate] at hpos
      omega
  · rintro ⟨hdecided, hout, hnext⟩
    have hsettled := h.settled (c, w.stateOf c) hdecided
    rw [if_pos rfl] at hsettled
    have hnone : ¬ 0 < w.promises (c, w.stateOf c) := by
      rw [promises_pos]
      rintro (⟨-, hout'⟩ | ⟨r, hr, -⟩)
      · exact hout hout'
      · obtain ⟨rest, hs⟩ := h.prompt.respond_iff.1 hr
        exact hnext ⟨r, rest, hs⟩
    have hpublished : 0 < w.publications (c, w.stateOf c) := by omega
    obtain ⟨r, hr, -⟩ := publications_pos.1 hpublished
    exact World.hasReported_iff.2 ⟨r, hr⟩

/-- The outcome of a context is published once. -/
theorem Faithful.published_once (h : w.Faithful) (c : ContextNo) :
    w.chronicle.countP (Event.isPublishingOf c) ≤ 1 := by
  have hsplit : w.chronicle.countP (Event.isPublishingOf c) =
      w.publications (c, .succeeded) + w.publications (c, .failed) := by
    unfold publications
    induction w.chronicle with
    | nil => rfl
    | cons e events ih =>
      simp only [List.countP_cons, ih]
      cases e with
      | publishing d r =>
        by_cases hd : d = c
        · cases hr : r.state with
          | pending => exact absurd hr r.state_ne_pending
          | succeeded => simp [Event.isPublishingOf, Event.publishes, hd, hr]; omega
          | failed => simp [Event.isPublishingOf, Event.publishes, hd, hr]; omega
        · simp [Event.isPublishingOf, Event.publishes, hd, Ne.symm hd]
      | _ => simp [Event.isPublishingOf, Event.publishes]
  have hsettled (s : State) (hs : s ≠ .pending) :
      w.publications (c, s) ≤ if w.stateOf c = s then 1 else 0 :=
    h.settled (c, s) hs ▸ Nat.le_add_left _ _
  calc w.chronicle.countP (Event.isPublishingOf c)
      ≤ (if w.stateOf c = .succeeded then 1 else 0) + if w.stateOf c = .failed then 1 else 0 :=
        hsplit ▸ Nat.add_le_add (hsettled .succeeded (by decide)) (hsettled .failed (by decide))
    _ ≤ 1 := by cases w.stateOf c <;> decide

theorem lt_of_stateOf (h : w.stateOf c ≠ .pending) : c < w.contexts.size := by
  obtain ⟨x, hx, -⟩ := exists_of_stateOf h
  exact lt_of_getElem?_eq_some hx

theorem Faithful.mem_reporters (h : w.Faithful) :
    c ∈ w.reporters r ↔ w.rootOf c = r ∧ w.hasReported c = true := by
  simp only [reporters, Finset.mem_filter, Finset.mem_range]
  refine ⟨And.right, fun hc => ⟨?_, hc⟩⟩
  exact lt_of_stateOf (h.hasReported_iff.1 hc.2).1

/-! ## Moves -/

/-- Whether a move publishes the outcome of a context. -/
def Reports (w : World) (m : Move) (c : ContextNo) : Prop := m = .advance ∧ ∃ r rest, w.stack = .respond c r :: rest

theorem hasReported_move (m : Move) (c : ContextNo) :
    (w.move m).hasReported c = true ↔ w.hasReported c = true ∨ w.Reports m c := by
  have hnotes : (∃ r, .publishing c r ∈ w.notes m) ↔ w.Reports m c := by
    constructor
    · rintro ⟨r, hr⟩
      have hpos : 0 < (w.notes m).countP (Event.publishes (c, r.state)) :=
        List.countP_pos_iff.2 ⟨_, hr, by simp [Event.publishes]⟩
      cases m with
      | advance =>
        refine ⟨rfl, ?_⟩
        rw [show w.notes .advance = w.workNotes from rfl, publishes_workNotes, publishing] at hpos
        split at hpos
        · rename_i d r' rest hs
          obtain ⟨rfl, -⟩ : c = d ∧ r.state = r'.state := by
            simpa [Frame.promises, Nat.pos_iff_ne_zero] using hpos
          exact ⟨r', rest, hs⟩
        · exact absurd hpos (Nat.lt_irrefl 0)
      | call call => exact absurd (publishes_callNotes call) (Nat.ne_of_gt hpos)
      | finish thrown => cases hr
      | handled a => cases hr
    · rintro ⟨rfl, r, rest, hs⟩
      exact ⟨r, by simp [notes, workNotes, hs]⟩
  rw [World.hasReported_iff, World.hasReported_iff, ← hnotes, chronicle_move]
  simp only [List.mem_append, exists_or]

/-- Whoever reports with a move has not reported before. -/
theorem Faithful.of_reports (h : w.Faithful) (hc : w.Reports m c) :
    w.hasReported c = false ∧ c < w.contexts.size := by
  obtain ⟨-, r, rest, hs⟩ := hc
  constructor
  · refine Bool.eq_false_iff.2 fun hreported => ?_
    exact (h.hasReported_iff.1 hreported).2.2 ⟨r, rest, hs⟩
  · have hpos : 0 < w.promises (c, r.state) := promises_pos.2 (.inr ⟨r, hs ▸ List.mem_cons_self, rfl⟩)
    have hstate := h.state_of_promise r.state_ne_pending (Nat.lt_add_right _ hpos)
    exact lt_of_stateOf (hstate ▸ r.state_ne_pending)

/-- One more has reported after a move, if one reports with it. -/
theorem Faithful.mem_reporters_move (h : w.Faithful) (ha : w.Aged) (hm : w.allows m = true) :
    c ∈ (w.move m).reporters r ↔ c ∈ w.reporters r ∨ w.rootOf c = r ∧ w.Reports m c := by
  rw [(h.move hm).mem_reporters, h.mem_reporters, hasReported_move]
  have hroot : w.hasReported c = true ∨ w.Reports m c → (w.move m).rootOf c = w.rootOf c := by
    rintro (hc | hc)
    · exact rootOf_move ha (lt_of_stateOf (h.hasReported_iff.1 hc).1) m
    · exact rootOf_move ha (h.of_reports hc).2 m
  constructor
  · rintro ⟨hr, hc⟩
    rw [hroot hc] at hr
    exact hc.imp (⟨hr, ·⟩) (⟨hr, ·⟩)
  · rintro (⟨hr, hc⟩ | ⟨hr, hc⟩)
    · exact ⟨(hroot (.inl hc)).trans hr, .inl hc⟩
    · exact ⟨(hroot (.inr hc)).trans hr, .inr hc⟩

/-- A move with which no branch reports leaves alone what trees have collected. -/
theorem tally_marked (h : ∀ c, ¬ w.Reports m c) (t : Nat) : (w.marked m).tally t = w.tally t := by
  cases m with
  | advance =>
    simp only [marked]
    split
    · rename_i c r rest hs
      exact absurd ⟨rfl, r, rest, hs⟩ (h c)
    · rfl
  | _ =>
    simp only [marked]
    cases w.decision? _ <;> rfl

/-! ## Runs -/

/-- Every tree whose root asks for it has collected how many of its contexts have reported, and no other
tree has collected anything. -/
def Tallied (w : World) (calls : List Call) : Prop :=
  ∀ (r : ContextNo) (p : Pedigree) (spec : RootSpec), w.descent.contexts[r]? = some p → p.parent = none →
    calls[r]? = some (.createRoot spec) →
    w.tally p.tree = spec.collector?.map fun flow => (flow.name, UInt64.ofNat (w.reporters r).card)

variable {calls : List Call} {p : Pedigree}

/-- What the tree of a root has collected after a move. -/
theorem Faithful.tally_root (h : w.Faithful) (ha : w.Aged) (hp : Planted w.descent)
    (hm : w.allows m = true) (hr : w.descent.contexts[r]? = some p) (hroot : p.parent = none)
    {flow? : Option Flow}
    (hold : w.tally p.tree = flow?.map fun flow => (flow.name, UInt64.ofNat (w.reporters r).card)) :
    (w.move m).tally p.tree =
      flow?.map fun flow => (flow.name, UInt64.ofNat ((w.move m).reporters r).card) := by
  have htree : p.tree < w.trees.size := size_descent_trees (w := w) ▸ hp.bound r p hr
  rw [tally_move htree]
  by_cases hreports : ∃ c, w.Reports m c
  · obtain ⟨c, hc⟩ := hreports
    obtain ⟨rfl, resp, rest, hs⟩ := hc
    obtain ⟨hfresh, hlt⟩ := h.of_reports (m := .advance) ⟨rfl, resp, rest, hs⟩
    obtain ⟨x, hx⟩ : ∃ x, w.contexts[c]? = some x := ⟨_, Array.getElem?_eq_getElem hlt⟩
    have hsame : w.rootOf c = r ↔ x.tree = p.tree :=
      hp.rootOf_eq_iff ha (pedigree_of_getElem? hx) hr hroot
    have honly : ∀ d, w.Reports .advance d ↔ d = c := by
      rintro d
      constructor
      · rintro ⟨-, resp', rest', hs'⟩
        cases hs.symm.trans hs'
        rfl
      · rintro rfl
        exact ⟨rfl, resp, rest, hs⟩
    have hmarked : w.marked .advance = w.reportBranch c := by simp only [marked, hs]
    rw [hmarked, tally_reportBranch hx, hold]
    by_cases hin : w.rootOf c = r
    · have hinsert : (w.move .advance).reporters r = insert c (w.reporters r) := by
        ext d
        rw [h.mem_reporters_move ha hm, honly, Finset.mem_insert]
        constructor
        · rintro (hd | ⟨-, rfl⟩)
          · exact .inr hd
          · exact .inl rfl
        · rintro (rfl | hd)
          · exact .inr ⟨hin, rfl⟩
          · exact .inl hd
      have hnew : c ∉ w.reporters r := fun hc => by
        cases hfresh.symm.trans (h.mem_reporters.1 hc).2
      rw [if_pos (hsame.1 hin), hinsert, Finset.card_insert_of_notMem hnew]
      cases flow? <;> simp
    · have hkeep : (w.move .advance).reporters r = w.reporters r := by
        ext d
        rw [h.mem_reporters_move ha hm, honly]
        refine ⟨?_, .inl⟩
        rintro (hd | ⟨hd, rfl⟩)
        · exact hd
        · exact absurd hd hin
      rw [if_neg fun heq => hin (hsame.2 heq), hkeep]
  · have hnone : ∀ c, ¬ w.Reports m c := fun c hc => hreports ⟨c, hc⟩
    have hkeep : (w.move m).reporters r = w.reporters r := by
      ext d
      rw [h.mem_reporters_move ha hm]
      simp [hnone d]
    rw [tally_marked hnone, hold, hkeep]

/-- A tree that has just come to be has collected nothing, if its root asks for it. -/
theorem Faithful.tally_newborn (h : w.Faithful) (ha : w.Aged) (hm : w.allows m = true)
    (hr : (w.move m).descent.contexts[w.contexts.size]? = some p) (hroot : p.parent = none)
    {spec : RootSpec} (hborn : w.born m = [.createRoot spec]) : (w.move m).tally p.tree =
      spec.collector?.map fun flow =>
        (flow.name, UInt64.ofNat ((w.move m).reporters w.contexts.size).card) := by
  have hnobody : (w.move m).reporters w.contexts.size = ∅ := by
    refine Finset.eq_empty_of_forall_notMem fun c hc => ?_
    have hlt : c < w.contexts.size ∧ w.rootOf c = w.contexts.size := by
      rcases (h.mem_reporters_move ha hm).1 hc with hc | ⟨hc, hreports⟩
      · have hc' := h.mem_reporters.1 hc
        exact ⟨lt_of_stateOf (h.hasReported_iff.1 hc'.2).1, hc'.1⟩
      · exact ⟨(h.of_reports hreports).2, hc⟩
    exact absurd (rootOf_le ha c) (Nat.not_le.2 (hlt.2 ▸ hlt.1))
  rw [hnobody, Finset.card_empty]
  cases m with
  | call call =>
    obtain rfl : call = .createRoot spec := by
      simp only [born] at hborn
      split at hborn
      · exact List.singleton_inj.1 hborn
      · cases hborn
    have henters : w.Enters (.createRoot spec) (w.call (.createRoot spec)).record := enters_call rfl
    have htally : ∀ t, (w.move (.call (.createRoot spec))).tally t =
        (((w.call (.createRoot spec)).record.trees[t]?).bind Tree.effort).map
          fun e => (e.flow, e.branches) := fun _ => rfl
    have hpedigree : (w.call (.createRoot spec)).record.contexts[w.contexts.size]?.map Standing.pedigree =
        some p := by
      rw [← hr, getElem?_record, Option.map_map, World.move, getElem?_descent_contexts]
      rfl
    rw [htally]
    generalize (w.call (.createRoot spec)).record = R at henters hpedigree
    cases henters with
    | refused quiet =>
      rw [getElem?_record, Array.getElem?_eq_none (Nat.le_refl _)] at hpedigree
      cases hpedigree
    | root valid free =>
      rw [Array.getElem?_push, if_pos size_record.symm] at hpedigree
      obtain rfl : (spec.build w.contexts.size w.trees.size).pedigree = p := Option.some.inj hpedigree
      rw [show (spec.build w.contexts.size w.trees.size).pedigree.tree = w.trees.size from rfl,
        Array.getElem?_push_size, Option.bind_some, effort_tree, Option.map_map]
      rfl
  | _ => cases hborn

theorem Tallied.move (h : w.Tallied calls) (hf : w.Faithful) (ha : w.Aged) (hp : Planted w.descent)
    (hrec : Recorded w calls) (hm : w.allows m = true) : (w.move m).Tallied (calls ++ w.born m) := by
  intro r p spec hr hroot hcall
  by_cases hold : r < w.contexts.size
  · obtain ⟨q, hq⟩ := exists_pedigree hold
    obtain rfl : q = p := Option.some.inj ((pedigree_lasts hq m).symm.trans hr)
    rw [List.getElem?_append_left (hrec.length.symm ▸ hold)] at hcall
    exact hf.tally_root ha hp hm hq hroot (h r q spec hq hroot hcall)
  · -- the call that created the root is the one that is made now
    rw [List.getElem?_append_right (hrec.length.trans_le (Nat.le_of_not_lt hold)), hrec.length] at hcall
    have hborn : w.born m = [.createRoot spec] ∧ r = w.contexts.size := by
      cases m with
      | call call =>
        simp only [born] at hcall ⊢
        split at hcall
        · cases hi : r - w.contexts.size with
          | zero =>
            rw [hi] at hcall
            rename_i hgrows
            rw [if_pos hgrows]
            cases hcall
            exact ⟨rfl, Nat.le_antisymm (Nat.sub_eq_zero_iff_le.1 hi) (Nat.le_of_not_lt hold)⟩
          | succ i =>
            rw [hi] at hcall
            cases hcall
        · cases hcall
      | _ => cases hcall
    obtain ⟨hborn, rfl⟩ := hborn
    exact hf.tally_newborn ha hm hr hroot hborn

theorem creations_concat (w : World) (moves : List Move) (m : Move) :
    w.creations (moves ++ [m]) = w.creations moves ++ (machine.run w moves).born m := by
  induction moves generalizing w with
  | nil => simp [creations]
  | cons m' moves ih =>
    rw [List.cons_append, creations, creations, ih, List.append_assoc]
    rfl

theorem tallied_run {threshold : Log.Level} {moves : List Move}
    (h : machine.legal (start threshold) moves = true) :
    (machine.run (start threshold) moves).Tallied ((start threshold).creations moves) := by
  have hrun := machine.run_induction (s := start threshold)
    (P := fun moves w => w.Faithful ∧ w.Tallied ((start threshold).creations moves))
    ⟨faithful_start threshold, fun r p spec _ _ hcall => by cases hcall⟩
    (fun moves m hw hm => ⟨hw.1.move hm, by
      rw [creations_concat]
      exact hw.2.move hw.1 (parents_older threshold moves) (planted_run threshold moves)
        (recorded_run (recorded_start threshold) moves) hm⟩) h
  exact hrun.2

/-- A terminal call that comes too late promises and publishes nothing. -/
theorem Faithful.late (h : w.Faithful) (hm : w.allows m = true) {resp : Response}
    (hv : m.verdict? = some (c, resp)) (hc : w.stateOf c ≠ .pending) (p : ContextNo × State) :
    (w.move m).promises p = w.promises p ∧ (w.move m).publications p = w.publications p := by
  have hnone : w.decision? m = none := by
    cases hd : w.decision? m with
    | none => rfl
    | some v =>
      obtain ⟨d, r⟩ := v
      obtain ⟨x, hx, hpending⟩ := pending_of_decision hd
      obtain ⟨hv', -⟩ := Option.filter_eq_some_iff.1 hd
      obtain ⟨rfl, -⟩ := Prod.mk.inj (Option.some.inj (hv.symm.trans hv'))
      exact absurd ((stateOf_of_getElem? hx).trans hpending) hc
  have hmute : (w.notes m).countP (Event.publishes p) = 0 := by
    cases m with
    | call call => exact publishes_callNotes call
    | _ => cases hv
  have hmove := promises_move (p := p) h.reserved h.prompt hm
  have hdecisions : w.decisions p m = 0 := by rw [decisions, hnone]; rfl
  refine ⟨by omega, ?_⟩
  rw [publications, chronicle_move, List.countP_append, hmute]
  rfl

/-- **Every branch reports once.** Contexts have what was collected of their time in common exactly if they
have the same root. If the root was created from a flow that collects it, this is for that flow, and counts,
as a 64-bit number, the contexts of the tree whose outcome has begun to be published, whatever has become of
them; no other tree has collected anything. The outcome of a context is published once at most. It has been
exactly if it is decided, the handling of an error is not outstanding, and it is not what is done next; the
handling is outstanding of contexts that have failed only. A terminal call that comes too late leads to no
report. -/
theorem branches_report_once {threshold : Log.Level} {moves : List Move}
    (h : machine.legal (start threshold) moves = true) (hw : machine.run (start threshold) moves = w) :
    (∀ c d x y, w.contexts[c]? = some x → w.contexts[d]? = some y →
      (x.tree = y.tree ↔ w.rootOf c = w.rootOf d)) ∧
    (∀ c x, w.contexts[c]? = some x → ∃ spec,
      ((start threshold).creations moves)[w.rootOf c]? = some (.createRoot spec) ∧
      w.tally x.tree = spec.collector?.map fun flow =>
        (flow.name, UInt64.ofNat (w.reporters (w.rootOf c)).card)) ∧
    (∀ c, w.chronicle.countP (Event.isPublishingOf c) ≤ 1) ∧
    (∀ c, w.hasReported c = true ↔
      w.stateOf c ≠ .pending ∧ ¬ w.Outstanding c ∧ ¬ ∃ r rest, w.stack = .respond c r :: rest) ∧
    (∀ c, w.Outstanding c → w.stateOf c = .failed) ∧
    ∀ m c r, w.allows m = true → m.verdict? = some (c, r) → w.stateOf c ≠ .pending →
      ∀ p, (w.move m).promises p = w.promises p ∧ (w.move m).publications p = w.publications p := by
  subst hw
  have hfaithful := faithful_of_legal h
  have haged := parents_older threshold moves
  have hplanted := planted_run threshold moves
  have hrecorded := recorded_run (recorded_start threshold) moves
  refine ⟨fun c d x y hx hy => ?_, fun c x hx => ?_, hfaithful.published_once,
    fun c => hfaithful.hasReported_iff, fun c => hfaithful.failed,
    fun m c r hm hv hc => hfaithful.late hm hv hc⟩
  · obtain ⟨q, hq, hroot, htree⟩ := hplanted.tree_rootOf haged d _ (pedigree_of_getElem? hy)
    rw [hplanted.rootOf_eq_iff haged (pedigree_of_getElem? hx) hq hroot, ← htree]
    rfl
  · obtain ⟨spec, y, hspec, hy, -, -, -, htree⟩ := (hrecorded.inherits haged c x hx).root
    refine ⟨spec, hspec, ?_⟩
    have hroot : y.pedigree.parent = none :=
      (parentOf?_of_descent (pedigree_of_getElem? hy)).symm.trans (parentOf?_rootOf haged c)
    rw [htree]
    exact tallied_run h _ _ spec (pedigree_of_getElem? hy) hroot hspec

/-- Two branches of a tree that collects their time: one succeeds, and again in vain; the other one fails,
and its handler asks for time. -/
def timedMoves : List Move :=
  [Move.call (.createRoot
      { origin := .flow (some { name := "timed", handler := some 0, statistics := true }) "tree",
        location := some ⟨"box", "a"⟩ }), .advance,
    .call (.createChild 0 (some ⟨"box", "b"⟩) (some 0) none), .advance,
    .call (.createChild 0 (some ⟨"box", "c"⟩) (some 0) none), .advance,
    .call (.success 1 none)] ++ List.replicate 10 .advance ++
  [.call (.error 2 (some .outOfMemory)), .call (.makeSignal none), .advance, .handled (.signal 1),
    .advance, .call (.success 1 none)]

theorem branches_report_once_deferred : ∃ w : World, machine.run start timedMoves = w ∧
    machine.legal start timedMoves = true ∧ w.tally 0 = some ("timed", 1) ∧ (w.reporters 0).card = 1 ∧
    w.hasReported 1 = true ∧ w.Outstanding 2 ∧ w.hasReported 2 = false := by
  have hlegal : machine.legal start timedMoves = true := by decide +kernel
  obtain ⟨-, -, -, hreported, -, -⟩ := branches_report_once hlegal rfl
  have hidle : (machine.run start timedMoves).stack = [] := List.isEmpty_iff.1 (by decide +kernel)
  have hpromised : 0 < (machine.run start timedMoves).promises (2, .failed) := by decide +kernel
  have hwaiting : (machine.run start timedMoves).Outstanding 2 := by
    rcases promises_pos.1 hpromised with ⟨-, hout⟩ | ⟨r, hr, -⟩
    · exact hout
    · cases hidle ▸ hr
  refine ⟨_, rfl, hlegal, by decide +kernel, by decide +kernel, by decide +kernel, hwaiting, ?_⟩
  exact Bool.eq_false_iff.2 fun h => ((hreported 2).1 h).2.1 hwaiting

end World

end FanIn
