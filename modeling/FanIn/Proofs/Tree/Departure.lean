import Mathlib.Data.Set.Finite.Basic
import Mathlib.Order.WellFounded
import FanIn.Proofs.Tree.Custody
import FanIn.Proofs.Tree.Footing
import FanIn.Proofs.Tree.Overrun
import FanIn.Proofs.Tree.Retelling
import FanIn.Proofs.Tree.Tenure

/-!
# Letting go in silence

When a client gives a reference back, what nothing refers to any more is destroyed, and what only that
referred to, and so on. Nobody is called, no channel fires, and whatever survives stays as it is. All that
is seen is a warning for each context that had not completed.

What survives is said without the order in which things go. It is what can be reached, along references,
from what is referred to by a client, by the work under way or by the queue: `Accessible`. And, since
references are counted, it is what lies on a circle of references or behind one, whether or not anybody
could still get there: `Circled`. An observer that keeps the context it observes closes one.

Main statement: `drop_is_silent`. What is destroyed is given as a list, in the order in which it goes, with
the history and the registry read off it.
-/

namespace FanIn.World

open Stack Relation

variable {w w' v : World} {r q : Ref} {rs refs : List Ref}

/-! ## References -/

/-- A client, the work under way or the queue refers to something. -/
def Rooted (w : World) (r : Ref) : Prop :=
  0 < w.holders r ∨ Keeps w.stack r ∨ ∃ c ∈ w.queue.getD [], .context c = r

/-- Something that exists refers to something. -/
def Refers (w : World) (q r : Ref) : Prop := w.isLiveRef q = true ∧ r ∈ w.refsOf q

/-- Something can be reached from a root. -/
def Accessible (w : World) (r : Ref) : Prop := ∃ q, w.Rooted q ∧ ReflTransGen w.Refers q r

/-- Something can be reached from references that go round in a circle. -/
def Circled (w : World) (r : Ref) : Prop := ∃ q, TransGen w.Refers q q ∧ ReflTransGen w.Refers q r

theorem holds_iff : w.Holds r ↔ w.Rooted r ∨ ∃ q, w.Refers q r := by
  unfold Holds Rooted
  rw [or_assoc, or_assoc]
  refine or_congr Iff.rfl (or_congr Iff.rfl (or_congr Iff.rfl ?_))
  constructor
  · rintro (⟨c, x, hx, hl, hr⟩ | ⟨s, x, hx, hl, hr⟩)
    · exact ⟨.context c, by simp [isLiveRef, isLive, hx, hl], by simpa [refsOf, hx] using hr⟩
    · exact ⟨.signal s, by simp [isLiveRef, isLiveSignal, hx, hl], by simpa [refsOf, hx] using hr⟩
  · rintro ⟨q, hl, hr⟩
    cases q with
    | context c =>
      obtain ⟨x, hx, hxl⟩ := exists_of_isLive hl
      exact .inl ⟨c, x, hx, hxl, by simpa [refsOf, hx] using hr⟩
    | signal s =>
      obtain ⟨x, hx, hxl⟩ := exists_of_isLiveSignal hl
      exact .inr ⟨s, x, hx, hxl, by simpa [refsOf, hx] using hr⟩

/-- Whatever can be reached is a root, or is referred to by something else that can be reached. -/
theorem Accessible.holder (h : w.Accessible r) : w.Rooted r ∨ ∃ q, w.Accessible q ∧ w.Refers q r := by
  obtain ⟨q, hq, hpath⟩ := h
  rcases ReflTransGen.cases_tail hpath with rfl | ⟨p, hp, hr⟩
  · exact .inl hq
  · exact .inr ⟨p, ⟨q, hq, hp⟩, hr⟩

/-- Whatever is on a circle or behind one is referred to by something else of that kind. -/
theorem Circled.holder (h : w.Circled r) : ∃ q, w.Circled q ∧ w.Refers q r := by
  obtain ⟨q, hq, hpath⟩ := h
  rcases ReflTransGen.cases_tail hpath with rfl | ⟨p, hp, hr⟩
  · obtain ⟨p, hp, hr⟩ := TransGen.tail'_iff.1 hq
    exact ⟨p, ⟨_, hq, hp⟩, hr⟩
  · exact ⟨p, ⟨q, hq, hp⟩, hr⟩

/-- Nothing is a root if no client holds anything, and nothing is under way. -/
theorem not_rooted (hcontexts : w.contexts.all (·.holders == 0) = true)
    (hsignals : w.signals.all (·.holders == 0) = true) (idle : w.stack = []) (inactive : w.queue = none) :
    ¬ w.Rooted r := by
  rintro (hheld | ⟨f, hf, -⟩ | ⟨c, hc, -⟩)
  · cases r with
    | context c =>
      obtain ⟨x, hx, hpos⟩ := holders_context_pos.1 hheld
      obtain ⟨hlt, rfl⟩ := Array.getElem?_eq_some_iff.1 hx
      have hzero := beq_iff_eq.1 (Array.all_eq_true.1 hcontexts c hlt)
      omega
    | signal s =>
      obtain ⟨x, hx, hpos⟩ := holders_signal_pos.1 hheld
      obtain ⟨hlt, rfl⟩ := Array.getElem?_eq_some_iff.1 hx
      have hzero := beq_iff_eq.1 (Array.all_eq_true.1 hsignals s hlt)
      omega
  · rw [idle] at hf
    cases hf
  · rw [inactive] at hc
    cases hc

/-- Only so many things exist. -/
theorem finite_live (w : World) : {r | w.isLiveRef r = true}.Finite := by
  have hcontexts : (Ref.context '' Set.Iio w.contexts.size).Finite := (Set.finite_lt_nat _).image _
  have hsignals : (Ref.signal '' Set.Iio w.signals.size).Finite := (Set.finite_lt_nat _).image _
  refine (hcontexts.union hsignals).subset ?_
  intro r hr
  cases r with
  | context c =>
    obtain ⟨x, hx, -⟩ := exists_of_isLive hr
    exact .inl ⟨c, lt_of_getElem?_eq_some hx, rfl⟩
  | signal s =>
    obtain ⟨x, hx, -⟩ := exists_of_isLiveSignal hr
    exact .inr ⟨s, lt_of_getElem?_eq_some hx, rfl⟩

/-- If whatever exists is referred to, then whatever exists can be reached from a root or a circle. -/
theorem Kept.accessible_or_circled (h : w.Kept) (hr : w.isLiveRef r = true) :
    w.Accessible r ∨ w.Circled r := by
  by_contra hlost
  -- going back from `r` along references comes to no root, and never to the same place again
  let back : Set Ref := {q | w.isLiveRef q = true ∧ ReflTransGen w.Refers q r}
  have : Finite back := (w.finite_live.subset fun q hq => hq.1).to_subtype
  let before (p q : back) : Prop := TransGen w.Refers p q
  have : IsTrans back before := ⟨fun _ _ _ => TransGen.trans⟩
  have : Std.Irrefl before := ⟨fun q hcircle => hlost (.inr ⟨q, hcircle, q.2.2⟩)⟩
  obtain ⟨⟨q, hq, hpath⟩, -, hfirst⟩ :=
    (Finite.wellFounded_of_trans_of_irrefl before).has_min Set.univ ⟨⟨r, hr, .refl⟩, trivial⟩
  rcases holds_iff.1 (h.holds hq) with hroot | ⟨p, hp⟩
  · exact hlost (.inl ⟨q, hroot, hpath⟩)
  · exact hfirst ⟨p, hp.1, .head hp hpath⟩ trivial (.single hp)

/-! ## What one destruction leaves alone -/

theorem refsOf_destroy (h : q ≠ r) : (w.destroy r).refsOf q = w.refsOf q := by
  cases q with
  | context c => rw [refsOf, refsOf, getElem?_contexts_destroy, if_neg (Ne.symm h)]
  | signal s => rw [refsOf, refsOf, getElem?_signals_destroy, if_neg (Ne.symm h)]

theorem refers_destroy (h : q ≠ r) {p : Ref} : (w.destroy r).Refers q p ↔ w.Refers q p := by
  rw [Refers, Refers, refsOf_destroy h, isLiveRef_destroy]
  simp [h]

theorem holders_destroy (r q : Ref) : (w.destroy r).holders q = w.holders q := by
  cases q with
  | context c =>
    simp only [holders, getElem?_contexts_destroy]
    split
    · cases w.contexts[c]? <;> rfl
    · rfl
  | signal s =>
    simp only [holders, getElem?_signals_destroy]
    split
    · cases w.signals[s]? <;> rfl
    · rfl

theorem rooted_destroy (r q : Ref) : (w.destroy r).Rooted q ↔ w.Rooted q := by
  rw [Rooted, Rooted, holders_destroy, stack_destroy, queue_destroy]

/-- What is heard of a context that is destroyed. -/
def epitaph (w : World) (c : ContextNo) (x : Context) : List Event :=
  .destroyed c :: if x.isComplete || !Log.Level.warning.passes w.threshold then []
    else [.logged .warning (Text.visible (abandonment x))]

/-- What is heard of something that is destroyed. -/
def parting (w : World) : Ref → List Event
  | .signal _ => []
  | .context c => (w.contexts[c]?).elim [] (w.epitaph c)

theorem farewell_eq (c : ContextNo) (x : Context) : w.farewell c x true =
    { w with
      registry := w.registry.unregister x.id c
      history := w.history ++ w.epitaph c x } := by
  by_cases hc : x.isComplete <;> by_cases hp : Log.Level.warning.passes w.threshold <;>
    simp [farewell, log, note, epitaph, hc, hp]

/-- A destruction is noted, and changes contexts, signals and the registry at most. -/
theorem destroy_eq (r : Ref) : w.destroy r =
    { w with
      contexts := (w.destroy r).contexts
      signals := (w.destroy r).signals
      registry := (w.destroy r).registry
      history := w.history ++ w.parting r } := by
  cases r with
  | signal s => simp [destroy, modifySignal, parting]
  | context c =>
    cases hx : w.contexts[c]? with
    | none => simp [destroy, parting, hx]
    | some x => simp [destroy, parting, hx, farewell_eq, modifyContext]

theorem parting_destroy (h : q ≠ r) : (w.destroy r).parting q = w.parting q := by
  cases q with
  | signal s => rfl
  | context c =>
    have hepitaph : (w.destroy r).epitaph = w.epitaph := by
      rw [destroy_eq]
      rfl
    simp only [parting, getElem?_contexts_destroy, if_neg (Ne.symm h), hepitaph]

/-! ## One destruction after the other -/

/-- Some things are destroyed, each when nothing refers to it. -/
inductive Falls : World → List Ref → World → Prop
  | nil (w : World) : Falls w [] w
  | cons {w w' : World} {r : Ref} {rs : List Ref} (live : w.isLiveRef r = true) (free : ¬ w.Holds r)
      (rest : Falls (w.destroy r) rs w') : Falls w (r :: rs) w'

/-- Letting go of references is a number of destructions. -/
theorem falls_releaseAll (w : World) (refs : List Ref) : ∃ rs, w.Falls rs (w.releaseAll refs) := by
  fun_induction releaseAll w refs with
  | case1 w => exact ⟨[], .nil w⟩
  | case2 w r rest hlive hheld ih => exact ih
  | case3 w r rest hlive hheld ih =>
    obtain ⟨rs, hrs⟩ := ih
    simp only [Bool.or_eq_true, not_or] at hheld
    exact ⟨r :: rs, .cons hlive (fun hh => hheld.1 (isHeld_iff.2 hh)) hrs⟩
  | case4 w r rest hdead ih => exact ih

namespace Falls

theorem isLiveRef (h : w.Falls rs w') (q : Ref) :
    w'.isLiveRef q = (w.isLiveRef q && decide (q ∉ rs)) := by
  induction h with
  | nil w => simp
  | cons live free rest ih =>
    rw [ih, isLiveRef_destroy]
    simp [Bool.and_assoc]

/-- What is destroyed existed, and exists no more. -/
theorem mem_iff (h : w.Falls rs w') : q ∈ rs ↔ w.isLiveRef q = true ∧ w'.isLiveRef q = false := by
  have hlive : q ∈ rs → w.isLiveRef q = true := by
    induction h with
    | nil w => exact fun hq => nomatch hq
    | cons live free rest ih =>
      intro hq
      rcases List.mem_cons.1 hq with rfl | hq
      · exact live
      · exact (isLiveRef_of_destroy (ih hq)).1
  rw [h.isLiveRef q]
  by_cases hq : q ∈ rs
  · simp [hq, hlive hq]
  · simp [hq]

theorem nodup (h : w.Falls rs w') : rs.Nodup := by
  induction h with
  | nil w => exact List.nodup_nil
  | cons live free rest ih =>
    refine List.nodup_cons.2 ⟨fun hr => ?_, ih⟩
    exact (isLiveRef_of_destroy (rest.mem_iff.1 hr).1).2 rfl

/-- Whatever refers to something that is destroyed is destroyed before. -/
theorem before (h : w.Falls rs w') {p : Ref} (hq : q ∈ rs) (hp : w.Refers p q) : [p, q].Sublist rs := by
  induction h with
  | nil w => cases hq
  | @cons w w' r rs live free rest ih =>
    rcases List.mem_cons.1 hq with rfl | hmem
    · exact absurd (holds_iff.2 (.inr ⟨p, hp⟩)) free
    · by_cases hpr : p = r
      · subst hpr
        exact List.cons_sublist_cons.2 (List.singleton_sublist.2 hmem)
      · exact (ih hmem ((refers_destroy hpr).2 hp)).cons r

theorem history (h : w.Falls rs w') : w'.history.toList = w.history.toList ++ rs.flatMap w.parting := by
  induction h with
  | nil w => simp
  | @cons w w' r rs live free rest ih =>
    have hrest : rs.flatMap (w.destroy r).parting = rs.flatMap w.parting :=
      List.flatMap_congr fun q hq =>
        parting_destroy (isLiveRef_of_destroy (rest.mem_iff.1 hq).1).2.symm
    rw [ih, hrest, destroy_eq]
    simp

/-- Nothing else changes. -/
theorem eq (h : w.Falls rs w') : w' =
    { w with
      contexts := w'.contexts
      signals := w'.signals
      registry := w'.registry
      history := w'.history } := by
  induction h with
  | nil w => rfl
  | cons live free rest ih =>
    rw [destroy_eq] at ih
    exact ih

theorem getElem?_contexts (h : w.Falls rs w') {c : ContextNo} (hc : Ref.context c ∉ rs) :
    w'.contexts[c]? = w.contexts[c]? := by
  induction h with
  | nil w => rfl
  | cons live free rest ih =>
    obtain ⟨hne, hc⟩ := not_or.1 (mt List.mem_cons.2 hc)
    rw [ih hc, getElem?_contexts_destroy, if_neg (Ne.symm hne)]

theorem getElem?_signals (h : w.Falls rs w') {s : SignalNo} (hs : Ref.signal s ∉ rs) :
    w'.signals[s]? = w.signals[s]? := by
  induction h with
  | nil w => rfl
  | cons live free rest ih =>
    obtain ⟨hne, hs⟩ := not_or.1 (mt List.mem_cons.2 hs)
    rw [ih hs, getElem?_signals_destroy, if_neg (Ne.symm hne)]

theorem rooted (h : w.Falls rs w') (q : Ref) : w'.Rooted q ↔ w.Rooted q := by
  induction h with
  | nil w => rfl
  | cons live free rest ih => rw [ih, rooted_destroy]

theorem refers (h : w.Falls rs w') {p : Ref} (hp : w'.Refers p q) : w.Refers p q := by
  induction h with
  | nil w => exact hp
  | cons live free rest ih =>
    have hmid := ih hp
    exact (refers_destroy (isLiveRef_of_destroy hmid.1).2.symm).1 hmid

theorem accessible (h : w.Falls rs w') (hq : w'.Accessible q) : w.Accessible q := by
  obtain ⟨p, hp, hpath⟩ := hq
  exact ⟨p, (h.rooted p).1 hp, ReflTransGen.mono (fun _ _ => h.refers) p q hpath⟩

theorem circled (h : w.Falls rs w') (hq : w'.Circled q) : w.Circled q := by
  obtain ⟨p, hp, hpath⟩ := hq
  exact ⟨p, TransGen.mono (fun _ _ => h.refers) p p hp, ReflTransGen.mono (fun _ _ => h.refers) p q hpath⟩

/-- Whatever is referred to by a root, or by something else of its kind, is not destroyed. -/
theorem spares (h : w.Falls rs w') {kind : Set Ref}
    (hkind : ∀ r ∈ kind, w.Rooted r ∨ ∃ q ∈ kind, w.Refers q r) : ∀ r ∈ kind, r ∉ rs := by
  induction h with
  | nil w => exact fun _ _ => List.not_mem_nil
  | @cons w w' r rs live free rest ih =>
    have hr : r ∉ kind := fun hr => free (holds_iff.2 ((hkind r hr).imp_right fun ⟨q, _, hq⟩ => ⟨q, hq⟩))
    have hrs := ih fun p hp => (hkind p hp).imp (rooted_destroy r p).2 fun ⟨q, hq, hqp⟩ =>
      ⟨q, hq, (refers_destroy (ne_of_mem_of_not_mem hq hr)).2 hqp⟩
    intro p hp hmem
    rcases List.mem_cons.1 hmem with rfl | hmem
    · exact hr hp
    · exact hrs p hp hmem

end Falls

/-! ## Giving a reference back -/

/-- A client has given a reference back, and nothing has been let go of yet. -/
def forgo (w : World) : Ref → World
  | .context c => w.modifyContext c fun x => { x with holders := x.holders - 1 }
  | .signal s => w.modifySignal s fun x => { x with holders := x.holders - 1 }

theorem drop_eq (w : World) (r : Ref) : w.drop r = (w.forgo r).releaseAll [r] := by
  cases r <;> rfl

theorem getElem?_contexts_forgo (r : Ref) (c : ContextNo) : (w.forgo r).contexts[c]? =
    (w.contexts[c]?).map fun x =>
      { x with holders := if r = .context c then x.holders - 1 else x.holders } := by
  cases r with
  | signal s => cases hx : w.contexts[c]? <;> simp [forgo, modifySignal, hx]
  | context d =>
    simp only [forgo, getElem?_modifyContext, Ref.context.injEq]
    cases hx : w.contexts[c]? <;> split <;> simp

theorem getElem?_signals_forgo (r : Ref) (s : SignalNo) : (w.forgo r).signals[s]? =
    (w.signals[s]?).map fun x =>
      { x with holders := if r = .signal s then x.holders - 1 else x.holders } := by
  cases r with
  | context c => cases hx : w.signals[s]? <;> simp [forgo, modifyContext, hx]
  | signal i =>
    simp only [forgo, getElem?_modifySignal, Ref.signal.injEq]
    cases hx : w.signals[s]? <;> split <;> simp

theorem isLiveRef_forgo (r q : Ref) : (w.forgo r).isLiveRef q = w.isLiveRef q := by
  cases q with
  | context c => cases hx : w.contexts[c]? <;> simp [isLiveRef, isLive, getElem?_contexts_forgo, hx]
  | signal s =>
    cases hx : w.signals[s]? <;> simp [isLiveRef, isLiveSignal, getElem?_signals_forgo, hx]

theorem refers_forgo (r : Ref) {p q : Ref} : (w.forgo r).Refers p q ↔ w.Refers p q := by
  have hrefs : (w.forgo r).refsOf p = w.refsOf p := by
    cases p with
    | context c =>
      cases hx : w.contexts[c]? <;> simp [refsOf, getElem?_contexts_forgo, hx, Context.refs]
    | signal s =>
      cases hx : w.signals[s]? <;> simp [refsOf, getElem?_signals_forgo, hx, Signal.refs]
  rw [Refers, Refers, isLiveRef_forgo, hrefs]

theorem parting_forgo (r q : Ref) : (w.forgo r).parting q = w.parting q := by
  cases q with
  | signal s => rfl
  | context c =>
    have hthreshold : (w.forgo r).threshold = w.threshold := by cases r <;> rfl
    cases hx : w.contexts[c]? <;>
      simp [parting, epitaph, getElem?_contexts_forgo, hx, hthreshold, Context.isComplete, abandonment]

/-! ## Every legal run -/

/-- Wherever a legal run leads, whatever exists is referred to. -/
theorem kept_of_legal {threshold : Log.Level} {moves : List Move}
    (h : machine.legal (start threshold) moves = true) :
    (machine.run (start threshold) moves).Kept := by
  have hall := machine.invariant (P := fun w => Footed false w.stack ∧ w.Climbs ∧ w.Kept)
    (fun w m ⟨hfooted, hclimbs, hkept⟩ hm => ⟨footed_move hfooted hm nofun, climbs_move hclimbs m,
      hkept.move (hclimbs.queue_of_told hfooted) m⟩)
    ⟨.inl (show Leaned [] from trivial), show Climbs (start threshold) from rfl, kept_start threshold⟩ h
  exact hall.2.2

/-- **Giving references back is silent.** At any moment of any legal run, a client gives back a reference to
a context or to a signal, which may be one that an external link or the handling of an error waits for.
Nothing happens but destruction: no channel fires, nobody is called, and nothing is left to be done. Whatever
survives is as it was. It is what can be reached from whatever else is referred to, and what is on a circle of
references or behind one; all else is destroyed. A destroyed context loses the entry of its own id, if it has it,
and no other entry changes. Whatever referred to something destroyed is destroyed before it, so that a child
goes before its parent. All that is heard is, in this order, one warning for each context that had not
completed, where warnings are logged. -/
theorem drop_is_silent {threshold : Log.Level} {moves : List Move}
    (h : machine.legal (start threshold) moves = true)
    (hw : machine.run (start threshold) moves = w) (hw' : w.move (.call (.drop r)) = w') :
    w'.chronicle = w.chronicle ∧
    w' = { w with
      contexts := w'.contexts
      signals := w'.signals
      registry := w'.registry
      history := w'.history
      reply := .ok .done } ∧
    (∀ (c : ContextNo) (x : Context), w.contexts[c]? = some x → w'.isLive c = true →
      w'.contexts[c]? =
        some { x with holders := if r = .context c then x.holders - 1 else x.holders }) ∧
    (∀ (s : SignalNo) (x : Signal), w.signals[s]? = some x → w'.isLiveSignal s = true →
      w'.signals[s]? =
        some { x with holders := if r = .signal s then x.holders - 1 else x.holders }) ∧
    (∀ q, w.isLiveRef q = true → (w'.isLiveRef q = true ↔
      (w.forgo r).Accessible q ∨ (w.forgo r).Circled q)) ∧
    (∀ id c, w'.registry.holder? id = some c ↔ w.registry.holder? id = some c ∧
      ¬ (w.idOf c = id ∧ w.isLive c = true ∧ w'.isLive c = false)) ∧
    ∃ fallen : List Ref, fallen.Nodup ∧
      (∀ q, q ∈ fallen ↔ w.isLiveRef q = true ∧ w'.isLiveRef q = false) ∧
      (∀ p q, q ∈ fallen → w.Refers p q → [p, q].Sublist fallen) ∧
      w'.history.toList = w.history.toList ++ fallen.flatMap w.parting := by
  have hspares : (w.forgo r).Spares [r] := by
    have hkept := hw ▸ kept_of_legal h
    cases r <;> exact Spares.unhold hkept _
  obtain ⟨fallen, hfalls⟩ := (w.forgo r).falls_releaseAll [r]
  have hgone : ∀ q, q ∈ fallen ↔ w.isLiveRef q = true ∧ w'.isLiveRef q = false := by
    intro q
    rw [hfalls.mem_iff, isLiveRef_forgo, ← drop_eq, ← hw']
    cases q <;> rfl
  obtain rfl : World.answered (World.releaseAll (w.forgo r) [r]) .done = w' := by
    rw [← drop_eq]
    exact hw'
  have hstays : ∀ {q}, (World.releaseAll (w.forgo r) [r]).isLiveRef q = true → q ∉ fallen := by
    intro q hq hmem
    rw [(hfalls.mem_iff.1 hmem).2] at hq
    cases hq
  refine ⟨?_, ?_, ?_, ?_, ?_, ?_, fallen, hfalls.nodup, hgone, ?_, ?_⟩
  · exact (chronicle_releaseAll (w := w.forgo r) [r]).trans (by cases r <;> rfl)
  · refine (congrArg (fun u => World.answered u .done) hfalls.eq).trans ?_
    cases r <;> rfl
  · intro c x hx hl
    refine (hfalls.getElem?_contexts (hstays (q := .context c) hl)).trans ?_
    rw [getElem?_contexts_forgo, hx]
    rfl
  · intro s x hx hl
    refine (hfalls.getElem?_signals (hstays (q := .signal s) hl)).trans ?_
    rw [getElem?_signals_forgo, hx]
    rfl
  · intro q hq
    constructor
    · intro hl
      exact (hspares.releaseAll.accessible_or_circled (by cases q <;> exact hl)).imp hfalls.accessible hfalls.circled
    · intro hs
      have haccessible : ∀ p ∈ {p | (w.forgo r).Accessible p}, p ∉ fallen :=
        hfalls.spares fun _ hp => hp.holder
      have hcircled : ∀ p ∈ {p | (w.forgo r).Circled p}, p ∉ fallen :=
        hfalls.spares fun _ hp => .inr hp.holder
      have hspared : q ∉ fallen := hs.elim (haccessible q) (hcircled q)
      have hl := hfalls.isLiveRef q
      rw [isLiveRef_forgo, hq] at hl
      cases q <;> exact hl.trans (by simpa using hspared)
  · intro id c
    have herodes : w.Eroded (w.move (.call (.drop r))) :=
      eroded_move (fun _ he => by cases he; rfl) rfl
    rw [hw'] at herodes
    rw [herodes.holder id, Option.filter_eq_some_iff, decide_eq_true_iff, mem_departures]
    refine and_congr_right fun _ => not_congr ?_
    tauto
  · intro p q hq hp
    exact hfalls.before hq ((refers_forgo r).2 hp)
  · have hhistory := hfalls.history
    rw [funext (parting_forgo r)] at hhistory
    exact hhistory.trans (by cases r <;> rfl)

/-- The error of a grandchild is being handled: a signal that only the client holds keeps the grandchild,
which keeps its parent, which keeps the root. -/
def heldMoves : List Move :=
  [Move.call (.createRoot { origin := .bridge "a" "" (some 0), location := some ⟨"box", "a"⟩ }), .advance,
    .call (.createChild 0 (some ⟨"box", "b"⟩) none none), .advance,
    .call (.createChild 1 (some ⟨"box", "c"⟩) none none), .advance,
    .call (.drop (.context 0)), .call (.drop (.context 1)), .call (.makeSignal none), .advance,
    .call (.hold (.signal 0)), .call (.error 2 (some .outOfMemory)), .handled (.signal 0), .advance,
    .call (.drop (.context 2))]

/-- When the client lets go of the signal, all three are destroyed, each with a warning. The signal that
was to tell how the error was handled is left, unfired. -/
theorem drop_is_silent_chain : ∃ w w' : World, machine.run start heldMoves = w ∧
    w.move (.call (.drop (.signal 0))) = w' ∧ w'.chronicle = w.chronicle ∧
    w'.isLiveRef (.signal 1) = true ∧
    ¬ ((w.forgo (.signal 0)).Accessible (.context 0) ∨ (w.forgo (.signal 0)).Circled (.context 0)) ∧
    ∃ fallen : List Ref, [.context 2, .context 1].Sublist fallen ∧ [.context 1, .context 0].Sublist fallen ∧
      w'.history.toList = w.history.toList ++ fallen.flatMap w.parting := by
  have legal : machine.legal start heldMoves = true := by decide +kernel
  obtain ⟨hchronicle, -, -, -, hstays, -, fallen, -, hgone, hbefore, hhistory⟩ :=
    drop_is_silent (r := .signal 0) legal rfl rfl
  have hfirst : Ref.context 1 ∈ fallen := (hgone _).2 ⟨by decide +kernel, by decide +kernel⟩
  have hroot : Ref.context 0 ∈ fallen := (hgone _).2 ⟨by decide +kernel, by decide +kernel⟩
  -- the client holds the answer to its call
  have hanswer : ((machine.run start heldMoves).forgo (.signal 0)).Accessible (.signal 1) :=
    ⟨_, .inl (by decide +kernel), .refl⟩
  refine ⟨_, _, rfl, rfl, hchronicle, (hstays _ (by decide +kernel)).2 (.inl hanswer), fun hs => ?_, fallen,
    hbefore _ _ hfirst ⟨by decide +kernel, by decide +kernel⟩,
    hbefore _ _ hroot ⟨by decide +kernel, by decide +kernel⟩, hhistory⟩
  have hlive := (hstays (.context 0) (by decide +kernel)).2 hs
  rw [((hgone _).1 hroot).2] at hlive
  cases hlive

/-- A root that an observer of its own completion keeps. -/
def ringMoves : List Move := loneMoves ++ [.call (.subscribe (.completion 0) (some 7) [.context 0])]

/-- Circles must be let out, and logging must let warnings through. The root that keeps itself is not
destroyed, although nothing reaches it; and where only errors are logged, a root is destroyed without a
warning. -/
theorem ring_outlasts :
    (¬ ∀ (moves : List Move) (r q : Ref), machine.legal start (moves ++ [.call (.drop r)]) = true →
      (machine.run start moves).isLiveRef q = true →
        (((machine.run start moves).move (.call (.drop r))).isLiveRef q = true ↔
          ((machine.run start moves).forgo r).Accessible q)) ∧
    ¬ ∀ (threshold : Log.Level) (moves : List Move) (r : Ref) (c : ContextNo) (x : Context),
      machine.legal (start threshold) (moves ++ [.call (.drop r)]) = true →
      (machine.run (start threshold) moves).contexts[c]? = some x → x.isComplete = false → x.isLive = true →
      ((machine.run (start threshold) moves).move (.call (.drop r))).isLive c = false →
        .logged .warning (Text.visible (abandonment x)) ∈
          ((machine.run (start threshold) moves).move (.call (.drop r))).history.toList := by
  constructor
  · intro hclaim
    obtain ⟨q, hroot, -⟩ := (hclaim ringMoves (.context 0) (.context 0) (by decide +kernel)
      (by decide +kernel)).1 (by decide +kernel)
    exact not_rooted (by decide +kernel) (by decide +kernel) (List.isEmpty_iff.1 (by decide +kernel))
      (Option.isNone_iff_eq_none.1 (by decide +kernel)) hroot
  · intro hclaim
    have root : ((machine.run (start .error) loneMoves).contexts[0]?).map
        (fun x => (x.isComplete, x.isLive)) = some (false, true) := by decide +kernel
    obtain ⟨x, hx, hopen⟩ := Option.map_eq_some_iff.1 root
    obtain ⟨hincomplete, hlive⟩ := Prod.mk.inj hopen
    have hwarned := hclaim .error loneMoves (.context 0) 0 x (by decide +kernel) hx hincomplete hlive
      (by decide +kernel)
    have silent : ((machine.run (start .error) loneMoves).move
        (.call (.drop (.context 0)))).history.toList.all (!·.isMessage) = true := by decide +kernel
    cases List.all_eq_true.1 silent _ hwarned

end FanIn.World
