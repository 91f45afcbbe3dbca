import FanIn.Proofs.Tree.Refusal
import FanIn.Proofs.Tree.TwinFailures
import FanIn.Proofs.Tree.Verdict

/-!
# Completion does not depend on outcomes

Two runs of the same calls are *paired* if they differ in outcomes alone: where a context succeeds in the
first, it may get an error in the second, with which its exception handler deals at once, and signals may
be resolved differently. The second run makes more signals, so the calls name theirs by other numbers.

Main statement: `completion_ignores_outcomes`. Paired runs tell the same completions in the same order,
and agree in what is pending, complete and alive, whenever it is a client's turn; and whatever is done
next in the first run can be done in the second, with any outcome.
-/

namespace FanIn.World

open List Stack

variable {t : Terms} {ν : Ties} {old old' : Except Failure Reply} {σ : List SignalNo}
  {w v w' v' u : World} {m m' : Move}

/-! ## What twins agree in -/

/-- What joins, leaves and completions an event tells, its gist tells. -/
theorem gist_tells (e : Event) : (e.gist).bind Event.completes? = e.completes? ∧
    ∀ c, (e.gist).any (Event.isJoin c) = e.isJoin c ∧ (e.gist).any (Event.isLeave c) = e.isLeave c := by
  cases e with
  | fired ch u => cases ch <;> exact ⟨rfl, fun _ => ⟨rfl, rfl⟩⟩
  | observed ch l u => cases ch <;> exact ⟨rfl, fun _ => ⟨rfl, rfl⟩⟩
  | replayed ch l u => cases ch <;> exact ⟨rfl, fun _ => ⟨rfl, rfl⟩⟩
  | _ => exact ⟨rfl, fun _ => ⟨rfl, rfl⟩⟩

/-- What the gist of an event tells can be counted in gists. -/
theorem countP_gists {p : Event → Bool} (hp : ∀ e : Event, (e.gist).any p = p e) (w : World) :
    w.gists.countP p = w.history.countP p := by
  unfold gists
  rw [← Array.countP_toList, List.countP_filterMap]
  refine List.countP_congr fun e _ => ?_
  rw [← hp e]
  cases e.gist <;> rfl

theorem completions_gists (w : World) : w.gists.filterMap Event.completes? = w.completions := by
  unfold gists completions
  rw [List.filterMap_filterMap]
  exact List.filterMap_congr fun e _ => (gist_tells e).1

theorem Twin.counter? (h : Twin ν old old' w v) (c : ContextNo) : v.counter? c = w.counter? c := by
  unfold World.counter?
  rcases h.context? c with ⟨hx, hy⟩ | ⟨x, y, hx, hy, hxy⟩
  · rw [hx, hy]
  · rw [hx, hy]
    exact congrArg some hxy.slots.symm

theorem Twin.hasRoom (h : Twin ν old old' w v) (c : ContextNo) : w.hasRoom c = v.hasRoom c := by
  unfold World.hasRoom
  rcases h.context? c with ⟨hx, hy⟩ | ⟨x, y, hx, hy, hxy⟩
  · rw [hx, hy]
  · rw [hx, hy]
    exact congrArg (fun s : Counter => (s.pending < Int32.maxValue : Bool)) hxy.slots

theorem Twin.joins (h : Twin ν old old' w v) (c : ContextNo) : w.joins c = v.joins c := by
  have htells (e : Event) := ((gist_tells e).2 c).1
  exact (countP_gists htells w).symm.trans (h.gists ▸ countP_gists htells v)

theorem Twin.leaves (h : Twin ν old old' w v) (c : ContextNo) : w.leaves c = v.leaves c := by
  have htells (e : Event) := ((gist_tells e).2 c).2
  exact (countP_gists htells w).symm.trans (h.gists ▸ countP_gists htells v)

/-- A client keeps to terms in the second world as in the first. -/
theorem Twin.keepsTo (h : Twin ν old old' w v) (hm : m.Twin ν.shared m') :
    w.keepsTo t m = v.keepsTo t m' := by
  cases hm with
  | @call made made' hcall =>
    cases hcall with
    | plain hplain =>
      cases made with
      | childCompleted c =>
        show (!t.matched || (w.leaves c < w.joins c : Bool)) =
          (!t.matched || (v.leaves c < v.joins c : Bool))
        rw [h.leaves, h.joins]
      | addChild c => exact congrArg (!t.bounded || ·) (h.hasRoom c)
      | createChild c location _ _ =>
        exact congrArg (!t.bounded || location.isNone || ·) (h.hasRoom c)
      | _ => rfl
    | _ => rfl
  | _ => rfl

/-! ## Turns that differ -/

theorem exists_of_pending {c : ContextNo} {result : Option Int}
    (hallows : w.allows (.call (.success c result)) = true) (hpending : w.stateOf c = .pending) :
    ∃ x, w.contexts[c]? = some x ∧ x.isTerminated = false := by
  obtain ⟨x, hx, -⟩ := holders_context_pos.1 (held_of_call hallows mem_cons_self)
  refine ⟨x, hx, ?_⟩
  unfold stateOf at hpending
  rw [hx] at hpending
  unfold Context.isTerminated
  rw [show x.state = .pending from hpending]
  rfl

/-- A context succeeds in the first world, and gets an error in the second. -/
theorem Twin.failTurn (h : Twin ν old old' w v) (hr : w.Reachable t) {c : ContextNo}
    {result : Option Int} (hpending : w.stateOf c = .pending)
    (hturn : w.Turn (.call (.success c result)) w') (e : Failure) :
    ∃ u, v.Turn (.call (.error c (some e))) u ∧ ∀ a, u.Offers a → ∃ v' μ, u.HandledBy v' a ∧
      μ.shared = ν.shared ∧ Twin μ w'.reply v'.reply w' v' := by
  obtain ⟨hw, hallows, hw', k, rfl⟩ := hturn
  obtain ⟨x, hx, hopen⟩ := exists_of_pending hallows hpending
  obtain ⟨⟨n, hstack⟩, -, hfailed⟩ := h.fail hx hopen e
  have hhandler := turn_of_handler hstack
  have hallows' : v.allows (.call (.error c (some e))) = true :=
    allows_of_held (h.clientsTurn hw) (h.areHeld (.cons (.context c) .nil) (areHeld_of_allows hallows))
      nofun nofun
  refine ⟨v.error c (some e), ⟨h.clientsTurn hw, hallows', hhandler, 0, rfl⟩, fun a ha => ?_⟩
  have hmoved : (w.success c result).Reachable t :=
    hr.move (m := .call (.success c result)) (Bool.and_eq_true_iff.2 ⟨hallows, rfl⟩)
  have hw'' : (World.advance^[k] (w.success c result)).isClientsTurn = true := hw'
  rw [success_eq hx hopen] at hmoved hw''
  obtain ⟨v', μ, o, o', hv', hμ, htwin⟩ := hfailed.remedy hstack (mem_append_right _ mem_cons_self)
    (clients_of_turn hw) ⟨result, none⟩ hmoved hw'' a ha
  rw [← success_eq hx hopen] at htwin
  exact ⟨v', μ, hv', hμ, htwin.rebase v'.reply⟩

/-- A signal that the second world alone has is dropped. -/
theorem Twin.dropRight (h : Twin ν old old' w v) {s : SignalNo} (hs : s ∉ ν.shared)
    (hturn : v.Turn (.call (.drop (.signal s))) v') : Twin ν w.reply v'.reply w v' := by
  have hdropped := h.modifySignalRight (g := fun x => { x with holders := x.holders - 1 }) hs
    (fun _ hy => hy) fun _ hy => hy
  have hgone := hdropped.releaseOther hs
  obtain ⟨hv, -, -, k, rfl⟩ := hturn
  have hstay : (v.call (.drop (.signal s))).isClientsTurn = true := by
    have hstack : (v.call (.drop (.signal s))).stack = v.stack := stack_releaseAll _ _
    rwa [isClientsTurn_congr hstack]
  rw [show v.move (.call (.drop (.signal s))) = v.call (.drop (.signal s)) from rfl,
    iterate_of_turn hstay k]
  exact hgone.rebase (.ok .done)

/-! ## Paired runs -/

/-- Two runs, on a client's turn, of the same calls but for outcomes. The signals of the first run have
in the second the numbers `σ`. -/
inductive Paired (t : Terms) : List SignalNo → World → World → Prop
  | start (threshold : Log.Level) : Paired t [] (start threshold) (start threshold)
  /-- Clients do the same in both runs; signals may be resolved with anything. -/
  | same {σ : List SignalNo} {w v w' v' : World} {m m' : Move} (h : Paired t σ w v)
      (hm : m.Twin σ m') (hkeeps : w.keepsTo t m = true) (hw : w.Turn m w') (hv : v.Turn m' v') :
      Paired t (named σ w v w') w' v'
  /-- A context succeeds in the first run, and gets an error in the second, with which its exception
  handler deals at once. -/
  | failed {σ : List SignalNo} {w v w' v' u : World} {c : ContextNo} {result : Option Int} {e : Failure}
      {a : Remedy} (h : Paired t σ w v) (hpending : w.stateOf c = .pending)
      (hw : w.Turn (.call (.success c result)) w') (hu : v.Turn (.call (.error c (some e))) u)
      (hv : u.HandledBy v' a) : Paired t σ w' v'
  /-- The signal of such an error is dropped. -/
  | dropped {σ : List SignalNo} {w v v' : World} {s : SignalNo} (h : Paired t σ w v) (hs : s ∉ σ)
      (hv : v.Turn (.call (.drop (.signal s))) v') : Paired t σ w v'

/-- A handler that deals with an error does so in one way only. -/
theorem HandledBy.unique {a : Remedy} {v'' : World} (h : u.HandledBy v' a) (h' : u.HandledBy v'' a) :
    v' = v'' := by
  cases a with
  | nothing => exact Turn.unique h h'
  | threw f => exact Turn.unique h h'
  | resolved r =>
    obtain ⟨u', hu, hv⟩ := h
    obtain ⟨u'', hu', hv'⟩ := h'
    obtain rfl := hu.unique hu'
    exact hv.unique hv'
  | known s =>
    obtain ⟨-, u', hu, hv⟩ := h
    obtain ⟨-, u'', hu', hv'⟩ := h'
    obtain rfl := hu.unique hu'
    exact hv.unique hv'

theorem HandledBy.offers {a : Remedy} (h : u.HandledBy v' a) : u.Offers a := by
  cases a with
  | known s =>
    obtain ⟨hfired, u', hu, -⟩ := h
    exact ⟨live_of_hold (r := .signal s) hu.2.1, hfired⟩
  | _ => trivial

theorem twin_start (threshold : Log.Level) :
    Twin {} (.ok .done) (.ok .done) (start threshold) (start threshold) where
  contexts := fun _ => .none
  known := rfl
  signals := nofun
  names := .nil
  bound := nofun
  lonely := nofun
  spent := nofun
  trees := rfl
  registry := rfl
  queue := rfl
  stack := .nil
  reply := .unchanged
  gists := rfl

/-- A handler that deals with an error keeps to all terms. -/
theorem HandledBy.reachable {a : Remedy} (h : u.HandledBy v' a) (hu : u.Reachable t) :
    v'.Reachable t := by
  cases a with
  | nothing => exact Turn.reachable h hu rfl
  | threw f => exact Turn.reachable h hu rfl
  | resolved r =>
    obtain ⟨u', hmade, hv⟩ := h
    exact hv.reachable (hmade.reachable hu rfl) rfl
  | known s =>
    obtain ⟨-, u', htaken, hv⟩ := h
    exact hv.reachable (htaken.reachable hu rfl) rfl

/-- Paired runs lead to twins, and clients keep to the same terms in both. -/
theorem Paired.twin (h : Paired t σ w v) :
    w.Reachable t ∧ v.Reachable t ∧ ∃ ν, ν.shared = σ ∧ Twin ν w.reply v.reply w v := by
  induction h with
  | start threshold =>
    have hr : (World.start threshold).Reachable t := ⟨threshold, [], rfl, rfl⟩
    exact ⟨hr, hr, {}, rfl, twin_start threshold⟩
  | same _ hm hkeeps hw hv ih =>
    obtain ⟨hr, hr', ν, rfl, htwin⟩ := ih
    obtain ⟨v'', μ, hv', hμ, hnext⟩ := htwin.turn hr hkeeps hm hw
    obtain rfl := hv'.unique hv
    exact ⟨hw.reachable hr hkeeps, hv.reachable hr' ((htwin.keepsTo hm).symm.trans hkeeps), μ, hμ,
      hnext.rebase _⟩
  | failed _ hpending hw hu hv ih =>
    obtain ⟨hr, hr', ν, rfl, htwin⟩ := ih
    obtain ⟨u', hu', hdeals⟩ := htwin.failTurn hr hpending hw _
    obtain rfl := hu'.unique hu
    obtain ⟨v'', μ, hv', hμ, hnext⟩ := hdeals _ hv.offers
    obtain rfl := hv'.unique hv
    exact ⟨hw.reachable hr rfl, hv.reachable (hu.reachable hr' rfl), μ, hμ, hnext⟩
  | dropped _ hs hv ih =>
    obtain ⟨hr, hr', ν, rfl, htwin⟩ := ih
    exact ⟨hr, hv.reachable hr' rfl, ν, rfl, htwin.dropRight hs hv⟩

theorem Paired.clientsTurn (h : Paired t σ w v) : w.isClientsTurn = true := by
  induction h with
  | start => rfl
  | same _ _ _ hw _ => exact hw.2.2.1
  | failed _ _ hw _ _ => exact hw.2.2.1
  | dropped _ _ _ ih => exact ih

/-- Whatever way the first run goes on, the second can go with it. -/
theorem Paired.follow (h : Paired t σ w v) (hplays : Plays t w w') : ∃ σ' v', Paired t σ' w' v' := by
  induction hplays with
  | refl => exact ⟨σ, v, h⟩
  | turn _ hkeeps hturn ih =>
    obtain ⟨σ', v', h'⟩ := ih
    obtain ⟨hr, -, ν, rfl, htwin⟩ := h'.twin
    obtain ⟨m', hm⟩ := htwin.exists_move hturn.2.1 hturn.ne_advance
    obtain ⟨v'', -, hv, -, -⟩ := htwin.turn hr hkeeps hm hturn
    exact ⟨_, v'', h'.same hm hkeeps hturn hv⟩

/-- What a turn comes to in both worlds. Either no call has returned, or the same is answered, or a call
has returned that failed in the second world alone, of which it answers the signal. -/
def Resulted (σ : List SignalNo) (w v w' v' : World) : Prop :=
  (w'.reply = w.reply ∧ v'.reply = v.reply) ∨
    (∃ r r', w'.reply = .ok r ∧ v'.reply = .ok r' ∧ r.Twin σ r') ∨
    (∃ f, w'.reply = .error f ∧ v'.reply = .error f) ∨ ∃ s, s ∉ σ ∧ v'.reply = .ok (.signal s)

theorem Twin.resulted (h : Twin ν w.reply v.reply w' v') : Resulted ν.shared w v w' v' := by
  have hreply := h.reply
  generalize hr : w'.reply = r at hreply
  generalize hr' : v'.reply = r' at hreply
  cases hreply with
  | unchanged => exact .inl ⟨hr, hr'⟩
  | answered htwin => exact .inr (.inl ⟨_, _, hr, hr', htwin⟩)
  | refused f => exact .inr (.inr (.inl ⟨f, hr, hr'⟩))
  | failed _ hs => exact .inr (.inr (.inr ⟨_, h.not_shared hs, hr'⟩))

/-- **Completion does not depend on outcomes.** In two runs of the same calls in which contexts succeed
in the first and get errors in the second, with which their handlers deal at once, and in which signals
are resolved differently, the same completions are told in the same order, the same happens at all
channels of contexts but for the values, and the same contexts are pending, complete and alive, whenever
it is a client's turn. The second is a run as legal as the first. However the first goes on, there is
such a second. Whatever a client does next in the first can be done in the second and comes to the same,
and a context that is pending can get an error instead of a success, however its handler deals with it
at once. -/
theorem completion_ignores_outcomes (h : Paired t σ w v) :
    w.Reachable t ∧ v.Reachable t ∧ v.completions = w.completions ∧ v.gists = w.gists ∧
    (∀ c, v.counter? c = w.counter? c ∧ v.completed c = w.completed c ∧ v.isLive c = w.isLive c) ∧
    (∀ moves, (within t).legal w moves = true → ((within t).run w moves).isClientsTurn = true →
      ∃ σ' v', Paired t σ' ((within t).run w moves) v') ∧
    (∀ m w', w.keepsTo t m = true → w.Turn m w' → (∃ m', m.Twin σ m') ∧
      ∀ m', m.Twin σ m' → ∃ v', v.Turn m' v' ∧ Resulted (named σ w v w') w v w' v') ∧
    ∀ c result w', w.stateOf c = .pending → w.Turn (.call (.success c result)) w' → ∀ e,
      ∃ u, v.Turn (.call (.error c (some e))) u ∧ ∀ a, u.Offers a → ∃ v', u.HandledBy v' a := by
  obtain ⟨hr, hr', ν, rfl, htwin⟩ := h.twin
  refine ⟨hr, hr', ?_, htwin.gists.symm, fun c => ⟨htwin.counter? c, ?_, (htwin.isLive c).symm⟩,
    fun moves hlegal hw => h.follow (plays_of_legal h.clientsTurn hlegal hw),
    fun m w' hkeeps hturn => ⟨?_, fun m' hm => ?_⟩, fun c result w' hpending hturn e => ?_⟩
  · rw [← completions_gists, ← completions_gists, htwin.gists]
  · exact (htwin.isFired (.completion c)).symm
  · exact htwin.exists_move hturn.2.1 hturn.ne_advance
  · obtain ⟨v', μ, hv', hμ, hnext⟩ := htwin.turn hr hkeeps hm hturn
    exact ⟨v', hv', hμ ▸ hnext.resulted⟩
  · obtain ⟨u, hu, hdeals⟩ := htwin.failTurn hr hpending hturn e
    refine ⟨u, hu, fun a ha => ?_⟩
    obtain ⟨v', μ, hv', -, -⟩ := hdeals a ha
    exact ⟨v', hv'⟩

/-- What moves come to, after each of which the library takes so many steps. -/
def playing (w : World) : List (Move × Nat) → World
  | [] => w
  | (m, n) :: rest => playing (advance^[n] (w.move m)) rest

/-- Whether each of the moves makes a turn. -/
def areTurns (w : World) : List (Move × Nat) → Bool
  | [] => w.isClientsTurn
  | (m, n) :: rest => w.isClientsTurn && w.allows m && (advance^[n] (w.move m)).areTurns rest

theorem clientsTurn_of_areTurns {ms : List (Move × Nat)} (h : w.areTurns ms = true) :
    w.isClientsTurn = true := by
  cases ms with
  | nil => exact h
  | cons => exact (Bool.and_eq_true_iff.1 (Bool.and_eq_true_iff.1 h).1).1

theorem turn_of_areTurns {ms : List (Move × Nat)} (h : w.areTurns ms = true) {k n : Nat}
    (hm : ms[k]? = some (m, n)) : (w.playing (ms.take k)).Turn m (w.playing (ms.take (k + 1))) := by
  induction ms generalizing w k with
  | nil => cases hm
  | cons p ms ih =>
    obtain ⟨hw, hrest⟩ := Bool.and_eq_true_iff.1 h
    cases k with
    | zero =>
      obtain rfl := Option.some.inj hm
      exact ⟨clientsTurn_of_areTurns h, (Bool.and_eq_true_iff.1 hw).2, clientsTurn_of_areTurns hrest, n,
        rfl⟩
    | succ k => exact ih hrest hm

def familyRoot (name : String) (link : Option SignalNo) : RootSpec where
  origin := .bridge name "" (some 0)
  location := some ⟨"box", name⟩
  link := link

/-- A child has an outcome, which an observer of its completion hears. Then a second root is made with a
link, which fires, and that root succeeds. -/
def familyTurns (outcome : List (Move × Nat)) (link : SignalNo) (r : Resolution) : List (Move × Nat) :=
  [(.call (.createRoot (familyRoot "a" none)), 1),
      (.call (.createChild 0 (some ⟨"box", "b"⟩) none none), 1),
      (.call (.subscribe (.completion 1) (some 7) []), 0)] ++ outcome ++
    [(.call (.makeSignal none), 1),
      (.call (.createRoot (familyRoot "c" (some link))), 1),
      (.call (.fireSignal link r), 4), (.call (.success 2 none), 10)]

def familySucceeds : List (Move × Nat) :=
  familyTurns [(.call (.success 1 none), 7), (.finish none, 4)] 0 {}

/-- The child gets an error instead, its handler throws, and the link fails. -/
def familyFails : List (Move × Nat) :=
  familyTurns [(.call (.error 1 (some .foreign)), 0), (.handled (.threw .outOfMemory), 8),
    (.finish none, 7)] 2 { failure := some .foreign }

theorem completion_ignores_outcomes_family :
    ∃ σ, Paired ⟨true, false⟩ σ (start.playing familySucceeds) (start.playing familyFails) ∧
      (start.playing familySucceeds).stateOf 1 = .succeeded ∧
      (start.playing familyFails).stateOf 1 = .failed ∧
      (start.playing familySucceeds).completions = [1, 2] ∧
      (start.playing familyFails).completions = [1, 2] := by
  have succeeds : start.areTurns familySucceeds = true := by decide +kernel
  have fails : start.areTurns familyFails = true := by decide +kernel
  have first {k n : Nat} {m : Move} := turn_of_areTurns succeeds (k := k) (n := n) (m := m)
  have second {k n : Nat} {m : Move} := turn_of_areTurns fails (k := k) (n := n) (m := m)
  have root : Paired ⟨true, false⟩ _ (start.playing (familySucceeds.take 1))
      (start.playing (familyFails.take 1)) :=
    (Paired.start _).same (.call (.createRoot (familyRoot "a" none) .none)) rfl
      (first (k := 0) rfl) (second (k := 0) rfl)
  have child : Paired ⟨true, false⟩ _ (start.playing (familySucceeds.take 2))
      (start.playing (familyFails.take 2)) :=
    root.same (.call (.plain rfl)) (m := .call (.createChild ..)) rfl
      (first (k := 1) rfl) (second (k := 1) rfl)
  have observed : Paired ⟨true, false⟩ _ (start.playing (familySucceeds.take 3))
      (start.playing (familyFails.take 3)) :=
    child.same (.call (.subscribe (.completion 1) (some 7) .nil)) rfl
      (first (k := 2) rfl) (second (k := 2) rfl)
  have decided : Paired ⟨true, false⟩ _ (start.playing (familySucceeds.take 4))
      (start.playing (familyFails.take 5)) :=
    observed.failed (a := .threw .outOfMemory) (by decide +kernel) (first (k := 3) rfl)
      (second (k := 3) rfl) (second (k := 4) rfl)
  have heard : Paired ⟨true, false⟩ _ (start.playing (familySucceeds.take 5))
      (start.playing (familyFails.take 6)) :=
    decided.same (.finish none) rfl (first (k := 4) rfl) (second (k := 5) rfl)
  have waiting : Paired ⟨true, false⟩ _ (start.playing (familySucceeds.take 6))
      (start.playing (familyFails.take 7)) :=
    heard.same (.call .waiting) rfl (first (k := 5) rfl) (second (k := 6) rfl)
  have linked : Paired ⟨true, false⟩ _ (start.playing (familySucceeds.take 7))
      (start.playing (familyFails.take 8)) :=
    waiting.same (.call (.createRoot (familyRoot "c" none)
      (.some (a := 0) (b := 2) (by decide +kernel)))) rfl (first (k := 6) rfl) (second (k := 7) rfl)
  have fired : Paired ⟨true, false⟩ _ (start.playing (familySucceeds.take 8))
      (start.playing (familyFails.take 9)) :=
    linked.same (.call (.fireSignal (a := 0) (b := 2) (by decide +kernel) {}
      { failure := some .foreign })) rfl (first (k := 7) rfl) (second (k := 8) rfl)
  have ended : Paired ⟨true, false⟩ _ (start.playing familySucceeds) (start.playing familyFails) :=
    fired.same (m := .call (.success 2 none)) (.call (.plain rfl)) rfl
      (first (k := 8) rfl) (second (k := 9) rfl)
  have told : (start.playing familySucceeds).completions = [1, 2] := by decide +kernel
  obtain ⟨-, -, same, -⟩ := completion_ignores_outcomes ended
  exact ⟨_, ended, by decide +kernel, by decide +kernel, told, same.trans told⟩

end FanIn.World
