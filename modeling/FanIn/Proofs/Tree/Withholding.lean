import FanIn.Proofs.Tree.Refusal
import FanIn.Proofs.Tree.Settlement

/-!
# Errors that are not reported

A call that reports an error answers with a signal, which fires when the outcome has been published. If
more participants have left a context than have joined it, its own slot, or that of a parent up to which
its completion climbs, may not be there to be given up any more. The failure then takes the frame that was
to resolve the signal: the signal is withheld, and never fires. Where the handler has returned nothing,
that frame lies on what returns the call, and the failure is what the caller gets.

Main statement: `error_reports_unless_withheld`.
-/

namespace FanIn.World

open Stack

variable {t : Terms} {w : World} {m : Move}

/-! ## What a call has come to -/

/-- What the last call has answered, if no more is under way than a stack as high as this. -/
def replied? (w : World) (height : Nat) : Option (Except Failure Reply) :=
  if w.stack.length ≤ height then some w.reply else none

/-- What a call has come to in the course of some moves: what was answered when the stack was for the first
time as high again as it was when the call was made. -/
def result? (w : World) (height : Nat) : List Move → Option (Except Failure Reply)
  | [] => w.replied? height
  | m :: moves => (w.replied? height).or ((w.move m).result? height moves)

theorem result?_concat (w : World) (height : Nat) (moves : List Move) (m : Move) :
    w.result? height (moves ++ [m]) =
      (w.result? height moves).or (((machine.run w moves).move m).replied? height) := by
  induction moves generalizing w with
  | nil => rfl
  | cons x moves ih => simp [result?, ih, Option.or_assoc, machine]

/-- A call has come to something when nothing is under way. -/
theorem result?_of_idle {height : Nat} {moves : List Move} (idle : (machine.run w moves).stack = []) :
    ∃ r, w.result? height moves = some r := by
  have hreplied : (machine.run w moves).replied? height = some (machine.run w moves).reply := by
    rw [replied?, idle]
    exact if_pos (Nat.zero_le _)
  induction moves generalizing w with
  | nil => exact ⟨_, hreplied⟩
  | cons x moves ih =>
    obtain ⟨r, hr⟩ := ih (w := w.move x) idle hreplied
    cases hnow : w.replied? height with
    | none => exact ⟨r, by rw [result?, hnow, Option.none_or, hr]⟩
    | some r' => exact ⟨r', by rw [result?, hnow, Option.some_or]⟩

/-! ## How far the call has come -/

/-- The handler has returned, and if it has returned nothing, the signal has fired. -/
def Reported (w : World) (s : SignalNo) (a? : Option Handled) : Prop :=
  ∃ a, a? = some a ∧ (a = .nothing → w.isFired (.signal s) = true)

/-- How far a call has come that was made on a stack `below` to report an error of context `c`: `s` is the
signal made for it, `a?` what the handler has returned, and `lost` says whether the signal has been
withheld. -/
inductive Stage (w : World) (c : ContextNo) (s : SignalNo) (below : List Frame) :
    Option Handled → Bool → Prop
  /-- The handler runs. -/
  | asking (above : List Frame) {n : Nat} {e : Failure} {a? : Option Handled} {lost : Bool} :
      w.stack = above ++ .handler n c e s :: below → Stage w c s below a? lost
  /-- The handler has returned nothing, and the outcome is published. -/
  | publishing (above : List Frame) {e : Failure} {kept : List Ref} {lost : Bool} :
      w.stack = above ++ .conclude c e (some none) s :: .returning (.signal s) kept :: below →
      Stage w c s below (some .nothing) lost
  /-- Who waits for a signal is notified: the error for that of its handler, or clients for `s`. -/
  | notifying (above : List Frame) {ch : ChannelRef} {replay : Bool} {v : Value}
      {todo spent : List Observer} {kept : List Ref} {a? : Option Handled} {lost : Bool} :
      w.stack = above ++ .deliver ch replay v todo spent :: .returning (.signal s) kept :: below →
      w.Reported s a? → Stage w c s below a? lost
  | returning {kept : List Ref} {a? : Option Handled} {lost : Bool} :
      w.stack = .returning (.signal s) kept :: below → w.Reported s a? → Stage w c s below a? lost
  /-- A failure has taken the frame that was to resolve the signal. -/
  | failing {kept : List Ref} :
      w.stack = .throwing Counter.overReleased :: .returning (.signal s) kept :: below →
      Stage w c s below (some .nothing) true
  | throwing : w.stack = .throwing Counter.overReleased :: below → Stage w c s below (some .nothing) true

/-- What such a call comes to. -/
inductive Ending (w : World) (s : SignalNo) : Option Handled → Bool → Except Failure Reply → Prop
  | answered {a? : Option Handled} {lost : Bool} : w.Reported s a? → Ending w s a? lost (.ok (.signal s))
  | thrown : Ending w s (some .nothing) true (.error Counter.overReleased)

variable {c : ContextNo} {e : Failure} {s : SignalNo} {below : List Frame} {a? : Option Handled} {lost : Bool}

theorem Reported.move (h : w.Reported s a?) (m : Move) (b? : Option Handled) :
    (w.move m).Reported s (a?.or b?) := by
  obtain ⟨a, rfl, ha⟩ := h
  exact ⟨a, rfl, fun hnothing => isFired_lasts (ha hnothing) m⟩

theorem Ending.move {r : Except Failure Reply} (h : w.Ending s a? lost r) (m : Move) (b? : Option Handled)
    (withholds : Bool) : (w.move m).Ending s (a?.or b?) (lost || withholds) r := by
  cases h with
  | answered hreported => exact .answered (hreported.move m b?)
  | thrown => exact .thrown

/-- As long as the call is under way, it has come to nothing. -/
theorem Stage.replied?_eq_none (h : w.Stage c s below a? lost) : w.replied? below.length = none := by
  have hhigh : below.length < w.stack.length := by
    cases h <;> simp only [*, List.length_append, List.length_cons] <;> omega
  exact if_neg (Nat.not_le_of_lt hhigh)

/-- The handler returns. -/
theorem Stage.handled {n : Nat} (hs : w.stack = .handler n c e s :: below) (a : Handled) (lost : Bool) :
    (w.move (.handled a)).Stage c s below (some a) lost := by
  have hstack := stack_move (w := w) (.handled a)
  simp only [shift, shiftHandled, hs] at hstack
  cases a with
  | nothing => exact .publishing [_] hstack
  | threw f => exact .notifying [] hstack ⟨_, rfl, by simp⟩
  | signal i =>
    dsimp only at hstack
    unfold replayFrames at hstack
    split at hstack
    · exact .notifying [] hstack ⟨_, rfl, by simp⟩
    · exact .returning hstack ⟨_, rfl, by simp⟩

/-- The outcome has been published, and the signal fires. -/
theorem Stage.concluded {kept : List Ref}
    (hs : w.stack = .conclude c e (some none) s :: .returning (.signal s) kept :: below)
    (hknown : s < w.signals.size) (lost : Bool) :
    (w.move .advance).Stage c s below (some .nothing) lost := by
  have hu : w.use? .advance = some (.signal s, .fire (.resolution
      { failure := (some none).map (Failure.handlerFailed (w.idOf c) (some e)) })) := by
    simp only [use?, workUse?, hs]
  have hreported : (w.move .advance).Reported s (some .nothing) :=
    ⟨_, rfl, fun _ => isFired_of_use hu hknown⟩
  have hstack := stack_move (w := w) .advance
  simp only [shift, shiftWork, hs] at hstack
  unfold firingFrames at hstack
  split at hstack
  · exact .notifying [] hstack hreported
  · exact .returning hstack hreported

/-- An observer is notified, or all have been. -/
theorem Stage.notified {ch : ChannelRef} {replay : Bool} {v : Value} {todo spent : List Observer}
    {kept : List Ref}
    (hs : w.stack = .deliver ch replay v todo spent :: .returning (.signal s) kept :: below)
    (hreported : (w.move .advance).Reported s a?) (lost : Bool) :
    (w.move .advance).Stage c s below a? lost := by
  have hstack := stack_move (w := w) .advance
  cases todo with
  | nil =>
    simp only [shift, shiftWork, hs] at hstack
    exact .returning hstack hreported
  | cons o todo =>
    simp only [shift, shiftWork, hs] at hstack
    exact .notifying _ hstack hreported

/-- Every move takes the call on, or it is over with the move. -/
theorem Stage.move {id : String} {called : Event} (h : w.Stage c s below a? lost)
    (hcourse : w.Course c e s id called below a?) (hr : w.Reachable t)
    (hm : (within t).allows w m = true) (hclients : Clients below) :
    (w.move m).Stage c s below (a?.or (w.answers? c m)) (lost || w.withholds s) ∨
      (w.move m).stack = below ∧
        (w.move m).Ending s (a?.or (w.answers? c m)) (lost || w.withholds s) (w.move m).reply := by
  have hallows : w.allows m = true := (Bool.and_eq_true_iff.1 hm).1
  cases h with
  | @asking above n e' _ _ hs =>
    by_cases habove : above = []
    · subst habove
      have hasked : a? = none := hcourse.settling.unanswered hs
      cases m with
      | advance => simp [allows, isClientsTurn, hs, Frame.isClients] at hallows
      | finish thrown =>
        obtain ⟨ch, l, v, rest, hs'⟩ := observer_of_finish hallows
        cases hs.symm.trans hs'
      | call call =>
        have hstack := stack_move (w := w) (.call call)
        simp only [shift, hs, List.nil_append] at hstack
        exact .inl (.asking _ hstack)
      | handled a =>
        rw [hasked, answers?_of_top hs]
        exact .inl (.handled hs a _)
    · rcases stack_beneath hs habove m with ⟨above', hs'⟩ | ⟨f, _, hcaught⟩
      · exact .inl (.asking above' hs')
      · cases hcaught
  | @publishing above e' kept _ hs =>
    by_cases habove : above = []
    · subst habove
      obtain rfl := eq_advance hm hs rfl
      exact .inl (.concluded hs hcourse.known _)
    · rcases stack_beneath hs habove m with ⟨above', hs'⟩ | ⟨f, hs', _⟩
      · exact .inl (.publishing above' hs')
      · -- the failure is that of a slot, for it does not lie on the code of a client
        obtain rfl := eq_advance hm hs' rfl
        have hfooted := hr.footed
        rw [hs'] at hfooted
        obtain ⟨_, rfl⟩ := hfooted.overReleased fun hc => by cases hc
        rw [withholds_of_throwing hs', Bool.or_true]
        have hstack := stack_move (w := w) .advance
        simp only [shift, shiftWork, hs', caught] at hstack
        exact .inl (.failing hstack)
  | @notifying above ch replay v todo spent kept _ _ hs hreported =>
    have hstill := hreported.move m (w.answers? c m)
    by_cases habove : above = []
    · subst habove
      obtain rfl := eq_advance hm hs rfl
      exact .inl (.notified hs hstill _)
    · rcases stack_beneath hs habove m with ⟨above', hs'⟩ | ⟨f, _, hcaught⟩
      · exact .inl (.notifying above' hs' hstill)
      · cases hcaught
  | @returning kept _ _ hs hreported =>
    have hstill := hreported.move m (w.answers? c m)
    obtain rfl := eq_advance hm hs rfl
    have hstack : (w.move .advance).stack = below := by
      rw [stack_move]
      simp only [shift, shiftWork, hs]
    have hreply : (w.move .advance).reply = .ok (.signal s) := by
      show w.advance.reply = _
      unfold World.advance
      rw [hs]
      exact reply_returnCall _ kept
    rw [hreply]
    exact .inr ⟨hstack, .answered hstill⟩
  | @failing kept hs =>
    obtain rfl := eq_advance hm hs rfl
    refine .inl (.throwing ?_)
    rw [stack_move]
    simp only [shift, shiftWork, hs, caught]
  | throwing hs =>
    obtain rfl := eq_advance hm hs rfl
    have hmove : w.move .advance = World.refused { w with stack := below } Counter.overReleased :=
      advance_throwing hs hclients
    rw [hmove]
    exact .inr ⟨rfl, .thrown⟩

/-! ## Signals that never fire -/

/-- How it is once the signal `s` that was to tell of an error `e` of context `c` has been withheld: the
outcome has been told, but nothing is left that would fire the signal. -/
structure Forgone (w : World) (c : ContextNo) (e : Failure) (s : SignalNo) : Prop where
  told : ∀ ch, ch = .before c ∨ ch = .response c → w.HasTold ch (.response ⟨none, some e⟩)
  unfired : w.isFired (.signal s) = false
  quiet : ∀ c' e', ¬ w.Handling c' e' s

theorem Course.forgone {id : String} {called : Event} (h : w.Course c e s id called below a?)
    (hr : w.Reachable t) (hm : (within t).allows w m = true) (hwithholds : w.withholds s = true) :
    (w.move m).Forgone c e s := by
  obtain ⟨f, c', e', failed, rest, hs⟩ := of_withholds hwithholds
  have hmem : .conclude c' e' failed s ∈ w.stack := by simp [hs]
  have hconcluding : w.Handling c' e' s := .concluding hmem
  obtain ⟨rfl, rfl, _⟩ := h.sole c' e' s hconcluding (.inr rfl)
  obtain rfl := eq_advance hm hs rfl
  have hover : ∀ g ∈ [Frame.throwing f], g.publishes c' = false := by simp [Frame.publishes]
  constructor
  case told => exact fun ch hch => (h.told hr [.throwing f] hs hover hch).move _
  case unfired =>
    refine Bool.eq_false_iff.2 fun hfired => ?_
    rcases h.of_isFired hm rfl hfired with hold | ⟨_, failed', rest', hs'⟩
    · exact h.closed hold _ _ hconcluding
    · cases hs.symm.trans hs'
  case quiet =>
    refine h.concluded hr hm [.throwing f] hs hover fun g hg hconcludes => ?_
    rw [stack_move] at hg
    simp only [shift, shiftWork, hs, caught] at hg
    rcases List.mem_cons.1 hg with rfl | hg
    · cases hconcludes
    · exact hg

/-- It stays so. -/
theorem Forgone.move (h : w.Forgone c e s) (hm : (within t).allows w m = true) (hspare : m.spares s = true)
    (hknown : s < w.signals.size) : (w.move m).Forgone c e s where
  told := fun ch hch => (h.told ch hch).move m
  unfired := by
    refine Bool.eq_false_iff.2 fun hfired => ?_
    rcases fires_of_isFired hm hfired (fun i hi => by cases hi; exact hknown) with hold | ⟨v, hfires⟩
    · cases hold.symm.trans h.unfired
    · cases hfires with
      | signal hs => exact h.quiet _ _ (.concluding (hs ▸ List.mem_cons_self))
      | call => simp [Move.spares] at hspare
  quiet := by
    intro c' e' hnew
    rcases handling_move hnew with hold | hbegins
    · exact h.quiet c' e' hold
    · exact absurd (hbegins.signal ▸ hknown) (Nat.lt_irrefl _)

theorem Forgone.run (h : w.Forgone c e s) (hknown : s < w.signals.size) {moves : List Move}
    (hlegal : ((within t).restrict fun _ m => m.spares s).legal w moves = true) :
    (machine.run w moves).Forgone c e s := by
  refine (((within t).restrict fun _ m => m.spares s).invariant
    (P := fun v => v.Forgone c e s ∧ s < v.signals.size) ?_ ⟨h, hknown⟩ hlegal).1
  rintro v m ⟨hforgone, hknown⟩ hm
  obtain ⟨hallows, hspare⟩ := Bool.and_eq_true_iff.1 hm
  exact ⟨hforgone.move hallows hspare hknown, signals_grow m hknown⟩

/-! ## Runs -/

/-- How far the call has come, or what it has come to, throughout a run that goes on after it. -/
theorem Begins.answering (h : w.Begins m c e s) (hr : w.Reachable t) (hm : (within t).allows w m = true)
    {x : Context} (hx : w.contexts[c]? = some x) {after : List Move}
    (hlegal : ((within t).restrict fun _ m => m.spares s).legal (w.move m) after = true) :
    ((w.move m).withheld s after = true → (machine.run (w.move m) after).Forgone c e s) ∧
    ((w.move m).result? w.stack.length after = none ∧ (machine.run (w.move m) after).Stage c s w.stack
        ((w.move m).answer? c after) ((w.move m).withheld s after) ∨
      ∃ r, (w.move m).result? w.stack.length after = some r ∧ (machine.run (w.move m) after).Ending s
        ((w.move m).answer? c after) ((w.move m).withheld s after) r) := by
  have hclients : Clients w.stack := by
    rw [h.call] at hm
    exact clients_of_turn (turn_of_call (Bool.and_eq_true_iff.1 hm).1)
  have hasking : (w.move m).Stage c s w.stack none false := .asking [] (h.stack hx)
  -- by induction on the moves after the call, along with the course of the error
  refine (((within t).restrict fun _ m => m.spares s).run_induction
    (P := fun moves v => (v.Reachable t ∧ v.Course c e s x.id (.handling x.handler c .failed e s) w.stack
        ((w.move m).answer? c moves)) ∧ ((w.move m).withheld s moves = true → v.Forgone c e s) ∧
      ((w.move m).result? w.stack.length moves = none ∧ v.Stage c s w.stack
          ((w.move m).answer? c moves) ((w.move m).withheld s moves) ∨
        ∃ r, (w.move m).result? w.stack.length moves = some r ∧ v.Ending s
          ((w.move m).answer? c moves) ((w.move m).withheld s moves) r))
    ⟨⟨hr.move hm, h.course hr hm hx⟩, nofun, .inl ⟨hasking.replied?_eq_none, hasking⟩⟩ ?_ hlegal).2
  rintro moves m' ⟨⟨hreach, hcourse⟩, hforgone, hcall⟩ hm'
  obtain ⟨hallows, hspare⟩ := Bool.and_eq_true_iff.1 hm'
  rw [answer?_concat, withheld_concat, result?_concat]
  refine ⟨⟨hreach.move hallows, hcourse.move hreach hallows hspare⟩, fun hlost => ?_, ?_⟩
  · rcases Bool.or_eq_true_iff.1 hlost with hlost | hwithholds
    · exact (hforgone hlost).move hallows hspare hcourse.known
    · exact hcourse.forgone hreach hallows hwithholds
  · rcases hcall with ⟨hnone, hstage⟩ | ⟨r, hsome, hending⟩
    · rw [hnone, Option.none_or]
      rcases hstage.move hcourse hreach hallows hclients with hstage | ⟨hstack, hending⟩
      · exact .inl ⟨hstage.replied?_eq_none, hstage⟩
      · exact .inr ⟨_, if_pos (Nat.le_of_eq (congrArg List.length hstack)), hending⟩
    · rw [hsome, Option.some_or]
      exact .inr ⟨r, rfl, hending.move _ _ _⟩

/-- An error that comes too late is answered with a signal that has fired. -/
theorem isFired_late {x : Context} (hx : w.contexts[c]? = some x) (hdecided : x.state ≠ .pending)
    (e : Failure) : (w.call (.error c (some e))).advance.isFired (.signal w.signals.size) = true := by
  obtain ⟨_, _, hundisturbed⟩ := error_late hx hdecided e
  have hmade : (w.call (.error c (some e))).advance.signals[w.signals.size]? = some lateSignal := by
    rw [← Array.getElem?_toList, hundisturbed.signals]
    simp
  rw [isFired, value?, hmade]
  rfl

/-- **Errors are reported unless the signal is withheld.** An error `e` of a context is reported; `s` is the
signal made for that. Clients leave it to the library to fire `s`, and fire no channel of a context, but
they may have more participants leave a context than have joined it. If the outcome was decided before,
the call answers at once with `s`, which has fired. Otherwise, of any world that a run goes on to:
* when nothing is under way and it is known how the handling has ended, `s` has fired exactly if it has not
  been withheld;
* a signal is withheld only after a slot could not be given up, and does not fire then however the run goes
  on, though both channels have told the outcome;
* the call answers with `s` or fails because a slot could not be given up, and it has done so when nothing
  is under way. It fails exactly if the handler has returned nothing and the signal has been withheld;
* no signal is withheld if no more participants leave a context than have joined it, unless a counter has
  been asked to count more than it can. -/
theorem error_reports_unless_withheld {w₀ : World} {x : Context} {after : List Move}
    (h₀ : w₀.Reachable t) (hcall : (within t).allows w₀ (.call (.error c (some e))) = true)
    (hx : w₀.contexts[c]? = some x)
    (h : ((within t).restrict fun _ m => m.spares w₀.signals.size).legal
      (w₀.move (.call (.error c (some e)))) after = true)
    (hw : machine.run (w₀.move (.call (.error c (some e)))) after = w)
    (ha : (w₀.move (.call (.error c (some e)))).answer? c after = a?)
    (hlost : (w₀.move (.call (.error c (some e)))).withheld w₀.signals.size after = lost) :
    (x.state ≠ .pending →
      (w₀.move (.call (.error c (some e)))).isClientsTurn = false ∧
      ((w₀.move (.call (.error c (some e)))).move .advance).stack = w₀.stack ∧
      ((w₀.move (.call (.error c (some e)))).move .advance).reply = .ok (.signal w₀.signals.size) ∧
      ((w₀.move (.call (.error c (some e)))).move .advance).isFired (.signal w₀.signals.size) = true) ∧
    (x.state = .pending →
      (w.stack = [] → (∃ failed, w.report? a? = some failed) →
        (w.isFired (.signal w₀.signals.size) = true ↔ lost = false)) ∧
      (lost = true →
        (∃ earlier later, after = earlier ++ later ∧
          (machine.run (w₀.move (.call (.error c (some e)))) earlier).fails = true) ∧
        (∀ ch, ch = .before c ∨ ch = .response c → w.HasTold ch (.response ⟨none, some e⟩)) ∧
        ∀ more, ((within t).restrict fun _ m => m.spares w₀.signals.size).legal w more = true →
          (machine.run w more).isFired (.signal w₀.signals.size) = false) ∧
      ((∀ r, (w₀.move (.call (.error c (some e)))).result? w₀.stack.length after = some r →
        (r = .ok (.signal w₀.signals.size) ∨ r = .error Counter.overReleased) ∧
        (r = .error Counter.overReleased ↔ a? = some .nothing ∧ lost = true)) ∧
        (w.stack = [] →
          ∃ r, (w₀.move (.call (.error c (some e)))).result? w₀.stack.length after = some r)) ∧
      (t.matched = true → w.inRange = true → lost = false)) := by
  constructor
  · intro hdecided
    obtain ⟨hturn, hreply, hundisturbed⟩ := error_late hx hdecided e
    exact ⟨hturn, hundisturbed.stack, hreply, isFired_late hx hdecided e⟩
  · intro hpending
    have hbegins : w₀.Begins (.call (.error c (some e))) c e w₀.signals.size :=
      ⟨rfl, rfl, x, hx, hpending⟩
    obtain ⟨hreach, hcourse, hpursued⟩ := hbegins.run h₀ hcall hx h
    obtain ⟨hforgone, hanswering⟩ := hbegins.answering h₀ hcall hx h
    rw [hw, ha] at hcourse
    rw [hw, hlost] at hpursued hforgone
    rw [hw, ha, hlost] at hanswering
    rw [hw] at hreach
    refine ⟨?_, ?_, ⟨?_, fun idle => result?_of_idle (hw ▸ idle)⟩, ?_⟩
    · rintro idle ⟨failed, hfailed⟩
      constructor
      · refine fun hfired => Bool.eq_false_iff.2 fun htrue => ?_
        cases hfired.symm.trans (hforgone htrue).unfired
      · rintro rfl
        exact (hcourse.fired_of_idle hreach.orderly hpursued idle hfailed).resolve_right nofun
    · intro htrue
      refine ⟨?_, (hforgone htrue).told, fun more hmore =>
        ((hforgone htrue).run hcourse.known hmore).unfired⟩
      have hclients : Clients w₀.stack := clients_of_turn (turn_of_call (Bool.and_eq_true_iff.1 hcall).1)
      have hfooted : Footed true (w₀.move (.call (.error c (some e)))).stack := by
        rw [hbegins.stack hx]
        exact .inl ⟨hclients, h₀.footed.of_clients hclients⟩
      exact fails_of_withheld hfooted (Machine.legal_of_restrict _ h) (hlost.trans htrue)
    · intro r hr
      rcases hanswering with ⟨hnone, _⟩ | ⟨r', hsome, hending⟩
      · cases hnone.symm.trans hr
      · obtain rfl := Option.some.inj (hr.symm.trans hsome)
        cases hending with
        | answered hreported =>
          refine ⟨.inl rfl, nofun, ?_⟩
          rintro ⟨rfl, htrue⟩
          -- the signal would have fired
          obtain ⟨a, hanswer, hfired⟩ := hreported
          cases (hfired (Option.some.inj hanswer).symm).symm.trans (hforgone htrue).unfired
        | thrown => exact ⟨.inr rfl, fun _ => ⟨rfl, rfl⟩, fun _ => rfl⟩
    · intro hmatched hrange
      rw [← hlost]
      exact (h₀.move hcall).withheld_of_inRange hmatched _ (Machine.legal_of_restrict _ h) (hw ▸ hrange)

/-- A signal that has fired, and a root that is left once though nobody has joined it. -/
def spentMoves : List Move :=
  [Move.call (.makeSignal (some {})), .advance,
    .call (.createRoot { origin := .bridge "a" "" (some 0), location := some ⟨"box", "a"⟩ }), .advance,
    .call (.childCompleted 0)] ++ List.replicate 6 Move.advance

def spentRoot : World := machine.run start spentMoves

/-- An error of the root is reported. -/
def spentError : World := spentRoot.move (.call (.error 0 (some .outOfMemory)))

/-- What the handler of the error returns, and what the library does then. -/
def spentAnswer (a : Handled) (steps : Nat) : List Move := .handled a :: List.replicate steps .advance

/-- The handler returns nothing, and the call fails. -/
theorem error_reports_unless_withheld_spent : ∃ w : World,
    machine.run spentError (spentAnswer .nothing 8) = w ∧ w.stack = [] ∧ w.isFired (.response 0) = true ∧
    spentError.result? 0 (spentAnswer .nothing 8) = some (.error Counter.overReleased) ∧
    ∀ more, ((within { matched := false, bounded := true }).restrict fun _ m => m.spares 1).legal w more =
      true → (machine.run w more).isFired (.signal 1) = false := by
  have reachable : spentRoot.Reachable { matched := false, bounded := true } :=
    ⟨_, spentMoves, by decide +kernel, rfl⟩
  have root : (spentRoot.contexts[0]?).map Context.state = some .pending := by decide +kernel
  obtain ⟨x, hx, hpending⟩ := Option.map_eq_some_iff.1 root
  have begins : spentRoot.Begins (.call (.error 0 (some .outOfMemory))) 0 .outOfMemory
      spentRoot.signals.size := ⟨rfl, rfl, x, hx, hpending⟩
  have handler : spentError.stack =
      .handler x.handler 0 .outOfMemory spentRoot.signals.size :: spentRoot.stack := begins.stack hx
  have answer : spentError.answer? 0 (spentAnswer .nothing 8) = some .nothing := by
    simp [spentAnswer, answer?, answers?_of_top handler]
  have withheld : spentError.withheld spentRoot.signals.size (spentAnswer .nothing 8) = true := by
    decide +kernel
  obtain ⟨-, hundecided⟩ := error_reports_unless_withheld reachable (e := .outOfMemory)
    (by decide +kernel) hx (by decide +kernel) rfl answer withheld
  obtain ⟨-, hforgone, ⟨hcalled, hover⟩, -⟩ := hundecided hpending
  obtain ⟨r, hr⟩ := hover (List.isEmpty_iff.1 (by decide +kernel))
  obtain rfl := (hcalled r hr).2.2 ⟨rfl, rfl⟩
  have idle : spentRoot.stack = [] := List.isEmpty_iff.1 (by decide +kernel)
  have size : spentRoot.signals.size = 1 := by decide +kernel
  rw [idle] at hr
  rw [size] at hforgone
  exact ⟨_, rfl, List.isEmpty_iff.1 (by decide +kernel), by decide +kernel, hr, (hforgone rfl).2.2⟩

/-- It is neither so that a call which reports an error never fails, nor that the signal has fired whenever
nothing is under way and it is known how the handling has ended. -/
theorem error_unreported :
    (¬ ∀ (w : World) (c : ContextNo) (e : Failure) (after : List Move),
      w.Reachable { matched := false, bounded := true } →
      (within { matched := false, bounded := true }).allows w (.call (.error c (some e))) = true →
      ((within { matched := false, bounded := true }).restrict fun _ m => m.spares w.signals.size).legal
        (w.move (.call (.error c (some e)))) after = true →
      ∀ f, (w.move (.call (.error c (some e)))).result? w.stack.length after ≠ some (.error f)) ∧
    ¬ ∀ (w v : World) (c : ContextNo) (e : Failure) (after : List Move),
      w.Reachable { matched := false, bounded := true } →
      (within { matched := false, bounded := true }).allows w (.call (.error c (some e))) = true →
      ((within { matched := false, bounded := true }).restrict fun _ m => m.spares w.signals.size).legal
        (w.move (.call (.error c (some e)))) after = true →
      machine.run (w.move (.call (.error c (some e)))) after = v → v.stack = [] →
      (∃ failed, v.report? ((w.move (.call (.error c (some e)))).answer? c after) = some failed) →
      v.isFired (.signal w.signals.size) = true := by
  have reachable : spentRoot.Reachable { matched := false, bounded := true } :=
    ⟨_, spentMoves, by decide +kernel, rfl⟩
  constructor
  · intro hclaim
    have failed : (spentError.result? spentRoot.stack.length (spentAnswer .nothing 8)).any (!·.isOk) =
        true := by decide +kernel
    obtain ⟨r, hr, hfailed⟩ := (Option.any_eq_true _ _).1 failed
    cases r with
    | ok r => cases hfailed
    | error f =>
      exact hclaim _ 0 .outOfMemory (spentAnswer .nothing 8) reachable (by decide +kernel)
        (by decide +kernel) f hr
  · intro hclaim
    -- the signal that the handler returns has fired
    obtain ⟨v, hv⟩ : ∃ v, machine.run spentError (spentAnswer (.signal 0) 10) = v := ⟨_, rfl⟩
    have idle : v.stack = [] := List.isEmpty_iff.1 (by rw [← hv]; decide +kernel)
    have known : (v.report? (spentError.answer? 0 (spentAnswer (.signal 0) 10))).isSome = true := by
      rw [← hv]
      decide +kernel
    have unfired : v.isFired (.signal spentRoot.signals.size) = false := by
      rw [← hv]
      decide +kernel
    have fired := hclaim _ v 0 .outOfMemory (spentAnswer (.signal 0) 10) reachable (by decide +kernel)
      (by decide +kernel) hv idle (Option.isSome_iff_exists.1 known)
    cases unfired.symm.trans fired

end FanIn.World
