import FanIn.Proofs.Tree.Failing
import FanIn.Proofs.Tree.Overrun
import FanIn.Proofs.Tree.Roll
import FanIn.Proofs.Tree.Settling

/-!
# How the error of a context is settled

A context that fails is given to its exception handler, once. What the handler returns decides when the
outcome is published: at once if it returns no signal or throws, and otherwise when the signal that it
returns fires. When both channels of the context have told the outcome, the signal that the call has
answered with fires, and says whether the handler failed.

Main statement: `error_settled`.
-/

namespace FanIn

/-- Whether a client leaves it to the library to fire a signal. -/
def Move.spares (s : SignalNo) : Move → Bool
  | call (.fireSignal s' _) => s' != s
  | _ => true

namespace World

variable {t : Terms} {w : World} {m : Move}

/-! ## The whole course -/

/-- How far the handling of an error `e` of context `c` has come, of which signal `s` is to tell. The
call that began it was made on a stack `below`, when the context had an id `id`. -/
structure Course (w : World) (c : ContextNo) (e : Failure) (s : SignalNo) (id : String)
    (called : Event) (below : List Frame) (a? : Option Handled) : Prop where
  known : s < w.signals.size
  named : ∃ x, w.contexts[c]? = some x ∧ x.id = id
  /-- The context has failed with the error. -/
  obeys : w.Obeys c (some ⟨none, some e⟩)
  /-- No other error is handled for the context or with the signal. -/
  sole : ∀ c' e' s', w.Handling c' e' s' → c' = c ∨ s' = s → c' = c ∧ e' = e ∧ s' = s
  handlings : w.handlings c = [called]
  /-- While the handler runs, it is the call that is under way. -/
  under : ∀ above n e' s' rest, w.stack = above ++ .handler n c e' s' :: rest → rest = below
  settling : w.Settling c a?
  /-- Once the signal has fired, nothing of the error is under way that would fire it. -/
  closed : w.isFired (.signal s) = true → ∀ c' e', ¬ w.Handling c' e' s
  /-- Once the signal has fired, both channels have told the outcome, and it says how it went. -/
  resolved : ∀ v, w.value? (.signal s) = some v →
    (∀ ch, ch = .before c ∨ ch = .response c → w.HasTold ch (.response ⟨none, some e⟩)) ∧
    ∃ failed, w.report? a? = some failed ∧
      v = .resolution { failure := failed.map (Failure.handlerFailed id (some e)) }

variable {c : ContextNo} {e : Failure} {s : SignalNo} {id : String} {called : Event} {below : List Frame}
  {a? : Option Handled}

theorem Course.failed (h : w.Course c e s id called below a?) : w.stateOf c = .failed := h.obeys.state

/-- When the error is concluded, both channels have told its outcome. -/
theorem Course.told (h : w.Course c e s id called below a?) (hr : w.Reachable t) {e' : Failure}
    {failed : Option (Option Failure)} {s' : SignalNo} (above : List Frame) {rest : List Frame}
    (hs : w.stack = above ++ .conclude c e' failed s' :: rest)
    (habove : ∀ g ∈ above, g.publishes c = false) {ch : ChannelRef}
    (hch : ch = .before c ∨ ch = .response c) : w.HasTold ch (.response ⟨none, some e⟩) := by
  obtain ⟨v, hv⟩ := hr.orderly.told_of_conclude hr.published hs habove hch
  obtain ⟨r, hr, rfl⟩ := h.obeys.of_value? hch hv.1
  cases hr
  exact hv

/-- No other error comes to be told with the signal. -/
theorem Course.handling_move (h : w.Course c e s id called below a?) {c' : ContextNo} {e' : Failure}
    (hnew : (w.move m).Handling c' e' s) : w.Handling c' e' s := by
  rcases World.handling_move hnew with hold | hbegins
  · exact hold
  · exact absurd (hbegins.signal ▸ h.known) (Nat.lt_irrefl _)

/-- The signal is fired by what concludes the error, if clients leave it to the library. -/
theorem Course.conclude_of_firing (h : w.Course c e s id called below a?)
    (hspare : m.spares s = true) {v : Value} (hfires : w.Fires m (.signal s) v) :
    m = .advance ∧ ∃ failed rest, w.stack = .conclude c e failed s :: rest ∧
      v = .resolution { failure := failed.map (Failure.handlerFailed id (some e)) } := by
  cases hfires with
  | signal hs =>
    obtain ⟨rfl, rfl, _⟩ := h.sole _ _ s (.concluding (hs ▸ List.mem_cons_self)) (.inr rfl)
    obtain ⟨x, hx, rfl⟩ := h.named
    exact ⟨rfl, _, _, hs, by simp [idOf, hx]⟩
  | call => simp [Move.spares] at hspare

/-- The signal has fired before, or is fired by what concludes the error. -/
theorem Course.of_isFired (h : w.Course c e s id called below a?) (hm : (within t).allows w m = true)
    (hspare : m.spares s = true)
    (hfired : (w.move m).isFired (.signal s) = true) : w.isFired (.signal s) = true ∨
      m = .advance ∧ ∃ failed rest, w.stack = .conclude c e failed s :: rest := by
  rcases fires_of_isFired hm hfired (fun i hi => by cases hi; exact h.known) with hold | ⟨v, hfires⟩
  · exact .inl hold
  · obtain ⟨hadvance, failed, rest, hs, _⟩ := h.conclude_of_firing hspare hfires
    exact .inr ⟨hadvance, failed, rest, hs⟩

/-- Nothing of the error is left once the frame that concludes it is gone. -/
theorem Course.concluded (h : w.Course c e s id called below a?) (hr : w.Reachable t)
    (hm : (within t).allows w m = true) {e' : Failure}
    {failed : Option (Option Failure)} {s' : SignalNo} (above : List Frame) {rest : List Frame}
    (hs : w.stack = above ++ .conclude c e' failed s' :: rest)
    (habove : ∀ g ∈ above, g.publishes c = false)
    (hleft : ∀ g ∈ (w.move m).stack, g.concludes c = true → g ∈ rest) (d : ContextNo) (e₁ : Failure) :
    ¬ (w.move m).Handling d e₁ s := by
  intro hnew
  obtain ⟨rfl, _⟩ := h.sole _ _ s (h.handling_move hnew) (.inr rfl)
  have htold : (w.move m).isFired (.response d) = true :=
    isFired_lasts (Option.isSome_iff_exists.2 ⟨_, (h.told hr above hs habove (.inr rfl)).1⟩) m
  obtain ⟨failed', hmem⟩ := (h.settling.move hr.orderly h.failed hm).conclude_of_told
    (hr.move hm).orderly htold hnew
  have hbelow := hr.published.below hs _ (hleft _ hmem (beq_self_eq_true d))
  cases (beq_self_eq_true d).symm.trans hbelow.2

/-- Every move that leaves the signal to the library takes the handling further on its course. -/
theorem Course.move (h : w.Course c e s id called below a?) (hr : w.Reachable t)
    (hm : (within t).allows w m = true) (hspare : m.spares s = true) :
    (w.move m).Course c e s id called below (a?.or (w.answers? c m)) where
  known := signals_grow m h.known
  named := by
    obtain ⟨x, hx, rfl⟩ := h.named
    exact id_lasts hx m
  obeys := h.obeys.move hr.orderly hm
  sole := by
    intro c' e' s' hnew heq
    rcases World.handling_move hnew with hold | hbegins
    · exact h.sole c' e' s' hold heq
    · rcases heq with rfl | rfl
      · cases hbegins.undecided.symm.trans h.failed
      · exact absurd (hbegins.signal ▸ h.known) (Nat.lt_irrefl _)
  handlings := (handlings_of_failed h.failed m).trans h.handlings
  under := by
    intro above n e' s' rest hs
    obtain ⟨gone, fresh, base, hold, hnew, _, harr⟩ := traffic_move w m
    rw [hnew] at hs
    rcases List.append_eq_append_iff.1 hs with ⟨above', rfl, hbase⟩ | ⟨fresh', rfl, hbase⟩
    · exact h.under (gone ++ above') n e' s' rest (by rw [hold, hbase, List.append_assoc])
    · cases fresh' with
      | nil => exact h.under gone n e' s' rest (by rw [hold, hbase, List.nil_append])
      | cons f fresh' =>
        -- no handler is called on another error of the context
        obtain ⟨rfl, _⟩ := List.cons.inj hbase
        have hcome : w.Comes m (.handler n c e' s') := harr.1 _ (by simp)
        cases (begins_of_comes hcome).undecided.symm.trans h.failed
  settling := h.settling.move hr.orderly h.failed hm
  closed := by
    intro hfired
    rcases h.of_isFired hm hspare hfired with hold | ⟨rfl, failed, rest, hs⟩
    · exact fun c' e' hnew => h.closed hold c' e' (h.handling_move hnew)
    · refine h.concluded hr hm [] hs (by simp) fun g hg hconcludes => ?_
      rw [stack_move] at hg
      simp only [shift, shiftWork, hs] at hg
      rcases List.mem_append.1 hg with hg | hg
      · unfold firingFrames at hg
        split at hg
        · cases List.mem_singleton.1 hg
          cases hconcludes
        · cases hg
      · exact hg
  resolved := by
    intro v hv
    cases hold : w.value? (.signal s) with
    | some u =>
      obtain ⟨htold, failed, hfailed, rfl⟩ := h.resolved u hold
      have hlasts := value?_lasts hold m
      exact ⟨fun ch hch => (htold ch hch).move m, failed, report?_lasts hfailed m _,
        Option.some.inj (hv.symm.trans hlasts)⟩
    | none =>
      obtain ⟨rfl, failed, rest, hs, rfl⟩ := h.conclude_of_firing hspare
        (fires_of_value? hm hv hold fun i hi => by cases hi; exact h.known)
      exact ⟨fun ch hch => (h.told hr [] hs (by simp) hch).move _, failed,
        report?_lasts (h.settling.concluding _ _ _ (hs ▸ List.mem_cons_self)) _ _, rfl⟩

/-! ## The call that begins it -/

theorem Begins.use (h : w.Begins m c e s) (u : ChannelRef × Use) : w.use? m ≠ some u := by
  rw [h.call]
  nofun

/-- The only frame that comes with the call and has to do with outcomes is that of the handler. -/
theorem Begins.comes (h : w.Begins m c e s) {f : Frame} (hf : w.Comes m f) :
    f.isAside = true ∨ ∃ n, f = .handler n c e s := by
  cases hf with
  | fires hu => exact absurd hu (h.use _)
  | replays hu => exact absurd hu (h.use _)
  | fails hx hopen =>
    cases h.call
    exact .inr ⟨_, by rw [h.signal]⟩
  | aside ha => exact .inl ha
  | _ => cases h.call

/-- Nothing has been published then, and nothing is about to be. -/
theorem Begins.unpublished (h : w.Begins m c e s) (hr : w.Reachable t) :
    (∀ r, .respond c r ∉ (w.move m).stack ∧ .answer c r ∉ (w.move m).stack) ∧
      ∀ ch, ch = .before c ∨ ch = .response c → (w.move m).isFired ch = false := by
  have hpending := h.undecided
  have hidle : ∀ f ∈ w.stack, f.untold c = 0 := by
    intro f hf
    by_contra hpos
    obtain ⟨_, y, hy, hdecided⟩ := hr.orderly.of_untold hf (Nat.pos_of_ne_zero hpos)
    exact hdecided ((stateOf_of_getElem? hy).symm.trans hpending)
  have habsent : ∀ (f : Frame) (r : Response), .outcome c r ∈ f.dues → f.isAside = false →
      (∀ n, f ≠ .handler n c e s) → f ∉ (w.move m).stack := by
    intro f r hdue ha hn hmem
    rcases mem_stack_move hmem with hold | hcome
    · have hzero := hidle f hold
      have hpos := Frame.untold_pos hdue
      omega
    · rcases h.comes hcome with ha' | ⟨n, rfl⟩
      · cases ha.symm.trans ha'
      · exact hn n rfl
  refine ⟨fun r => ⟨?_, ?_⟩, fun ch hch => ?_⟩
  · exact habsent _ r (Multiset.mem_singleton_self _) rfl nofun
  · exact habsent _ r (Multiset.mem_singleton_self _) rfl nofun
  · refine Bool.eq_false_iff.2 fun hfired => ?_
    obtain ⟨v, hv⟩ := Option.isSome_iff_exists.1 hfired
    cases hold : w.value? ch with
    | some u =>
      obtain ⟨r, hr, _⟩ := (hr.obeys_none hpending).of_value? hch hold
      cases hr
    | none =>
      refine absurd (use_of_value? hv hold ?_) (h.use _)
      rintro i rfl
      rcases hch with hch | hch <;> cases hch

/-- With the call that decides the outcome the handling begins. -/
theorem Begins.course (h : w.Begins m c e s) (hr : w.Reachable t) (hm : (within t).allows w m = true)
    {x : Context} (hx : w.contexts[c]? = some x) :
    (w.move m).Course c e s x.id (.handling x.handler c .failed e s) w.stack none := by
  have hpending := h.undecided
  -- nothing of an error of the context is under way
  have hnone : ∀ e' s', ¬ w.Handling c e' s' := by
    intro e' s' hold
    cases hpending.symm.trans (hr.of_handling c e' s' hold).1
  obtain ⟨hidle, hunfired⟩ := h.unpublished hr
  constructor
  case known => exact h.known
  case named => exact id_lasts hx m
  case obeys =>
    have hdecides : m.decides? c = some ⟨none, some e⟩ := Move.decides?_eq_some.2 h.verdict
    have hmoved := (hr.obeys_none hpending).move hr.orderly hm
    rwa [hdecides, Option.none_or] at hmoved
  case sole =>
    intro c' e' s' hnew heq
    rcases handling_move hnew with hold | ⟨hcall, rfl, _⟩
    · rcases heq with rfl | rfl
      · exact absurd hold (hnone e' s')
      · have hlt := (hr.of_handling c' e' s' hold).2
        rw [h.signal] at hlt
        exact absurd hlt (Nat.lt_irrefl _)
    · cases h.call.symm.trans hcall
      exact ⟨rfl, rfl, h.signal.symm⟩
  case handlings =>
    rw [handlings_move, hr.handlings_nil c hpending, h.notes hx]
    simp [Event.isHandlingOf]
  case under =>
    intro above n e' s' rest hs
    rw [h.stack hx] at hs
    cases above with
    | nil => exact (List.cons.inj hs).2.symm
    | cons f above =>
      have hmem : .handler n c e' s' ∈ w.stack := by
        rw [(List.cons.inj hs).2]
        simp
      exact absurd (.asked hmem) (hnone e' s')
  case settling =>
    constructor
    case asked => intros; rfl
    case waiting =>
      intro ch k e' s' hmem
      rcases observers_move hmem with hold | hnew
      · exact absurd (.waiting hold) (hnone e' s')
      · exact absurd hnew (h.use _)
    case notified =>
      intro ch replay v todo spent e' s' hmem ho
      rcases mem_stack_move hmem with hold | hcome
      · exact absurd (.notified hold ho) (hnone e' s')
      · rcases h.comes hcome with ha | ⟨n, heq⟩
        · cases ha
        · cases heq
    case concluding =>
      intro e' failed s' hmem
      rcases mem_stack_move hmem with hold | hcome
      · exact absurd (.concluding hold) (hnone e' s')
      · rcases h.comes hcome with ha | ⟨n, heq⟩
        · cases ha
        · cases heq
    case published =>
      rintro (⟨r, hmem⟩ | hfired)
      · exact absurd hmem (hidle r).1
      · cases (hunfired _ (.inl rfl)).symm.trans hfired
  case closed =>
    intro hfired
    rw [isFired, h.unfired] at hfired
    cases hfired
  case resolved =>
    intro v hv
    cases h.unfired.symm.trans hv

/-! ## The signal fires in the end -/

/-- What publishes the outcome of an error lies on what resolves its signal, until that has fired or has
been `lost`. -/
def Pursued (w : World) (c : ContextNo) (s : SignalNo) (lost : Bool) : Prop :=
  (∃ r, .respond c r ∈ w.stack ∨ .answer c r ∈ w.stack) ∨ w.isFired (.response c) = true →
    (∃ e failed, .conclude c e failed s ∈ w.stack) ∨ w.isFired (.signal s) = true ∨ lost = true

/-- Nothing but a failure gets in its way. -/
theorem Pursued.move {lost : Bool} (hp : w.Pursued c s lost)
    (h : w.Course c e s id called below a?) (hm : (within t).allows w m = true) :
    (w.move m).Pursued c s (lost || w.withholds s) := by
  -- what resolves the signal is still there, has done so, or was taken
  have hstill : (∃ e failed, .conclude c e failed s ∈ w.stack) ∨ w.isFired (.signal s) = true ∨ lost = true →
      (∃ e failed, .conclude c e failed s ∈ (w.move m).stack) ∨
        (w.move m).isFired (.signal s) = true ∨ (lost || w.withholds s) = true := by
    rintro (⟨e', failed, hmem⟩ | hfired | rfl)
    · rcases mem_of_mem_stack hmem m with hmem | ⟨rest, hs⟩ | ⟨g, rest, hs, _⟩
      · exact .inl ⟨e', failed, hmem⟩
      · obtain rfl := eq_advance hm hs rfl
        have hu : w.use? .advance = some (.signal s, .fire (.resolution
            { failure := failed.map (Failure.handlerFailed (w.idOf c) (some e')) })) := by
          simp only [use?, workUse?, hs]
        exact .inr (.inl (isFired_of_use hu h.known))
      · exact .inr (.inr (Bool.or_eq_true_iff.2 (.inr (withholds_of_throwing hs))))
    · exact .inr (.inl (isFired_lasts hfired m))
    · exact .inr (.inr rfl)
  rintro (⟨r, hmem | hmem⟩ | hfired)
  · rcases mem_stack_move hmem with hold | hcome
    · exact hstill (hp (.inl ⟨r, .inl hold⟩))
    · rcases conclude_of_respond hcome with ⟨x, hx, hopen⟩ | ⟨e', failed, s', hmem, hold⟩
      · rw [isTerminated_of_getElem? hx, h.failed] at hopen
        cases hopen
      · obtain ⟨_, rfl, rfl⟩ := h.sole _ _ _ hold (.inl rfl)
        exact .inl ⟨e', failed, hmem⟩
  · rcases mem_stack_move hmem with hold | hcome
    · exact hstill (hp (.inl ⟨r, .inr hold⟩))
    · obtain ⟨_, rest, hs⟩ := respond_of_answer hcome
      exact hstill (hp (.inl ⟨r, .inl (hs ▸ List.mem_cons_self)⟩))
  · rcases response_of_move hm hfired with ⟨r, hmem⟩ | hold
    · exact hstill (hp (.inl ⟨r, .inr hmem⟩))
    · exact hstill (hp (.inr hold))

/-- As long as the outcome of an error is not published and nothing is under way, the error waits for the
signal that its handler has returned. -/
theorem Orderly.waits_of_idle (h : w.Orderly t) {c : ContextNo} (hc : w.stateOf c = .failed)
    (idle : w.stack = []) (hopen : w.isFired (.response c) = false) :
    ∃ ch k e s, (k, .settleError c e s) ∈ w.observers ch := by
  obtain ⟨x, hx, hdecided⟩ := exists_of_stateOf (by rw [hc]; nofun : w.stateOf c ≠ .pending)
  have honce := h.sound.sane.outcome c x.account (account_of hx)
  have hresponse : x.account.response.isSome = false := by
    simpa [isFired, value?, hx, Context.account] using hopen
  rw [if_neg (show ¬ x.account.state = .pending from hdecided), hresponse] at honce
  have hpos : 0 < w.ledger.untold c := by
    simp only [Bool.false_eq_true, if_false] at honce
    omega
  obtain ⟨d, hd, hof⟩ := Multiset.countP_pos.1 hpos
  have hwork : w.ledger.work = 0 := by
    show (w.stack.map Frame.dues).sum = 0
    rw [idle]
    rfl
  rw [Ledger.dues, hwork, add_zero] at hd
  obtain ⟨p, hp, hdp⟩ := mem_sum_map.1 hd
  obtain ⟨i, hi⟩ := List.getElem?_of_mem hp
  rw [pledges_ledger] at hi
  obtain ⟨y, hy, rfl⟩ := Option.map_eq_some_iff.1 hi
  obtain ⟨⟨k, o⟩, ho, hdo⟩ := mem_sum_map.1 hdp
  cases o with
  | settleError c' e s =>
    obtain rfl := Multiset.mem_singleton.1 hdo
    obtain rfl : c' = c := by simpa [Due.isOutcomeOf] using hof
    exact ⟨.signal i, k, e, s, by simpa [observers, hy] using ho⟩
  | settleLink c' =>
    obtain rfl := Multiset.mem_singleton.1 hdo
    cases hof
  | client label keeps => cases hdo
  | empty => cases hdo

theorem Course.fired_of_idle {lost : Bool} (h : w.Course c e s id called below a?)
    (ho : w.Orderly t) (hp : w.Pursued c s lost) (idle : w.stack = [])
    {failed : Option (Option Failure)} (hk : w.report? a? = some failed) :
    w.isFired (.signal s) = true ∨ lost = true := by
  cases hresponse : w.isFired (.response c) with
  | true =>
    rcases hp (.inr hresponse) with ⟨_, _, hmem⟩ | hfired
    · rw [idle] at hmem
      cases hmem
    · exact hfired
  | false =>
    -- the signal that the error waits for has not fired, and so nothing is known
    obtain ⟨ch, k, e', s', hwaits⟩ := ho.waits_of_idle h.failed idle hresponse
    obtain ⟨i, rfl, rfl⟩ := h.settling.waiting ch k e' s' hwaits
    obtain ⟨v, hv, _⟩ := Option.map_eq_some_iff.1 hk
    have hunfired := isFired_of_observers hwaits
    rw [isFired, hv] at hunfired
    cases hunfired

/-! ## Runs -/

/-- The course of an error throughout a run that goes on after the call. -/
theorem Begins.run (h : w.Begins m c e s) (hr : w.Reachable t) (hm : (within t).allows w m = true)
    {x : Context} (hx : w.contexts[c]? = some x) {after : List Move}
    (hlegal : ((within t).restrict fun _ m => m.spares s).legal (w.move m) after = true) :
    (machine.run (w.move m) after).Reachable t ∧
      (machine.run (w.move m) after).Course c e s x.id (.handling x.handler c .failed e s) w.stack
        ((w.move m).answer? c after) ∧
      (machine.run (w.move m) after).Pursued c s ((w.move m).withheld s after) := by
  -- by induction on the moves after the call
  refine ((within t).restrict fun _ m => m.spares s).run_induction
    (P := fun moves v => v.Reachable t ∧ v.Course c e s x.id (.handling x.handler c .failed e s) w.stack
        ((w.move m).answer? c moves) ∧ v.Pursued c s ((w.move m).withheld s moves))
    ⟨hr.move hm, h.course hr hm hx, fun hpremise => ?_⟩ ?_ hlegal
  · obtain ⟨hidle, hunfired⟩ := h.unpublished hr
    rcases hpremise with ⟨r, hmem | hmem⟩ | hfired
    · exact absurd hmem (hidle r).1
    · exact absurd hmem (hidle r).2
    · cases (hunfired _ (.inr rfl)).symm.trans hfired
  · rintro moves m' ⟨hreach, hcourse, hpursued⟩ hm'
    obtain ⟨hallows, hspare⟩ := Bool.and_eq_true_iff.1 hm'
    refine ⟨hreach.move hallows, ?_, ?_⟩
    · rw [answer?_concat]
      exact hcourse.move hreach hallows hspare
    · rw [withheld_concat]
      exact hpursued.move hcourse hallows

/-- No signal is withheld if no more participants leave a context than have joined it, and no counter is
asked to count more than it can. -/
theorem Reachable.withheld_of_inRange (h : w.Reachable t) (hmatched : t.matched = true) (s : SignalNo)
    {moves : List Move} (hlegal : (within t).legal w moves = true)
    (hrange : (machine.run w moves).inRange = true) : w.withheld s moves = false := by
  -- by induction on the moves; a counter that is in range has been so all the time
  refine ((within t).run_induction (P := fun moves v => v.Reachable t ∧
    (v.inRange = true → w.withheld s moves = false)) ⟨h, fun _ => rfl⟩ ?_ hlegal).2 hrange
  rintro moves m ⟨hreach, ih⟩ hm
  refine ⟨hreach.move hm, fun hafter => ?_⟩
  obtain ⟨hbefore, _⟩ := allows_of_inRange hreach.orderly hm hafter
  rw [withheld_concat, ih hbefore, Bool.false_or]
  exact (hreach.bounded hbefore).withholds_of_strict (by simp [Terms.strict, hmatched]) s

/-- Nothing is published, and the slot is not given up, before it is known how the handling has ended. -/
theorem Course.known_of_publishing (h : w.Course c e s id called below a?) (hr : w.Reachable t)
    (hm : (within t).allows w m = true)
    (hpublished : (w.move m).isFired (.before c) = true ∨ (w.move m).isFired (.response c) = true ∨
      .left c .own ∈ (w.move m).history.toList) : ∃ failed, w.report? a? = some failed := by
  have hp := hr.published
  have hbefore : w.isFired (.before c) = true → ∃ failed, w.report? a? = some failed :=
    fun hfired => h.settling.published (.inr hfired)
  rcases hpublished with hfired | hfired | hleft
  · exact h.settling.published (before_of_move hm hfired)
  · exact hbefore (hp.before c (response_of_move hm hfired))
  · have hchronicle : .left c .own ∈ (w.move m).chronicle := List.mem_filter.2 ⟨hleft, rfl⟩
    rw [chronicle_move] at hchronicle
    rcases List.mem_append.1 hchronicle with hold | hnew
    · exact hbefore (hp.before c (.inr (hp.response c (.inr hold))))
    · obtain ⟨rest, hs⟩ := own_of_left hm hnew
      exact hbefore (hp.before c (.inr (hp.response c (.inl (hs ▸ List.mem_cons_self)))))

/-- When the signal fires, both channels have told the outcome. -/
theorem Course.told_first (h : w.Course c e s id called below a?) (hr : w.Reachable t)
    (hm : (within t).allows w m = true) (hspare : m.spares s = true)
    (hfired : (w.move m).isFired (.signal s) = true) {ch : ChannelRef}
    (hch : ch = .before c ∨ ch = .response c) : w.HasTold ch (.response ⟨none, some e⟩) := by
  rcases h.of_isFired hm hspare hfired with hold | ⟨rfl, failed, rest, hs⟩
  · obtain ⟨v, hv⟩ := Option.isSome_iff_exists.1 hold
    exact (h.resolved v hv).1 ch hch
  · exact h.told hr [] hs (by simp) hch

/-- A channel of a context that carries a value has fired. -/
theorem Reachable.firings_pos (h : w.Reachable t) {ch : ChannelRef} {v : Value}
    (hv : w.value? ch = some v) (hch : ∀ s, ch ≠ .signal s) : 0 < w.firings ch := by
  obtain ⟨threshold, moves, _, rfl⟩ := h
  have hrun := (value?_run threshold moves ch hch).symm.trans hv
  obtain ⟨ev, hev, hcarries⟩ := List.exists_of_findSome?_eq_some hrun
  have hmem := List.mem_of_mem_filter hev
  unfold firings
  rw [← Array.countP_toList]
  refine List.countP_pos_iff.2 ⟨ev, hmem, ?_⟩
  cases ev with
  | fired ch' u =>
    simp only [Event.carries?] at hcarries
    split at hcarries
    · rename_i heq
      simp [Event.fires, heq]
    · cases hcarries
  | _ => cases hcarries

/-- The handler's return leads to the return of the call, which answers with the signal. -/
theorem stack_handled_returns {n : Nat} {rest : List Frame} (hs : w.stack = .handler n c e s :: rest)
    (a : Handled) :
    ∃ above kept, (w.move (.handled a)).stack = above ++ .returning (.signal s) kept :: rest := by
  rw [stack_move]
  simp only [shift, shiftHandled, hs]
  cases a with
  | nothing => exact ⟨[_, _], _, rfl⟩
  | threw f => exact ⟨[_], _, rfl⟩
  | signal i => exact ⟨_, _, rfl⟩

/-- **The error protocol.** A context whose outcome is undecided fails with `e`; `s` is the signal made for
that. Clients leave it to the library to fire `s`, and fire no channel of a context. Then, of any world
that a run goes on to, whatever the handler does before it returns, whatever it returns, and whoever
fires the signal that it returns:
* the handler of the context has been called once, with `e`, when the context had failed;
* when it returns, the call goes on to answer with `s`;
* no channel of the outcome fires, and the slot for the context's own work is not given up, before it is
  known how the handling has ended: the handler has returned nothing, has thrown, or the signal that it
  returned has fired;
* when `s` fires, both channels carry the error, each has fired once, and all who had registered with it
  have been notified. They fire at most once in any case, and never tell anything else;
* `s` fires at most once. It carries a failure exactly if the handler failed, which holds the id of the
  context, `e`, and what the handler has thrown or the signal it returned has delivered;
* when nothing is under way and it is known how the handling has ended, `s` has fired, unless a counter
  has been asked to count more than it can. -/
theorem error_settled {w₀ : World} {c : ContextNo} {e : Failure} {x : Context} {after : List Move}
    (h₀ : w₀.Reachable t) (hcall : (within t).allows w₀ (.call (.error c (some e))) = true)
    (hx : w₀.contexts[c]? = some x) (hpending : x.state = .pending)
    (h : ((within t).restrict fun _ m => m.spares w₀.signals.size).legal
      (w₀.move (.call (.error c (some e)))) after = true)
    (hw : machine.run (w₀.move (.call (.error c (some e)))) after = w)
    {a? : Option Handled} (ha : (w₀.move (.call (.error c (some e)))).answer? c after = a?) :
    (w.stateOf c = .failed ∧ w.handlings c = [.handling x.handler c .failed e w₀.signals.size]) ∧
    (∀ n e' s' rest a, w.stack = .handler n c e' s' :: rest → ∃ above kept,
      (w.move (.handled a)).stack = above ++ .returning (.signal w₀.signals.size) kept :: w₀.stack) ∧
    (∀ m, (within t).allows w m = true → (w.move m).isFired (.before c) = true ∨
      (w.move m).isFired (.response c) = true ∨ .left c .own ∈ (w.move m).history.toList →
        ∃ failed, w.report? a? = some failed) ∧
    (∀ ch, ch = .before c ∨ ch = .response c → w.firings ch ≤ 1 ∧
      (∀ ev ∈ w.history.toList, ev.tells ch = true → ev.value? = some (.response ⟨none, some e⟩)) ∧
      ∀ m, (within t).allows w m = true → m.spares w₀.signals.size = true →
        (w.move m).isFired (.signal w₀.signals.size) = true →
          w.HasTold ch (.response ⟨none, some e⟩) ∧ w.firings ch = 1) ∧
    (w.firings (.signal w₀.signals.size) ≤ 1 ∧ ∀ v, w.value? (.signal w₀.signals.size) = some v →
      ∃ failed, w.report? a? = some failed ∧
        v = .resolution { failure := failed.map (Failure.handlerFailed x.id (some e)) }) ∧
    (t.matched = true → w.inRange = true → w.stack = [] → (∃ failed, w.report? a? = some failed) →
      w.isFired (.signal w₀.signals.size) = true) := by
  have hbegins : w₀.Begins (.call (.error c (some e))) c e w₀.signals.size :=
    ⟨rfl, rfl, x, hx, hpending⟩
  obtain ⟨hreach, hcourse, hpursued⟩ := hbegins.run h₀ hcall hx h
  rw [hw, ha] at hcourse
  rw [hw] at hreach hpursued
  refine ⟨⟨hcourse.failed, hcourse.handlings⟩, ?_, fun m hm => hcourse.known_of_publishing hreach hm, ?_,
    ⟨hreach.firings_le_one _, fun v hv => (hcourse.resolved v hv).2⟩, ?_⟩
  · intro n e' s' rest a hs
    obtain ⟨_, _, rfl⟩ := hcourse.sole c e' s' (.asked (hs ▸ List.mem_cons_self)) (.inl rfl)
    obtain rfl := hcourse.under [] n e' _ rest hs
    exact stack_handled_returns hs a
  · intro ch hch
    refine ⟨hreach.firings_le_one ch, fun ev hev htells => ?_, fun m hm hspare hfired => ?_⟩
    · obtain ⟨r, hr, hvalue⟩ := hcourse.obeys.told hreach.orderly.tidy hch hev htells
      cases hr
      exact hvalue
    · have htold := hcourse.told_first hreach hm hspare hfired hch
      have hpos := hreach.firings_pos htold.1 (by rcases hch with rfl | rfl <;> nofun)
      exact ⟨htold, Nat.le_antisymm (hreach.firings_le_one ch) hpos⟩
  · rintro hmatched hrange idle ⟨failed, hfailed⟩
    rw [(h₀.move hcall).withheld_of_inRange hmatched _ (Machine.legal_of_restrict _ h) (hw ▸ hrange)]
      at hpursued
    exact (hcourse.fired_of_idle hreach.orderly hpursued idle hfailed).resolve_right nofun

/-- A root whose outcome a client observes, and a signal for its handler to return. -/
def deferredMoves : List Move :=
  [.call (.makeSignal none), .advance, .call (.hold (.signal 0)),
    .call (.createRoot { origin := .bridge "a" "" (some 0), location := some ⟨"box", "a"⟩ }), .advance,
    .call (.subscribe (.response 0) (some 7) [])]

/-- The handler makes a child and reports a second error before it returns the signal, which later on
delivers a failure. -/
def deferredAnswer : List Move :=
  [Move.call (.createChild 0 (some ⟨"box", "b"⟩) none none), .advance,
    .call (.error 0 (some .unspecified)), .advance, .handled (.signal 0), .advance,
    .call (.fireSignal 0 { failure := some .foreign })] ++ List.replicate 5 Move.advance ++
  [Move.finish none] ++ List.replicate 6 Move.advance

theorem error_settled_deferred : ∃ w : World,
    machine.run ((machine.run start deferredMoves).move (.call (.error 0 (some .outOfMemory))))
      deferredAnswer = w ∧
    w.handlings 0 = [.handling 0 0 .failed .outOfMemory 1] ∧ w.firings (.response 0) ≤ 1 ∧
      w.value? (.signal 1) =
        some (.resolution { failure := some (.handlerFailed "a" (some .outOfMemory) (some .foreign)) }) := by
  have reachable : (machine.run start deferredMoves).Reachable { matched := true, bounded := false } :=
    ⟨_, deferredMoves, by decide +kernel, rfl⟩
  have root : ((machine.run start deferredMoves).contexts[0]?).map
      (fun x => (x.state, x.id, x.handler)) = some (.pending, "a", 0) := by decide +kernel
  obtain ⟨x, hx, hroot⟩ := Option.map_eq_some_iff.1 root
  obtain ⟨hpending, hid, hhandler⟩ : x.state = .pending ∧ x.id = "a" ∧ x.handler = 0 := by
    simpa using hroot
  obtain ⟨w, hw⟩ : ∃ w, machine.run ((machine.run start deferredMoves).move
    (.call (.error 0 (some .outOfMemory)))) deferredAnswer = w := ⟨_, rfl⟩
  obtain ⟨a?, ha⟩ : ∃ a?, ((machine.run start deferredMoves).move
    (.call (.error 0 (some .outOfMemory)))).answer? 0 deferredAnswer = a? := ⟨_, rfl⟩
  obtain ⟨⟨_, hhandling⟩, _, _, htells, ⟨_, hcarries⟩, hfires⟩ := error_settled reachable
    (e := .outOfMemory) (by decide +kernel) hx hpending (by decide +kernel) hw ha
  have size : (machine.run start deferredMoves).signals.size = 1 := by decide +kernel
  rw [size] at hhandling hcarries hfires
  rw [hhandler] at hhandling
  rw [hid] at hcarries
  -- the signal that the handler returned has delivered the failure
  have known : w.report? a? = some (some (some .foreign)) := by
    have hforeign : (w.report? a?).any (·.any (·.any (!·.isStandard))) = true := by
      rw [← hw, ← ha]
      decide +kernel
    obtain ⟨r, hr, hforeign⟩ := (Option.any_eq_true _ _).1 hforeign
    obtain ⟨e?, rfl, hforeign⟩ := (Option.any_eq_true _ r).1 hforeign
    obtain ⟨e, rfl, hforeign⟩ := (Option.any_eq_true _ e?).1 hforeign
    cases e with
    | foreign => exact hr
    | _ => cases hforeign
  have idle : w.stack = [] := by
    rw [← hw]
    exact List.isEmpty_iff.1 (by decide +kernel)
  have fired := hfires rfl (by rw [← hw]; decide +kernel) idle ⟨_, known⟩
  obtain ⟨v, hv⟩ := Option.isSome_iff_exists.1 fired
  obtain ⟨failed, hfailed, rfl⟩ := hcarries v hv
  cases known.symm.trans hfailed
  exact ⟨w, hw, hhandling, (htells (.response 0) (.inr rfl)).1, hv⟩

/-- The counter must not have overflowed. If it has, the slot of a root that fails cannot be given up: the
call throws when it has told the outcome, and nobody is left to fire the signal. -/
theorem overrun_leaves_unsettled :
    ¬ ∀ (w v : World) (c : ContextNo) (e : Failure) (after : List Move),
      w.Reachable { matched := true, bounded := false } →
      (within { matched := true, bounded := false }).allows w (.call (.error c (some e))) = true →
      w.stateOf c = .pending →
      ((within { matched := true, bounded := false }).restrict fun _ m => m.spares w.signals.size).legal
        (w.move (.call (.error c (some e)))) after = true →
      machine.run (w.move (.call (.error c (some e)))) after = v → v.stack = [] →
      (∃ failed, v.report? ((w.move (.call (.error c (some e)))).answer? c after) = some failed) →
      v.isFired (.signal w.signals.size) = true := by
  intro hclaim
  have fired := hclaim (lone.joinedBy 0 ⟨.minValue⟩ (2 ^ 31 - 1)) _ 0 .unspecified
    (.handled .nothing :: List.replicate 8 .advance) reachable_overrun (by decide +kernel)
    (by decide +kernel) (by decide +kernel) rfl (List.isEmpty_iff.1 (by decide +kernel))
    (Option.isSome_iff_exists.1 (by decide +kernel))
  exact absurd fired (by decide +kernel)

end World

end FanIn
