import FanIn.Proofs.Tree.Precedence

/-!
# The first terminal call wins

The outcome of a context is what the first terminal call on it says. It holds from that call on,
however long it takes to be published and whatever terminal calls come in between, and it is all that
the two channels ever tell. Later terminal calls answer that they came too late, and leave everything
as it was.

Main statement: `first_terminal_call_wins`.
-/

namespace FanIn

/-! ## Verdicts -/

/-- The outcome that a move decides for a context, if that is not decided. -/
def Move.decides? (c : ContextNo) (m : Move) : Option Response :=
  (m.verdict?.filter fun v => v.1 == c).map Prod.snd

/-- What the first terminal call on a context says. -/
def firstVerdict (c : ContextNo) (moves : List Move) : Option Response :=
  moves.findSome? (Move.decides? c)

theorem Move.decides?_eq_some {c : ContextNo} {m : Move} {r : Response} :
    m.decides? c = some r ↔ m.verdict? = some (c, r) := by
  unfold decides?
  constructor
  · intro h
    obtain ⟨v, hv, rfl⟩ := Option.map_eq_some_iff.1 h
    obtain ⟨hv, hc⟩ := Option.filter_eq_some_iff.1 hv
    rw [hv, ← beq_iff_eq.1 hc]
  · intro h
    simp [h]

theorem firstVerdict_append (c : ContextNo) (moves later : List Move) :
    firstVerdict c (moves ++ later) = (firstVerdict c moves).or (firstVerdict c later) :=
  List.findSome?_append

theorem firstVerdict_concat (c : ContextNo) (moves : List Move) (m : Move) :
    firstVerdict c (moves ++ [m]) = (firstVerdict c moves).or (m.decides? c) := by
  rw [firstVerdict_append]
  congr 1
  unfold firstVerdict
  cases h : m.decides? c <;> simp [h]

/-- The value that is told of a channel. -/
def Event.value? : Event → Option Value
  | fired _ v => some v
  | observed _ _ v => some v
  | replayed _ _ v => some v
  | _ => none

namespace World

variable {t : Terms} {w w' : World}

/-- How far the outcome of a context is decided; that of a context yet to be is not. -/
def stateOf (w : World) (c : ContextNo) : State := (w.contexts[c]?).elim .pending Context.state

theorem stateOf_ledger (c : ContextNo) : w.ledger.stateOf c = w.stateOf c := by
  unfold Ledger.stateOf stateOf
  rw [accounts_ledger]
  cases w.contexts[c]? <;> rfl

theorem stateOf_of_getElem? {c : ContextNo} {x : Context} (h : w.contexts[c]? = some x) :
    w.stateOf c = x.state := by
  unfold stateOf
  rw [h]
  rfl

theorem isTerminated_of_getElem? {c : ContextNo} {x : Context} (h : w.contexts[c]? = some x) :
    x.isTerminated = (w.stateOf c != .pending) := by
  rw [stateOf_of_getElem? h]
  rfl

/-- A context whose outcome is decided has been made. -/
theorem exists_of_stateOf {c : ContextNo} (h : w.stateOf c ≠ .pending) :
    ∃ x, w.contexts[c]? = some x ∧ x.state ≠ .pending := by
  cases hx : w.contexts[c]? with
  | none =>
    unfold stateOf at h
    rw [hx] at h
    exact absurd rfl h
  | some x =>
    rw [stateOf_of_getElem? hx] at h
    exact ⟨x, rfl, h⟩

theorem stateOf_modifyContext {c : ContextNo} {x : Context} (hx : w.contexts[c]? = some x)
    (f : Context → Context) : (w.modifyContext c f).stateOf c = (f x).state := by
  refine stateOf_of_getElem? ?_
  rw [getElem?_modifyContext, if_pos rfl, hx]
  rfl

/-! ## The first call -/

/-- A terminal call on a context whose outcome is not decided decides it. -/
theorem stateOf_decided {m : Move} {c : ContextNo} {r : Response} (hv : m.verdict? = some (c, r))
    {x : Context} (hx : w.contexts[c]? = some x) (hp : x.state = .pending) :
    (w.move m).stateOf c = r.state := by
  have hopen : x.isTerminated = false := by simp [Context.isTerminated, hp]
  have hx' : w.point.contexts[c]? = some x := hx
  cases m with
  | call call =>
    cases call with
    | success d result =>
      obtain ⟨rfl, rfl⟩ := Prod.mk.inj (Option.some.inj hv)
      show (w.success d result).stateOf d = .succeeded
      unfold World.success
      simp only [hx', hopen, Bool.false_eq_true, if_false]
      exact stateOf_modifyContext hx' _
    | error d failure =>
      cases failure with
      | none => cases hv
      | some e =>
        obtain ⟨rfl, rfl⟩ := Prod.mk.inj (Option.some.inj hv)
        show (w.error d (some e)).stateOf d = .failed
        unfold World.error
        simp only [hx', hopen, Bool.false_eq_true, if_false]
        exact stateOf_modifyContext hx' _
    | _ => cases hv
  | _ => cases hv

/-- A terminal call that is legal is made on a context that exists. -/
theorem Orderly.exists_of_verdict (h : w.Orderly t) {m : Move}
    (hm : (within t).allows w m = true) {c : ContextNo} {r : Response}
    (hv : m.verdict? = some (c, r)) : ∃ x, w.contexts[c]? = some x := by
  have hallows := (Bool.and_eq_true_iff.1 hm).1
  have hlive : w.isLive c = true := by
    cases m with
    | call call =>
      refine h.tidy.held_live (r := .context c) (held_of_call hallows ?_)
      cases call with
      | success d result =>
        obtain ⟨rfl, _⟩ := Prod.mk.inj (Option.some.inj hv)
        exact List.mem_singleton_self _
      | error d failure =>
        cases failure with
        | none => cases hv
        | some e =>
          obtain ⟨rfl, _⟩ := Prod.mk.inj (Option.some.inj hv)
          exact List.mem_singleton_self _
      | _ => cases hv
    | _ => cases hv
  obtain ⟨x, hx, _⟩ := exists_of_isLive hlive
  exact ⟨x, hx⟩

/-! ## What was decided -/

/-- The outcome of a context is as decided, and no other outcome of it is, or will be, told. -/
structure Obeys (w : World) (c : ContextNo) (v : Option Response) : Prop where
  state : w.stateOf c = v.elim .pending Response.state
  voices : ∀ r, w.ledger.Voices c r → v = some r

/-- A legal move leaves a decided outcome alone, and decides one only by a terminal call. -/
theorem Obeys.move {c : ContextNo} {v : Option Response} (h : w.Obeys c v) (hw : w.Orderly t)
    {m : Move} (hm : (within t).allows w m = true) : (w.move m).Obeys c (v.or (m.decides? c)) := by
  have hsteps := hw.steps hm
  have hrules := hsteps.rules c
  rw [stateOf_ledger, stateOf_ledger] at hrules
  -- a decided outcome stays; one yet to be decided is decided by a terminal call and nothing else
  cases v with
  | some r =>
    have hdecided : w.stateOf c ≠ .pending := by
      rw [h.state]
      exact r.state_ne_pending
    constructor
    case state =>
      rcases hrules with heq | ⟨hpending, _⟩
      · exact heq.trans h.state
      · exact absurd hpending hdecided
    case voices =>
      intro r' hr'
      rcases hsteps.voices hr' with hold | ⟨_, hpending⟩
      · exact h.voices r' hold
      · exact absurd hpending (by rwa [stateOf_ledger])
  | none =>
    have hpending : w.stateOf c = .pending := h.state
    rw [Option.none_or]
    constructor
    case state =>
      cases hd : m.decides? c with
      | none =>
        rcases hrules with heq | ⟨_, r, hr, _⟩
        · exact heq.trans hpending
        · cases hd.symm.trans (Move.decides?_eq_some.2 hr)
      | some r =>
        have hv := Move.decides?_eq_some.1 hd
        obtain ⟨x, hx⟩ := hw.exists_of_verdict hm hv
        exact stateOf_decided hv hx ((stateOf_of_getElem? hx).symm.trans hpending)
    case voices =>
      intro r hr
      rcases hsteps.voices hr with hold | ⟨hv, _⟩
      · cases h.voices r hold
      · exact Move.decides?_eq_some.2 hv

theorem obeys_start (threshold : Log.Level) (c : ContextNo) : (start threshold).Obeys c none where
  state := rfl
  voices := by
    rintro r (hdue | ⟨a, ha, _⟩)
    · exact absurd hdue (Multiset.notMem_zero _)
    · cases ha

/-- Throughout a run, the first terminal call decides. -/
theorem obeys_run {threshold : Log.Level} {moves : List Move}
    (h : (within t).legal (start threshold) moves = true) (c : ContextNo) :
    ((within t).run (start threshold) moves).Obeys c (firstVerdict c moves) := by
  -- by induction on the moves, the last of which is made in a world that is orderly
  have hboth := (within t).run_induction
    (P := fun moves w => w.Orderly t ∧ w.Obeys c (firstVerdict c moves))
    ⟨orderly_start threshold, obeys_start threshold c⟩
    (fun moves m hw hm => ⟨hw.1.move hm, by
      rw [firstVerdict_concat]
      exact hw.2.move hw.1 hm⟩) h
  exact hboth.2

/-- As long as the outcome of a context is undecided, none has been told. -/
theorem Reachable.obeys_none (h : w.Reachable t) {c : ContextNo} (hc : w.stateOf c = .pending) :
    w.Obeys c none := by
  obtain ⟨threshold, moves, hlegal, rfl⟩ := h
  have hobeys := obeys_run hlegal c
  cases hv : firstVerdict c moves with
  | none => exact hv ▸ hobeys
  | some r =>
    have hstate := hobeys.state
    rw [hv, hc] at hstate
    exact absurd hstate.symm r.state_ne_pending

/-- What the two channels for the outcome of a context carry is what was decided. -/
theorem Obeys.of_value? {c : ContextNo} {v : Option Response} (h : w.Obeys c v) {ch : ChannelRef}
    (hch : ch = .before c ∨ ch = .response c) {u : Value} (hu : w.value? ch = some u) :
    ∃ r, v = some r ∧ u = .response r := by
  have hvoice : ∃ r, u = .response r ∧ w.ledger.Voices c r := by
    rcases hch with rfl | rfl
    · obtain ⟨x, hx, hu⟩ := Option.bind_eq_some_iff.1 hu
      obtain ⟨r, hr, rfl⟩ := Option.map_eq_some_iff.1 hu
      exact ⟨r, rfl, .inr ⟨x.account, account_of hx, .inl hr⟩⟩
    · obtain ⟨x, hx, hu⟩ := Option.bind_eq_some_iff.1 hu
      obtain ⟨r, hr, rfl⟩ := Option.map_eq_some_iff.1 hu
      exact ⟨r, rfl, .inr ⟨x.account, account_of hx, .inr hr⟩⟩
  obtain ⟨r, rfl, hr⟩ := hvoice
  exact ⟨r, h.voices r hr, rfl⟩

/-- What the two channels for the outcome of a context tell is what was decided. -/
theorem Obeys.told {c : ContextNo} {v : Option Response} (h : w.Obeys c v) (ht : w.Tidy w.completed)
    {ch : ChannelRef} (hch : ch = .before c ∨ ch = .response c) {e : Event}
    (he : e ∈ w.history.toList) (htells : e.tells ch = true) :
    ∃ r, v = some r ∧ e.value? = some (.response r) := by
  have hattests := ht.events e he
  cases e with
  | fired ch' u =>
    obtain rfl := beq_iff_eq.1 htells
    obtain ⟨r, hr, rfl⟩ := h.of_value? hch hattests
    exact ⟨r, hr, rfl⟩
  | observed ch' l u =>
    obtain rfl := beq_iff_eq.1 htells
    obtain ⟨r, hr, rfl⟩ := h.of_value? hch hattests
    exact ⟨r, hr, rfl⟩
  | replayed ch' l u =>
    obtain rfl := beq_iff_eq.1 htells
    obtain ⟨r, hr, rfl⟩ := h.of_value? hch hattests
    exact ⟨r, hr, rfl⟩
  | _ => cases htells

/-! ## Later calls -/

/-- Nothing is different but for signals that have been made and perhaps a warning in the log. -/
structure Undisturbed (w w' : World) (made : List Signal) : Prop where
  contexts : w'.contexts = w.contexts
  signals : w'.signals.toList = w.signals.toList ++ made
  trees : w'.trees = w.trees
  registry : w'.registry = w.registry
  queue : w'.queue = w.queue
  stack : w'.stack = w.stack
  threshold : w'.threshold = w.threshold
  history : w'.history = w.history ∨ ∃ m, w'.history = w.history.push (.logged .warning m)

theorem undisturbed_warning (m : String) : w.Undisturbed (w.log .warning m) [] := by
  unfold World.log
  split
  · exact ⟨rfl, (List.append_nil _).symm, rfl, rfl, rfl, rfl, rfl, .inr ⟨_, rfl⟩⟩
  · exact ⟨rfl, (List.append_nil _).symm, rfl, rfl, rfl, rfl, rfl, .inl rfl⟩

/-- A success that comes too late answers so at once. -/
theorem success_late {c : ContextNo} {x : Context} (hx : w.contexts[c]? = some x)
    (hdecided : x.state ≠ .pending) (result : Option Int) :
    (w.call (.success c result)).reply = .ok (.flag false) ∧
      w.Undisturbed (w.call (.success c result)) [] := by
  have hclosed : x.isTerminated = true := by simpa [Context.isTerminated] using hdecided
  have hx' : w.point.contexts[c]? = some x := hx
  have hcall : w.call (.success c result) =
      (w.point.log .warning (ignoredNote x "success() ignored")).answered (.flag false) := by
    show w.success c result = _
    unfold World.success
    simp only [hx', hclosed, if_true]
  have hwarned := undisturbed_warning (w := w.point) (ignoredNote x "success() ignored")
  rw [hcall]
  exact ⟨rfl, hwarned.contexts, hwarned.signals, hwarned.trees, hwarned.registry, hwarned.queue,
    hwarned.stack, hwarned.threshold, hwarned.history⟩

/-- The signal that answers an error which came too late. It has fired. -/
def lateSignal : Signal where
  channel := .fired { failure := none, alreadyCompleted := true }
  holders := 1

/-- A signal that has been made is handed out when the call returns. -/
theorem advance_makeSignal (w : World) (r : Resolution) :
    (w.call (.makeSignal (some r))).advance = World.answered { w with
      signals := w.signals.push { channel := .fired r, holders := 1 }, points := w.points + 1 }
        (.signal w.signals.size) := by
  have hmodify : (w.signals.push { channel := .fired r }).modify w.signals.size
      (fun x => { x with holders := x.holders + 1 }) =
        w.signals.push { channel := .fired r, holders := 1 } := by
    apply Array.ext_getElem?
    intro i
    rw [Array.getElem?_modify, Array.getElem?_push, Array.getElem?_push]
    by_cases hi : w.signals.size = i
    · subst hi
      simp
    · simp [hi, Ne.symm hi]
  have hreturn : (w.call (.makeSignal (some r))).advance =
      (w.point.addSignal { channel := .fired r }).2.returnCall (.signal w.signals.size) [] := rfl
  rw [hreturn]
  unfold World.returnCall
  rw [releaseAll]
  show World.answered { w with signals := _, points := _ } _ = _
  rw [← hmodify]
  rfl

/-- An error that comes too late is answered with a signal that says so. -/
theorem error_late {c : ContextNo} {x : Context} (hx : w.contexts[c]? = some x)
    (hdecided : x.state ≠ .pending) (e : Failure) :
    (w.call (.error c (some e))).isClientsTurn = false ∧
      (w.call (.error c (some e))).advance.reply = .ok (.signal w.signals.size) ∧
      w.Undisturbed (w.call (.error c (some e))).advance [lateSignal] := by
  have hclosed : x.isTerminated = true := by simpa [Context.isTerminated] using hdecided
  have hx' : w.point.contexts[c]? = some x := hx
  have hwarned := undisturbed_warning (w := w.point)
    (ignoredNote x ("error() ignored: " ++ e.describe))
  have hcall : w.call (.error c (some e)) =
      (w.point.log .warning (ignoredNote x ("error() ignored: " ++ e.describe))).call
        (.makeSignal (some { alreadyCompleted := true })) := by
    show w.error c (some e) = _
    unfold World.error
    simp only [hx', hclosed, if_true]
    rfl
  rw [hcall]
  generalize w.point.log .warning (ignoredNote x ("error() ignored: " ++ e.describe)) = v at hwarned
  have hsize : v.signals.size = w.signals.size := by
    have := congrArg List.length hwarned.signals
    rwa [List.append_nil, Array.length_toList, Array.length_toList] at this
  rw [advance_makeSignal, ← hsize]
  refine ⟨rfl, rfl, hwarned.contexts, ?_, hwarned.trees, hwarned.registry, hwarned.queue,
    hwarned.stack, hwarned.threshold, hwarned.history⟩
  show (v.signals.push lateSignal).toList = _
  rw [Array.toList_push, hwarned.signals, List.append_nil]
  rfl

/-! ## Runs -/

/-- **Exactly one terminal call wins.** After a run the outcome of a context is decided if a terminal call
was made on it, it is what the first one said, and no later run changes it. The two channels fire at
most once each, and all they ever tell is that outcome. From then on a success answers that it came too
late, and so does an error, with a signal that has fired; neither changes anything else. An error
without a failure is refused in any case. -/
theorem first_terminal_call_wins {threshold : Log.Level} {moves : List Move}
    (h : (within t).legal (start threshold) moves = true)
    (hw : (within t).run (start threshold) moves = w) (c : ContextNo) :
    w.stateOf c = (firstVerdict c moves).elim .pending Response.state ∧
    (w.stateOf c ≠ .pending → ∀ more, (within t).legal w more = true →
      ((within t).run w more).stateOf c = w.stateOf c) ∧
    (∀ ch, ch = .before c ∨ ch = .response c → w.firings ch ≤ 1 ∧
      ∀ e ∈ w.history.toList, e.tells ch = true →
        ∃ r, firstVerdict c moves = some r ∧ e.value? = some (.response r)) ∧
    (firstVerdict c moves ≠ none →
      (∀ result, (w.call (.success c result)).reply = .ok (.flag false) ∧
        w.Undisturbed (w.call (.success c result)) []) ∧
      ∀ e, (w.call (.error c (some e))).isClientsTurn = false ∧
        (w.call (.error c (some e))).advance.reply = .ok (.signal w.signals.size) ∧
        w.Undisturbed (w.call (.error c (some e))).advance [lateSignal]) ∧
    w.call (.error c none) =
      { w with reply := .error (.invalidArgument "error() requires an exception") } := by
  have hreach : w.Reachable t := ⟨threshold, moves, h, hw⟩
  have hobeys : w.Obeys c (firstVerdict c moves) := hw ▸ obeys_run h c
  refine ⟨hobeys.state, ?_, ?_, ?_, rfl⟩
  · intro hdecided more hmore
    -- a longer run has the same first verdict
    have hlegal : (within t).legal (start threshold) (moves ++ more) = true := by
      rw [Machine.legal_append, h, hw, hmore]
      rfl
    have hlater := (obeys_run hlegal c).state
    rw [Machine.run_append, hw] at hlater
    rw [hlater, hobeys.state, firstVerdict_append]
    cases hv : firstVerdict c moves with
    | none =>
      rw [hobeys.state, hv] at hdecided
      exact absurd rfl hdecided
    | some r => rfl
  · intro ch hch
    exact ⟨hreach.firings_le_one ch, fun e he => hobeys.told hreach.orderly.tidy hch he⟩
  · intro hverdict
    obtain ⟨r, hr⟩ := Option.ne_none_iff_exists'.1 hverdict
    have hdecided : w.stateOf c ≠ .pending := by
      rw [hobeys.state, hr]
      exact r.state_ne_pending
    obtain ⟨x, hx, hx'⟩ := exists_of_stateOf hdecided
    exact ⟨success_late hx hx', error_late hx hx'⟩

/-- A context fails; its handler and an observer of its outcome make terminal calls of their own. -/
def contestedMoves : List Move :=
  [Move.call (.createRoot { origin := .bridge "a" "" (some 0), location := some ⟨"box", "a"⟩ }), .advance,
    .call (.subscribe (.response 0) (some 7) []), .call (.error 0 none),
    .call (.error 0 (some .outOfMemory)), .call (.success 0 (some 3)), .handled .nothing] ++
    List.replicate 4 Move.advance ++
  [Move.call (.error 0 (some .foreign)), .advance, .finish none]

theorem first_terminal_call_wins_contested :
    ∃ w : World, (within { matched := true, bounded := false }).run start contestedMoves = w ∧
      w.stateOf 0 = .failed ∧ w.firings (.before 0) = 1 ∧ w.firings (.response 0) = 1 ∧
      ∀ e ∈ w.history.toList, e.tells (.response 0) = true →
        e.value? = some (.response ⟨none, some .outOfMemory⟩) := by
  have legal : (within { matched := true, bounded := false }).legal start contestedMoves = true := by
    decide +kernel
  obtain ⟨hstate, _, htold, _⟩ := first_terminal_call_wins legal rfl 0
  refine ⟨_, rfl, hstate, by decide +kernel, by decide +kernel, ?_⟩
  intro e he htells
  obtain ⟨r, hr, hvalue⟩ := (htold (.response 0) (.inr rfl)).2 e he htells
  obtain rfl := Option.some.inj hr
  exact hvalue

end World

end FanIn
