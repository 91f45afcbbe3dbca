import FanIn.Proofs.Tree.TwinTurns

/-!
# A success and an error of the same context

In the first world a call succeeds. In the second the same context gets an error, and its exception
handler answers at once. From then on the first world has a call to return, and the second the epilogue
of the error: they are twins.

Main statements: `Twin.fail` and `Twin.remedy`.
-/

namespace FanIn

open List Stack

/-- The frames that a success leaves, and those that an error leaves whose handler has answered. -/
theorem Stack.Twin.answered {ν : Ties} {c : ContextNo} {s : SignalNo} (hs : s ∈ ν.extra)
    {rest rest' epilogue : List Frame} (hc : Clients rest) (h : Stack.Twin ν rest rest')
    (he : Epilogue ν c s epilogue) (r r' : Response) :
    Stack.Twin ν (.respond c r :: .returning (.flag true) [.context c] :: rest)
      (.respond c r' :: (epilogue ++ rest')) :=
  .cons (.respond c r r') (.failed hc hs he h)

namespace World

variable {ν : Ties} {old old' : Except Failure Reply} {w v : World}

/-! ## The error -/

/-- A context whose outcome is decided by an error: its handler is called, and a signal is made that the
first world does not have. -/
theorem Twin.fail (h : Twin ν old old' w v) {c : ContextNo} {x : Context}
    (hx : w.contexts[c]? = some x) (hpending : x.isTerminated = false) (e : Failure) :
    (∃ n, (v.error c (some e)).stack = .handler n c e v.signals.size :: v.stack) ∧
      (v.error c (some e)).signals.size = v.signals.size + 1 ∧
      Twin (ν.gain v.signals.size) old old'
        (w.point.modifyContext c fun x => { x with state := .succeeded })
        { v.error c (some e) with stack := v.stack } := by
  rcases h.context? c with ⟨hx', -⟩ | ⟨x', y, hx', hy, hxy⟩
  · rw [hx'] at hx
    cases hx
  obtain rfl := Option.some.inj (hx.symm.trans hx')
  have hopen : y.isTerminated = false := hxy.terminated.symm.trans hpending
  have herror : v.error c (some e) =
      ((((v.point.modifyContext c fun x => { x with state := .failed }).makeSignal none).2.push
        [.handler y.handler c e v.signals.size]).note
        (.handling y.handler c .failed e v.signals.size)) := by
    unfold World.error
    simp only [show v.point.contexts = v.contexts from rfl, hy, hopen]
    rfl
  rw [herror]
  refine ⟨⟨y.handler, rfl⟩, Array.size_push _, ?_⟩
  have hdecided := h.point.decide c .succeeded .failed rfl
  exact (hdecided.addSignalRight (y := {}) rfl).noteRight (e := .handling y.handler c .failed e _) rfl

/-- What a success leaves to do. -/
def succeed (w : World) (c : ContextNo) (r : Response) : World :=
  w.push [.respond c r, .returning (.flag true) [.context c]]

theorem success_eq {c : ContextNo} {x : Context} (hx : w.contexts[c]? = some x)
    (hpending : x.isTerminated = false) (result : Option Int) :
    w.success c result =
      (w.point.modifyContext c fun x => { x with state := .succeeded }).succeed c ⟨result, none⟩ := by
  unfold World.success
  simp only [show w.point.contexts = w.contexts from rfl, hx, hpending]
  rfl

/-! ## The answer of the handler -/

/-- The handler answers nothing. -/
theorem Twin.failNothing {rest' : List Frame} (h : Twin ν old old' w { v with stack := rest' })
    {n : Nat} {c : ContextNo} {e : Failure} {s : SignalNo} (hv : v.stack = .handler n c e s :: rest')
    (hs : s ∈ ν.extra) (hc : Clients w.stack) (r : Response) :
    Twin ν old old' (w.succeed c r) (v.handled .nothing) := by
  have hanswered : v.handled .nothing = World.push { v with stack := rest' }
      [.respond c ⟨none, some e⟩, .conclude c e (some none) s, .returning (.signal s) [.context c]] := by
    unfold World.handled
    rw [hv]
  rw [hanswered]
  have he : Epilogue ν c s [.conclude c e (some none) s, .returning (.signal s) [.context c]] :=
    .conclude e _ (.returning [] (nil_subset _))
  exact h.restack (.answered hs hc h.stack he r _)

/-- The handler answers with a signal that has fired: the error is settled at once. -/
theorem Twin.failSettled (h : Twin ν old old' w v) (c : ContextNo) (e : Failure) {s b : SignalNo}
    (hs : s ∈ ν.extra) (hb : b ∈ ν.spent) (hc : Clients w.stack) (r : Response) :
    Twin ν old old' (w.succeed c r) (v.settleBy b c e s).advance := by
  obtain ⟨y, hy, hfired⟩ := h.spent b hb
  obtain ⟨q, hq⟩ := Option.isSome_iff_exists.1 hfired
  have hvalue : (v.push [.returning (.signal s) [.signal b, .context c]]).value? (.signal b) =
      some (.resolution q) := by
    show (v.signals[b]?).bind (fun x => x.channel.value?.map Value.resolution) = _
    rw [hy]
    show y.channel.value?.map Value.resolution = _
    rw [hq]
    rfl
  have hsettle : v.settleBy b c e s =
      (v.push [.returning (.signal s) [.signal b, .context c]]).replay (.signal b) (.resolution q)
        (.settleError c e s) := by
    unfold World.settleBy World.subscribe
    dsimp only
    rw [hvalue]
  obtain ⟨failed, hnotify⟩ := notify_settleError
    (v.push [.deliver (.signal b) true (.resolution q) [] [.settleError c e s],
      .returning (.signal s) [.signal b, .context c]]) (.signal b) true (.resolution q) c e s
  have hstep : (v.settleBy b c e s).advance = v.push [.respond c ⟨none, some e⟩,
      .conclude c e failed s, .deliver (.signal b) true (.resolution q) [] [.settleError c e s],
      .returning (.signal s) [.signal b, .context c]] := by
    rw [hsettle]
    exact hnotify
  rw [hstep]
  have he : Epilogue ν c s [.conclude c e failed s,
      .deliver (.signal b) true (.resolution q) [] [.settleError c e s],
      .returning (.signal s) [.signal b, .context c]] := by
    refine .conclude e failed (.deliver _ _ _ (fun r hr => ?_)
      (.returning [b] (cons_subset.2 ⟨hb, nil_subset _⟩)))
    have hmem : r ∈ [Ref.signal s, Ref.context c] := hr
    rcases mem_cons.1 hmem with rfl | hmem
    · exact .inr rfl
    · exact .inl (mem_singleton.1 hmem)
  exact h.restack (.answered hs hc h.stack he r _)

/-! ## The turns of an error -/

/-- How an exception handler deals with an error at once, without any calls but what its answer takes. -/
inductive Remedy where
  | nothing
  | threw (f : Failure)
  /-- It makes a signal that has fired. -/
  | resolved (r : Resolution)
  /-- It takes a signal that has fired already. -/
  | known (s : SignalNo)

/-- A handler that has been called deals with the error, and it is a client's turn again. -/
def HandledBy (u v' : World) : Remedy → Prop
  | .nothing => u.Turn (.handled .nothing) v'
  | .threw f => u.Turn (.handled (.threw f)) v'
  | .resolved r => ∃ u', u.Turn (.call (.makeSignal (some r))) u' ∧
      u'.Turn (.handled (.signal u.signals.size)) v'
  | .known s => u.isFired (.signal s) = true ∧ ∃ u', u.Turn (.call (.hold (.signal s))) u' ∧
      u'.Turn (.handled (.signal s)) v'

/-- Whether a signal that a handler takes exists and has fired. -/
def Offers (u : World) : Remedy → Prop
  | .known s => u.isLiveSignal s = true ∧ u.isFired (.signal s) = true
  | _ => True

variable {t : Terms} {u : World} {n : Nat} {c : ContextNo} {e : Failure} {s b : SignalNo}
  {rest : List Frame} {a : Handled}

theorem turn_of_handler (hu : u.stack = .handler n c e s :: rest) : u.isClientsTurn = true := by
  unfold isClientsTurn
  rw [hu]
  rfl

theorem handled_signal (hu : u.stack = .handler n c e s :: rest) (b : SignalNo) :
    u.handled (.signal b) = (World.modifySignal { u with stack := rest } b fun x =>
      { x with holders := x.holders - 1 }).settleBy b c e s := by
  unfold World.handled
  rw [hu]

/-- The rest of a turn in which a handler returns. -/
theorem Twin.returnHandler {i : Nat} (h : Twin ν old old' w (World.advance^[i] (u.handled a)))
    (hallows : u.allows (.handled a) = true) (hr : w.Reachable t) {k : Nat}
    (hturn : (World.advance^[k] w).isClientsTurn = true) :
    ∃ v', u.Turn (.handled a) v' ∧ Twin ν old old' (World.advance^[k] w) v' := by
  obtain ⟨n, hv', htwin⟩ := h.reach hr hturn
  rw [← Function.iterate_add_apply] at hv' htwin
  exact ⟨_, ⟨turn_of_allows hallows nofun, hallows, hv', n + i, rfl⟩, htwin⟩

/-- A signal that the handler makes, and that has fired. -/
theorem Twin.offer (h : Twin ν old old' w v) (r : Resolution) :
    Twin ((ν.gain v.signals.size).spend v.signals.size) old old' w (v.makeSignal (some r)).2 := by
  have hmade := h.pointRight.addSignalRight (y := { channel := .fired r }) rfl
  exact hmade.spend (y := { channel := .fired r }) (Array.getElem?_push_size) rfl

theorem exists_of_isFired (h : u.isFired (.signal b) = true) :
    ∃ y, u.signals[b]? = some y ∧ y.channel.isFired = true := by
  obtain ⟨q, hq⟩ := Option.isSome_iff_exists.1 h
  obtain ⟨y, hy, hq⟩ := Option.bind_eq_some_iff.1 (show (u.signals[b]?).bind _ = some q from hq)
  obtain ⟨q', hq', -⟩ := Option.map_eq_some_iff.1 hq
  exact ⟨y, hy, Option.isSome_iff_exists.2 ⟨q', hq'⟩⟩

/-- A reference that is taken and given away changes nothing. -/
theorem modifySignal_unhold (w : World) (b : SignalNo) :
    (w.modifySignal b fun x => { x with holders := x.holders + 1 }).modifySignal b
      (fun x => { x with holders := x.holders - 1 }) = w := by
  have hsame : ((w.signals.modify b fun x => { x with holders := x.holders + 1 }).modify b
      fun x => { x with holders := x.holders - 1 }) = w.signals := by
    apply Array.ext_getElem?
    intro i
    rw [Array.getElem?_modify, Array.getElem?_modify]
    split
    · rw [Option.map_map]
      exact Option.map_id_fun' ▸ rfl
    · rfl
  unfold modifySignal
  dsimp only
  rw [hsame]

/-- The handler takes a signal, and holds it. -/
theorem turn_of_known (hu : u.stack = .handler n c e s :: rest) (hlive : u.isLiveSignal b = true) :
    ∃ u', u.Turn (.call (.hold (.signal b))) u' ∧ u'.stack = .handler n c e s :: rest ∧
      u'.areHeld [.signal b] = true ∧
      (World.modifySignal { u' with stack := rest } b fun x => { x with holders := x.holders - 1 }) =
        { u with stack := rest, reply := .ok .done } := by
  have hturn := turn_of_handler hu
  refine ⟨(u.hold (.signal b)).answered .done, ⟨hturn, ?_, hturn, 0, rfl⟩, hu, ?_, ?_⟩
  · exact Bool.and_eq_true_iff.2 ⟨hturn, hlive⟩
  · refine List.all_eq_true.2 fun r hr => ?_
    obtain rfl := mem_singleton.1 hr
    exact decide_eq_true (holders_hold (r := .signal b) hlive)
  · exact modifySignal_unhold { u with stack := rest, reply := .ok .done } b

/-- The handler makes a signal, and holds it. -/
theorem turn_of_resolved (hu : u.stack = .handler n c e s :: rest) (q : Resolution) :
    ∃ u', u.Turn (.call (.makeSignal (some q))) u' ∧ u'.stack = .handler n c e s :: rest ∧
      u'.areHeld [.signal u.signals.size] = true ∧ { u' with stack := rest } =
        { World.modifySignal (World.makeSignal { u with stack := rest } (some q)).2 u.signals.size
          (fun x => { x with holders := x.holders + 1 }) with
          reply := .ok (.signal u.signals.size) } := by
  have hturn := turn_of_handler hu
  have hstep : (u.call (.makeSignal (some q))).advance =
      ((u.makeSignal (some q)).2.modifySignal u.signals.size fun x =>
        { x with holders := x.holders + 1 }).answered (.signal u.signals.size) := by
    rw [advance_returning (show (u.call (.makeSignal (some q))).stack =
      .returning (.signal u.signals.size) [] :: u.stack from rfl)]
    exact releaseAll_eq_self fun r hr => absurd hr not_mem_nil
  refine ⟨_, ⟨hturn, ?_, ?_, 1, hstep⟩, hu, ?_, rfl⟩
  · exact Bool.and_eq_true_iff.2 ⟨hturn, rfl⟩
  · exact hturn
  · refine List.all_eq_true.2 fun r hr => mem_singleton.1 hr ▸ decide_eq_true ?_
    apply holders_signal_pos.2
    refine ⟨{ channel := .fired q, holders := 1 }, ?_, Nat.one_pos⟩
    show ((u.signals.push _).modify u.signals.size _)[u.signals.size]? = _
    rw [Array.getElem?_modify, if_pos rfl, Array.getElem?_push_size]
    rfl

/-- However the handler deals with the error, the worlds are twins afterwards. -/
theorem Twin.remedy (h : Twin ν old old' w { u with stack := rest })
    (hu : u.stack = .handler n c e s :: rest) (hs : s ∈ ν.extra) (hc : Clients w.stack) (r : Response)
    (hr : (w.succeed c r).Reachable t) {k : Nat}
    (hturn : (World.advance^[k] (w.succeed c r)).isClientsTurn = true) (a : Remedy) (ha : u.Offers a) :
    ∃ v' μ o o', u.HandledBy v' a ∧ μ.shared = ν.shared ∧
      Twin μ o o' (World.advance^[k] (w.succeed c r)) v' := by
  cases a with
  | nothing =>
    have hfailed : Twin ν old old' _ (World.advance^[0] (u.handled .nothing)) := h.failNothing hu hs hc r
    obtain ⟨v', hv', htwin⟩ := hfailed.returnHandler ((allows_handled hu _).trans rfl) hr hturn
    exact ⟨v', ν, _, _, hv', rfl, htwin⟩
  | threw f =>
    have hoffered := h.offer { failure := some f }
    have hstep : u.handled (.threw f) =
        ((World.makeSignal { u with stack := rest } (some { failure := some f })).2).settleBy
          u.signals.size c e s := by
      unfold World.handled
      rw [hu]
      rfl
    have hfailed : Twin _ old old' _ (World.advance^[1] (u.handled (.threw f))) :=
      hstep ▸ hoffered.failSettled c e (mem_append_left _ hs) mem_cons_self hc r
    obtain ⟨v', hv', htwin⟩ := hfailed.returnHandler ((allows_handled hu _).trans rfl) hr hturn
    refine ⟨v', _, _, _, hv', ?_, htwin⟩
    rfl
  | resolved q =>
    have hoffered := h.offer q
    have hfresh : u.signals.size ∉ ((ν.gain u.signals.size).spend u.signals.size).shared :=
      fun hmem => (h.bound _ (mem_append_left _ hmem)).false
    obtain ⟨u', hmade, hu', hsignals, hbelow⟩ := turn_of_resolved hu q
    have hheld := (hoffered.modifySignalRight (g := fun x => { x with holders := x.holders + 1 }) hfresh
      (fun _ hy => hy) fun _ hy => hy).rebase (.ok (.signal u.signals.size))
    have hgiven : Twin ((ν.gain u.signals.size).spend u.signals.size) w.reply
        (.ok (.signal u.signals.size)) w (World.modifySignal { u' with stack := rest } u.signals.size
          fun x => { x with holders := x.holders - 1 }) := by
      rw [hbelow]
      exact hheld.modifySignalRight hfresh (fun _ hy => hy) fun _ hy => hy
    have hfailed := hgiven.failSettled c e (mem_append_left _ hs) mem_cons_self hc r
    rw [← handled_signal hu'] at hfailed
    obtain ⟨v', hv', htwin⟩ := Twin.returnHandler (i := 1) hfailed
      ((allows_handled hu' _).trans hsignals) hr hturn
    refine ⟨v', _, _, _, ⟨u', hmade, hv'⟩, ?_, htwin⟩
    rfl
  | known b =>
    obtain ⟨hlive, hfired⟩ := ha
    obtain ⟨y, hy, hfired'⟩ := exists_of_isFired hfired
    obtain ⟨u', htaken, hu', hheld, hbelow⟩ := turn_of_known hu hlive
    have hgiven : Twin (ν.spend b) w.reply (.ok .done) w (World.modifySignal { u' with stack := rest } b
        fun x => { x with holders := x.holders - 1 }) := by
      rw [hbelow]
      exact (h.rebase (.ok .done)).spend hy hfired'
    have hfailed := hgiven.failSettled c e hs mem_cons_self hc r
    rw [← handled_signal hu'] at hfailed
    obtain ⟨v', hv', htwin⟩ := Twin.returnHandler (i := 1) hfailed
      ((allows_handled hu' _).trans hheld) hr hturn
    refine ⟨v', _, _, _, ⟨hfired, u', htaken, hv'⟩, ?_, htwin⟩
    rfl

end World

end FanIn
