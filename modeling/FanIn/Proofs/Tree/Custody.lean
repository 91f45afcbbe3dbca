import FanIn.Proofs.Tree.Queue

/-!
# Nothing exists that nothing refers to

`Tidy` says that what is referred to exists. This module has the converse: whatever exists is referred to
by a client, by the work under way, by the queue, or by something else that exists. Between the moment a
reference is dropped and the moment it is let go of, it is *lost*; a world `Spares` what is lost if all
else that exists is referred to.

Main statements: `Spares.releaseAll`, by which letting go of what is lost leaves nothing behind, and
`Reachable.kept`.
-/

namespace FanIn.World

open Stack

/-- What exists is referred to, or is listed. -/
def Spares (lost : List Ref) (w : World) : Prop :=
  ∀ r, w.isLiveRef r = true → w.Holds r ∨ r ∈ lost

/-- Whatever exists is referred to. -/
def Kept (w : World) : Prop := w.Spares []

variable {t : Terms} {w w' : World} {lost lost' : List Ref}

theorem Kept.holds (h : w.Kept) {r : Ref} (hr : w.isLiveRef r = true) : w.Holds r :=
  (h r hr).resolve_right List.not_mem_nil

/-- Nothing comes to be but what is listed, and what is referred to no more is listed. -/
theorem Spares.next (h : w.Spares lost)
    (hlive : ∀ r, w'.isLiveRef r = true → w.isLiveRef r = true ∨ w'.Holds r ∨ r ∈ lost')
    (hholds : ∀ r, w'.isLiveRef r = true → w.Holds r → w'.Holds r ∨ r ∈ lost')
    (hlost : ∀ r ∈ lost, w'.isLiveRef r = true → w'.Holds r ∨ r ∈ lost') : w'.Spares lost' := by
  intro r hr
  rcases hlive r hr with hw | hdone
  · rcases h r hw with hh | hl
    · exact hholds r hr hh
    · exact hlost r hl hr
  · exact hdone

theorem Spares.mono (h : w.Spares lost) (hsub : lost ⊆ lost') : w.Spares lost' :=
  fun r hr => (h r hr).imp_right fun hl => hsub hl

/-! ## Letting go -/

/-- What is destroyed referred to some, and nobody else refers to less. -/
theorem holds_destroy (r : Ref) {ref : Ref} (h : w.Holds ref) :
    (w.destroy r).Holds ref ∨ ref ∈ w.refsOf r := by
  rcases h with hpos | hkeeps | hqueue | ⟨d, x, hx, hl, href⟩ | ⟨i, x, hx, hl, href⟩
  · refine .inl (.inl ?_)
    cases ref with
    | context d =>
      obtain ⟨x, hx, hpos⟩ := holders_context_pos.1 hpos
      apply holders_context_pos.2
      rw [getElem?_contexts_destroy, hx]
      split
      · exact ⟨_, rfl, hpos⟩
      · exact ⟨_, rfl, hpos⟩
    | signal i =>
      obtain ⟨x, hx, hpos⟩ := holders_signal_pos.1 hpos
      apply holders_signal_pos.2
      rw [getElem?_signals_destroy, hx]
      split
      · exact ⟨_, rfl, hpos⟩
      · exact ⟨_, rfl, hpos⟩
  · exact .inl (.inr (.inl (by rwa [stack_destroy])))
  · exact .inl (.inr (.inr (.inl (by rwa [queue_destroy]))))
  · by_cases hr : r = .context d
    · right
      subst hr
      rw [refsOf, hx]
      exact href
    · refine .inl (.inr (.inr (.inr (.inl ⟨d, x, ?_, hl, href⟩))))
      rw [getElem?_contexts_destroy, if_neg hr, hx]
  · by_cases hr : r = .signal i
    · right
      subst hr
      rw [refsOf, hx]
      exact href
    · refine .inl (.inr (.inr (.inr (.inr ⟨i, x, ?_, hl, href⟩))))
      rw [getElem?_signals_destroy, if_neg hr, hx]

/-- Letting go of what is lost leaves nothing behind. -/
theorem Spares.releaseAll {refs : List Ref} (h : w.Spares refs) : (w.releaseAll refs).Kept := by
  fun_induction World.releaseAll w refs with
  | case1 w => exact h
  | case2 w r rest hlive hheld ih =>
    -- it is kept by something else, or it will be let go of once more
    refine ih fun ref href => ?_
    rcases h ref href with hh | hl
    · exact .inl hh
    · rcases List.mem_cons.1 hl with rfl | hl
      · rcases Bool.or_eq_true_iff.1 hheld with hheld | hmem
        · exact .inl (isHeld_iff.1 hheld)
        · exact .inr (List.contains_iff_mem.1 hmem)
      · exact .inr hl
  | case3 w r rest hlive hheld ih =>
    refine ih (h.next ?_ ?_ ?_)
    · exact fun ref href => .inl (isLiveRef_of_destroy href).1
    · exact fun ref _ hh => (holds_destroy r hh).imp_right fun hl => List.mem_append_left _ hl
    · intro ref hl href
      rcases List.mem_cons.1 hl with rfl | hl
      · exact absurd rfl (isLiveRef_of_destroy href).2
      · exact .inr (List.mem_append_right _ hl)
  | case4 w r rest hdead ih =>
    refine ih fun ref href => ?_
    rcases h ref href with hh | hl
    · exact .inl hh
    · rcases List.mem_cons.1 hl with rfl | hl
      · exact absurd href hdead
      · exact .inr hl

/-! ## Small updates -/

/-- Only contexts, signals, the stack and the queue matter. -/
theorem Spares.congr (h : w.Spares lost) (hc : w'.contexts = w.contexts)
    (hs : w'.signals = w.signals) (hst : w'.stack = w.stack) (hq : w'.queue = w.queue) :
    w'.Spares lost := by
  intro r hr
  have hlive : w'.isLiveRef r = w.isLiveRef r := by
    cases r <;> simp only [isLiveRef, World.isLive, isLiveSignal, hc, hs]
  exact (h r (hlive.symm.trans hr)).imp_left fun hh => (holds_congr hc hs hst hq r).2 hh

theorem Spares.note (h : w.Spares lost) (e : Event) : (w.note e).Spares lost :=
  h.congr rfl rfl rfl rfl

theorem Spares.point (h : w.Spares lost) : w.point.Spares lost := h.congr rfl rfl rfl rfl

theorem Spares.log (h : w.Spares lost) (l : Log.Level) (m : String) : (w.log l m).Spares lost :=
  h.congr (contexts_log w l m) (signals_log w l m) (stack_log w l m) (queue_log w l m)

theorem Spares.answered (h : w.Spares lost) (r : Reply) : (w.answered r).Spares lost :=
  h.congr rfl rfl rfl rfl

theorem Spares.refused (h : w.Spares lost) (f : Failure) : (w.refused f).Spares lost :=
  h.congr rfl rfl rfl rfl

/-- The work under way changes. -/
theorem Spares.restack (h : w.Spares lost) (stack : List Frame)
    (hk : ∀ r, Keeps w.stack r → Keeps stack r ∨ r ∈ lost')
    (hl : ∀ r ∈ lost, Keeps stack r ∨ r ∈ lost') : World.Spares lost' { w with stack := stack } := by
  have hold : ∀ r, Keeps stack r ∨ r ∈ lost' → World.Holds { w with stack := stack } r ∨ r ∈ lost' :=
    fun r hr => hr.imp_left fun hr => .inr (.inl hr)
  refine h.next (fun r hr => .inl ?_) ?_ fun r hr _ => hold r (hl r hr)
  · cases r <;> exact hr
  · rintro r - (hpos | hkeeps | hrest)
    · exact .inl (.inl (by cases r <;> exact hpos))
    · exact hold r (hk r hkeeps)
    · exact .inl (.inr (.inr hrest))

/-- Work is added, which may keep what was lost. -/
theorem Spares.push (h : w.Spares lost) (fs : List Frame)
    (hl : ∀ r ∈ lost, (∃ f ∈ fs, r ∈ f.refs) ∨ r ∈ lost') : (w.push fs).Spares lost' := by
  refine h.restack (fs ++ w.stack) ?_ fun r hr => (hl r hr).imp_left ?_
  · rintro r ⟨f, hf, hr⟩
    exact .inl ⟨f, List.mem_append_right _ hf, hr⟩
  · rintro ⟨f, hf, hr⟩
    exact ⟨f, List.mem_append_left _ hf, hr⟩

/-- The same for work that keeps nothing that was lost. -/
theorem Spares.pushMore (h : w.Spares lost) (fs : List Frame) : (w.push fs).Spares lost :=
  h.push fs fun _ hr => .inr hr

/-- A frame is done, and what it kept is lost. -/
theorem Spares.pop (h : w.Kept) {f : Frame} {rest : List Frame} (hs : w.stack = f :: rest) :
    World.Spares f.refs { w with stack := rest } := by
  refine h.restack rest ?_ fun r hr => absurd hr List.not_mem_nil
  rintro r ⟨g, hg, hr⟩
  rw [hs] at hg
  rcases List.mem_cons.1 hg with rfl | hg
  · exact .inr hr
  · exact .inl ⟨g, hg, hr⟩

theorem Spares.requeue (h : w.Spares lost) (queue : Option (List ContextNo))
    (hq : ∀ c ∈ w.queue.getD [], c ∈ queue.getD [] ∨ .context c ∈ lost')
    (hl : ∀ r ∈ lost, (∃ c ∈ queue.getD [], .context c = r) ∨ r ∈ lost') :
    World.Spares lost' { w with queue := queue } := by
  have hold : ∀ r, (∃ c ∈ queue.getD [], .context c = r) ∨ r ∈ lost' →
      World.Holds { w with queue := queue } r ∨ r ∈ lost' :=
    fun r hr => hr.imp_left fun hr => .inr (.inr (.inl hr))
  refine h.next (fun r hr => .inl ?_) ?_ fun r hr _ => hold r (hl r hr)
  · cases r <;> exact hr
  · rintro r - (hpos | hkeeps | ⟨c, hc, rfl⟩ | hrest)
    · exact .inl (.inl (by cases r <;> exact hpos))
    · exact .inl (.inr (.inl hkeeps))
    · exact hold _ ((hq c hc).imp_left fun hc => ⟨c, hc, rfl⟩)
    · exact .inl (.inr (.inr (.inr hrest)))

/-- A context changes, and may refer to less. -/
theorem Spares.modifyContext (h : w.Spares lost) {c : ContextNo} {f : Context → Context}
    (hf : ∀ x, w.contexts[c]? = some x → (f x).isLive = x.isLive ∧
      (0 < x.holders → 0 < (f x).holders ∨ .context c ∈ lost') ∧
      ∀ r ∈ x.refs, r ∈ (f x).refs ∨ r ∈ lost') (hsub : lost ⊆ lost') :
    (w.modifyContext c f).Spares lost' := by
  have hlive := isLiveRef_modifyContext (w := w) fun x hx => (hf x hx).1
  have hget : ∀ (d : ContextNo) (x : Context), w.contexts[d]? = some x →
      (w.modifyContext c f).contexts[d]? = some (if c = d then f x else x) := by
    intro d x hx
    rw [getElem?_modifyContext, hx]
    split <;> rfl
  refine h.next (fun r hr => .inl ((hlive r).symm.trans hr)) ?_ fun r hr _ => .inr (hsub hr)
  rintro r - (hpos | hkeeps | hqueue | ⟨d, x, hx, hl, hr⟩ | hsignals)
  · cases r with
    | signal s => exact .inl (.inl hpos)
    | context d =>
      obtain ⟨x, hx, hheld⟩ := holders_context_pos.1 hpos
      by_cases hcd : c = d
      · subst hcd
        refine ((hf x hx).2.1 hheld).imp_left fun hheld => .inl ?_
        exact holders_context_pos.2 ⟨f x, by rw [hget c x hx, if_pos rfl], hheld⟩
      · exact .inl (.inl (holders_context_pos.2 ⟨x, by rw [hget d x hx, if_neg hcd], hheld⟩))
  · exact .inl (.inr (.inl hkeeps))
  · exact .inl (.inr (.inr (.inl hqueue)))
  · by_cases hcd : c = d
    · subst hcd
      refine ((hf x hx).2.2 r hr).imp_left fun hr => .inr (.inr (.inr (.inl ⟨c, f x, ?_, ?_, hr⟩)))
      · rw [hget c x hx, if_pos rfl]
      · exact (hf x hx).1.trans hl
    · refine .inl (.inr (.inr (.inr (.inl ⟨d, x, ?_, hl, hr⟩))))
      rw [hget d x hx, if_neg hcd]
  · exact .inl (.inr (.inr (.inr (.inr hsignals))))

/-- A signal changes, and may refer to less. -/
theorem Spares.modifySignal (h : w.Spares lost) {s : SignalNo} {f : Signal → Signal}
    (hf : ∀ x, w.signals[s]? = some x → (f x).isLive = x.isLive ∧
      (0 < x.holders → 0 < (f x).holders ∨ .signal s ∈ lost') ∧
      ∀ r ∈ x.refs, r ∈ (f x).refs ∨ r ∈ lost') (hsub : lost ⊆ lost') :
    (w.modifySignal s f).Spares lost' := by
  have hlive := isLiveRef_modifySignal (w := w) fun x hx => (hf x hx).1
  have hget : ∀ (i : SignalNo) (x : Signal), w.signals[i]? = some x →
      (w.modifySignal s f).signals[i]? = some (if s = i then f x else x) := by
    intro i x hx
    rw [getElem?_modifySignal, hx]
    split <;> rfl
  refine h.next (fun r hr => .inl ((hlive r).symm.trans hr)) ?_ fun r hr _ => .inr (hsub hr)
  rintro r - (hpos | hkeeps | hqueue | hcontexts | ⟨i, x, hx, hl, hr⟩)
  · cases r with
    | context d => exact .inl (.inl hpos)
    | signal i =>
      obtain ⟨x, hx, hheld⟩ := holders_signal_pos.1 hpos
      by_cases hsi : s = i
      · subst hsi
        refine ((hf x hx).2.1 hheld).imp_left fun hheld => .inl ?_
        exact holders_signal_pos.2 ⟨f x, by rw [hget s x hx, if_pos rfl], hheld⟩
      · exact .inl (.inl (holders_signal_pos.2 ⟨x, by rw [hget i x hx, if_neg hsi], hheld⟩))
  · exact .inl (.inr (.inl hkeeps))
  · exact .inl (.inr (.inr (.inl hqueue)))
  · exact .inl (.inr (.inr (.inr (.inl hcontexts))))
  · by_cases hsi : s = i
    · subst hsi
      refine ((hf x hx).2.2 r hr).imp_left fun hr => .inr (.inr (.inr (.inr ⟨s, f x, ?_, ?_, hr⟩)))
      · rw [hget s x hx, if_pos rfl]
      · exact (hf x hx).1.trans hl
    · refine .inl (.inr (.inr (.inr (.inr ⟨i, x, ?_, hl, hr⟩))))
      rw [hget i x hx, if_neg hsi]

/-- A context changes in nothing that refers to anything. -/
theorem Spares.recount (h : w.Spares lost) (c : ContextNo) (state : Context → State)
    (slots : Context → Counter) (trail : Context → Trail) : (w.modifyContext c fun x =>
      { x with state := state x, slots := slots x, trail := trail x }).Spares lost :=
  h.modifyContext (fun _ _ => ⟨rfl, .inl, fun _ hr => .inl hr⟩) fun _ hr => hr

/-! ## Channels -/

/-- Whoever waits at a context changes. -/
theorem Spares.rewire (h : w.Spares lost) {c : ContextNo} {f : Context → Context}
    (hf : ∀ x, w.contexts[c]? = some x → (f x).isLive = x.isLive ∧ (f x).holders = x.holders ∧
      (f x).hold = x.hold ∧ ∀ e ∈ x.waiting, e ∈ (f x).waiting ∨ ∀ r ∈ e.2.refs, r ∈ lost')
    (hsub : lost ⊆ lost') : (w.modifyContext c f).Spares lost' := by
  refine h.modifyContext (fun x hx => ?_) hsub
  obtain ⟨hlive, hholders, hhold, hwaiting⟩ := hf x hx
  refine ⟨hlive, fun hpos => .inl (hholders ▸ hpos), fun r hr => ?_⟩
  rcases Context.mem_refs.1 hr with ⟨e, he, hr⟩ | hr
  · exact (hwaiting e he).imp (fun he => Context.mem_refs.2 (.inl ⟨e, he, hr⟩)) fun hl => hl r hr
  · exact .inl (Context.mem_refs.2 (.inr (hhold ▸ hr)))

/-- Whoever waits at a channel changes. -/
theorem Spares.modifyChannel (h : w.Spares lost) {ch : ChannelRef}
    {f : {α : Type} → Channel α Observer → Channel α Observer}
    (hf : ∀ {α : Type} (k : Channel α Observer), k.observers = w.observers ch →
      ∀ e ∈ k.observers, e ∈ (f k).observers ∨ ∀ r ∈ e.2.refs, r ∈ lost')
    (hsub : lost ⊆ lost') : (w.modifyChannel ch f).Spares lost' := by
  cases ch with
  | signal s =>
    refine h.modifySignal (fun x hx => ⟨rfl, .inl, fun r hr => ?_⟩) hsub
    obtain ⟨e, he, hr⟩ := List.mem_flatMap.1 hr
    exact (hf x.channel (by simp [observers, hx]) e he).imp
      (fun he => List.mem_flatMap.2 ⟨e, he, hr⟩) fun hl => hl r hr
  | before c =>
    refine h.rewire (fun x hx => ⟨rfl, rfl, rfl, fun e he => ?_⟩) hsub
    have hchange := hf x.before (by simp [observers, hx]) e
    simp only [Context.waiting, List.mem_append] at he ⊢
    tauto
  | response c =>
    refine h.rewire (fun x hx => ⟨rfl, rfl, rfl, fun e he => ?_⟩) hsub
    have hchange := hf x.response (by simp [observers, hx]) e
    simp only [Context.waiting, List.mem_append] at he ⊢
    tauto
  | completion c =>
    refine h.rewire (fun x hx => ⟨rfl, rfl, rfl, fun e he => ?_⟩) hsub
    have hchange := hf x.completion (by simp [observers, hx]) e
    simp only [Context.waiting, List.mem_append] at he ⊢
    tauto

/-- Whoever subscribes takes nobody's place. -/
theorem Spares.subscribe (h : w.Spares lost) (ch : ChannelRef) (o : Observer) :
    (w.modifyChannel ch fun k => (k.subscribe o).2).Spares lost := by
  refine h.modifyChannel (fun k _ e he => .inl ?_) fun _ hr => hr
  cases k with
  | fired v => exact he
  | waiting n os => exact List.mem_append_left _ he

/-- All but the first member that is found are left when that is removed. -/
theorem mem_eraseP_or_find? {α : Type} {p : α → Bool} {l : List α} {a : α} (h : a ∈ l) :
    a ∈ l.eraseP p ∨ l.find? p = some a := by
  induction l with
  | nil => cases h
  | cons b l ih =>
    by_cases hb : p b
    · rw [List.eraseP_cons_of_pos hb, List.find?_cons_of_pos hb]
      rcases List.mem_cons.1 h with rfl | h
      · exact .inr rfl
      · exact .inl h
    · rw [List.eraseP_cons_of_neg hb, List.find?_cons_of_neg hb]
      rcases List.mem_cons.1 h with rfl | h
      · exact .inl List.mem_cons_self
      · exact (ih h).imp_left (List.mem_cons_of_mem b)

/-- What a removed observer kept is lost. -/
theorem Spares.unsubscribe (h : w.Kept) (ch : ChannelRef) (n : UInt64) :
    (w.modifyChannel ch fun k => k.unsubscribe n).Spares
      ((w.observer? ch n).elim [] Observer.refs) := by
  refine Spares.modifyChannel h (fun k hk e he => ?_) (List.nil_subset _)
  cases k with
  | fired v => cases he
  | waiting next os =>
    have hleft := mem_eraseP_or_find? (p := fun e : UInt64 × Observer => e.1 == n) he
    refine hleft.imp_right fun hfound r hr => ?_
    have hremoved : w.observer? ch n = some e.2 := by
      rw [observer?, ← hk]
      exact congrArg (Option.map Prod.snd) hfound
    rwa [hremoved]

theorem Spares.takeNumber (h : w.Spares lost) (ch : ChannelRef) :
    (w.modifyChannel ch fun k => k.takeNumber).Spares lost :=
  h.modifyChannel (fun k _ e he => .inl (by cases k <;> exact he)) fun _ hr => hr

/-- What the observers of a channel kept when it fired is kept until all are notified. -/
theorem Spares.deliver {os : List Observer} (h : w.Spares (os.flatMap Observer.refs))
    (ch : ChannelRef) (v : Value) : (w.deliver ch v os).Kept := by
  have hmid := (h.note (.fired ch v)).point
  exact hmid.push [.deliver ch false v os os] fun r hr =>
    .inl ⟨_, List.mem_singleton_self _, hr⟩

theorem Spares.replay (h : w.Spares lost) (ch : ChannelRef) (v : Value) (o : Observer) :
    (w.replay ch v o).Spares lost := h.pushMore _

/-- A channel of a context fires, and the frame that notifies whoever waited keeps what they kept. -/
theorem Kept.fireContext (h : w.Kept) {c : ContextNo} {x : Context} (hx : w.contexts[c]? = some x)
    {f : Context → Context} (hlive : (f x).isLive = x.isLive) (hholders : (f x).holders = x.holders)
    (hhold : (f x).hold = x.hold) {es : List (UInt64 × Observer)}
    (hes : ∀ e ∈ x.waiting, e ∈ (f x).waiting ∨ e ∈ es) (ch : ChannelRef) (v : Value) :
    ((w.modifyContext c f).deliver ch v (es.map Prod.snd)).Kept := by
  have hlost : (w.modifyContext c f).Spares ((es.map Prod.snd).flatMap Observer.refs) := by
    refine Spares.rewire h (fun y hy => ?_) (List.nil_subset _)
    obtain rfl := Option.some.inj (hy.symm.trans hx)
    refine ⟨hlive, hholders, hhold, fun e he => (hes e he).imp_right fun hmem ref href => ?_⟩
    exact List.mem_flatMap.2 ⟨e.2, List.mem_map_of_mem hmem, href⟩
  exact hlost.deliver _ _

theorem Kept.fireBefore (h : w.Kept) (c : ContextNo) (r : Response) : (w.fireBefore c r).Kept := by
  rcases w.fireBefore_cases c r with ⟨_, heq⟩ | ⟨x, hx, _, heq⟩
  · rwa [heq]
  · rw [heq]
    refine h.fireContext hx rfl rfl rfl (fun e he => ?_) _ _
    rcases List.mem_append.1 he with he | he
    · rcases List.mem_append.1 he with he | he
      · exact .inr he
      · exact .inl (List.mem_append_left _ (List.mem_append_right _ he))
    · exact .inl (List.mem_append_right _ he)

theorem Kept.fireResponse (h : w.Kept) (c : ContextNo) (r : Response) :
    (w.fireResponse c r).Kept := by
  rcases w.fireResponse_cases c r with ⟨_, heq⟩ | ⟨x, hx, _, heq⟩
  · rwa [heq]
  · rw [heq]
    refine h.fireContext hx rfl rfl rfl (fun e he => ?_) _ _
    rcases List.mem_append.1 he with he | he
    · rcases List.mem_append.1 he with he | he
      · exact .inl (List.mem_append_left _ (List.mem_append_left _ he))
      · exact .inr he
    · exact .inl (List.mem_append_right _ he)

theorem Kept.fireCompletion (h : w.Kept) (c : ContextNo) : (w.fireCompletion c).Kept := by
  rcases w.fireCompletion_cases c with ⟨_, heq⟩ | ⟨x, hx, _, heq⟩
  · rwa [heq]
  · rw [heq]
    refine h.fireContext hx rfl rfl rfl (fun e he => ?_) _ _
    rcases List.mem_append.1 he with he | he
    · exact .inl (List.mem_append_left _ he)
    · exact .inr he

theorem Kept.fireSignal (h : w.Kept) (s : SignalNo) (r : Resolution) : (w.fireSignal s r).Kept := by
  rcases w.fireSignal_cases s r with ⟨_, heq⟩ | ⟨x, hx, _, heq⟩
  · rwa [heq]
  · rw [heq]
    have hlost : (w.modifySignal s fun x => { x with channel := .fired r }).Spares
        ((x.channel.observers.map Prod.snd).flatMap Observer.refs) := by
      refine Spares.modifySignal h (fun y hy => ⟨rfl, .inl, fun ref href => .inr ?_⟩)
        (List.nil_subset _)
      obtain rfl := Option.some.inj (hy.symm.trans hx)
      rwa [List.flatMap_map]
    exact hlost.deliver _ _

/-! ## What comes to be -/

theorem holds_of_old (hc : ∀ (d : ContextNo) (x : Context), w.contexts[d]? = some x →
      w'.contexts[d]? = some x)
    (hs : ∀ (i : SignalNo) (x : Signal), w.signals[i]? = some x → w'.signals[i]? = some x)
    (hst : w'.stack = w.stack) (hq : w'.queue = w.queue) {r : Ref} (h : w.Holds r) :
    w'.Holds r := by
  rcases h with hpos | hkeeps | hqueue | ⟨d, x, hx, hl, hr⟩ | ⟨i, x, hx, hl, hr⟩
  · left
    cases r with
    | context d =>
      obtain ⟨x, hx, hheld⟩ := holders_context_pos.1 hpos
      exact holders_context_pos.2 ⟨x, hc d x hx, hheld⟩
    | signal i =>
      obtain ⟨x, hx, hheld⟩ := holders_signal_pos.1 hpos
      exact holders_signal_pos.2 ⟨x, hs i x hx, hheld⟩
  · exact .inr (.inl (hst ▸ hkeeps))
  · exact .inr (.inr (.inl (hq ▸ hqueue)))
  · exact .inr (.inr (.inr (.inl ⟨d, x, hc d x hx, hl, hr⟩)))
  · exact .inr (.inr (.inr (.inr ⟨i, x, hs i x hx, hl, hr⟩)))

/-- A context comes to be, and nothing refers to it yet. -/
theorem Spares.enter (h : w.Kept) (x : Context) (g : Registry) :
    (w.enter x g).Spares [.context w.contexts.size] := by
  refine Spares.next h ?_ ?_ fun r hr => absurd hr List.not_mem_nil
  · intro r hr
    cases r with
    | signal s =>
      left
      simpa only [isLiveRef, isLiveSignal, signals_enter] using hr
    | context d =>
      simp only [isLiveRef, World.isLive, getElem?_enter] at hr
      split at hr
      · rename_i hd
        subst hd
        exact .inr (.inr (List.mem_singleton_self _))
      · exact .inl hr
  · refine fun r _ hh => .inl (holds_of_old ?_ ?_ (stack_enter w x g) (queue_enter w x g) hh)
    · intro d y hy
      rw [getElem?_enter, if_neg (Nat.ne_of_lt (lt_of_getElem?_eq_some hy))]
      exact hy
    · intro i y hy
      rwa [signals_enter]

/-- A signal comes to be, and nothing refers to it yet. -/
theorem Spares.addSignal (h : w.Spares lost) (x : Signal) :
    (w.addSignal x).2.Spares (.signal w.signals.size :: lost) := by
  have hget : ∀ i, (w.addSignal x).2.signals[i]? =
      if i = w.signals.size then some x else w.signals[i]? := fun i => Array.getElem?_push
  refine h.next ?_ ?_ fun r hr _ => .inr (List.mem_cons_of_mem _ hr)
  · intro r hr
    cases r with
    | context d => exact .inl hr
    | signal i =>
      simp only [isLiveRef, isLiveSignal, hget] at hr
      split at hr
      · rename_i hi
        subst hi
        exact .inr (.inr List.mem_cons_self)
      · exact .inl hr
  · intro r _ hh
    left
    refine holds_of_old (fun d y hy => ?_) (fun i y hy => ?_) ?_ ?_ hh
    · exact hy
    · rw [hget, if_neg (Nat.ne_of_lt (lt_of_getElem?_eq_some hy))]
      exact hy
    · rfl
    · rfl

theorem Spares.makeSignal (h : w.Spares lost) (r : Option Resolution) :
    (w.makeSignal r).2.Spares (.signal (w.makeSignal r).1 :: lost) := by
  cases r with
  | none => exact h.addSignal _
  | some r => exact h.point.addSignal _

theorem isLiveRef_hold (r ref : Ref) : (w.hold r).isLiveRef ref = w.isLiveRef ref := by
  cases r with
  | context c =>
    exact isLiveRef_modifyContext (f := fun x => { x with holders := x.holders + 1 })
      (fun _ _ => rfl) ref
  | signal s =>
    exact isLiveRef_modifySignal (f := fun x => { x with holders := x.holders + 1 })
      (fun _ _ => rfl) ref

theorem holders_hold {r : Ref} (h : w.isLiveRef r = true) : 0 < (w.hold r).holders r := by
  cases r with
  | context c =>
    obtain ⟨x, hx, _⟩ := exists_of_isLive h
    refine holders_context_pos.2 ⟨{ x with holders := x.holders + 1 }, ?_, Nat.succ_pos _⟩
    simp [World.hold, getElem?_modifyContext, hx]
  | signal s =>
    obtain ⟨x, hx, _⟩ := exists_of_isLiveSignal h
    refine holders_signal_pos.2 ⟨{ x with holders := x.holders + 1 }, ?_, Nat.succ_pos _⟩
    simp [World.hold, getElem?_modifySignal, hx]

/-- A client takes what was lost. -/
theorem Spares.hold {r : Ref} (h : w.Spares (r :: lost)) : (w.hold r).Spares lost := by
  have hmid : (w.hold r).Spares (r :: lost) := by
    cases r with
    | context c =>
      exact h.modifyContext (fun x _ => ⟨rfl, fun _ => .inl (Nat.succ_pos _), fun _ hr => .inl hr⟩)
        fun _ hr => hr
    | signal s =>
      exact h.modifySignal (fun x _ => ⟨rfl, fun _ => .inl (Nat.succ_pos _), fun _ hr => .inl hr⟩)
        fun _ hr => hr
  intro ref href
  rcases hmid ref href with hh | hl
  · exact .inl hh
  · rcases List.mem_cons.1 hl with rfl | hl
    · exact .inl (.inl (holders_hold ((isLiveRef_hold ref ref).symm.trans href)))
    · exact .inr hl

/-- A client gives a reference back, which may be the last. -/
theorem Spares.unhold (h : w.Kept) (r : Ref) : World.Spares [r] (match r with
    | .context c => w.modifyContext c fun x => { x with holders := x.holders - 1 }
    | .signal s => w.modifySignal s fun x => { x with holders := x.holders - 1 }) := by
  cases r with
  | context c =>
    exact Spares.modifyContext h (fun x _ => ⟨rfl, fun _ => .inr (List.mem_singleton_self _),
      fun _ hr => .inl hr⟩) (List.nil_subset _)
  | signal s =>
    exact Spares.modifySignal h (fun x _ => ⟨rfl, fun _ => .inr (List.mem_singleton_self _),
      fun _ hr => .inl hr⟩) (List.nil_subset _)

/-! ## The library's own work -/

theorem Kept.notify (h : w.Kept) (ch : ChannelRef) (replay : Bool) (v : Value) (o : Observer) :
    (w.notify ch replay v o).Kept := by
  cases o with
  | client label keeps => exact (Spares.pushMore h _).note _
  | empty => exact h
  | settleLink c =>
    simp only [World.notify]
    split
    · exact (Spares.log h _ _).pushMore _
    · exact Spares.pushMore h _
  | settleError c e result =>
    simp only [World.notify]
    split <;> exact Spares.pushMore h _

theorem Kept.giveUpSlot (h : w.Kept) (c : ContextNo) (share : Share) : (w.giveUpSlot c share).Kept := by
  unfold World.giveUpSlot
  split
  · exact Spares.pushMore h _
  · rename_i last slots _
    have hleft := ((Spares.recount h c Context.state (fun _ => slots) Context.trail).point).note
      (.left c share)
    cases last with
    | false => exact hleft
    | true =>
      have hdrained := hleft.note (.drained c)
      simp only [if_true]
      split
      · rename_i q hq
        refine hdrained.requeue _ (fun d hd => .inl ?_) fun r hr => absurd hr List.not_mem_nil
        rw [hq] at hd
        exact List.mem_append_left _ hd
      · rename_i hq
        refine Spares.pushMore (hdrained.requeue _ (fun d hd => ?_)
          fun r hr => absurd hr List.not_mem_nil) _
        rw [hq] at hd
        cases hd

/-- What the queue kept, and what the context has held, the frame keeps that tells the parent. -/
theorem Kept.preparing (h : w.Kept) {c : ContextNo} {q : List ContextNo}
    (hq : w.queue = some (c :: q)) : (w.preparing c q).Kept := by
  have hqueue : World.Spares (Frame.told c ((w.contexts[c]?).bind Context.hold)).refs
      { w with queue := some q } := by
    refine Spares.requeue h (some q) (fun d hd => ?_) fun r hr => absurd hr List.not_mem_nil
    rw [hq] at hd
    rcases List.mem_cons.1 hd with rfl | hd
    · exact .inr (List.mem_append_right _ (List.mem_singleton_self _))
    · exact .inl hd
  have hmid := (hqueue.log .debug ((w.contexts[c]?).elim "" completionNote)).modifyContext (c := c)
    (f := fun x => { x with hold := none }) (fun x hx => ⟨rfl, .inl, fun r hr => ?_⟩) fun _ hr => hr
  · exact hmid.push _ fun r hr => .inl ⟨_, List.mem_cons_self, hr⟩
  · rw [contexts_log] at hx
    rcases Context.mem_refs.1 hr with he | ⟨p, hp, rfl⟩
    · exact .inl (Context.mem_refs.2 (.inl he))
    · right
      have hx : w.contexts[c]? = some x := hx
      simp [Frame.refs, hx, hp]

theorem Kept.completeNext (h : w.Kept) : w.completeNext.Kept := by
  cases hq : w.queue with
  | none =>
    unfold World.completeNext
    rwa [hq]
  | some l =>
    cases l with
    | nil =>
      unfold World.completeNext
      rw [hq]
      refine Spares.requeue h none (fun d hd => ?_) fun r hr => absurd hr List.not_mem_nil
      rw [hq] at hd
      cases hd
    | cons c q =>
      rw [completeNext_fires hq]
      exact (h.preparing hq).fireCompletion c

/-- The parent of a completed context is told; it is let go of, or queued. -/
theorem Spares.tellParent {c : ContextNo} {parent : Option ContextNo}
    (h : w.Spares (Frame.told c parent).refs) {q : List ContextNo} (hq : w.queue = some q) :
    (w.tellParent c parent).Kept := by
  unfold World.tellParent
  split
  · exact h.releaseAll
  · rename_i p
    split
    · exact Spares.pushMore h.releaseAll _
    · rename_i last slots _
      have hleft := ((h.recount p Context.state (fun _ => slots) Context.trail).point).note
        (.left p (.child c))
      cases last with
      | false => exact hleft.releaseAll
      | true =>
        have hdrained := hleft.note (.drained p)
        simp only [if_true, queue_note, queue_point, queue_modifyContext, hq, Option.map_some]
        refine Spares.releaseAll (hdrained.requeue (some (q ++ [p])) (fun d hd => .inl ?_)
          fun r hr => ?_)
        · have hd : d ∈ w.queue.getD [] := hd
          rw [hq] at hd
          exact List.mem_append_left _ hd
        · rcases List.mem_cons.1 hr with rfl | hr
          · exact .inl ⟨p, List.mem_append_right _ (List.mem_singleton_self _), rfl⟩
          · exact .inr hr

theorem Kept.resolveError (h : w.Kept) (c : ContextNo) (e : Failure)
    (failed : Option (Option Failure)) (result : SignalNo) :
    (w.resolveError c e failed result).Kept := by
  unfold World.resolveError
  split
  · exact h.fireSignal _ _
  · exact Kept.fireSignal (Spares.log h _ _) _ _

theorem Spares.returnCall {r : Reply} {kept : List Ref} (h : w.Spares (r.refs ++ kept)) :
    (w.returnCall r kept).Kept := by
  unfold World.returnCall
  refine Spares.releaseAll (Spares.answered ?_ r)
  cases r with
  | context c => exact h.hold
  | signal s => exact h.hold
  | _ => exact h

/-- A failure reaches the frame below, which is on the stack. -/
theorem Kept.unwind (h : w.Kept) (f : Failure) {rest : List Frame} (hs : w.stack = rest) :
    (w.unwind f rest).Kept := by
  have stays : World.Kept { w with stack := rest } := h.congr rfl rfl hs.symm rfl
  have drop : ∀ {g : Frame} {below : List Frame}, rest = g :: below →
      World.Spares g.refs { w with stack := .throwing f :: below } := by
    rintro g below rfl
    exact (Spares.pop h hs).pushMore [.throwing f]
  cases rest with
  | nil => exact stays.refused f
  | cons g below =>
    cases g with
    | observer ch l v => exact stays.refused f
    | handler n c e s => exact stays.refused f
    | deliver ch replay v todo spent => exact Spares.log stays _ _
    | climb =>
      refine Spares.releaseAll (Spares.requeue (drop rfl) none (fun c hc => .inr ?_)
        fun r hr => absurd hr List.not_mem_nil)
      exact List.mem_map_of_mem hc
    | told c p => exact (drop rfl).releaseAll
    | returning r kept => exact (drop rfl).releaseAll
    | respond c r => exact drop (g := .respond c r) rfl
    | answer c r => exact drop (g := .answer c r) rfl
    | giveUp c share => exact drop (g := .giveUp c share) rfl
    | conclude c e failed result => exact drop (g := .conclude c e failed result) rfl
    | throwing f' => exact drop (g := .throwing f') rfl

/-- A step of the library leaves nothing behind, if the queue is active whenever a parent is told. -/
theorem Kept.advance (h : w.Kept) (htold : ∀ {c p rest}, w.stack = .told c p :: rest →
    ∃ q, w.queue = some q) : w.advance.Kept := by
  unfold World.advance
  split
  · exact h
  · exact h
  · exact h
  · rename_i spent rest hs
    exact (Spares.pop h hs).releaseAll
  · rename_i ch replay v o todo spent rest hs
    have hpop := Spares.pop h hs
    have hmid : World.Kept { w with stack := .deliver ch replay v todo spent :: rest } :=
      hpop.push [.deliver ch replay v todo spent] fun r hr => .inl ⟨_, List.mem_singleton_self _, hr⟩
    exact hmid.notify _ _ _ _
  · rename_i c r rest hs
    have hmid : World.Kept { w with stack := .answer c r :: rest } :=
      (Spares.pop h hs).pushMore [.answer c r]
    have hreport : World.Kept ((World.note { w with stack := .answer c r :: rest }
        (.publishing c r)).reportBranch c) := by
      unfold World.reportBranch
      split
      · exact hmid.note _
      · exact hmid.congr rfl rfl rfl rfl
    exact hreport.fireBefore c r
  · rename_i c r rest hs
    have hmid : World.Kept { w with stack := .giveUp c .own :: rest } :=
      (Spares.pop h hs).pushMore [.giveUp c .own]
    exact Kept.fireResponse (Spares.point hmid) _ _
  · rename_i c share rest hs
    exact Kept.giveUpSlot (Spares.pop h hs) _ _
  · rename_i rest hs
    exact Kept.completeNext (Spares.pop h hs)
  · rename_i c parent rest hs
    obtain ⟨q, hq⟩ := htold hs
    exact (Spares.pop h hs).tellParent (q := q) hq
  · rename_i c e failed result rest hs
    exact Kept.resolveError (Spares.pop h hs) _ _ _ _
  · rename_i r kept rest hs
    exact Spares.returnCall (Spares.pop h hs)
  · rename_i f rest hs
    have hpop : World.Kept { w with stack := rest } := Spares.pop h hs
    exact hpop.unwind f rfl

/-! ## The moves of clients -/

theorem Kept.finish (h : w.Kept) (thrown : Option Failure) : (w.finish thrown).Kept := by
  unfold World.finish
  split
  · rename_i hs
    have hpop : World.Kept { w with stack := _ } := Spares.pop h hs
    dsimp only
    split
    · exact hpop
    · exact Spares.log hpop _ _
  · exact h

/-- An observer subscribes on top of what is under way. -/
theorem Spares.attach (h : w.Spares lost) (ch : ChannelRef) (o : Observer) :
    (match w.subscribe ch o with
      | (.registered _, v) => v
      | (.replayed u, v) => v.replay ch u o).Spares lost := by
  rcases subscribe_cases w ch o with ⟨_, heq⟩ | ⟨u, _, heq⟩
  · rw [heq]
    exact h.subscribe ch o
  · rw [heq]
    exact h.replay ch u o

/-- The call keeps what the handler kept, and the signal that it returned. -/
theorem Spares.settleBy {s : SignalNo} {c : ContextNo} {result : SignalNo}
    (h : w.Spares [.signal s, .signal result, .context c]) (e : Failure) :
    (w.settleBy s c e result).Kept := by
  have hpush : (w.push [.returning (.signal result) [.signal s, .context c]]).Kept :=
    h.push _ fun r hr => .inl ⟨_, List.mem_singleton_self _, by
      simp only [Frame.refs, Reply.refs, List.mem_cons, List.cons_append, List.nil_append] at hr ⊢
      tauto⟩
  exact Spares.attach hpush _ _

theorem Kept.handled (h : w.Kept) (a : Handled) : (w.handled a).Kept := by
  unfold World.handled
  split
  · rename_i n c e result rest hs
    have hpop : World.Spares [.signal result, .context c] { w with stack := rest } := Spares.pop h hs
    cases a with
    | nothing =>
      refine hpop.push [.respond c ⟨none, some e⟩, .conclude c e (some none) result,
        .returning (.signal result) [.context c]] fun r hr =>
          .inl ⟨.returning (.signal result) [.context c], ?_, hr⟩
      simp
    | threw f =>
      have hmade := hpop.makeSignal (some { failure := some f })
      exact hmade.settleBy e
    | signal s =>
      have hunheld : (World.modifySignal { w with stack := rest } s fun x =>
          { x with holders := x.holders - 1 }).Spares [.signal s, .signal result, .context c] :=
        hpop.modifySignal (fun x _ => ⟨rfl, fun _ => .inr List.mem_cons_self, fun _ hr => .inl hr⟩)
          fun _ hr => List.mem_cons_of_mem _ hr
      exact hunheld.settleBy e
  · exact h

theorem Kept.firing (h : w.Kept) {ch : ChannelRef} {fire : World → World}
    (hfire : ∀ w : World, w.Kept → (fire w).Kept) : (w.firing ch fire).Kept := by
  unfold World.firing
  split
  · exact Spares.answered h _
  · exact hfire _ (Spares.pushMore h _)

/-- A context comes to be and is handed out. -/
theorem Kept.introduce (h : w.Kept) (x : Context) (g : Registry) :
    ((w.enter x g).push [.returning (.context w.contexts.size) []]).Kept :=
  (Spares.enter h x g).push _ fun _ hr => .inl ⟨_, List.mem_singleton_self _, hr⟩

theorem Kept.createRoot (h : w.Kept) (spec : RootSpec) : (w.createRoot spec).Kept := by
  rw [World.createRoot_eq]
  split
  · exact Spares.refused h _
  · dsimp only
    split
    · exact Spares.refused h _
    · rename_i g _
      have htree : World.Kept { w with trees := w.trees.push spec.tree } := h.congr rfl rfl rfl rfl
      have hborn := htree.introduce (spec.build w.contexts.size w.trees.size) g
      split
      · exact hborn
      · exact Spares.attach (Spares.note hborn _) _ _

theorem Kept.takeSlot (h : w.Kept) {c : ContextNo} {share : Share}
    (hs : w.takeSlot c share = some w') : w'.Kept := by
  obtain ⟨x, slots, _, _, rfl⟩ := takeSlot_eq_some hs
  exact ((Spares.recount h c Context.state (fun _ => slots) Context.trail).point).note _

theorem Kept.refuseSlot (h : w.Kept) (c : ContextNo) : (w.refuseSlot c).Kept :=
  Spares.refused (Spares.log h _ _) _

theorem Kept.createChild (h : w.Kept) (parent : ContextNo) (location : Option Location)
    (handler : Option Nat) (correlation : Option String) :
    (w.createChild parent location handler correlation).Kept := by
  rw [World.createChild_eq]
  split
  · exact Spares.refused h _
  · exact h
  · rename_i location p _
    dsimp only
    split
    · exact h.refuseSlot parent
    · rename_i w' hw'
      have hmid : (w'.nextDescendant p.tree).2.Kept := (h.takeSlot hw').congr rfl rfl rfl rfl
      have hsize : w'.contexts.size = w.contexts.size := by
        obtain ⟨x, slots, _, _, rfl⟩ := takeSlot_eq_some hw'
        exact Array.size_modify
      split
      · exact Spares.pushMore (Spares.note hmid _) _
      · rename_i g _
        rw [← hsize]
        exact hmid.introduce _ g

theorem Kept.success (h : w.Kept) (c : ContextNo) (result : Option Int) : (w.success c result).Kept := by
  unfold World.success
  dsimp only
  split
  · exact Spares.point h
  · split
    · exact Spares.answered (Spares.log (Spares.point h) _ _) _
    · exact Spares.pushMore ((Spares.point h).recount c (fun _ => .succeeded) Context.slots
        Context.trail) _

/-- A signal comes to be and is handed out, or kept by the work that hands it out. -/
theorem Spares.introduceSignal (h : w.Kept) (r : Option Resolution) {f : Frame}
    (hf : .signal (w.makeSignal r).1 ∈ f.refs) : ((w.makeSignal r).2.push [f]).Kept :=
  (Spares.makeSignal h r).push _ fun ref href => .inl ⟨f, List.mem_singleton_self _, by
    rwa [List.mem_singleton.1 href]⟩

theorem Kept.error (h : w.Kept) (c : ContextNo) (failure : Option Failure) :
    (w.error c failure).Kept := by
  unfold World.error
  split
  · exact Spares.refused h _
  · dsimp only
    split
    · exact Spares.point h
    · split
      · exact Spares.introduceSignal (Spares.log (Spares.point h) _ _) _ (List.mem_singleton_self _)
      · exact Spares.note (Spares.introduceSignal ((Spares.point h).recount c (fun _ => .failed)
          Context.slots Context.trail) none List.mem_cons_self) _

/-- A call leaves nothing behind. -/
theorem Kept.call (h : w.Kept) (call : Call) : (w.call call).Kept := by
  cases call with
  | createRoot spec => exact h.createRoot spec
  | createChild parent location handler correlation => exact h.createChild _ _ _ _
  | success c result => exact h.success c result
  | error c failure => exact h.error c failure
  | addChild c =>
    simp only [World.call]
    split
    · rename_i w' hw'
      exact Spares.answered (h.takeSlot hw') _
    · exact h.refuseSlot c
  | childCompleted c => exact Spares.pushMore h _
  | subscribe ch label keeps =>
    simp only [World.call]
    rcases subscribe_cases w ch (label.elim .empty fun label => .client label keeps) with
      ⟨_, heq⟩ | ⟨v, _, heq⟩
    · rw [heq]
      exact Spares.answered (Spares.subscribe h ch _) _
    · rw [heq]
      exact Spares.replay (Spares.pushMore h _) ch v _
  | unsubscribe ch n => exact Spares.answered (Spares.unsubscribe h ch n).releaseAll _
  | fireBefore c r => exact h.firing fun _ hw => hw.fireBefore c r
  | fireResponse c r => exact h.firing fun _ hw => hw.fireResponse c r
  | fireCompletion c => exact h.firing fun _ hw => hw.fireCompletion c
  | fireSignal s r => exact h.firing fun _ hw => hw.fireSignal s r
  | wait ch => exact Spares.answered (Spares.takeNumber h ch) _
  | makeSignal r => exact Spares.introduceSignal h r (List.mem_singleton_self _)
  | hold r => exact Spares.answered (Spares.hold (h.mono (List.nil_subset [r]))) _
  | drop r => exact Spares.answered (Spares.unhold h r).releaseAll _
  | register id c =>
    simp only [World.call]
    split
    · exact Spares.answered h _
    · exact h.congr rfl rfl rfl rfl
  | unregister id c => exact h.congr rfl rfl rfl rfl
  | setThreshold level => exact h.congr rfl rfl rfl rfl
  | addProcessor c path =>
    exact Spares.answered (Spares.recount h c Context.state Context.slots _) _

/-- A move leaves nothing behind, if the queue is active whenever a parent is told. -/
theorem Kept.move (h : w.Kept) (htold : ∀ {c p rest}, w.stack = .told c p :: rest →
    ∃ q, w.queue = some q) (m : Move) : (w.move m).Kept := by
  cases m with
  | advance => exact h.advance htold
  | call call => exact h.call call
  | finish thrown => exact h.finish thrown
  | handled a => exact h.handled a

theorem kept_start (threshold : Log.Level) : (start threshold).Kept := by
  intro r hr
  cases r <;> cases hr

/-- Whatever exists in a world that a run reaches is referred to. -/
theorem Reachable.kept (h : w.Reachable t) : w.Kept :=
  h.keeps (P := Kept) kept_start fun _ m hv _ hkept => hkept.move hv.order.queue_of_told m

end FanIn.World
