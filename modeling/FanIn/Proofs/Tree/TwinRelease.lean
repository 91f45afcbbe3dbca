import FanIn.Proofs.Tree.Custody
import FanIn.Proofs.Tree.TwinWorlds

/-!
# What twins let go of

What exists in the first of two worlds that are twins exists in the second, and is referred to there. The
second may keep a signal longer, but only one that has fired, and such a signal keeps nothing itself. So
letting go of the same destroys the same contexts, at the same time.

Main statements: `Twin.holds`, `Twin.holds_of_right` and `Twin.releaseAll`.
-/

namespace FanIn

open List Stack

variable {ν : Ties}

/-! ## What the work under way keeps -/

namespace Stack

theorem keeps_cons {f : Frame} {rest : List Frame} {r : Ref} :
    Keeps (f :: rest) r ↔ r ∈ f.refs ∨ Keeps rest r := by
  simp [Keeps]

theorem keeps_append {above rest : List Frame} {r : Ref} :
    Keeps (above ++ rest) r ↔ Keeps above r ∨ Keeps rest r := by
  simp [Keeps, or_and_right, exists_or]

variable {c : ContextNo} {s : SignalNo} {frames : List Frame}

theorem Epilogue.keeps (h : Epilogue ν c s frames) :
    Keeps frames (.context c) ∧ Keeps frames (.signal s) := by
  induction h with
  | returning answers h =>
    exact ⟨keeps_head (mem_cons_of_mem _ (mem_append_right _ mem_cons_self)) _,
      keeps_head mem_cons_self _⟩
  | conclude e failed _ ih => exact ⟨ih.1.cons _, ih.2.cons _⟩
  | deliver ch replay v _ _ ih => exact ⟨ih.1.cons _, ih.2.cons _⟩

theorem Epilogue.cases_keeps (h : Epilogue ν c s frames) {r : Ref} (hr : Keeps frames r) :
    r = .context c ∨ r = .signal s ∨ ∃ i ∈ ν.spent, r = .signal i := by
  induction h with
  | returning answers h =>
    rcases keeps_cons.1 hr with hr | ⟨f, hf, -⟩
    · rcases mem_append.1 hr with hr | hr
      · exact .inr (.inl (mem_singleton.1 hr))
      · rcases mem_append.1 hr with hr | hr
        · obtain ⟨i, hi, rfl⟩ := mem_map.1 hr
          exact .inr (.inr ⟨i, h hi, rfl⟩)
        · exact .inl (mem_singleton.1 hr)
    · cases hf
  | conclude e failed _ ih => exact ih ((keeps_cons.1 hr).resolve_left not_mem_nil)
  | deliver ch replay v hspent _ ih =>
    rcases keeps_cons.1 hr with hr | hr
    · exact (hspent r hr).imp_right .inl
    · exact ih hr

variable {stack stack' : List Frame} {r r' : Ref}

theorem Twin.keeps (h : Twin ν stack stack') (hr : r.Twin ν.shared r') (hk : Keeps stack r) :
    Keeps stack' r' := by
  induction h with
  | nil => exact absurd hk (by simp [Keeps])
  | cons hf _ ih =>
    rcases keeps_cons.1 hk with hk | hk
    · obtain ⟨s, hs, hrs⟩ := exists_twin_of_mem hf.refs hk
      exact keeps_cons.2 (.inl (hr.unique hrs ▸ hs))
    · exact keeps_cons.2 (.inr (ih hk))
  | failed _ _ he _ ih =>
    rcases keeps_cons.1 hk with hk | hk
    · obtain rfl := mem_singleton.1 hk
      cases hr
      exact keeps_append.2 (.inl he.keeps.1)
    · exact keeps_append.2 (.inr (ih hk))

theorem Twin.keeps_of_right (h : Twin ν stack stack') (hnames : (ν.shared ++ ν.extra).Nodup)
    (hr : r.Twin ν.shared r') (hk : Keeps stack' r') :
    Keeps stack r ∨ ∃ i ∈ ν.spent, r' = .signal i := by
  induction h with
  | nil => exact absurd hk (by simp [Keeps])
  | cons hf _ ih =>
    rcases keeps_cons.1 hk with hk | hk
    · obtain ⟨s, hs, hsr⟩ := exists_twin_of_mem_right hf.refs hk
      exact .inl (keeps_cons.2 (.inl (hr.injective (nodup_append.1 hnames).1 hsr ▸ hs)))
    · exact (ih hk).imp_left fun hk => keeps_cons.2 (.inr hk)
  | failed _ hs he _ ih =>
    rcases keeps_append.1 hk with hk | hk
    · rcases he.cases_keeps hk with rfl | rfl | hspent
      · cases hr
        exact .inl (keeps_cons.2 (.inl mem_cons_self))
      · cases hr with
        | signal hab => exact absurd rfl ((nodup_append.1 hnames).2.2 _ (mem_of_getElem? hab) _ hs)
      · exact .inr hspent
    · exact (ih hk).imp_left fun hk => keeps_cons.2 (.inr hk)

end Stack

namespace World

variable {old old' : Except Failure Reply} {w v : World}

/-! ## What is referred to -/

variable {r r' : Ref}

theorem Twin.holders (h : Twin ν old old' w v) (hr : r.Twin ν.shared r') :
    w.holders r = v.holders r' := by
  cases hr with
  | context c => exact h.elim_context c rfl fun _ _ hxy => hxy.holders
  | signal hab => exact h.elim_signal hab fun _ _ hxy => hxy.holders

/-- What is referred to in the first world is so in the second. -/
theorem Twin.holds (h : Twin ν old old' w v) (hr : r.Twin ν.shared r') (hh : w.Holds r) :
    v.Holds r' := by
  rcases hh with hpos | hkeeps | ⟨c, hc, rfl⟩ | ⟨c, x, hx, hl, hmem⟩ | ⟨a, x, hx, hl, hmem⟩
  · exact .inl (h.holders hr ▸ hpos)
  · exact .inr (.inl (h.stack.keeps hr hkeeps))
  · cases hr
    exact .inr (.inr (.inl ⟨c, h.queue ▸ hc, rfl⟩))
  · rcases h.context? c with ⟨hx', -⟩ | ⟨x', y, hx', hy, hxy⟩
    · rw [hx'] at hx
      cases hx
    · obtain rfl := Option.some.inj (hx.symm.trans hx')
      exact .inr (.inr (.inr (.inl ⟨c, y, hy, hxy.isLive ▸ hl,
        (mem_iff_of_twin h.nodup hxy.refs hr).1 hmem⟩)))
  · obtain ⟨b, hab⟩ := h.exists_name hx
    obtain ⟨x', y, hx', hy, hxy⟩ := h.signal? hab
    obtain rfl := Option.some.inj (hx.symm.trans hx')
    exact .inr (.inr (.inr (.inr ⟨b, y, hy, hxy.live hl, (mem_iff_of_twin h.nodup hxy.refs hr).1 hmem⟩)))

/-- What is referred to in the second world is so in the first, or has fired. -/
theorem Twin.holds_of_right (h : Twin ν old old' w v) (hr : r.Twin ν.shared r') (hh : v.Holds r') :
    w.Holds r ∨ ∃ i ∈ ν.spent, r' = .signal i := by
  rcases hh with hpos | hkeeps | ⟨c, hc, rfl⟩ | ⟨c, y, hy, hl, hmem⟩ | ⟨b, y, hy, hl, hmem⟩
  · exact .inl (.inl (h.holders hr ▸ hpos))
  · exact (h.stack.keeps_of_right h.names hr hkeeps).imp_left fun hk => .inr (.inl hk)
  · cases hr
    exact .inl (.inr (.inr (.inl ⟨c, h.queue ▸ hc, rfl⟩)))
  · rcases h.context? c with ⟨-, hy'⟩ | ⟨x, y', hx, hy', hxy⟩
    · rw [hy'] at hy
      cases hy
    · obtain rfl := Option.some.inj (hy.symm.trans hy')
      exact .inl (.inr (.inr (.inr (.inl ⟨c, x, hx, hxy.isLive ▸ hl,
        (mem_iff_of_twin h.nodup hxy.refs hr).2 hmem⟩))))
  · -- who waits at a signal, waits at one of both worlds, which has not fired
    have hfree : y.channel.observers = [] → False := fun hnil => by
      rw [Signal.refs_eq_nil hnil] at hmem
      cases hmem
    have hshared : b ∈ ν.shared := by
      by_contra hb
      exact hfree (h.lonely b y hy hb)
    obtain ⟨a, hab⟩ := List.mem_iff_getElem?.1 hshared
    obtain ⟨x, y', hx, hy', hxy⟩ := h.signal? hab
    obtain rfl := Option.some.inj (hy.symm.trans hy')
    have hx' : x.isLive = true := (hxy.lingering hl).resolve_right fun hfired =>
      hfree (Channel.observers_eq_nil_of_isFired hfired)
    exact .inl (.inr (.inr (.inr (.inr ⟨a, x, hx, hx', (mem_iff_of_twin h.nodup hxy.refs hr).2 hmem⟩))))

theorem Twin.isLive (h : Twin ν old old' w v) (c : ContextNo) : w.isLive c = v.isLive c := by
  unfold World.isLive
  rcases h.context? c with ⟨hx, hy⟩ | ⟨x, y, hx, hy, hxy⟩
  · rw [hx, hy]
  · rw [hx, hy]
    exact hxy.isLive

theorem Twin.isLiveRef (h : Twin ν old old' w v) (hr : r.Twin ν.shared r')
    (hl : w.isLiveRef r = true) : v.isLiveRef r' = true := by
  cases hr with
  | context c => exact (h.isLive c).symm.trans hl
  | @signal a b hab =>
    obtain ⟨x, y, hx, hy, hxy⟩ := h.signal? hab
    obtain ⟨x', hx', hl⟩ := exists_of_isLiveSignal hl
    obtain rfl := Option.some.inj (hx.symm.trans hx')
    show (v.signals[b]?).any Signal.isLive = true
    rw [hy]
    exact hxy.live hl

/-! ## Letting go -/

theorem Twin.destroyContext (h : Twin ν old old' w v) (c : ContextNo) :
    Twin ν old old' (w.destroy (.context c)) (v.destroy (.context c)) := by
  simp only [destroy]
  rcases h.context? c with ⟨hx, hy⟩ | ⟨x, y, hx, hy, hxy⟩
  · rw [hx, hy]
    exact h
  · rw [hx, hy]
    have hgone : Twin ν old old' { w with registry := w.registry.unregister x.id c }
        { v with registry := v.registry.unregister y.id c } :=
      { h with registry := by rw [h.registry, hxy.id] }
    have hfarewell : Twin ν old old' (w.farewell c x true) (v.farewell c y true) := by
      simp only [farewell, if_true]
      rw [hxy.isComplete]
      have hnoted := hgone.note (e := .destroyed c) (g := .destroyed c) rfl
      split
      · exact hnoted
      · exact hnoted.log _ _ _ _
    exact hfarewell.adjust c (fun _ => rfl) fun _ => ⟨rfl, rfl, rfl, rfl⟩

theorem Twin.destroySignal (h : Twin ν old old' w v) {a b : SignalNo} (hab : ν.shared[a]? = some b) :
    Twin ν old old' (w.destroy (.signal a)) (v.destroy (.signal b)) :=
  h.modifySignal hab (fun _ _ _ _ hxy => ⟨hxy.channel, hxy.holders, nofun, nofun⟩) fun _ hy => hy

/-- In the first world a signal is destroyed that has fired, and is kept in the second. -/
theorem Twin.destroyLeft (h : Twin ν old old' w v) {a b : SignalNo} (hab : ν.shared[a]? = some b)
    (hfired : ∃ y, v.signals[b]? = some y ∧ y.channel.isFired = true) :
    Twin ν old old' (w.destroy (.signal a)) v := by
  have hboth := h.modifySignal (f := fun x => { x with isLive := false }) (g := fun y => y) hab
    (fun x y _ hy hxy => ?_) fun _ hy => hy
  · rwa [modifySignal_eq_self fun _ _ => rfl] at hboth
  · obtain ⟨y', hy', hfired⟩ := hfired
    obtain rfl := Option.some.inj (hy.symm.trans hy')
    exact ⟨hxy.channel, hxy.holders, nofun, fun _ => .inr hfired⟩

/-- In the second world a signal is destroyed that exists in it alone, or has been destroyed in the
first. -/
theorem Twin.destroyRight (h : Twin ν old old' w v) {s : SignalNo}
    (hs : ∀ a, ν.shared[a]? = some s → w.isLiveSignal a = false) :
    Twin ν old old' w (v.destroy (.signal s)) := by
  by_cases hmem : s ∈ ν.shared
  · obtain ⟨a, hab⟩ := List.mem_iff_getElem?.1 hmem
    have hboth := h.modifySignal (f := fun x => x) (g := fun y => { y with isLive := false }) hab
      (fun x y hx _ hxy => ?_) fun _ hy => hy
    · rwa [modifySignal_eq_self fun _ _ => rfl] at hboth
    · have hdead : x.isLive = false := by
        have hdead := hs a hab
        unfold isLiveSignal at hdead
        rwa [hx] at hdead
      exact ⟨hxy.channel, hxy.holders, fun hl => absurd hl (by rw [hdead]; exact Bool.false_ne_true),
        nofun⟩
  · exact h.modifySignalRight hmem (fun _ hy => hy) fun _ hy => hy

theorem refsOf_eq_nil {s : SignalNo} {y : Signal} (hy : w.signals[s]? = some y)
    (hfired : y.channel.isFired = true) : w.refsOf (.signal s) = [] := by
  show (w.signals[s]?).elim [] Signal.refs = []
  rw [hy]
  exact Signal.refs_eq_nil (Channel.observers_eq_nil_of_isFired hfired)

theorem Twin.refsOf (h : Twin ν old old' w v) (hr : r.Twin ν.shared r') :
    Forall₂ (Ref.Twin ν.shared) (w.refsOf r) (v.refsOf r') := by
  cases hr with
  | context c => exact h.elim_context c .nil fun _ _ hxy => hxy.refs
  | signal hab => exact h.elim_signal hab fun _ _ hxy => hxy.refs

theorem releaseAll_held {rest : List Ref} (hl : w.isLiveRef r = true)
    (hh : (w.isHeld r || rest.contains r) = true) : w.releaseAll (r :: rest) = w.releaseAll rest := by
  rw [World.releaseAll, dif_pos hl, if_pos hh]

theorem releaseAll_lost {rest : List Ref} (hl : w.isLiveRef r = true)
    (hh : ¬(w.isHeld r || rest.contains r) = true) :
    w.releaseAll (r :: rest) = (w.destroy r).releaseAll (w.refsOf r ++ rest) := by
  rw [World.releaseAll, dif_pos hl, if_neg hh]

theorem releaseAll_dead {rest : List Ref} (hl : ¬w.isLiveRef r = true) :
    w.releaseAll (r :: rest) = w.releaseAll rest := by
  rw [World.releaseAll, dif_neg hl]

theorem Twin.spent_fired (h : Twin ν old old' w v) (hspent : ∃ i ∈ ν.spent, r' = .signal i) :
    ∃ b y, r' = .signal b ∧ v.signals[b]? = some y ∧ y.channel.isFired = true := by
  obtain ⟨i, hi, rfl⟩ := hspent
  obtain ⟨y, hy, hfired⟩ := h.spent i hi
  exact ⟨i, y, rfl, hy, hfired⟩

/-- Letting go of the same. A signal that has fired keeps nothing, so it makes no difference when it is
destroyed. -/
theorem Twin.releaseAll (h : Twin ν old old' w v) {refs refs' : List Ref}
    (hrefs : Forall₂ (Ref.Twin ν.shared) refs refs') :
    Twin ν old old' (w.releaseAll refs) (v.releaseAll refs') := by
  fun_induction World.releaseAll w refs generalizing v refs' with
  | case1 w =>
    cases hrefs
    rw [World.releaseAll]
    exact h
  | case2 w r rest hlive hheld ih =>
    cases hrefs with
    | @cons _ r' _ rest' hr hrest =>
      have hheld' : (v.isHeld r' || rest'.contains r') = true := by
        rcases Bool.or_eq_true_iff.1 hheld with hheld | hmem
        · exact Bool.or_eq_true_iff.2 (.inl (isHeld_iff.2 (h.holds hr (isHeld_iff.1 hheld))))
        · exact Bool.or_eq_true_iff.2 (.inr (List.contains_iff_mem.2
            ((mem_iff_of_twin h.nodup hrest hr).1 (List.contains_iff_mem.1 hmem))))
      rw [releaseAll_held (h.isLiveRef hr hlive) hheld']
      exact ih h hrest
  | case3 w r rest hlive hheld ih =>
    cases hrefs with
    | @cons _ r' _ rest' hr hrest =>
      have hlive' := h.isLiveRef hr hlive
      by_cases hheld' : (v.isHeld r' || rest'.contains r') = true
      · -- only a signal that has fired can be kept longer
        have hspent : ∃ i ∈ ν.spent, r' = .signal i := by
          rcases Bool.or_eq_true_iff.1 hheld' with hh | hmem
          · refine (h.holds_of_right hr (isHeld_iff.1 hh)).resolve_left fun hw => hheld ?_
            exact Bool.or_eq_true_iff.2 (.inl (isHeld_iff.2 hw))
          · exact absurd (Bool.or_eq_true_iff.2 (.inr (List.contains_iff_mem.2
              ((mem_iff_of_twin h.nodup hrest hr).2 (List.contains_iff_mem.1 hmem))))) hheld
        obtain ⟨b, y, rfl, hy, hfired⟩ := h.spent_fired hspent
        cases hr with
        | @signal a _ hab =>
          obtain ⟨x, y', hx, hy', hxy⟩ := h.signal? hab
          obtain rfl := Option.some.inj (hy.symm.trans hy')
          rw [releaseAll_held hlive' hheld']
          refine ih (h.destroyLeft hab ⟨y, hy, hfired⟩) ?_
          rw [refsOf_eq_nil hx (hxy.channel.isFired.trans hfired)]
          exact hrest
      · rw [releaseAll_lost hlive' hheld']
        refine ih ?_ (rel_append (h.refsOf hr) hrest)
        cases hr with
        | context c => exact h.destroyContext c
        | signal hab => exact h.destroySignal hab
  | case4 w r rest hdead ih =>
    cases hrefs with
    | @cons _ r' _ rest' hr hrest =>
      by_cases hlive' : v.isLiveRef r' = true
      · cases hr with
        | context c => exact absurd ((h.isLive c).trans hlive') hdead
        | @signal a b hab =>
          by_cases hheld' : (v.isHeld (.signal b) || rest'.contains (.signal b)) = true
          · rw [releaseAll_held hlive' hheld']
            exact ih h hrest
          · obtain ⟨x, y, hx, hy, hxy⟩ := h.signal? hab
            have hdead' : w.isLiveSignal a = false := Bool.not_eq_true _ ▸ hdead
            have hfired : y.channel.isFired = true := by
              obtain ⟨y', hy', hl⟩ := exists_of_isLiveSignal hlive'
              obtain rfl := Option.some.inj (hy.symm.trans hy')
              refine (hxy.lingering hl).resolve_left fun hl' => ?_
              unfold isLiveSignal at hdead'
              rw [hx] at hdead'
              exact absurd hl' (by rw [show x.isLive = false from hdead']; exact Bool.false_ne_true)
            rw [releaseAll_lost hlive' hheld', refsOf_eq_nil hy hfired]
            refine ih (h.destroyRight fun a' ha' => ?_) hrest
            rwa [Ref.signal.inj (Ref.Twin.injective h.nodup (.signal ha') (.signal hab))]
      · rw [releaseAll_dead hlive']
        exact ih h hrest

/-- Letting go of what is referred to otherwise changes nothing. -/
theorem releaseAll_eq_self {refs : List Ref} (h : ∀ r ∈ refs, w.Holds r) : w.releaseAll refs = w := by
  induction refs with
  | nil => rw [World.releaseAll]
  | cons r rest ih =>
    have hrest := ih fun r hr => h r (mem_cons_of_mem _ hr)
    by_cases hl : w.isLiveRef r = true
    · have hheld : w.isHeld r = true := isHeld_iff.2 (h r mem_cons_self)
      rw [releaseAll_held hl (Bool.or_eq_true_iff.2 (.inl hheld)), hrest]
    · rw [releaseAll_dead hl, hrest]

/-- A signal of the second world alone, or one that has fired, keeps nothing. -/
theorem Twin.refsOf_own (h : Twin ν old old' w v) {s : SignalNo} (hs : s ∈ ν.extra ∨ s ∈ ν.spent) :
    v.refsOf (.signal s) = [] := by
  rcases hs with hs | hs
  · show (v.signals[s]?).elim [] Signal.refs = []
    cases hy : v.signals[s]? with
    | none => rfl
    | some y => exact Signal.refs_eq_nil (h.lonely s y hy (h.not_shared hs))
  · obtain ⟨y, hy, hfired⟩ := h.spent s hs
    exact refsOf_eq_nil hy hfired

/-- The second world lets go of more, which is signals of its own and signals that have fired. -/
theorem Twin.releaseMore (h : Twin ν old old' w v)
    (hkept : ∀ a, w.isLiveSignal a = true → w.Holds (.signal a)) (more : List SignalNo)
    (hmore : ∀ s ∈ more, s ∈ ν.extra ∨ s ∈ ν.spent) {refs refs' : List Ref}
    (hrefs : Forall₂ (Ref.Twin ν.shared) refs refs') :
    Twin ν old old' (w.releaseAll refs) (v.releaseAll (more.map Ref.signal ++ refs')) := by
  induction more generalizing v with
  | nil => exact h.releaseAll hrefs
  | cons s more ih =>
    have hrest := fun i hi => hmore i (mem_cons_of_mem s hi)
    show Twin ν old old' _ (v.releaseAll (.signal s :: (more.map Ref.signal ++ refs')))
    by_cases hl : v.isLiveRef (.signal s) = true
    · by_cases hh : (v.isHeld (.signal s) || (more.map Ref.signal ++ refs').contains (.signal s)) = true
      · rw [releaseAll_held hl hh]
        exact ih h hrest
      · rw [releaseAll_lost hl hh, h.refsOf_own (hmore s mem_cons_self)]
        refine ih (h.destroyRight fun a ha => Bool.eq_false_iff.2 fun hlive => hh ?_) hrest
        exact Bool.or_eq_true_iff.2 (.inl (isHeld_iff.2 (h.holds (.signal ha) (hkept a hlive))))
    · rw [releaseAll_dead hl]
      exact ih h hrest

/-- The second world lets go of a signal that the first does not have. -/
theorem Twin.releaseOther (h : Twin ν old old' w v) {s : SignalNo} (hs : s ∉ ν.shared) :
    Twin ν old old' w (v.releaseAll [.signal s]) := by
  have hnone : v.refsOf (.signal s) = [] := by
    show (v.signals[s]?).elim [] Signal.refs = []
    cases hy : v.signals[s]? with
    | none => rfl
    | some y => exact Signal.refs_eq_nil (h.lonely s y hy hs)
  have hdone {u : World} (hu : Twin ν old old' w u) : Twin ν old old' w (u.releaseAll []) := by
    rwa [World.releaseAll]
  by_cases hl : v.isLiveRef (.signal s) = true
  · by_cases hh : (v.isHeld (.signal s) || ([] : List Ref).contains (.signal s)) = true
    · rw [releaseAll_held hl hh]
      exact hdone h
    · rw [releaseAll_lost hl hh, hnone]
      exact hdone (h.destroyRight fun a ha => absurd (mem_of_getElem? ha) hs)
  · rw [releaseAll_dead hl]
    exact hdone h

theorem log_restack (w : World) (stack : List Frame) (reply : Except Failure Reply) (l : Log.Level)
    (m : String) : World.log { w with stack := stack, reply := reply } l m =
      { w.log l m with stack := stack, reply := reply } := by
  unfold World.log
  split
  · rfl
  · rfl

/-- What is destroyed does not depend on the work under way, or on what a call came to. -/
theorem destroy_restack (w : World) (stack : List Frame) (reply : Except Failure Reply) (r : Ref) :
    World.destroy { w with stack := stack, reply := reply } r =
      { w.destroy r with stack := stack, reply := reply } := by
  cases r with
  | signal s => rfl
  | context c =>
    simp only [destroy]
    split
    · rfl
    · rename_i x _
      have hfarewell : World.farewell { w with stack := stack, reply := reply } c x true =
          { w.farewell c x true with stack := stack, reply := reply } := by
        simp only [farewell, if_true]
        split
        · rfl
        · exact log_restack (World.note { w with registry := w.registry.unregister x.id c }
            (.destroyed c)) stack reply _ _
      rw [hfarewell]
      rfl

/-- Nor does letting go, but for what the work under way keeps. -/
theorem releaseAll_restack {stack : List Frame} {reply : Except Failure Reply}
    (hkeeps : ∀ r, Keeps stack r ↔ Keeps w.stack r)
    (refs : List Ref) : World.releaseAll { w with stack := stack, reply := reply } refs =
      { w.releaseAll refs with stack := stack, reply := reply } := by
  have hsame {u : World} (hu : u.stack = w.stack) (r : Ref) :
      World.isHeld { u with stack := stack, reply := reply } r = u.isHeld r := by
    refine Bool.eq_iff_iff.2 (isHeld_iff.trans (Iff.trans ?_ isHeld_iff.symm))
    refine or_congr (by cases r <;> rfl) (or_congr ?_ .rfl)
    rw [hu]
    exact hkeeps r
  suffices go : ∀ (u : World) (refs : List Ref), u.stack = w.stack →
      World.releaseAll { u with stack := stack, reply := reply } refs =
        { u.releaseAll refs with stack := stack, reply := reply } from
    go w refs rfl
  intro u refs hu
  have hlive (u : World) (r : Ref) :
      World.isLiveRef { u with stack := stack, reply := reply } r = u.isLiveRef r := by cases r <;> rfl
  have hrefs (u : World) (r : Ref) :
      World.refsOf { u with stack := stack, reply := reply } r = u.refsOf r := by cases r <;> rfl
  fun_induction World.releaseAll u refs with
  | case1 u => rw [World.releaseAll]
  | case2 u r rest hl hheld ih =>
    rw [releaseAll_held ((hlive u r).trans hl) (by rw [hsame hu]; exact hheld), ih hu]
  | case3 u r rest hl hheld ih =>
    rw [releaseAll_lost ((hlive u r).trans hl) (by rw [hsame hu]; exact hheld), hrefs, destroy_restack,
      ih ((stack_destroy u r).trans hu)]
  | case4 u r rest hdead ih =>
    rw [releaseAll_dead (by rw [hlive]; exact hdead), ih hu]

end World

end FanIn
