import FanIn.Proofs.Tree.Ledger
import FanIn.Proofs.Tree.Updates

/-!
# The shape of the stack

What may lie under a frame. Frames that give up a slot, or lead to that, lie on nothing that does so
itself (`Calm`), and on something that keeps their context (`Keeps`). The notifications of a channel
lie on the frame that fired it, so that this frame goes on only when all observers have been
notified. At most one frame climbs, and there is one exactly while the queue is active.

Main statements: `inOrder_advance`, `inOrder_finish`, `inOrder_handled` and `ordered_call`, which say
that every move leaves a stack of that shape.
-/

namespace FanIn

namespace Frame

/-- Whether the frame is the one that completes contexts. -/
def isClimb : Frame → Bool
  | climb => true
  | _ => false

/-- Whether the frame gives up a slot. -/
def isGiveUp : Frame → Bool
  | giveUp .. => true
  | _ => false

/-- Whether the frame neither gives up a slot itself nor goes on to do so. -/
def isCalm : Frame → Bool
  | respond .. => false
  | answer .. => false
  | giveUp .. => false
  | climb => false
  | told .. => false
  | _ => true

theorem isCalm_of_isClients {f : Frame} (h : f.isClients) : f.isCalm := by
  cases f <;> first | rfl | cases h

end Frame

namespace Stack

/-- Whether it is the client's turn. -/
def Clients : List Frame → Prop
  | [] => True
  | f :: _ => f.isClients = true

/-- Whether the next frame neither gives up a slot nor goes on to do so. -/
def Calm : List Frame → Prop
  | [] => True
  | f :: _ => f.isCalm = true

/-- Whether something is kept alive by the work under way. -/
def Keeps (stack : List Frame) (r : Ref) : Prop := ∃ f ∈ stack, r ∈ f.refs

theorem Clients.calm {stack : List Frame} (h : Clients stack) : Calm stack := by
  cases stack with
  | nil => trivial
  | cons f rest => exact Frame.isCalm_of_isClients h

theorem Keeps.cons {stack : List Frame} {r : Ref} (h : Keeps stack r) (f : Frame) :
    Keeps (f :: stack) r := by
  obtain ⟨g, hg, hr⟩ := h
  exact ⟨g, List.mem_cons_of_mem f hg, hr⟩

theorem keeps_head {f : Frame} {r : Ref} (h : r ∈ f.refs) (rest : List Frame) :
    Keeps (f :: rest) r := ⟨f, List.mem_cons_self, h⟩

/-- What the notifications of a channel that fired lie on. -/
def LiesOn : ChannelRef → List Frame → Prop
  | .before c, rest => ∃ r below, rest = .answer c r :: below
  | .response c, rest => ∃ below, rest = .giveUp c .own :: below
  | .completion c, rest => ∃ p below, rest = .told c p :: below
  | .signal _, rest => Calm rest

/-- What may lie under a frame. -/
def Fits (t : Terms) : Frame → List Frame → Prop
  | .observer ch _ v, rest => ∃ replay todo spent below, rest = .deliver ch replay v todo spent :: below
  | .handler .., rest => Clients rest
  | .deliver ch false _ todo spent, rest => todo ⊆ spent ∧ LiesOn ch rest
  | .deliver _ true _ todo spent, rest => todo ⊆ spent ∧ todo.length ≤ 1 ∧ Calm rest
  | .respond c _, rest => Calm rest ∧ Keeps rest (.context c)
  | .answer c _, rest => Calm rest ∧ Keeps rest (.context c)
  | .giveUp c share, rest => (share = .own ∨ share = .link) ∧ Calm rest ∧ Keeps rest (.context c)
  | .climb, rest => Calm rest
  | .told .., rest => ∃ below, rest = .climb :: below
  | .conclude c _ _ result, rest => Calm rest ∧ Keeps rest (.signal result) ∧ Keeps rest (.context c)
  | .returning .., rest => Clients rest
  | .throwing _, rest => Calm rest ∨ t.strict = false ∧ ∃ below, rest = .climb :: below

/-- Every frame fits on what lies under it. -/
def Framed (t : Terms) : List Frame → Prop
  | [] => True
  | f :: rest => Fits t f rest ∧ Framed t rest

end Stack

open Stack

/-- The stack has the shape it should have, and some frame climbs exactly while the queue is
active. -/
structure World.InOrder (t : Terms) (w : World) : Prop where
  framed : Framed t w.stack
  climbs : w.stack.countP Frame.isClimb = if w.queue.isSome then 1 else 0

/-- The same, but for a slot that is to be given up at once, of a context that exists. -/
def World.Ordered (t : Terms) (w : World) : Prop :=
  w.InOrder t ∨ ∃ c share rest, w.stack = .giveUp c share :: rest ∧ Calm rest ∧ w.isLive c = true ∧
    World.InOrder t { w with stack := rest }

namespace World

variable {t : Terms} {w w' : World}

theorem clients_of_turn (h : w.isClientsTurn) : Clients w.stack := by
  unfold isClientsTurn at h
  split at h
  · rename_i hs; rw [hs]; trivial
  · rename_i f rest hs; rw [hs]; exact h

theorem InOrder.congr (h : w.InOrder t) (hs : w'.stack = w.stack) (hq : w'.queue = w.queue) :
    w'.InOrder t := by
  constructor
  · rw [hs]; exact h.framed
  · rw [hs, hq]; exact h.climbs

theorem InOrder.modifyContext (h : w.InOrder t) (c : ContextNo) (f : Context → Context) :
    (w.modifyContext c f).InOrder t := h.congr rfl rfl

theorem InOrder.modifySignal (h : w.InOrder t) (s : SignalNo) (f : Signal → Signal) :
    (w.modifySignal s f).InOrder t := h.congr rfl rfl

theorem InOrder.note (h : w.InOrder t) (e : Event) : (w.note e).InOrder t := h.congr rfl rfl

theorem InOrder.point (h : w.InOrder t) : w.point.InOrder t := h.congr rfl rfl

/-- A frame is done. -/
theorem InOrder.pop (h : w.InOrder t) {f : Frame} {rest : List Frame} (hs : w.stack = f :: rest)
    (hf : f.isClimb = false) : World.InOrder t { w with stack := rest } := by
  obtain ⟨hframed, hclimbs⟩ := h
  rw [hs] at hframed hclimbs
  rw [List.countP_cons_of_neg (by simp [hf])] at hclimbs
  exact ⟨hframed.2, hclimbs⟩

/-- Work is added. -/
theorem InOrder.push (h : w.InOrder t) {f : Frame} (hf : Fits t f w.stack)
    (hc : f.isClimb = false) : (w.push [f]).InOrder t := by
  constructor
  · exact ⟨hf, h.framed⟩
  · show (f :: w.stack).countP _ = _
    rw [List.countP_cons_of_neg (by simp [hc])]
    exact h.climbs

/-- A channel has fired. -/
theorem InOrder.deliver (h : w.InOrder t) (ch : ChannelRef) (hch : LiesOn ch w.stack) (v : Value)
    (os : List Observer) : (w.deliver ch v os).InOrder t := by
  have hmid : (w.note (.fired ch v)).point.InOrder t := h.congr rfl rfl
  exact hmid.push ⟨List.Subset.refl os, hch⟩ rfl

/-- An observer has subscribed to a channel that has fired. -/
theorem InOrder.replay (h : w.InOrder t) (hc : Calm w.stack) (ch : ChannelRef) (v : Value)
    (o : Observer) : (w.replay ch v o).InOrder t :=
  h.push (f := .deliver ch true v [o] [o]) ⟨List.Subset.refl _, Nat.le_refl 1, hc⟩ rfl

theorem InOrder.fireBefore (h : w.InOrder t) {c : ContextNo} {r : Response} {l : List Frame}
    (hs : w.stack = .answer c r :: l) (v : Response) : (w.fireBefore c v).InOrder t := by
  unfold World.fireBefore
  split
  · exact h
  · exact (h.modifyContext c _).deliver (.before c) ⟨r, l, hs⟩ _ _

theorem InOrder.fireResponse (h : w.InOrder t) {c : ContextNo} {l : List Frame}
    (hs : w.stack = .giveUp c .own :: l) (v : Response) : (w.fireResponse c v).InOrder t := by
  unfold World.fireResponse
  split
  · exact h
  · exact (h.modifyContext c _).deliver (.response c) ⟨l, hs⟩ _ _

theorem InOrder.fireCompletion (h : w.InOrder t) {c : ContextNo} {p : Option ContextNo}
    {l : List Frame} (hs : w.stack = .told c p :: l) : (w.fireCompletion c).InOrder t := by
  unfold World.fireCompletion
  split
  · exact h
  · exact (h.modifyContext c _).deliver (.completion c) ⟨p, l, hs⟩ _ _

theorem InOrder.fireSignal (h : w.InOrder t) (hc : Calm w.stack) (s : SignalNo) (r : Resolution) :
    (w.fireSignal s r).InOrder t := by
  unfold World.fireSignal
  split
  · exact h
  · exact (h.modifySignal s _).deliver (.signal s) hc _ _

/-! ## The library's own work -/

/-- An observer is notified by a frame that keeps what the observer refers to. -/
theorem InOrder.notify (h : w.InOrder t) {ch : ChannelRef} {replay : Bool} {v : Value}
    {todo spent : List Observer} {rest : List Frame}
    (hs : w.stack = .deliver ch replay v todo spent :: rest) {o : Observer} (ho : o ∈ spent) :
    (w.notify ch replay v o).InOrder t := by
  have hcalm : Calm w.stack := by rw [hs]; rfl
  have hkeeps : ∀ r ∈ o.refs, Keeps w.stack r := by
    intro r hr
    rw [hs]
    exact keeps_head (List.mem_flatMap.2 ⟨o, ho, hr⟩) rest
  cases o with
  | client label keeps =>
    exact (h.push (f := .observer ch label v) ⟨replay, todo, spent, rest, hs⟩ rfl).congr rfl rfl
  | empty => exact h
  | settleLink c =>
    have hfits : Fits t (.giveUp c .link) w.stack :=
      ⟨.inr rfl, hcalm, hkeeps _ (List.mem_singleton_self _)⟩
    simp only [World.notify]
    split
    · exact (h.congr (by simp) (by simp)).push (by rwa [stack_log]) rfl
    · exact h.push hfits rfl
  | settleError c e result =>
    have hsig : Keeps w.stack (.signal result) := hkeeps _ (by simp [Observer.refs])
    have hctx : Keeps w.stack (.context c) := hkeeps _ (by simp [Observer.refs])
    have hboth : ∀ failed, (w.push [.respond c ⟨none, some e⟩, .conclude c e failed result]).InOrder
        t := by
      intro failed
      have h1 := h.push (f := .conclude c e failed result) ⟨hcalm, hsig, hctx⟩ rfl
      exact h1.push (f := .respond c ⟨none, some e⟩) ⟨rfl, hctx.cons _⟩ rfl
    simp only [World.notify]
    split
    · exact hboth _
    · exact hboth _

/-- A slot is given up where nothing else is about to be. -/
theorem InOrder.giveUpSlot (h : w.InOrder t) (hc : Calm w.stack) (c : ContextNo) (share : Share) :
    (w.giveUpSlot c share).InOrder t := by
  unfold World.giveUpSlot
  split
  · exact h.push (.inl hc) rfl
  · split
    · have hclimbs := h.climbs
      dsimp only
      split
      · rename_i q hq
        refine ⟨h.framed, ?_⟩
        have hq : w.queue = some q := hq
        rw [hq] at hclimbs
        exact hclimbs
      · rename_i hq
        have hq : w.queue = none := hq
        -- the queue becomes active, and a frame to climb comes with it
        rw [hq] at hclimbs
        refine ⟨⟨hc, h.framed⟩, ?_⟩
        show (Frame.climb :: w.stack).countP Frame.isClimb = 1
        rw [List.countP_cons_of_pos rfl, hclimbs]
        rfl
    · exact h.congr rfl rfl

/-- The first context of the queue is completed, or the queue is done; the frame that climbs has
been taken off the stack. -/
theorem inOrder_completeNext {rest : List Frame} (h : w.InOrder t) (hs : w.stack = .climb :: rest) :
    (World.completeNext { w with stack := rest }).InOrder t := by
  obtain ⟨hframed, hclimbs⟩ := h
  rw [hs] at hframed hclimbs
  rw [List.countP_cons_of_pos rfl] at hclimbs
  unfold World.completeNext
  dsimp only
  split
  · rename_i hq
    rw [hq] at hclimbs
    exact absurd hclimbs (Nat.succ_ne_zero _)
  · rename_i hq
    rw [hq] at hclimbs
    exact ⟨hframed.2, Nat.succ.inj hclimbs⟩
  · rename_i c q hq
    rw [hq] at hclimbs
    -- those who are told lie on the frame that tells the parent, and that on one that climbs on
    refine InOrder.fireCompletion (l := .climb :: rest)
      (p := (w.contexts[c]?).bind Context.hold) ⟨?_, ?_⟩ (by simp)
    · have hclimb : Framed t (.climb :: rest) := hframed
      simpa [Framed, Fits] using hclimb
    · simpa [Frame.isClimb, List.countP_cons] using Nat.succ.inj hclimbs

/-- The parent of a completed context is told. That fails only on terms that allow it. -/
theorem InOrder.tellParent {c : ContextNo} {parent : Option ContextNo} {l : List Frame}
    (h : w.InOrder t) (hs : w.stack = .climb :: l)
    (hfail : ∀ p, parent = some p → t.strict = true →
      ((w.contexts[p]?).bind fun x => x.slots.release) ≠ none) :
    (w.tellParent c parent).InOrder t := by
  unfold World.tellParent
  split
  · exact h.congr (by simp) (by simp)
  · rename_i p
    split
    · rename_i hnone
      have hloose : t.strict = false := by
        cases ht : t.strict with
        | false => rfl
        | true => exact absurd hnone (hfail p rfl ht)
      have hmid : (w.releaseAll [.context p, .context c]).InOrder t :=
        h.congr (by simp) (by simp)
      refine hmid.push (.inr ⟨hloose, l, ?_⟩) rfl
      rw [stack_releaseAll, hs]
    · have hclimbs := h.climbs
      rw [hs, List.countP_cons_of_pos rfl] at hclimbs
      cases hq : w.queue with
      | none => rw [hq] at hclimbs; exact absurd hclimbs (Nat.succ_ne_zero _)
      | some q =>
        dsimp only
        split
        · refine ⟨by simpa using h.framed, ?_⟩
          have hc := h.climbs
          rw [hq] at hc
          simpa [hq] using hc
        · exact h.congr (by simp) (by simp)

theorem InOrder.resolveError (h : w.InOrder t) (hc : Calm w.stack) (c : ContextNo) (e : Failure)
    (failed : Option (Option Failure)) (result : SignalNo) :
    (w.resolveError c e failed result).InOrder t := by
  unfold World.resolveError
  split
  · exact h.fireSignal hc _ _
  · exact InOrder.fireSignal (h.congr (by simp) (by simp)) (by simpa using hc) _ _

theorem InOrder.returnCall (h : w.InOrder t) (r : Reply) (kept : List Ref) :
    (w.returnCall r kept).InOrder t := by
  unfold World.returnCall
  refine h.congr ?_ ?_ <;> cases r <;> simp

/-- A failure reaches the frame below; the frame that carries it has been taken off the stack. -/
theorem inOrder_unwind {f : Failure} {rest : List Frame} (h : w.InOrder t)
    (hs : w.stack = .throwing f :: rest) :
    (World.unwind { w with stack := rest } f rest).InOrder t := by
  have hpop := h.pop hs rfl
  have hfits : Fits t (.throwing f) rest := by
    have := h.framed
    rw [hs] at this
    exact this.1
  obtain ⟨hframed, hclimbs⟩ := hpop
  -- what is under a frame that is dropped is calm
  have drop : ∀ {g : Frame} {below : List Frame}, rest = g :: below → g.isClimb = false →
      Calm below → World.InOrder t { w with stack := .throwing f :: below } := by
    rintro g below rfl hg hcalm
    refine ⟨⟨.inl hcalm, hframed.2⟩, ?_⟩
    show (Frame.throwing f :: below).countP Frame.isClimb = _
    have hclimbs : (g :: below).countP Frame.isClimb = _ := hclimbs
    rw [List.countP_cons_of_neg (by simp [hg])] at hclimbs
    rw [List.countP_cons_of_neg (by simp [Frame.isClimb])]
    exact hclimbs
  -- a frame that gives up a slot, or goes on to do so, is not reached
  have notReached : ∀ {g : Frame} {below : List Frame}, rest = g :: below → g.isCalm = false →
      g.isClimb = false → False := by
    rintro g below rfl hcalm hclimb
    rcases hfits with hfits | ⟨_, below', heq⟩
    · exact absurd (hfits.symm.trans hcalm) (by decide)
    · obtain ⟨rfl, _⟩ := List.cons.inj heq
      cases hclimb
  cases rest with
  | nil => exact ⟨trivial, hclimbs⟩
  | cons g below =>
    have hbelow := hframed.1
    cases g with
    | observer ch l v => exact ⟨hframed, hclimbs⟩
    | handler n c e s => exact ⟨hframed, hclimbs⟩
    | deliver ch replay v todo spent =>
      have hmid : World.InOrder t { w with stack := .deliver ch replay v todo spent :: below } :=
        ⟨hframed, hclimbs⟩
      exact hmid.congr (by simp [World.unwind]) (by simp [World.unwind])
    | climb =>
      have hcount : (Frame.climb :: below).countP Frame.isClimb = if w.queue.isSome then 1 else 0 :=
        hclimbs
      rw [List.countP_cons_of_pos rfl] at hcount
      -- the only frame that climbs goes, together with the queue
      have hzero : below.countP Frame.isClimb = 0 := by split at hcount <;> omega
      constructor
      · simpa [World.unwind, World.abandonQueue, Framed, Fits] using
          And.intro (Or.inl hbelow : Calm below ∨ _) hframed.2
      · simpa [World.unwind, World.abandonQueue, List.countP_cons, Frame.isClimb] using hzero
    | returning r kept =>
      exact (drop rfl rfl hbelow.calm).congr (by simp [World.unwind]) (by simp [World.unwind])
    | conclude c e failed result => exact drop rfl rfl hbelow.1
    | throwing f' =>
      refine ⟨⟨hbelow, hframed.2⟩, ?_⟩
      have hcount : (Frame.throwing f' :: below).countP Frame.isClimb = _ := hclimbs
      rw [List.countP_cons_of_neg (by simp [Frame.isClimb])] at hcount
      show (Frame.throwing f :: below).countP Frame.isClimb = _
      rw [List.countP_cons_of_neg (by simp [Frame.isClimb])]
      exact hcount
    | respond c r => exact (notReached rfl rfl rfl).elim
    | answer c r => exact (notReached rfl rfl rfl).elim
    | giveUp c share => exact (notReached rfl rfl rfl).elim
    | told c p => exact (notReached rfl rfl rfl).elim

/-- A step of the library's own work leaves the stack in order. -/
theorem inOrder_advance (h : w.InOrder t)
    (hfail : ∀ c p rest, w.stack = .told c (some p) :: rest → t.strict = true →
      ((w.contexts[p]?).bind fun x => x.slots.release) ≠ none) : w.advance.InOrder t := by
  unfold advance
  split
  · exact h
  · exact h
  · exact h
  · rename_i spent rest hs
    exact (h.pop hs rfl).congr (by simp) (by simp)
  · rename_i ch replay v o todo spent rest hs
    have hfits := h.framed
    rw [hs] at hfits
    obtain ⟨hfits, hrest⟩ := hfits
    have hsub : o :: todo ⊆ spent := by cases replay <;> exact hfits.1
    have hmid : World.InOrder t { w with stack := .deliver ch replay v todo spent :: rest } := by
      refine ⟨⟨?_, hrest⟩, ?_⟩
      · cases replay with
        | false => exact ⟨fun x hx => hsub (List.mem_cons_of_mem o hx), hfits.2⟩
        | true =>
          refine ⟨fun x hx => hsub (List.mem_cons_of_mem o hx), ?_, hfits.2.2⟩
          exact Nat.le_trans (Nat.le_succ _) hfits.2.1
      · have hclimbs := h.climbs
        rw [hs] at hclimbs
        simpa [List.countP_cons, Frame.isClimb] using hclimbs
    exact hmid.notify rfl (hsub List.mem_cons_self)
  · rename_i c r rest hs
    have hfits := h.framed
    rw [hs] at hfits
    have hmid : World.InOrder t { w with stack := .answer c r :: rest } :=
      (h.pop hs rfl).push (f := .answer c r) hfits.1 rfl
    exact InOrder.fireBefore (r := r) (l := rest) (hmid.congr (by simp) (by simp)) (by simp) r
  · rename_i c r rest hs
    have hfits := h.framed
    rw [hs] at hfits
    have hmid : World.InOrder t { w with stack := .giveUp c .own :: rest } :=
      (h.pop hs rfl).push (f := .giveUp c .own) ⟨.inl rfl, hfits.1⟩ rfl
    exact hmid.point.fireResponse (l := rest) rfl r
  · rename_i c share rest hs
    have hfits := h.framed
    rw [hs] at hfits
    exact (h.pop hs rfl).giveUpSlot hfits.1.2.1 c share
  · rename_i rest hs
    exact inOrder_completeNext h hs
  · rename_i c parent rest hs
    have hfits := h.framed
    rw [hs] at hfits
    obtain ⟨⟨below, rfl⟩, _⟩ := hfits
    exact InOrder.tellParent (l := below) (h.pop hs rfl) rfl fun p hp => by
      subst hp
      exact hfail c p _ hs
  · rename_i c e failed result rest hs
    have hfits := h.framed
    rw [hs] at hfits
    exact (h.pop hs rfl).resolveError hfits.1.1 c e failed result
  · rename_i r kept rest hs
    exact (h.pop hs rfl).returnCall r kept
  · rename_i f rest hs
    exact inOrder_unwind h hs

/-! ## The moves of clients -/

theorem InOrder.settleBy (h : w.InOrder t) (hc : Clients w.stack) (s : SignalNo) (c : ContextNo)
    (e : Failure) (result : SignalNo) : (w.settleBy s c e result).InOrder t := by
  have hmid : (w.push [.returning (.signal result) [.signal s, .context c]]).InOrder t :=
    h.push hc rfl
  unfold World.settleBy
  dsimp only
  rcases subscribe_cases (w.push [.returning (.signal result) [.signal s, .context c]]) (.signal s)
    (.settleError c e result) with ⟨_, heq⟩ | ⟨v, _, heq⟩
  · rw [heq]
    exact hmid.congr (by simp) (by simp)
  · rw [heq]
    exact hmid.replay rfl _ v _

/-- The return of an observer leaves the stack in order. -/
theorem inOrder_finish (h : w.InOrder t) (thrown : Option Failure) :
    (w.finish thrown).InOrder t := by
  unfold World.finish
  split
  · rename_i hs
    have hpop := h.pop hs rfl
    dsimp only
    split
    · exact hpop
    · exact hpop.congr (by simp) (by simp)
  · exact h

/-- So does the return of an exception handler. -/
theorem inOrder_handled (h : w.InOrder t) (a : Handled) : (w.handled a).InOrder t := by
  unfold World.handled
  split
  · rename_i n c e result rest hs
    have hpop := h.pop hs rfl
    have hc : Clients rest := by
      have := h.framed
      rw [hs] at this
      exact this.1
    dsimp only
    split
    · have h1 := hpop.push (f := .returning (.signal result) [.context c]) hc rfl
      have hsig : Keeps (.returning (.signal result) [.context c] :: rest) (.signal result) :=
        keeps_head (by simp [Frame.refs, Reply.refs]) rest
      have hctx : Keeps (.returning (.signal result) [.context c] :: rest) (.context c) :=
        keeps_head (by simp [Frame.refs, Reply.refs]) rest
      -- the outcome is published on top of what tells the signal, and that on top of the return
      have h2 := h1.push (f := .conclude c e (some none) result) ⟨rfl, hsig, hctx⟩ rfl
      exact h2.push (f := .respond c ⟨none, some e⟩) ⟨rfl, hctx.cons _⟩ rfl
    · exact InOrder.settleBy (hpop.congr (by simp) (by simp)) (by simpa using hc) _ c e result
    · exact (hpop.modifySignal _ _).settleBy hc _ c e result
  · exact h

theorem InOrder.firing (h : w.InOrder t) (hc : Clients w.stack) (s : SignalNo) (r : Resolution) :
    (w.firing (.signal s) fun w => w.fireSignal s r).InOrder t := by
  unfold World.firing
  split
  · exact h.congr rfl rfl
  · exact (h.push (f := .returning (.flag true) []) hc rfl).fireSignal rfl s r

theorem InOrder.success (h : w.InOrder t) (hc : Clients w.stack) (c : ContextNo)
    (result : Option Int) : (w.success c result).InOrder t := by
  unfold World.success
  dsimp only
  split
  · exact h.point
  · split
    · exact h.congr (by simp) (by simp)
    · have h1 := ((h.point.modifyContext c fun x => { x with state := .succeeded }).push
        (f := .returning (.flag true) [.context c]) hc rfl)
      have hctx : Keeps (.returning (.flag true) [.context c] :: w.stack) (.context c) :=
        keeps_head (by simp [Frame.refs, Reply.refs]) _
      exact h1.push (f := .respond c ⟨result, none⟩) ⟨rfl, hctx⟩ rfl

theorem InOrder.error (h : w.InOrder t) (hc : Clients w.stack) (c : ContextNo)
    (failure : Option Failure) : (w.error c failure).InOrder t := by
  unfold World.error
  split
  · exact h.congr rfl rfl
  · dsimp only
    split
    · exact h.point
    · split
      · exact InOrder.push (h.congr (by simp) (by simp)) (by simpa [Fits] using hc) rfl
      · refine InOrder.congr (w := World.push _ [_]) (InOrder.push (h.congr (by simp) (by simp)) ?_ rfl)
          rfl rfl
        simpa [Fits] using hc

theorem InOrder.createRoot (h : w.InOrder t) (hc : Clients w.stack) (spec : RootSpec) :
    (w.createRoot spec).InOrder t := by
  rw [World.createRoot_eq]
  split
  · exact h.congr rfl rfl
  · dsimp only
    split
    · exact h.congr rfl rfl
    · rename_i g _
      have hmid : ((World.enter { w with trees := w.trees.push spec.tree }
          (spec.build w.contexts.size w.trees.size) g).push
            [.returning (.context w.contexts.size) []]).InOrder t :=
        InOrder.push (h.congr (by simp) (by simp)) (by simpa [Fits] using hc) rfl
      split
      · exact hmid
      · rename_i s _
        have hnote := hmid.note (.joined w.contexts.size .link)
        rcases subscribe_cases (World.note _ (.joined w.contexts.size .link)) (.signal s)
          (.settleLink w.contexts.size) with ⟨_, heq⟩ | ⟨v, _, heq⟩
        · rw [heq]
          exact hnote.congr (by simp) (by simp)
        · rw [heq]
          exact hnote.replay rfl _ v _

/-- A stack in order, with the giving up of a slot on top. -/
theorem InOrder.hasten {f : Frame} (h : (w.push [f]).InOrder t) (hc : f.isCalm) {c : ContextNo}
    (hl : w.isLive c) (share : Share) : (w.push [.giveUp c share, f]).Ordered t :=
  .inr ⟨c, share, f :: w.stack, rfl, hc, hl, h⟩

theorem InOrder.createChild (h : w.InOrder t) (hc : Clients w.stack) (parent : ContextNo)
    (hl : w.isLive parent) (location : Option Location) (handler : Option Nat)
    (correlation : Option String) :
    (w.createChild parent location handler correlation).Ordered t := by
  rw [World.createChild_eq]
  split
  · exact .inl (h.congr rfl rfl)
  · exact .inl h
  · dsimp only
    split
    · exact .inl (h.congr (by simp) (by simp))
    · rename_i w' hw'
      obtain ⟨x, slots, _, _, rfl⟩ := takeSlot_eq_some hw'
      split
      · rename_i id _ _
        -- the failure lies under the giving up of the slot
        refine InOrder.hasten ?_ rfl ?_ _
        · exact InOrder.push (h.congr (by simp) (by simp)) (.inl (by simpa using hc.calm)) rfl
        · exact (isLive_modifyContext (f := fun x => { x with slots := slots }) (fun _ _ => rfl)
            parent).trans hl
      · refine .inl (InOrder.push (h.congr (by simp) (by simp)) ?_ rfl)
        simpa [Fits] using hc

/-- A call leaves the stack in order. It uses contexts that exist, and fires no channel of a
context. -/
theorem ordered_call (h : w.InOrder t) (hc : Clients w.stack) (call : Call)
    (hl : ∀ c, .context c ∈ call.uses → w.isLive c = true)
    (hfire : ∀ c r, call ≠ .fireBefore c r ∧ call ≠ .fireResponse c r ∧ call ≠ .fireCompletion c) :
    (w.call call).Ordered t := by
  cases call with
  | createRoot spec => exact .inl (h.createRoot hc spec)
  | createChild parent location handler correlation =>
    exact h.createChild hc parent (hl parent (by simp [Call.uses])) location handler correlation
  | success c result => exact .inl (h.success hc c result)
  | error c failure => exact .inl (h.error hc c failure)
  | addChild c =>
    left
    simp only [World.call]
    split
    · rename_i w' hw'
      obtain ⟨x, slots, _, _, rfl⟩ := takeSlot_eq_some hw'
      exact h.congr (by simp) (by simp)
    · exact h.congr (by simp) (by simp)
  | childCompleted c =>
    have hmid : (w.push [.returning .done []]).InOrder t := h.push (f := .returning .done []) hc rfl
    exact hmid.hasten rfl (hl c (by simp [Call.uses])) _
  | subscribe ch label keeps =>
    left
    simp only [World.call]
    rcases subscribe_cases w ch (label.elim .empty fun label => .client label keeps) with
      ⟨_, heq⟩ | ⟨v, _, heq⟩
    · rw [heq]
      exact h.congr (by simp) (by simp)
    · rw [heq]
      exact (h.push (f := .returning (.subscription ch none) []) hc rfl).replay rfl ch v _
  | unsubscribe ch n => exact .inl (h.congr (by simp [World.call]) (by simp [World.call]))
  | fireBefore c r => exact absurd rfl (hfire c r).1
  | fireResponse c r => exact absurd rfl (hfire c r).2.1
  | fireCompletion c => exact absurd rfl (hfire c {}).2.2
  | fireSignal s r => exact .inl (h.firing hc s r)
  | wait ch => exact .inl (h.congr (by simp [World.call]) (by simp [World.call]))
  | makeSignal r =>
    left
    cases r with
    | none =>
      exact InOrder.push (w := (w.addSignal {}).2) (f := .returning (.signal _) [])
        (h.congr rfl rfl) hc rfl
    | some r =>
      exact InOrder.push (w := (w.point.addSignal { channel := .fired r }).2)
        (f := .returning (.signal _) []) (h.congr rfl rfl) hc rfl
  | hold r => exact .inl (h.congr (by cases r <;> rfl) (by cases r <;> rfl))
  | drop r =>
    left
    refine h.congr ?_ ?_ <;> cases r <;> simp [World.call, World.drop]
  | register id c => left; simp only [World.call]; split <;> exact h.congr rfl rfl
  | unregister id c => exact .inl (h.congr rfl rfl)
  | setThreshold level => exact .inl (h.congr rfl rfl)
  | addProcessor c path => exact .inl (h.congr rfl rfl)

end World

/-! ## What the shape says -/

/-- Under a frame that is in order no slot is given up but a context's own or the one for its
link. -/
theorem Stack.Framed.shares {t : Terms} {stack : List Frame} (h : Framed t stack) {c : ContextNo}
    {share : Share} (hmem : .giveUp c share ∈ stack) : share = .own ∨ share = .link := by
  induction stack with
  | nil => cases hmem
  | cons f rest ih =>
    rcases List.mem_cons.1 hmem with rfl | hmem
    · exact h.1.1
    · exact ih h.2 hmem

theorem Stack.Framed.fits {t : Terms} {above rest : List Frame} {f : Frame}
    (h : Framed t (above ++ f :: rest)) : Fits t f rest := by
  induction above with
  | nil => exact h.1
  | cons g above ih => exact ih h.2

/-- Every frame of an orderly stack fits on what lies under it, but for the giving up of a slot on
top. -/
theorem World.Ordered.fits_of_mem {t : Terms} {w : World} (h : w.Ordered t) {f : Frame}
    {above rest : List Frame} (hs : w.stack = above ++ f :: rest) (hf : f.isGiveUp = false) :
    Fits t f rest := by
  rcases h with h | ⟨c, share, below, hs', _, _, h⟩
  · exact Framed.fits (hs ▸ h.framed)
  · rw [hs'] at hs
    cases above with
    | nil =>
      obtain ⟨rfl, _⟩ := List.cons.inj hs
      cases hf
    | cons g above =>
      have hbelow : below = above ++ f :: rest := (List.cons.inj hs).2
      exact Framed.fits (hbelow ▸ h.framed)

/-- The same for what is on top. -/
theorem World.Ordered.fits {t : Terms} {w : World} (h : w.Ordered t) {f : Frame}
    {rest : List Frame} (hs : w.stack = f :: rest) (hf : f.isGiveUp = false) : Fits t f rest :=
  @World.Ordered.fits_of_mem t w h f [] rest hs hf

end FanIn
