import FanIn.Proofs.Tree.TwinWork

/-!
# What clients do to twins

The same call makes twins of twins. It names signals by the numbers that they have in each world, and
resolves them with what it likes. It may make a signal in both worlds, which then has a number in both.

Main statements: `Twin.call` and `Twin.move`.
-/

namespace FanIn

open List Stack

/-- Whether a call names no signals. -/
def Call.isPlain : Call → Bool
  | createRoot _ => false
  | subscribe .. => false
  | unsubscribe .. => false
  | fireSignal .. => false
  | wait _ => false
  | makeSignal _ => false
  | hold _ => false
  | drop _ => false
  | _ => true

/-- The same call, but for the numbers of signals and for what signals are resolved with. -/
inductive Call.Twin (σ : List SignalNo) : Call → Call → Prop
  | plain {call : Call} (h : call.isPlain = true) : Twin σ call call
  | createRoot (spec : RootSpec) {link link' : Option SignalNo}
      (h : Option.Rel (fun a b => σ[a]? = some b) link link') :
      Twin σ (.createRoot { spec with link := link }) (.createRoot { spec with link := link' })
  | subscribe {ch ch' : ChannelRef} (h : ch.Twin σ ch') (label : Option Nat) {keeps keeps' : List Ref}
      (hkeeps : Forall₂ (Ref.Twin σ) keeps keeps') :
      Twin σ (.subscribe ch label keeps) (.subscribe ch' label keeps')
  | unsubscribe {ch ch' : ChannelRef} (h : ch.Twin σ ch') (number : UInt64) :
      Twin σ (.unsubscribe ch number) (.unsubscribe ch' number)
  /-- Nobody waits at a signal that there is not. -/
  | unknown {a b : SignalNo} (ha : σ[a]? = none) (hb : b ∉ σ) (number : UInt64) :
      Twin σ (.unsubscribe (.signal a) number) (.unsubscribe (.signal b) number)
  | fireSignal {a b : SignalNo} (h : σ[a]? = some b) (r r' : Resolution) :
      Twin σ (.fireSignal a r) (.fireSignal b r')
  | wait {ch ch' : ChannelRef} (h : ch.Twin σ ch') : Twin σ (.wait ch) (.wait ch')
  | waiting : Twin σ (.makeSignal none) (.makeSignal none)
  | resolved (r r' : Resolution) : Twin σ (.makeSignal (some r)) (.makeSignal (some r'))
  | hold {r r' : Ref} (h : r.Twin σ r') : Twin σ (.hold r) (.hold r')
  | drop {r r' : Ref} (h : r.Twin σ r') : Twin σ (.drop r) (.drop r')

theorem Call.uses_of_plain (σ : List SignalNo) {call : Call} (h : call.isPlain = true) :
    Forall₂ (Ref.Twin σ) call.uses call.uses := by
  cases call with
  | unregister id c => exact .nil
  | setThreshold level => exact .nil
  | createRoot _ => cases h
  | subscribe => cases h
  | unsubscribe => cases h
  | fireSignal => cases h
  | wait => cases h
  | makeSignal => cases h
  | hold => cases h
  | drop => cases h
  | _ => exact .cons (.context _) .nil

inductive Move.Twin (σ : List SignalNo) : Move → Move → Prop
  | call {call call' : Call} (h : call.Twin σ call') : Twin σ (.call call) (.call call')
  | finish (thrown : Option Failure) : Twin σ (.finish thrown) (.finish thrown)
  | nothing : Twin σ (.handled .nothing) (.handled .nothing)
  | threw (f : Failure) : Twin σ (.handled (.threw f)) (.handled (.threw f))
  | signal {a b : SignalNo} (h : σ[a]? = some b) :
      Twin σ (.handled (.signal a)) (.handled (.signal b))

namespace World

variable {ν : Ties} {old old' : Except Failure Reply} {w v : World}

/-- What a move makes of twins are twins again, perhaps with a signal more. -/
def Follows (ν : Ties) (old old' : Except Failure Reply) (next : SignalNo) (w v : World) : Prop :=
  Twin ν old old' w v ∨ Twin (ν.meet next) old old' w v

/-! ## Signals -/

theorem Twin.named_fresh (h : Twin ν old old' w v) (s : SignalNo) :
    (ν.meet s).shared[w.signals.size]? = some s := by
  rw [← h.known]
  exact List.getElem?_concat_length

theorem Twin.makeWaiting (h : Twin ν old old' w v) :
    Twin (ν.meet v.signals.size) old old' (w.makeSignal none).2 (v.makeSignal none).2 :=
  h.addSignal ⟨.waiting 1 .nil, rfl, fun _ => rfl, fun _ => .inl rfl⟩

theorem Twin.makeResolved (h : Twin ν old old' w v) (r r' : Resolution) :
    Twin (ν.meet v.signals.size) old old' (w.makeSignal (some r)).2 (v.makeSignal (some r')).2 :=
  h.point.addSignal ⟨.fired r r', rfl, fun _ => rfl, fun _ => .inl rfl⟩

theorem Twin.settleBy (h : Twin ν old old' w v) {a b i j : SignalNo} (hab : ν.shared[a]? = some b)
    (hij : ν.shared[i]? = some j) (c : ContextNo) (e : Failure) :
    Twin ν old old' (w.settleBy a c e i) (v.settleBy b c e j) :=
  (h.push (.cons (.returning (.signal hij) (.cons (.signal hab) (.cons (.context c) .nil)))
    .nil)).attach (.signal hab) (.settleError c e hij)

/-! ## Returns from callbacks -/

theorem Twin.finish (h : Twin ν old old' w v) (thrown : Option Failure) :
    Twin ν old old' (w.finish thrown) (v.finish thrown) := by
  have hst := h.stack
  unfold World.finish
  generalize hw : w.stack = stack at hst
  generalize hv : v.stack = stack' at hst
  cases hst with
  | nil => exact h
  | failed _ _ he _ => cases he <;> exact h
  | cons hg hrest =>
    cases hg with
    | observer hch label u u' =>
      cases thrown with
      | none => exact h.restack hrest
      | some f => exact (h.restack hrest).log _ _ _ _
    | _ => exact h

theorem Twin.handled (h : Twin ν old old' w v) {a a' : Handled}
    (ha : Move.Twin ν.shared (.handled a) (.handled a')) :
    Follows ν old old' v.signals.size (w.handled a) (v.handled a') := by
  have hst := h.stack
  unfold World.handled
  generalize hw : w.stack = stack at hst
  generalize hv : v.stack = stack' at hst
  cases hst with
  | nil => exact .inl h
  | failed _ _ he _ => cases he <;> exact .inl h
  | cons hg hrest =>
    cases hg with
    | @handler number c e i j hij =>
      have hpop := h.restack hrest
      cases ha with
      | nothing =>
        exact .inl (hpop.push (.cons (.respond c _ _) (.cons (.conclude c e _ _ hij)
          (.cons (.returning (.signal hij) (.cons (.context c) .nil)) .nil))))
      | threw f =>
        have hmade := hpop.makeResolved { failure := some f } { failure := some f }
        exact .inr (hmade.settleBy (hpop.named_fresh _) (named_mono (ν.grow_meet _).shared hij) c e)
      | signal hab => exact .inl ((hpop.holdSignal hab (· - 1)).settleBy hab hij c e)
    | _ => exact .inl h

/-! ## Creating contexts -/

theorem Twin.enter (h : Twin ν old old' w v) {x y : Context} (hxy : x.Twin ν.shared y)
    (registry : Registry) : Twin ν old old' (w.enter x registry) (v.enter y registry) := by
  have hborn : Twin ν old old' { w with contexts := w.contexts.push x, registry := registry }
      { v with contexts := v.contexts.push y, registry := registry } :=
    { h with
      contexts := fun c => by
        show Option.Rel _ (w.contexts.push x)[c]? (v.contexts.push y)[c]?
        rw [Array.getElem?_push, Array.getElem?_push, h.size]
        split
        · exact .some hxy
        · exact h.contexts c
      registry := rfl }
  unfold World.enter
  dsimp only
  rw [h.size]
  exact ((hborn.note (e := .created _) (g := .created _) rfl).note rfl).log _ _ _ _

/-- A registry asks which contexts exist, and the same do. -/
theorem Twin.register? (h : Twin ν old old' w v) (id : String) (c : ContextNo) :
    w.registry.register? w.isLive id c = v.registry.register? v.isLive id c := by
  rw [h.registry, show w.isLive = v.isLive from funext h.isLive]

theorem Context.Twin.fresh {σ : List SignalNo} {x y : Context} (houtline : x.outline = y.outline)
    (hx : x.state = .pending ∧ x.before = .new ∧ x.response = .new ∧ x.completion = .new)
    (hy : y.state = .pending ∧ y.before = .new ∧ y.response = .new ∧ y.completion = .new) :
    x.Twin σ y := by
  have hnew {α : Type} : Channel.Twin σ (Channel.new : Channel α Observer) .new := .waiting 1 .nil
  obtain ⟨hstate, hbefore, hresponse, hcompletion⟩ := hx
  obtain ⟨hstate', hbefore', hresponse', hcompletion'⟩ := hy
  constructor
  · exact houtline
  · unfold Context.isTerminated
    rw [hstate, hstate']
  · rw [hbefore, hbefore']
    exact hnew
  · rw [hresponse, hresponse']
    exact hnew
  · rw [hcompletion, hcompletion']
    exact hnew

theorem Twin.createRoot (h : Twin ν old old' w v) (spec : RootSpec) {link link' : Option SignalNo}
    (hlink : Option.Rel (fun a b => ν.shared[a]? = some b) link link') :
    Twin ν old old' (w.createRoot { spec with link := link })
      (v.createRoot { spec with link := link' }) := by
  rw [World.createRoot_eq, World.createRoot_eq]
  rw [show ({ spec with link := link } : RootSpec).fault? = spec.fault? from rfl,
    show ({ spec with link := link' } : RootSpec).fault? = spec.fault? from rfl]
  cases spec.fault? with
  | some f => exact h.refused f
  | none =>
    dsimp only
    rw [show ({ spec with link := link } : RootSpec).id = spec.id from rfl,
      show ({ spec with link := link' } : RootSpec).id = spec.id from rfl, h.register?, h.size]
    cases v.registry.register? v.isLive spec.id v.contexts.size with
    | none => exact h.refused _
    | some registry =>
      have hslots : link.isSome = link'.isSome := by cases hlink <;> rfl
      have hbuilt : ({ spec with link := link } : RootSpec).build v.contexts.size w.trees.size |>.Twin
          ν.shared (({ spec with link := link' } : RootSpec).build v.contexts.size v.trees.size) := by
        refine Context.Twin.fresh ?_ ⟨rfl, rfl, rfl, rfl⟩ ⟨rfl, rfl, rfl, rfl⟩
        unfold RootSpec.build Context.outline
        dsimp only
        rw [hslots, h.trees]
        rfl
      have htree : Twin ν old old' { w with trees := w.trees.push spec.tree }
          { v with trees := v.trees.push spec.tree } :=
        { h with trees := congrArg (fun trees : Array Tree => trees.push spec.tree) h.trees }
      have hentered := (htree.enter hbuilt registry).push
        (.cons (.returning (.context v.contexts.size) .nil) .nil)
      cases hlink with
      | none => exact hentered
      | some hab =>
        exact (hentered.note (e := .joined v.contexts.size .link)
          (g := .joined v.contexts.size .link) rfl).attach (.signal hab) (.settleLink _)

/-- A slot is taken in both worlds, or in neither. -/
theorem Twin.takeSlot (h : Twin ν old old' w v) (c : ContextNo) (share : Share) :
    (w.takeSlot c share = none ∧ v.takeSlot c share = none) ∨ ∃ w' v',
      w.takeSlot c share = some w' ∧ v.takeSlot c share = some v' ∧ Twin ν old old' w' v' := by
  unfold World.takeSlot
  rcases h.context? c with ⟨hx, hy⟩ | ⟨x, y, hx, hy, hxy⟩
  · rw [hx, hy]
    exact .inl ⟨rfl, rfl⟩
  · rw [hx, hy]
    dsimp only [Option.bind_some]
    rw [hxy.slots]
    cases y.slots.tryAdd with
    | none => exact .inl ⟨rfl, rfl⟩
    | some slots =>
      have htaken := h.adjust (g := fun x => { x with slots := slots }) c (fun _ => rfl)
        fun _ => ⟨rfl, rfl, rfl, rfl⟩
      exact .inr ⟨_, _, rfl, rfl, htaken.point.note rfl⟩

theorem Twin.idOf (h : Twin ν old old' w v) (c : ContextNo) : w.idOf c = v.idOf c :=
  h.elim_context c rfl fun _ _ hxy => hxy.id

theorem Twin.refuseSlot (h : Twin ν old old' w v) (c : ContextNo) :
    Twin ν old old' (w.refuseSlot c) (v.refuseSlot c) := by
  unfold World.refuseSlot
  rw [h.idOf c]
  exact (h.log _ _ _ _).refused _

theorem Twin.nextDescendant (h : Twin ν old old' w v) (tree : Nat) : ∃ id w' v',
    w.nextDescendant tree = (id, w') ∧ v.nextDescendant tree = (id, v') ∧ Twin ν old old' w' v' := by
  unfold World.nextDescendant
  rw [h.trees]
  exact ⟨_, _, _, rfl, rfl, { h with trees := rfl }⟩

theorem Twin.createChild (h : Twin ν old old' w v) (parent : ContextNo) (location : Option Location)
    (handler : Option Nat) (correlation : Option String) :
    Twin ν old old' (w.createChild parent location handler correlation)
      (v.createChild parent location handler correlation) := by
  rw [World.createChild_eq, World.createChild_eq]
  cases location with
  | none => exact h.refused _
  | some location =>
    rcases h.context? parent with ⟨hx, hy⟩ | ⟨p, q, hx, hy, hpq⟩
    · rw [hx, hy]
      exact h
    · rw [hx, hy]
      dsimp only
      rw [h.size]
      rcases h.takeSlot parent (.child v.contexts.size) with ⟨hw, hv⟩ | ⟨w', v', hw, hv, htaken⟩
      · rw [hw, hv]
        exact h.refuseSlot parent
      · have htree : p.tree = q.tree := (congrArg Context.tree hpq.outline :)
        have hchild (id : String) : Context.child parent p id location handler correlation =
            Context.child parent q id location handler correlation :=
          (congrArg (fun p => Context.child parent p id location handler correlation) hpq.outline :)
        obtain ⟨id, w'', v'', hnext, hnext', hnamed⟩ := htaken.nextDescendant q.tree
        rw [hw, hv]
        dsimp only
        rw [htree, hnext, hnext']
        dsimp only
        rw [hnamed.register?, hchild]
        cases v''.registry.register? v''.isLive id v.contexts.size with
        | none =>
          exact (hnamed.note (e := .rejected parent id) (g := .rejected parent id) rfl).push
            (.cons (.giveUp parent _) (.cons (.throwing _) .nil))
        | some registry =>
          have hborn : (Context.child parent q id location handler correlation).Twin ν.shared
              (Context.child parent q id location handler correlation) :=
            Context.Twin.fresh rfl ⟨rfl, rfl, rfl, rfl⟩ ⟨rfl, rfl, rfl, rfl⟩
          exact (hnamed.enter hborn registry).push (.cons (.returning (.context _) .nil) .nil)

/-! ## Terminal calls -/

/-- An outcome is decided, be it a different one. -/
theorem Twin.decide (h : Twin ν old old' w v) (c : ContextNo) (s s' : State)
    (hs : (s != .pending) = (s' != .pending)) :
    Twin ν old old' (w.modifyContext c fun x => { x with state := s })
      (v.modifyContext c fun x => { x with state := s' }) :=
  h.modifyContext c fun _ _ _ hxy => ⟨hxy.outline, hs, hxy.before, hxy.response, hxy.completion⟩

theorem Twin.success (h : Twin ν old old' w v) (c : ContextNo) (result : Option Int) :
    Twin ν old old' (w.success c result) (v.success c result) := by
  unfold World.success
  dsimp only
  rcases h.point.context? c with ⟨hx, hy⟩ | ⟨x, y, hx, hy, hxy⟩
  · rw [hx, hy]
    exact h.point
  · rw [hx, hy]
    dsimp only
    rw [hxy.terminated]
    split
    · exact (h.point.log _ _ _ _).answered (.flag false)
    · exact (h.point.decide c .succeeded .succeeded rfl).push (.cons (.respond c _ _)
        (.cons (.returning (.flag true) (.cons (.context c) .nil)) .nil))

theorem Twin.error (h : Twin ν old old' w v) (c : ContextNo) (failure : Option Failure) :
    Follows ν old old' v.signals.size (w.error c failure) (v.error c failure) := by
  unfold World.error
  cases failure with
  | none => exact .inl (h.refused _)
  | some e =>
    dsimp only
    rcases h.point.context? c with ⟨hx, hy⟩ | ⟨x, y, hx, hy, hxy⟩
    · rw [hx, hy]
      exact .inl h.point
    · rw [hx, hy]
      dsimp only
      rw [hxy.terminated]
      split
      · have hlogged := h.point.log .warning .warning
          (ignoredNote x ("error() ignored: " ++ e.describe))
          (ignoredNote y ("error() ignored: " ++ e.describe))
        have hmade := hlogged.makeResolved { alreadyCompleted := true } { alreadyCompleted := true }
        have hsize : (v.point.log .warning
            (ignoredNote y ("error() ignored: " ++ e.describe))).signals.size = v.signals.size :=
          congrArg Array.size (signals_log _ _ _)
        have hreturning := hmade.push (.cons (.returning (.signal (hlogged.named_fresh _)) .nil) .nil)
        rw [← hsize]
        exact .inr hreturning
      · have hdecided := h.point.decide c .failed .failed rfl
        have hhandler : x.handler = y.handler := (congrArg Context.handler hxy.outline :)
        rw [hhandler]
        exact .inr ((hdecided.makeWaiting.push (.cons (.handler y.handler c e (hdecided.named_fresh _))
          .nil)).note rfl)

/-! ## All calls -/

theorem Twin.firing (h : Twin ν old old' w v) {ch ch' : ChannelRef} (hch : ch.Twin ν.shared ch')
    {fire fire' : World → World} (hfire : ∀ {w v : World}, Twin ν old old' w v →
      Twin ν old old' (fire w) (fire' v)) :
    Twin ν old old' (w.firing ch fire) (v.firing ch' fire') := by
  unfold World.firing
  rw [h.isFired hch]
  split
  · exact h.answered (.flag false)
  · exact hfire (h.push (.cons (.returning (.flag true) .nil) .nil))

theorem Twin.hold (h : Twin ν old old' w v) {r r' : Ref} (hr : r.Twin ν.shared r') :
    Twin ν old old' (w.hold r) (v.hold r') := by
  cases hr with
  | context c => exact h.holdContext c (· + 1)
  | signal hab => exact h.holdSignal hab (· + 1)

theorem Twin.drop (h : Twin ν old old' w v) {r r' : Ref} (hr : r.Twin ν.shared r') :
    Twin ν old old' (w.drop r) (v.drop r') := by
  cases hr with
  | context c => exact (h.holdContext c (· - 1)).releaseAll (.cons (.context c) .nil)
  | signal hab => exact (h.holdSignal hab (· - 1)).releaseAll (.cons (.signal hab) .nil)

theorem find_of_numbered {σ : List SignalNo} {os os' : List (UInt64 × Observer)}
    (h : Forall₂ (Observer.Numbered σ) os os') (n : UInt64) :
    Option.Rel (Observer.Twin σ) ((os.find? fun e => e.1 == n).map Prod.snd)
      ((os'.find? fun e => e.1 == n).map Prod.snd) := by
  induction h with
  | nil => exact .none
  | @cons e e' os os' he h ih =>
    rw [List.find?_cons, List.find?_cons, he.1]
    cases e'.1 == n with
    | true => exact .some he.2
    | false => exact ih

theorem Twin.observer? (h : Twin ν old old' w v) {ch ch' : ChannelRef} (hch : ch.Twin ν.shared ch')
    (n : UInt64) : Option.Rel (Observer.Twin ν.shared) (w.observer? ch n) (v.observer? ch' n) :=
  find_of_numbered (h.observers hch) n

theorem Twin.unsubscribe (h : Twin ν old old' w v) {ch ch' : ChannelRef}
    (hch : ch.Twin ν.shared ch') (n : UInt64) :
    Twin ν old old' (w.call (.unsubscribe ch n)) (v.call (.unsubscribe ch' n)) := by
  have hgone := h.modifyChannel (f := fun c => c.unsubscribe n) (g := fun c => c.unsubscribe n) hch
    (fun _ _ hxy => hxy.unsubscribe n) fun y => Channel.value?_unsubscribe y n
  have hrefs : Forall₂ (Ref.Twin ν.shared) ((w.observer? ch n).elim [] Observer.refs)
      ((v.observer? ch' n).elim [] Observer.refs) := by
    have ho := h.observer? hch n
    generalize w.observer? ch n = o at ho
    generalize v.observer? ch' n = o' at ho
    cases ho with
    | none => exact .nil
    | some ho => exact ho.refs
  exact (hgone.releaseAll hrefs).answered .done

theorem observer?_of_nobody {s : SignalNo} (hs : w.observers (.signal s) = []) (n : UInt64) :
    w.observer? (.signal s) n = none := by
  unfold World.observer?
  rw [hs]
  rfl

theorem Twin.observers_eq_nil (h : Twin ν old old' w v) {b : SignalNo} (hb : b ∉ ν.shared) :
    v.observers (.signal b) = [] := by
  show (v.signals[b]?).elim [] _ = []
  cases hy : v.signals[b]? with
  | none => rfl
  | some y => exact h.lonely b y hy hb

/-- Nobody leaves a signal that there is not. -/
theorem Twin.unknown (h : Twin ν old old' w v) {a b : SignalNo} (ha : ν.shared[a]? = none)
    (hb : b ∉ ν.shared) (n : UInt64) :
    Twin ν old old' (w.call (.unsubscribe (.signal a) n)) (v.call (.unsubscribe (.signal b) n)) := by
  have hx : w.signals[a]? = none := by
    rw [List.getElem?_eq_none_iff, h.known] at ha
    exact Array.getElem?_eq_none_iff.2 ha
  have hnone : w.observers (.signal a) = [] := by
    show (w.signals[a]?).elim [] _ = []
    rw [hx]
    rfl
  have hnone' := h.observers_eq_nil hb
  have hstay : w.modifyChannel (.signal a) (fun c => c.unsubscribe n) = w :=
    modifySignal_eq_self fun x hx' => absurd (hx.symm.trans hx') nofun
  have hright := h.modifySignalRight (g := fun y => { y with channel := y.channel.unsubscribe n }) hb
    (fun y hy => by
      show (y.channel.unsubscribe n).observers = []
      cases hch : y.channel with
      | fired u => rfl
      | waiting k os =>
        rw [hch] at hy
        rw [show os = [] from hy]
        rfl)
    fun y hy => (congrArg Option.isSome (Channel.value?_unsubscribe y.channel n)).trans hy
  simp only [World.call]
  rw [observer?_of_nobody hnone, observer?_of_nobody hnone', hstay]
  exact (hright.releaseAll .nil).answered .done

theorem Twin.subscribeCall (h : Twin ν old old' w v) {ch ch' : ChannelRef}
    (hch : ch.Twin ν.shared ch') (label : Option Nat) {keeps keeps' : List Ref}
    (hkeeps : Forall₂ (Ref.Twin ν.shared) keeps keeps') :
    Twin ν old old' (w.call (.subscribe ch label keeps)) (v.call (.subscribe ch' label keeps')) := by
  have ho : (label.elim Observer.empty fun label => .client label keeps).Twin ν.shared
      (label.elim Observer.empty fun label => .client label keeps') := by
    cases label with
    | none => exact .empty
    | some label => exact .client label hkeeps
  simp only [World.call]
  rcases h.subscribe hch ho with ⟨n, w', v', hw, hv, h'⟩ | ⟨u, u', hw, hv⟩
  · rw [hw, hv]
    exact h'.answered (.subscription hch _)
  · rw [hw, hv]
    exact (h.push (.cons (.returning (.subscription hch none) .nil) .nil)).replay hch u u' ho

theorem Twin.plainCall (h : Twin ν old old' w v) {call : Call} (hcall : call.isPlain = true) :
    Follows ν old old' v.signals.size (w.call call) (v.call call) := by
  cases call with
  | createChild parent location handler correlation =>
    exact .inl (h.createChild parent location handler correlation)
  | success c result => exact .inl (h.success c result)
  | error c failure => exact h.error c failure
  | addChild c =>
    left
    simp only [World.call]
    rcases h.takeSlot c .participant with ⟨hw, hv⟩ | ⟨w', v', hw, hv, h'⟩
    · rw [hw, hv]
      exact h.refuseSlot c
    · rw [hw, hv]
      exact h'.answered .done
  | childCompleted c =>
    exact .inl (h.push (.cons (.giveUp c .participant) (.cons (.returning .done .nil) .nil)))
  | fireBefore c r => exact .inl (h.firing (.before c) fun h => h.fireBefore c r r)
  | fireResponse c r => exact .inl (h.firing (.response c) fun h => h.fireResponse c r r)
  | fireCompletion c => exact .inl (h.firing (.completion c) fun h => h.fireCompletion c)
  | register id c =>
    left
    simp only [World.call]
    rw [h.register?]
    cases v.registry.register? v.isLive id c with
    | none => exact h.answered (.flag false)
    | some registry => exact { h with registry := rfl, reply := .answered (.flag true) }
  | unregister id c =>
    exact .inl { h with
      registry := congrArg (fun registry : Registry => registry.unregister id c) h.registry
      reply := .answered .done }
  | setThreshold level => exact .inl { h with reply := .answered .done }
  | addProcessor c path =>
    exact .inl ((h.adjust (g := fun x => { x with trail := x.trail.add path }) c (fun _ => rfl)
      fun _ => ⟨rfl, rfl, rfl, rfl⟩).answered .done)
  | _ => cases hcall

/-- The same call makes twins of twins, perhaps with a signal more. -/
theorem Twin.call (h : Twin ν old old' w v) {call call' : Call} (hcall : call.Twin ν.shared call') :
    Follows ν old old' v.signals.size (w.call call) (v.call call') := by
  cases hcall with
  | plain hplain => exact h.plainCall hplain
  | createRoot spec hlink => exact .inl (h.createRoot spec hlink)
  | subscribe hch label hkeeps => exact .inl (h.subscribeCall hch label hkeeps)
  | unsubscribe hch n => exact .inl (h.unsubscribe hch n)
  | unknown ha hb n => exact .inl (h.unknown ha hb n)
  | fireSignal hab r r' => exact .inl (h.firing (.signal hab) fun h => h.fireSignal hab r r')
  | wait hch =>
    left
    simp only [World.call]
    rw [h.isFired hch]
    exact (h.modifyChannel hch (fun _ _ hxy => hxy.takeNumber)
      fun y => by cases y <;> rfl).answered (.flag _)
  | waiting => exact .inr (h.makeWaiting.push (.cons (.returning (.signal (h.named_fresh _)) .nil) .nil))
  | resolved r r' =>
    exact .inr ((h.makeResolved r r').push (.cons (.returning (.signal (h.named_fresh _)) .nil) .nil))
  | hold hr => exact .inl ((h.hold hr).answered .done)
  | drop hr => exact .inl ((h.drop hr).answered .done)

theorem Twin.move (h : Twin ν old old' w v) {m m' : Move} (hm : m.Twin ν.shared m') :
    Follows ν old old' v.signals.size (w.move m) (v.move m') := by
  cases hm with
  | call hcall => exact h.call hcall
  | finish thrown => exact .inl (h.finish thrown)
  | nothing => exact h.handled .nothing
  | threw f => exact h.handled (.threw f)
  | signal hab => exact h.handled (.signal hab)

end World

end FanIn
