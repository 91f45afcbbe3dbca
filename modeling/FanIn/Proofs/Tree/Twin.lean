import FanIn.Proofs.Tree.Queue

/-!
# Worlds that differ in outcomes

Two runs of the same calls in which a call succeeds in the one and fails in the other do not make the
same signals: an error makes one for whoever asked and perhaps one for what its handler did. A signal of
the first world therefore has another number in the second. `Ties` says which: `shared` lists, in the
order of the first world, the numbers in the second. Two things are *twins* if they are the same but for
these numbers, for what has been decided, and for the values that channels deliver.

While a call succeeds in the first world and fails in the second, more is left to do in the second: an
`Epilogue` stands there for the one frame that lets the call of the first world return.

This module has the relations, and what twins have in common.
-/

namespace FanIn

open List Stack

/-! ## Names -/

/-- References to the same: the numbers of signals in the second world are listed in the order of the
first. -/
inductive Ref.Twin (σ : List SignalNo) : Ref → Ref → Prop
  | context (c : ContextNo) : Twin σ (.context c) (.context c)
  | signal {a b : SignalNo} (h : σ[a]? = some b) : Twin σ (.signal a) (.signal b)

inductive ChannelRef.Twin (σ : List SignalNo) : ChannelRef → ChannelRef → Prop
  | before (c : ContextNo) : Twin σ (.before c) (.before c)
  | response (c : ContextNo) : Twin σ (.response c) (.response c)
  | completion (c : ContextNo) : Twin σ (.completion c) (.completion c)
  | signal {a b : SignalNo} (h : σ[a]? = some b) : Twin σ (.signal a) (.signal b)

inductive Observer.Twin (σ : List SignalNo) : Observer → Observer → Prop
  | client (label : Nat) {keeps keeps' : List Ref} (h : Forall₂ (Ref.Twin σ) keeps keeps') :
      Twin σ (.client label keeps) (.client label keeps')
  | empty : Twin σ .empty .empty
  | settleLink (c : ContextNo) : Twin σ (.settleLink c) (.settleLink c)
  | settleError (c : ContextNo) (e : Failure) {a b : SignalNo} (h : σ[a]? = some b) :
      Twin σ (.settleError c e a) (.settleError c e b)

inductive Reply.Twin (σ : List SignalNo) : Reply → Reply → Prop
  | done : Twin σ .done .done
  | flag (b : Bool) : Twin σ (.flag b) (.flag b)
  | context (c : ContextNo) : Twin σ (.context c) (.context c)
  | signal {a b : SignalNo} (h : σ[a]? = some b) : Twin σ (.signal a) (.signal b)
  | subscription {ch ch' : ChannelRef} (h : ch.Twin σ ch') (number : Option UInt64) :
      Twin σ (.subscription ch number) (.subscription ch' number)

/-- Observers that wait under the same number. -/
def Observer.Numbered (σ : List SignalNo) (e e' : UInt64 × Observer) : Prop :=
  e.1 = e'.1 ∧ e.2.Twin σ e'.2

inductive Channel.Twin (σ : List SignalNo) {α : Type} :
    Channel α FanIn.Observer → Channel α FanIn.Observer → Prop
  | waiting (n : UInt64) {os os' : List (UInt64 × FanIn.Observer)}
      (h : Forall₂ (Observer.Numbered σ) os os') : Twin σ (.waiting n os) (.waiting n os')
  | fired (v v' : α) : Twin σ (.fired v) (.fired v')

/-- A context but for what is decided of it, the number of its link, and its channels. -/
def Context.outline (x : Context) : Context :=
  { x with state := .pending, link := none, before := .new, response := .new, completion := .new }

structure Context.Twin (σ : List SignalNo) (x y : Context) : Prop where
  outline : x.outline = y.outline
  terminated : x.isTerminated = y.isTerminated
  before : x.before.Twin σ y.before
  response : x.response.Twin σ y.response
  completion : x.completion.Twin σ y.completion

/-- A signal that has fired may exist longer in the second world, where an error still keeps it. -/
structure Signal.Twin (σ : List SignalNo) (x y : Signal) : Prop where
  channel : x.channel.Twin σ y.channel
  holders : x.holders = y.holders
  live : x.isLive = true → y.isLive = true
  lingering : y.isLive = true → x.isLive = true ∨ y.channel.isFired = true

/-- Frames that do the same, whatever the values are. -/
inductive Frame.Twin (σ : List SignalNo) : Frame → Frame → Prop
  | observer {ch ch' : ChannelRef} (h : ch.Twin σ ch') (label : Nat) (v v' : Value) :
      Twin σ (.observer ch label v) (.observer ch' label v')
  | handler (number : Nat) (c : ContextNo) (e : Failure) {a b : SignalNo} (h : σ[a]? = some b) :
      Twin σ (.handler number c e a) (.handler number c e b)
  | deliver {ch ch' : ChannelRef} (h : ch.Twin σ ch') (replay : Bool) (v v' : Value)
      {todo todo' spent spent' : List Observer} (htodo : Forall₂ (Observer.Twin σ) todo todo')
      (hspent : Forall₂ (Observer.Twin σ) spent spent') :
      Twin σ (.deliver ch replay v todo spent) (.deliver ch' replay v' todo' spent')
  | respond (c : ContextNo) (r r' : Response) : Twin σ (.respond c r) (.respond c r')
  | answer (c : ContextNo) (r r' : Response) : Twin σ (.answer c r) (.answer c r')
  | giveUp (c : ContextNo) (share : Share) : Twin σ (.giveUp c share) (.giveUp c share)
  | climb : Twin σ .climb .climb
  | told (c : ContextNo) (parent : Option ContextNo) : Twin σ (.told c parent) (.told c parent)
  | conclude (c : ContextNo) (e : Failure) (failed failed' : Option (Option Failure))
      {a b : SignalNo} (h : σ[a]? = some b) :
      Twin σ (.conclude c e failed a) (.conclude c e failed' b)
  | returning {r r' : Reply} (h : r.Twin σ r') {kept kept' : List Ref}
      (hkept : Forall₂ (Ref.Twin σ) kept kept') : Twin σ (.returning r kept) (.returning r' kept')
  | throwing (f : Failure) : Twin σ (.throwing f) (.throwing f)

/-! ## Further names -/

section Mono

variable {σ σ' : List SignalNo}

theorem named_mono (hσ : σ <+: σ') {a b : SignalNo} (h : σ[a]? = some b) : σ'[a]? = some b := by
  obtain ⟨more, rfl⟩ := hσ
  rw [getElem?_append_left (List.getElem?_eq_some_iff.1 h).1]
  exact h

theorem Ref.Twin.mono (hσ : σ <+: σ') {r r' : Ref} (h : r.Twin σ r') : r.Twin σ' r' := by
  cases h with
  | context c => exact .context c
  | signal h => exact .signal (named_mono hσ h)

theorem ChannelRef.Twin.mono (hσ : σ <+: σ') {ch ch' : ChannelRef} (h : ch.Twin σ ch') :
    ch.Twin σ' ch' := by
  cases h with
  | before c => exact .before c
  | response c => exact .response c
  | completion c => exact .completion c
  | signal h => exact .signal (named_mono hσ h)

theorem Observer.Twin.mono (hσ : σ <+: σ') {o o' : Observer} (h : o.Twin σ o') : o.Twin σ' o' := by
  cases h with
  | client label h => exact .client label (h.imp fun _ _ => Ref.Twin.mono hσ)
  | empty => exact .empty
  | settleLink c => exact .settleLink c
  | settleError c e h => exact .settleError c e (named_mono hσ h)

theorem Reply.Twin.mono (hσ : σ <+: σ') {r r' : Reply} (h : r.Twin σ r') : r.Twin σ' r' := by
  cases h with
  | done => exact .done
  | flag b => exact .flag b
  | context c => exact .context c
  | signal h => exact .signal (named_mono hσ h)
  | subscription h number => exact .subscription (h.mono hσ) number

theorem Channel.Twin.mono (hσ : σ <+: σ') {α : Type} {x y : Channel α FanIn.Observer}
    (h : x.Twin σ y) : x.Twin σ' y := by
  cases h with
  | waiting n h => exact .waiting n (h.imp fun _ _ he => ⟨he.1, he.2.mono hσ⟩)
  | fired v v' => exact .fired v v'

theorem Context.Twin.mono (hσ : σ <+: σ') {x y : Context} (h : x.Twin σ y) : x.Twin σ' y :=
  ⟨h.outline, h.terminated, h.before.mono hσ, h.response.mono hσ, h.completion.mono hσ⟩

theorem Signal.Twin.mono (hσ : σ <+: σ') {x y : Signal} (h : x.Twin σ y) : x.Twin σ' y :=
  ⟨h.channel.mono hσ, h.holders, h.live, h.lingering⟩

theorem Frame.Twin.mono (hσ : σ <+: σ') {f f' : Frame} (h : f.Twin σ f') : f.Twin σ' f' := by
  have hos {os os' : List Observer} (h : Forall₂ (Observer.Twin σ) os os') :
      Forall₂ (Observer.Twin σ') os os' := h.imp fun _ _ => Observer.Twin.mono hσ
  cases h with
  | observer h label v v' => exact .observer (h.mono hσ) label v v'
  | handler number c e h => exact .handler number c e (named_mono hσ h)
  | deliver h replay v v' htodo hspent =>
    exact .deliver (h.mono hσ) replay v v' (hos htodo) (hos hspent)
  | respond c r r' => exact .respond c r r'
  | answer c r r' => exact .answer c r r'
  | giveUp c share => exact .giveUp c share
  | climb => exact .climb
  | told c parent => exact .told c parent
  | conclude c e failed failed' h => exact .conclude c e failed failed' (named_mono hσ h)
  | returning h hkept => exact .returning (h.mono hσ) (hkept.imp fun _ _ => Ref.Twin.mono hσ)
  | throwing f => exact .throwing f

end Mono

/-! ## References -/

section Refs

variable {σ : List SignalNo}

/-- A signal has one number in the second world. -/
theorem Ref.Twin.unique {r r' s : Ref} (h : r.Twin σ r') (h' : r.Twin σ s) : r' = s := by
  cases h with
  | context c => cases h'; rfl
  | signal h =>
    cases h' with
    | signal h' => rw [Option.some.inj (h.symm.trans h')]

/-- Different signals have different numbers. -/
theorem Ref.Twin.injective (hσ : σ.Nodup) {r r' s : Ref} (h : r.Twin σ r') (h' : s.Twin σ r') :
    r = s := by
  cases h with
  | context c => cases h'; rfl
  | @signal a b h =>
    cases h' with
    | @signal a' _ h' =>
      obtain ⟨ha, hb⟩ := List.getElem?_eq_some_iff.1 h
      obtain ⟨ha', hb'⟩ := List.getElem?_eq_some_iff.1 h'
      rw [(hσ.getElem_inj_iff).1 (hb.trans hb'.symm)]

theorem ChannelRef.Twin.owner {ch ch' : ChannelRef} (h : ch.Twin σ ch') :
    ch.owner.Twin σ ch'.owner := by
  cases h with
  | signal h => exact .signal h
  | _ => exact .context _

theorem exists_twin_of_mem {α β : Type} {R : α → β → Prop} {l : List α} {l' : List β}
    (h : Forall₂ R l l') {a : α} (ha : a ∈ l) : ∃ b ∈ l', R a b := by
  induction h with
  | nil => cases ha
  | cons hab h ih =>
    rcases mem_cons.1 ha with rfl | ha
    · exact ⟨_, mem_cons_self, hab⟩
    · obtain ⟨b, hb, hr⟩ := ih ha
      exact ⟨b, mem_cons_of_mem _ hb, hr⟩

theorem exists_twin_of_mem_right {α β : Type} {R : α → β → Prop} {l : List α} {l' : List β}
    (h : Forall₂ R l l') {b : β} (hb : b ∈ l') : ∃ a ∈ l, R a b :=
  exists_twin_of_mem h.flip hb

theorem mem_iff_of_twin (hσ : σ.Nodup) {refs refs' : List Ref} (h : Forall₂ (Ref.Twin σ) refs refs')
    {r r' : Ref} (hr : r.Twin σ r') : r ∈ refs ↔ r' ∈ refs' := by
  constructor
  · intro hmem
    obtain ⟨s, hs, hrs⟩ := exists_twin_of_mem h hmem
    rwa [hr.unique hrs]
  · intro hmem
    obtain ⟨s, hs, hsr⟩ := exists_twin_of_mem_right h hmem
    rwa [hr.injective hσ hsr]

theorem Observer.Twin.refs {o o' : Observer} (h : o.Twin σ o') :
    Forall₂ (Ref.Twin σ) o.refs o'.refs := by
  cases h with
  | client label h => exact h
  | empty => exact .nil
  | settleLink c => exact .cons (.context c) .nil
  | settleError c e h => exact .cons (.signal h) (.cons (.context c) .nil)

theorem Observer.Twin.isClients {o o' : Observer} (h : o.Twin σ o') : o.isClients = o'.isClients := by
  cases h <;> rfl

theorem refs_of_twins {os os' : List Observer} (h : Forall₂ (Observer.Twin σ) os os') :
    Forall₂ (Ref.Twin σ) (os.flatMap Observer.refs) (os'.flatMap Observer.refs) :=
  rel_flatMap h fun _ _ => Observer.Twin.refs

theorem refs_of_numbered {os os' : List (UInt64 × Observer)}
    (h : Forall₂ (Observer.Numbered σ) os os') :
    Forall₂ (Ref.Twin σ) (os.flatMap fun e => e.2.refs) (os'.flatMap fun e => e.2.refs) :=
  rel_flatMap h fun _ _ he => he.2.refs

theorem Reply.Twin.refs {r r' : Reply} (h : r.Twin σ r') : Forall₂ (Ref.Twin σ) r.refs r'.refs := by
  cases h with
  | context c => exact .cons (.context c) .nil
  | signal h => exact .cons (.signal h) .nil
  | _ => exact .nil

theorem forall₂_contexts (cs : List ContextNo) :
    Forall₂ (Ref.Twin σ) (cs.map Ref.context) (cs.map Ref.context) := by
  induction cs with
  | nil => exact .nil
  | cons c cs ih => exact .cons (.context c) ih

theorem Frame.Twin.refs {f f' : Frame} (h : f.Twin σ f') : Forall₂ (Ref.Twin σ) f.refs f'.refs := by
  cases h with
  | handler number c e h => exact .cons (.signal h) (.cons (.context c) .nil)
  | deliver h replay v v' htodo hspent => exact refs_of_twins hspent
  | told c parent => exact rel_append (forall₂_contexts _) (.cons (.context c) .nil)
  | returning h hkept => exact rel_append h.refs hkept
  | _ => exact .nil

theorem Frame.Twin.isClients {f f' : Frame} (h : f.Twin σ f') : f.isClients = f'.isClients := by
  cases h <;> rfl

end Refs

/-! ## Channels -/

namespace Channel

variable {σ : List SignalNo} {α : Type} {x y : Channel α FanIn.Observer}

theorem Twin.isFired (h : x.Twin σ y) : x.isFired = y.isFired := by cases h <;> rfl

theorem Twin.nextNumber (h : x.Twin σ y) : x.nextNumber = y.nextNumber := by cases h <;> rfl

theorem Twin.observers (h : x.Twin σ y) :
    Forall₂ (Observer.Numbered σ) x.observers y.observers := by
  cases h with
  | waiting n h => exact h
  | fired v v' => exact .nil

theorem Twin.subscribe (h : x.Twin σ y) {o o' : FanIn.Observer} (ho : o.Twin σ o') :
    (x.subscribe o).2.Twin σ (y.subscribe o').2 := by
  cases h with
  | waiting n h => exact .waiting _ (rel_append h (.cons ⟨rfl, ho⟩ .nil))
  | fired v v' => exact .fired v v'

theorem Twin.unsubscribe (h : x.Twin σ y) (k : UInt64) : (x.unsubscribe k).Twin σ (y.unsubscribe k) := by
  cases h with
  | fired v v' => exact .fired v v'
  | waiting n h =>
    refine .waiting n ?_
    induction h with
    | nil => exact .nil
    | @cons e e' os os' he h ih =>
      rw [eraseP_cons, eraseP_cons, he.1]
      cases e'.1 == k with
      | true => exact h
      | false => exact .cons he ih

theorem Twin.takeNumber (h : x.Twin σ y) : x.takeNumber.Twin σ y.takeNumber := by
  cases h with
  | waiting n h => exact .waiting _ h
  | fired v v' => exact .fired v v'

/-- What firing twins comes to. -/
theorem Twin.fire? (h : x.Twin σ y) (v v' : α) :
    (x.fire? v = none ∧ y.fire? v' = none) ∨ ∃ os os', Forall₂ (Observer.Twin σ) os os' ∧
      x.fire? v = some (os, .fired v) ∧ y.fire? v' = some (os', .fired v') := by
  cases h with
  | fired u u' => exact .inl ⟨rfl, rfl⟩
  | waiting n h => exact .inr ⟨_, _, rel_map (fun _ _ he => he.2) h, rfl, rfl⟩

theorem observers_eq_nil_of_isFired (h : x.isFired = true) : x.observers = [] := by
  cases x with
  | waiting n os => cases h
  | fired v => rfl

end Channel

/-! ## Contexts and signals -/

section Members

variable {σ : List SignalNo}

theorem Context.Twin.slots {x y : Context} (h : x.Twin σ y) : x.slots = y.slots :=
  (congrArg Context.slots h.outline :)

theorem Context.Twin.hold {x y : Context} (h : x.Twin σ y) : x.hold = y.hold :=
  (congrArg Context.hold h.outline :)

theorem Context.Twin.holders {x y : Context} (h : x.Twin σ y) : x.holders = y.holders :=
  (congrArg Context.holders h.outline :)

theorem Context.Twin.isLive {x y : Context} (h : x.Twin σ y) : x.isLive = y.isLive :=
  (congrArg Context.isLive h.outline :)

theorem Context.Twin.id {x y : Context} (h : x.Twin σ y) : x.id = y.id :=
  (congrArg Context.id h.outline :)

theorem Context.Twin.isComplete {x y : Context} (h : x.Twin σ y) : x.isComplete = y.isComplete :=
  h.completion.isFired

theorem Context.Twin.refs {x y : Context} (h : x.Twin σ y) :
    Forall₂ (Ref.Twin σ) x.refs y.refs := by
  unfold Context.refs
  rw [h.hold]
  exact rel_append (rel_append (rel_append (refs_of_numbered h.completion.observers)
    (refs_of_numbered h.response.observers)) (refs_of_numbered h.before.observers)) (forall₂_contexts _)

/-- A change of what twins have in common. -/
theorem Context.Twin.adjust {x y : Context} (h : x.Twin σ y) {g : Context → Context}
    (houtline : ∀ x, (g x).outline = g x.outline)
    (hrest : ∀ x, (g x).state = x.state ∧ (g x).before = x.before ∧ (g x).response = x.response ∧
      (g x).completion = x.completion) : (g x).Twin σ (g y) := by
  obtain ⟨hstate, hbefore, hresponse, hcompletion⟩ := hrest x
  obtain ⟨hstate', hbefore', hresponse', hcompletion'⟩ := hrest y
  constructor
  · rw [houtline, houtline, h.outline]
  · unfold Context.isTerminated
    rw [hstate, hstate']
    exact h.terminated
  · rw [hbefore, hbefore']
    exact h.before
  · rw [hresponse, hresponse']
    exact h.response
  · rw [hcompletion, hcompletion']
    exact h.completion

theorem Signal.Twin.refs {x y : Signal} (h : x.Twin σ y) : Forall₂ (Ref.Twin σ) x.refs y.refs :=
  refs_of_numbered h.channel.observers

theorem Signal.refs_eq_nil {y : Signal} (h : y.channel.observers = []) : y.refs = [] := by
  unfold Signal.refs
  rw [h]
  rfl

end Members

end FanIn
