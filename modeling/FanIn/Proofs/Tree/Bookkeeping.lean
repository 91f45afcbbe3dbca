import FanIn.Proofs.Tree.Ledger
import FanIn.Proofs.Tree.Updates

/-!
# The books of a world

The books that go with a world: `World.ledger` reads the accounts off the contexts, the pledges off
the observers that wait at signals, and what is due off the stack. The numbers of participants are
counted in the history.

Here are the equations for the small updates, what each writes in the books. Letting go of
references writes nothing.
-/

namespace FanIn

/-! ## Reading the books -/

/-- What an account says of a context. -/
def Context.account (x : Context) : Account where
  parent := x.parent
  link := x.link
  state := x.state
  slots := x.slots
  before := x.before.value?
  response := x.response.value?
  isComplete := x.isComplete

/-- What is due once an observer is notified. -/
def Observer.dues : Observer → Multiset Due
  | settleLink c => {.slot c .link}
  | settleError c e _ => {.outcome c ⟨none, some e⟩}
  | _ => 0

theorem Observer.dues_of_isClients {o : Observer} (h : o.isClients) : o.dues = 0 := by
  cases o <;> first | rfl | cases h

/-- An observer stands for the slot of a link, or for an outcome. -/
theorem Observer.cases_dues {o : Observer} {d : Due} (hd : d ∈ o.dues) :
    (∃ c, d = .slot c .link) ∨ ∃ c r, d = .outcome c r := by
  cases o with
  | client label keeps => exact absurd hd (Multiset.notMem_zero d)
  | empty => exact absurd hd (Multiset.notMem_zero d)
  | settleLink c => exact .inl ⟨c, Multiset.mem_singleton.1 hd⟩
  | settleError c e result => exact .inr ⟨c, _, Multiset.mem_singleton.1 hd⟩

/-- What is due once a signal fires. -/
def Signal.pledge (x : Signal) : Pledge where
  isFired := x.channel.isFired
  dues := (x.channel.observers.map fun e => e.2.dues).sum

/-- What a frame is about to do. -/
def Frame.dues : Frame → Multiset Due
  | handler _ c e _ => {.outcome c ⟨none, some e⟩}
  | deliver _ _ _ todo _ => (todo.map Observer.dues).sum
  | respond c r => {.outcome c r}
  | answer c r => {.outcome c r}
  | giveUp c share => {.slot c share}
  | told c (some p) => {.slot p (.child c)}
  | _ => 0

/-- Whether a participant joins a context. -/
def Event.isJoin (c : ContextNo) : Event → Bool
  | .joined d share => share == .participant && d == c
  | _ => false

/-- Whether a participant leaves a context. -/
def Event.isLeave (c : ContextNo) : Event → Bool
  | .left d share => share == .participant && d == c
  | _ => false

namespace World

/-- How often a participant has joined a context. -/
def joins (w : World) (c : ContextNo) : Nat := w.history.countP (Event.isJoin c)

/-- How often a participant has left a context. -/
def leaves (w : World) (c : ContextNo) : Nat := w.history.countP (Event.isLeave c)

/-- The books of a world. -/
def ledger (w : World) : Ledger where
  accounts := w.contexts.toList.map Context.account
  pledges := w.signals.toList.map Signal.pledge
  work := (w.stack.map Frame.dues).sum
  queue := w.queue.getD []
  guests := fun c => w.joins c - w.leaves c

variable {w w' : World}

theorem accounts_ledger (c : ContextNo) :
    w.ledger.accounts[c]? = (w.contexts[c]?).map Context.account := by simp [ledger]

/-- The account of a context. -/
theorem account_of {c : ContextNo} {x : Context} (h : w.contexts[c]? = some x) :
    w.ledger.accounts[c]? = some x.account := by
  rw [accounts_ledger, h]
  rfl

theorem pledges_ledger (s : SignalNo) :
    w.ledger.pledges[s]? = (w.signals[s]?).map Signal.pledge := by simp [ledger]

@[simp] theorem length_ledger : w.ledger.accounts.length = w.contexts.size := by simp [ledger]

@[simp] theorem length_pledges : w.ledger.pledges.length = w.signals.size := by simp [ledger]

/-! ## What is written -/

/-- Only contexts, signals, the stack, the queue and the history matter. -/
theorem ledger_congr (hc : w'.contexts = w.contexts) (hs : w'.signals = w.signals)
    (hst : w'.stack = w.stack) (hq : w'.queue = w.queue) (hh : w'.history = w.history) :
    w'.ledger = w.ledger := by
  simp only [ledger, joins, leaves, hc, hs, hst, hq, hh]

theorem guests_note (e : Event) (c : ContextNo) : (w.note e).ledger.guests c =
    w.ledger.guests c + ((if e.isJoin c then 1 else 0) - if e.isLeave c then 1 else 0) := by
  simp only [ledger, joins, leaves, note, Array.countP_push]
  split <;> split <;> omega

/-- Nothing is written of what happens, unless a participant joins or leaves. -/
theorem ledger_note {e : Event} (he : ∀ c, e.isJoin c = false ∧ e.isLeave c = false) :
    (w.note e).ledger = w.ledger := by
  refine Ledger.ext rfl rfl rfl rfl (funext ?_)
  intro c
  rw [guests_note, (he c).1, (he c).2]
  simp

@[simp] theorem ledger_point : w.point.ledger = w.ledger := rfl

@[simp] theorem ledger_answered (r : Reply) : (w.answered r).ledger = w.ledger := rfl

@[simp] theorem ledger_refused (f : Failure) : (w.refused f).ledger = w.ledger := rfl

@[simp] theorem ledger_log (l : Log.Level) (m : String) : (w.log l m).ledger = w.ledger := by
  unfold log
  split
  · exact ledger_note fun _ => ⟨rfl, rfl⟩
  · rfl

/-- A participant has joined. -/
theorem ledger_joined (c : ContextNo) :
    (w.note (.joined c .participant)).ledger = w.ledger.attend c 1 := by
  refine Ledger.ext rfl rfl rfl rfl (funext ?_)
  intro d
  rw [guests_note, Ledger.guests_attend]
  by_cases hd : d = c
  · simp [Event.isJoin, Event.isLeave, hd]
  · have hne : ¬ c = d := fun h => hd h.symm
    simp [Event.isJoin, Event.isLeave, hd, hne]

/-- A participant has left. -/
theorem ledger_left (c : ContextNo) :
    (w.note (.left c .participant)).ledger = w.ledger.attend c (-1) := by
  refine Ledger.ext rfl rfl rfl rfl (funext ?_)
  intro d
  rw [guests_note, Ledger.guests_attend]
  by_cases hd : d = c
  · simp [Event.isJoin, Event.isLeave, hd]
  · have hne : ¬ c = d := fun h => hd h.symm
    simp [Event.isJoin, Event.isLeave, hd, hne]

/-- What is pushed is due. -/
theorem ledger_push (fs : List Frame) : (w.push fs).ledger =
    { w.ledger with work := (fs.map Frame.dues).sum + w.ledger.work } := by
  simp [ledger, push, joins, leaves]

/-- Frames that do nothing of account are not written down. -/
theorem ledger_push_idle {fs : List Frame} (h : (fs.map Frame.dues).sum = 0) :
    (w.push fs).ledger = w.ledger := by
  rw [ledger_push, h, zero_add]

/-- One thing is due more. -/
theorem ledger_push_owe {fs : List Frame} {d : Due} (h : (fs.map Frame.dues).sum = {d}) :
    (w.push fs).ledger = w.ledger.owe d := by
  rw [ledger_push, h, Multiset.singleton_add]
  rfl

theorem push_pop {f : Frame} {rest : List Frame} (hs : w.stack = f :: rest) :
    World.push { w with stack := rest } [f] = w := by
  cases w
  cases hs
  rfl

/-- An idle frame is taken off. -/
theorem ledger_pop_idle {f : Frame} {rest : List Frame} (hs : w.stack = f :: rest)
    (hf : f.dues = 0) : w.ledger = World.ledger { w with stack := rest } := by
  have hpush := push_pop hs
  rw [← hpush]
  exact ledger_push_idle (by simp [hf])

/-- What a frame is about to do is due. -/
theorem ledger_pop_owe {f : Frame} {rest : List Frame} {d : Due} (hs : w.stack = f :: rest)
    (hf : f.dues = {d}) : w.ledger = (World.ledger { w with stack := rest }).owe d := by
  have hpush := push_pop hs
  rw [← hpush]
  exact ledger_push_owe (by simp [hf])

/-! ## Contexts and signals -/

theorem map_modify_eq {α β : Type} {f : α → α} {g : α → β} {h : β → β} {l : List α} {i : Nat}
    (hf : ∀ x, l[i]? = some x → g (f x) = h (g x)) :
    (l.modify i f).map g = (l.map g).modify i h := by
  apply List.ext_getElem?
  intro j
  rw [List.getElem?_map, List.getElem?_modify, List.getElem?_modify, List.getElem?_map]
  by_cases hij : i = j
  · subst hij
    cases hl : l[i]? with
    | none => rfl
    | some x => simp [hf x hl]
  · simp [hij]

/-- A change of a context is a change of its account. -/
theorem ledger_modifyContext {c : ContextNo} {f : Context → Context} {g : Account → Account}
    (hf : ∀ x, w.contexts[c]? = some x → (f x).account = g x.account) :
    (w.modifyContext c f).ledger = w.ledger.change c g := by
  refine Ledger.ext ?_ rfl rfl rfl rfl
  show (w.contexts.modify c f).toList.map _ = (w.contexts.toList.map _).modify c g
  rw [Array.toList_modify]
  exact map_modify_eq fun x hx => hf x (by simpa using hx)

/-- Some of what a context has is not written down. -/
theorem ledger_modifyContext_same {c : ContextNo} {f : Context → Context}
    (hf : ∀ x, w.contexts[c]? = some x → (f x).account = x.account) :
    (w.modifyContext c f).ledger = w.ledger := by
  rw [ledger_modifyContext (g := id) hf]
  refine Ledger.ext ?_ rfl rfl rfl rfl
  exact List.modify_id c _

/-- A change of a signal is a change of its pledge. -/
theorem ledger_modifySignal {s : SignalNo} {f : Signal → Signal} {g : Pledge → Pledge}
    (hf : ∀ x, w.signals[s]? = some x → (f x).pledge = g x.pledge) :
    (w.modifySignal s f).ledger =
      { w.ledger with pledges := w.ledger.pledges.modify s g } := by
  refine Ledger.ext rfl ?_ rfl rfl rfl
  show (w.signals.modify s f).toList.map _ = (w.signals.toList.map _).modify s g
  rw [Array.toList_modify]
  exact map_modify_eq fun x hx => hf x (by simpa using hx)

theorem ledger_modifySignal_same {s : SignalNo} {f : Signal → Signal}
    (hf : ∀ x, w.signals[s]? = some x → (f x).pledge = x.pledge) :
    (w.modifySignal s f).ledger = w.ledger := by
  rw [ledger_modifySignal (g := id) hf]
  refine Ledger.ext rfl ?_ rfl rfl rfl
  exact List.modify_id s _

/-- A context comes to be. -/
theorem ledger_enter (x : Context) (g : Registry) :
    (w.enter x g).ledger = w.ledger.enter x.account := by
  unfold enter
  dsimp only
  rw [ledger_log, ledger_note fun _ => ⟨rfl, rfl⟩, ledger_note fun _ => ⟨rfl, rfl⟩]
  refine Ledger.ext ?_ rfl rfl rfl rfl
  simp [ledger, Ledger.enter]

/-- A signal comes to be. -/
theorem ledger_addSignal {x : Signal} (hx : x.channel.observers = []) :
    (w.addSignal x).2.ledger =
      { w.ledger with pledges := w.ledger.pledges ++ [{ isFired := x.channel.isFired }] } := by
  refine Ledger.ext rfl ?_ rfl rfl rfl
  simp [ledger, addSignal, Signal.pledge, hx]

/-! ## Letting go -/

@[simp] theorem ledger_destroy (r : Ref) : (w.destroy r).ledger = w.ledger := by
  cases r with
  | signal s => exact ledger_modifySignal_same fun _ _ => rfl
  | context c =>
    simp only [destroy]
    split
    · rfl
    · rename_i x _
      have hfarewell : (w.farewell c x true).ledger = w.ledger := by
        have hmid : World.ledger (World.note { w with registry := w.registry.unregister x.id c }
            (.destroyed c)) = w.ledger := ledger_note fun _ => ⟨rfl, rfl⟩
        simp only [farewell, if_true]
        split
        · exact hmid
        · rw [ledger_log]
          exact hmid
      rw [← hfarewell]
      exact ledger_modifyContext_same fun _ _ => rfl

/-- Letting go of references is not written down. -/
@[simp] theorem ledger_releaseAll (refs : List Ref) : (w.releaseAll refs).ledger = w.ledger :=
  releaseAll_induction (P := fun w' => w'.ledger = w.ledger)
    (fun w' r h _ _ => (ledger_destroy (w := w') r).trans h) rfl refs

/-! ## Channels -/

/-- Observers of clients come and go unwritten. -/
theorem ledger_modifyChannel {ch : ChannelRef}
    {f : {α : Type} → Channel α Observer → Channel α Observer}
    (hv : ∀ {α : Type} (c : Channel α Observer), (f c).value? = c.value?)
    (hs : ∀ s x, ch = .signal s → w.signals[s]? = some x →
      ((f x.channel).observers.map fun e => e.2.dues).sum =
        (x.channel.observers.map fun e => e.2.dues).sum) :
    (w.modifyChannel ch f).ledger = w.ledger := by
  cases ch with
  | before c =>
    exact ledger_modifyContext_same fun x _ => by
      simp [Context.account, Context.isComplete, Channel.isFired, hv]
  | response c =>
    exact ledger_modifyContext_same fun x _ => by
      simp [Context.account, Context.isComplete, Channel.isFired, hv]
  | completion c =>
    exact ledger_modifyContext_same fun x _ => by
      simp [Context.account, Context.isComplete, Channel.isFired, hv]
  | signal s =>
    exact ledger_modifySignal_same fun x hx => by
      simp [Signal.pledge, Channel.isFired, hv, hs s x rfl hx]

/-- What observers are to do when they are notified is due. -/
theorem ledger_deliver (ch : ChannelRef) (v : Value) (os : List Observer) :
    (w.deliver ch v os).ledger =
      { w.ledger with work := (os.map Observer.dues).sum + w.ledger.work } := by
  unfold World.deliver
  rw [ledger_push, ledger_point, ledger_note fun _ => ⟨rfl, rfl⟩]
  simp [Frame.dues]

theorem ledger_replay (ch : ChannelRef) (v : Value) (o : Observer) :
    (w.replay ch v o).ledger = { w.ledger with work := o.dues + w.ledger.work } := by
  unfold World.replay
  rw [ledger_push]
  simp [Frame.dues]

/-- A signal fires. -/
theorem ledger_fireSignal {s : SignalNo} {x : Signal} (hx : w.signals[s]? = some x)
    (hf : x.channel.isFired = false) (r : Resolution) :
    (w.fireSignal s r).ledger = w.ledger.resolve s := by
  have hfire : x.channel.fire? r = some (x.channel.observers.map Prod.snd, .fired r) := by
    cases hc : x.channel with
    | waiting n os => rfl
    | fired u => simp [hc, Channel.isFired, Channel.value?] at hf
  unfold World.fireSignal
  rw [hx]
  simp only [Option.bind_some, hfire]
  rw [ledger_deliver, ledger_modifySignal (g := fun _ => { isFired := true }) fun _ _ => rfl]
  refine Ledger.ext rfl rfl ?_ rfl rfl
  simp only [Ledger.resolve, pledges_ledger, hx, Option.map_some, Option.elim_some, Signal.pledge,
    List.map_map]
  rfl

end World

end FanIn
