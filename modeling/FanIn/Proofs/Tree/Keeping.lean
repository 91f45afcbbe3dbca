import FanIn.Proofs.Tree.Channels
import FanIn.Proofs.Tree.Stack

/-!
# What is kept, and what is told

A world is *tidy* if nothing that exists refers to what does not, a context holds its parent exactly
as long as it exists and the library has not told its completion, only clients wait at the channels of
contexts, and whatever is told, or was told, of a channel is the value it fired with. Of which contexts
the library has told the completion is a parameter: unless clients fire channels of contexts themselves,
it is those whose completion has fired.

This module has the small updates: what is changed, destroyed, made or subscribed leaves a world tidy
if it refers only to what exists. That every move does is in `FanIn.Proofs.Tree.Tidy`.
-/

namespace FanIn

open Stack

/-- A context holds its parent as long as it exists and its completion has not been told, and only
clients wait at its channels. -/
structure Context.Tidy (told : Bool) (x : Context) : Prop where
  tether : x.hold = if x.isLive && !told then x.parent else none
  clients : ∀ e ∈ x.before.observers ++ x.response.observers ++ x.completion.observers,
    e.2.isClients = true

namespace World

/-- Something refers to a context or a signal. -/
def Holds (w : World) (r : Ref) : Prop :=
  0 < w.holders r ∨ Keeps w.stack r ∨ (∃ c ∈ w.queue.getD [], .context c = r) ∨
    (∃ (c : ContextNo) (x : Context), w.contexts[c]? = some x ∧ x.isLive = true ∧ r ∈ x.refs) ∨
    (∃ (s : SignalNo) (x : Signal), w.signals[s]? = some x ∧ x.isLive = true ∧ r ∈ x.refs)

/-- What a frame says of channels is so. -/
def Bears (w : World) : Frame → Prop
  | .observer ch _ v => w.value? ch = some v
  | .deliver ch _ v _ _ => w.value? ch = some v
  | .told c p => (∃ x, w.contexts[c]? = some x ∧ x.parent = p) ∧
      w.value? (.completion c) = some .done
  | _ => True

/-- What an event says of channels is so. -/
def Attests (w : World) : Event → Prop
  | .observed ch _ v => w.value? ch = some v
  | .replayed ch _ v => w.value? ch = some v
  | .fired ch v => w.value? ch = some v
  | _ => True

/-- What is referred to exists, and what is said of channels is so. The library has told the completions
of the contexts `told`. -/
structure Tidy (told : ContextNo → Bool) (w : World) : Prop where
  live : ∀ r, w.Holds r → w.isLiveRef r = true
  contexts : ∀ (c : ContextNo) (x : Context), w.contexts[c]? = some x → x.Tidy (told c)
  frames : ∀ f ∈ w.stack, w.Bears f
  events : ∀ e ∈ w.history.toList, w.Attests e

/-- Values and parents are for good. -/
structure Agrees (w w' : World) : Prop where
  value : ∀ ch v, w.value? ch = some v → w'.value? ch = some v
  parent : ∀ (c : ContextNo) (x : Context), w.contexts[c]? = some x →
    ∃ y, w'.contexts[c]? = some y ∧ y.parent = x.parent

variable {told : ContextNo → Bool} {w w' : World}

theorem holders_context_pos {c : ContextNo} :
    0 < w.holders (.context c) ↔ ∃ x, w.contexts[c]? = some x ∧ 0 < x.holders := by
  show 0 < (w.contexts[c]?).elim 0 Context.holders ↔ _
  cases w.contexts[c]? <;> simp

theorem holders_signal_pos {s : SignalNo} :
    0 < w.holders (.signal s) ↔ ∃ x, w.signals[s]? = some x ∧ 0 < x.holders := by
  show 0 < (w.signals[s]?).elim 0 Signal.holders ↔ _
  cases w.signals[s]? <;> simp

theorem isHeld_iff {r : Ref} : w.isHeld r = true ↔ w.Holds r := by
  have hmem {α : Type} (p : α → Prop) (xs : Array α) :
      (∃ x ∈ xs, p x) ↔ ∃ (i : Nat) (x : α), xs[i]? = some x ∧ p x := by
    constructor
    · rintro ⟨x, hx, hp⟩
      obtain ⟨i, hi⟩ := Array.mem_iff_getElem?.1 hx
      exact ⟨i, x, hi, hp⟩
    · rintro ⟨i, x, hi, hp⟩
      exact ⟨x, Array.mem_iff_getElem?.2 ⟨i, hi⟩, hp⟩
  simp only [isHeld, Holds, Keeps, Bool.or_eq_true, decide_eq_true_eq, List.any_eq_true,
    List.contains_iff_mem, beq_iff_eq, Array.any_eq_true', Bool.and_eq_true, Context.keeps_iff,
    Signal.keeps_iff, or_assoc, hmem]

theorem Bears.mono (h : w.Agrees w') {f : Frame} (hf : w.Bears f) : w'.Bears f := by
  cases f with
  | observer ch l v => exact h.value _ _ hf
  | deliver ch replay v todo spent => exact h.value _ _ hf
  | told c p =>
    obtain ⟨⟨x, hx, hp⟩, hv⟩ := hf
    obtain ⟨y, hy, heq⟩ := h.parent c x hx
    exact ⟨⟨y, hy, heq.trans hp⟩, h.value _ _ hv⟩
  | _ => trivial

theorem Attests.mono (h : w.Agrees w') {e : Event} (he : w.Attests e) : w'.Attests e := by
  cases e with
  | observed ch l v => exact h.value _ _ he
  | replayed ch l v => exact h.value _ _ he
  | fired ch v => exact h.value _ _ he
  | _ => trivial

/-- A change that takes no value back and refers only to what exists. -/
theorem Tidy.next {told' : ContextNo → Bool} (h : w.Tidy told) (ha : w.Agrees w')
    (hlive : ∀ r, w.isLiveRef r = true → w'.isLiveRef r = true)
    (hholds : ∀ r, w'.Holds r → w.Holds r ∨ w'.isLiveRef r = true)
    (hctx : ∀ (c : ContextNo) (x : Context), w'.contexts[c]? = some x → x.Tidy (told' c))
    (hframes : ∀ f ∈ w'.stack, f ∈ w.stack ∨ w'.Bears f)
    (hevents : ∀ e ∈ w'.history.toList, e ∈ w.history.toList ∨ w'.Attests e) : w'.Tidy told' where
  live := fun r hr => (hholds r hr).elim (fun hr => hlive r (h.live r hr)) id
  contexts := hctx
  frames := fun f hf => (hframes f hf).elim (fun hf => (h.frames f hf).mono ha) id
  events := fun e he => (hevents e he).elim (fun he => (h.events e he).mono ha) id

/-! ## Small updates -/

/-- Only contexts, signals, the stack, the queue and the history matter. -/
theorem Tidy.congr (h : w.Tidy told) (hc : w'.contexts = w.contexts) (hs : w'.signals = w.signals)
    (hst : w'.stack = w.stack) (hq : w'.queue = w.queue) (hh : w'.history = w.history) :
    w'.Tidy told := by
  cases w
  cases w'
  cases hc
  cases hs
  cases hst
  cases hq
  cases hh
  exact ⟨h.live, h.contexts, h.frames, h.events⟩

theorem Tidy.note (h : w.Tidy told) {e : Event} (he : w.Attests e) : (w.note e).Tidy told where
  live := h.live
  contexts := h.contexts
  frames := h.frames
  events := by
    intro e' he'
    rcases List.mem_append.1 (Array.toList_push ▸ he') with he' | he'
    · exact h.events e' he'
    · obtain rfl := List.mem_singleton.1 he'
      exact he

theorem Tidy.log (h : w.Tidy told) (l : Log.Level) (m : String) : (w.log l m).Tidy told := by
  unfold World.log
  split
  · exact h.note trivial
  · exact h

theorem Tidy.point (h : w.Tidy told) : w.point.Tidy told := h.congr rfl rfl rfl rfl rfl

theorem Tidy.answered (h : w.Tidy told) (r : Reply) : (w.answered r).Tidy told := h.congr rfl rfl rfl rfl rfl

theorem Tidy.refused (h : w.Tidy told) (f : Failure) : (w.refused f).Tidy told := h.congr rfl rfl rfl rfl rfl

/-- The work under way changes; it keeps nothing that does not exist. -/
theorem Tidy.restack (h : w.Tidy told) (stack : List Frame)
    (hr : ∀ f ∈ stack, ∀ r ∈ f.refs, w.isLiveRef r = true) (hb : ∀ f ∈ stack, w.Bears f) :
    Tidy told { w with stack := stack } where
  live := by
    rintro r (hr' | ⟨f, hf, hr'⟩ | hr')
    · exact h.live r (.inl hr')
    · exact hr f hf r hr'
    · exact h.live r (.inr (.inr hr'))
  contexts := h.contexts
  frames := hb
  events := h.events

theorem Tidy.frame_live (h : w.Tidy told) {f : Frame} (hf : f ∈ w.stack) {r : Ref} (hr : r ∈ f.refs) :
    w.isLiveRef r = true := h.live r (.inr (.inl ⟨f, hf, hr⟩))

theorem Tidy.push (h : w.Tidy told) {f : Frame} (hr : ∀ r ∈ f.refs, w.isLiveRef r = true)
    (hb : w.Bears f) : (w.push [f]).Tidy told := by
  apply h.restack _
  · intro g hg r hr'
    rcases List.mem_cons.1 hg with rfl | hg
    · exact hr r hr'
    · exact h.frame_live hg hr'
  · intro g hg
    rcases List.mem_cons.1 hg with rfl | hg
    · exact hb
    · exact h.frames g hg

/-- The same for a frame that keeps nothing and says nothing of channels. -/
theorem Tidy.pushPlain (h : w.Tidy told) {f : Frame} (hr : f.refs = []) (hb : w.Bears f) :
    (w.push [f]).Tidy told := by
  refine h.push ?_ hb
  rw [hr]
  exact List.forall_mem_nil _

theorem Tidy.pop (h : w.Tidy told) {f : Frame} {rest : List Frame} (hs : w.stack = f :: rest) :
    Tidy told { w with stack := rest } := by
  have hmem : ∀ g ∈ rest, g ∈ w.stack := fun g hg => by
    rw [hs]
    exact List.mem_cons_of_mem f hg
  exact h.restack rest (fun g hg r hr => h.frame_live (hmem g hg) hr) fun g hg => h.frames g (hmem g hg)

theorem Tidy.requeue (h : w.Tidy told) (queue : Option (List ContextNo))
    (hq : ∀ c ∈ queue.getD [], w.isLive c = true) : Tidy told { w with queue := queue } where
  live := by
    rintro r (hr | hr | ⟨c, hc, rfl⟩ | hr)
    · exact h.live r (.inl hr)
    · exact h.live r (.inr (.inl hr))
    · exact hq c hc
    · exact h.live r (.inr (.inr (.inr hr)))
  contexts := h.contexts
  frames := h.frames
  events := h.events

theorem Tidy.queue_live (h : w.Tidy told) {c : ContextNo} (hc : c ∈ w.queue.getD []) :
    w.isLive c = true := h.live (.context c) (.inr (.inr (.inl ⟨c, hc, rfl⟩)))

/-! ## Contexts and signals -/

end World

/-- A context changes, though not in what is for good, and refers to nothing new that does not
exist. -/
structure Context.Becomes (told : Bool) (w : World) (x y : Context) : Prop where
  tidy : y.Tidy told
  isLive : y.isLive = x.isLive
  parent : y.parent = x.parent
  before : ∀ v, x.before.value? = some v → y.before.value? = some v
  response : ∀ v, x.response.value? = some v → y.response.value? = some v
  completion : ∀ v, x.completion.value? = some v → y.completion.value? = some v
  refs : x.isLive = true → ∀ r ∈ y.refs, r ∈ x.refs ∨ w.isLiveRef r = true
  holders : 0 < y.holders → 0 < x.holders ∨ x.isLive = true

/-- Whoever waits at the channels of a context. -/
def Context.waiting (x : Context) : List (UInt64 × Observer) :=
  x.before.observers ++ x.response.observers ++ x.completion.observers

theorem Context.mem_refs {x : Context} {r : Ref} :
    r ∈ x.refs ↔ (∃ e ∈ x.waiting, r ∈ e.2.refs) ∨ ∃ c, x.hold = some c ∧ .context c = r := by
  simp only [refs, waiting, List.mem_append, List.mem_flatMap, List.mem_map, Option.mem_toList]
  grind

/-- Who waits at a context changes. Whoever comes is a client and refers only to what exists, and the
context holds nothing that it has not held. -/
theorem Context.Tidy.rewire {told told' : Bool} {w : World} {x y : Context} (h : x.Tidy told)
    (htether : y.hold = if y.isLive && !told' then y.parent else none)
    (hwaiting : ∀ e ∈ y.waiting, e ∈ x.waiting ∨
      e.2.isClients = true ∧ ∀ r ∈ e.2.refs, w.isLiveRef r = true)
    (hhold : ∀ c, y.hold = some c → x.hold = some c) (hlive : y.isLive = x.isLive)
    (hparent : y.parent = x.parent) (hholders : y.holders = x.holders)
    (hbefore : ∀ v, x.before.value? = some v → y.before.value? = some v)
    (hresponse : ∀ v, x.response.value? = some v → y.response.value? = some v)
    (hcompletion : ∀ v, x.completion.value? = some v → y.completion.value? = some v) :
    x.Becomes told' w y := by
  refine ⟨⟨htether, ?_⟩, hlive, hparent, hbefore, hresponse, hcompletion, ?_, ?_⟩
  · intro e he
    rcases hwaiting e he with he | ⟨hc, _⟩
    · exact h.clients e he
    · exact hc
  · intro _ r hr
    rcases mem_refs.1 hr with ⟨e, he, hr⟩ | ⟨c, hc, rfl⟩
    · rcases hwaiting e he with he | ⟨_, hrefs⟩
      · exact .inl (mem_refs.2 (.inl ⟨e, he, hr⟩))
      · exact .inr (hrefs r hr)
    · exact .inl (mem_refs.2 (.inr ⟨c, hhold c hc, rfl⟩))
  · intro hpos
    left
    rwa [← hholders]

/-- A context changes in nothing that anyone refers to. -/
theorem Context.Tidy.becomes {told : Bool} {w : World} {x : Context} (h : x.Tidy told) (state : State)
    (slots : Counter) (trail : Trail) :
    x.Becomes told w { x with state := state, slots := slots, trail := trail } :=
  ⟨⟨h.tether, h.clients⟩, rfl, rfl, fun _ h => h, fun _ h => h, fun _ h => h,
    fun _ _ hr => .inl hr, .inl⟩

/-- The same for signals. -/
structure Signal.Becomes (w : World) (x y : Signal) : Prop where
  isLive : y.isLive = x.isLive
  value : ∀ v, x.channel.value? = some v → y.channel.value? = some v
  refs : x.isLive = true → ∀ r ∈ y.refs, r ∈ x.refs ∨ w.isLiveRef r = true
  holders : 0 < y.holders → 0 < x.holders ∨ x.isLive = true

namespace World

variable {told : ContextNo → Bool} {w w' : World}

theorem isLiveRef_modifyContext {c : ContextNo} {f : Context → Context}
    (hf : ∀ x, w.contexts[c]? = some x → (f x).isLive = x.isLive) (r : Ref) :
    (w.modifyContext c f).isLiveRef r = w.isLiveRef r := by
  cases r with
  | context d => exact isLive_modifyContext hf d
  | signal s => rfl

theorem isLiveRef_modifySignal {s : SignalNo} {f : Signal → Signal}
    (hf : ∀ x, w.signals[s]? = some x → (f x).isLive = x.isLive) (r : Ref) :
    (w.modifySignal s f).isLiveRef r = w.isLiveRef r := by
  cases r with
  | context d => rfl
  | signal i => exact isLiveSignal_modifySignal hf i

/-- The entry that a changed list of contexts has in a place. -/
theorem modifyContext_cases {c d : ContextNo} {f : Context → Context} {y : Context}
    (h : (w.modifyContext c f).contexts[d]? = some y) :
    (c = d ∧ ∃ x, w.contexts[c]? = some x ∧ y = f x) ∨ w.contexts[d]? = some y := by
  rw [getElem?_modifyContext] at h
  split at h
  · rename_i hcd
    subst hcd
    obtain ⟨x, hx, rfl⟩ := Option.map_eq_some_iff.1 h
    exact .inl ⟨rfl, x, hx, rfl⟩
  · exact .inr h

theorem modifySignal_cases {s i : SignalNo} {f : Signal → Signal} {y : Signal}
    (h : (w.modifySignal s f).signals[i]? = some y) :
    (s = i ∧ ∃ x, w.signals[s]? = some x ∧ y = f x) ∨ w.signals[i]? = some y := by
  rw [getElem?_modifySignal] at h
  split at h
  · rename_i hsi
    subst hsi
    obtain ⟨x, hx, rfl⟩ := Option.map_eq_some_iff.1 h
    exact .inl ⟨rfl, x, hx, rfl⟩
  · exact .inr h

/-- A change of a context that takes nothing back. -/
theorem agrees_modifyContext {c : ContextNo} {f : Context → Context}
    (hf : ∀ x, w.contexts[c]? = some x → (f x).parent = x.parent ∧
      (∀ v, x.before.value? = some v → (f x).before.value? = some v) ∧
      (∀ v, x.response.value? = some v → (f x).response.value? = some v) ∧
      ∀ v, x.completion.value? = some v → (f x).completion.value? = some v) :
    w.Agrees (w.modifyContext c f) := by
  have hnew : ∀ (d : ContextNo) (x : Context), w.contexts[d]? = some x →
      ∃ y, (w.modifyContext c f).contexts[d]? = some y ∧ y.parent = x.parent ∧
        (∀ v, x.before.value? = some v → y.before.value? = some v) ∧
        (∀ v, x.response.value? = some v → y.response.value? = some v) ∧
        ∀ v, x.completion.value? = some v → y.completion.value? = some v := by
    intro d x hx
    rw [getElem?_modifyContext]
    by_cases hcd : c = d
    · subst hcd
      exact ⟨f x, by simp [hx], hf x hx⟩
    · exact ⟨x, by simp [hcd, hx], rfl, fun _ h => h, fun _ h => h, fun _ h => h⟩
  constructor
  · intro ch v hv
    cases ch with
    | signal s => exact hv
    | before d =>
      obtain ⟨x, hx, hv⟩ := Option.bind_eq_some_iff.1 hv
      obtain ⟨u, hu, rfl⟩ := Option.map_eq_some_iff.1 hv
      obtain ⟨y, hy, -, hb, -, -⟩ := hnew d x hx
      exact Option.bind_eq_some_iff.2 ⟨y, hy, by rw [hb u hu]; rfl⟩
    | response d =>
      obtain ⟨x, hx, hv⟩ := Option.bind_eq_some_iff.1 hv
      obtain ⟨u, hu, rfl⟩ := Option.map_eq_some_iff.1 hv
      obtain ⟨y, hy, -, -, hr, -⟩ := hnew d x hx
      exact Option.bind_eq_some_iff.2 ⟨y, hy, by rw [hr u hu]; rfl⟩
    | completion d =>
      obtain ⟨x, hx, hv⟩ := Option.bind_eq_some_iff.1 hv
      obtain ⟨u, hu, rfl⟩ := Option.map_eq_some_iff.1 hv
      obtain ⟨y, hy, -, -, -, hc⟩ := hnew d x hx
      exact Option.bind_eq_some_iff.2 ⟨y, hy, by rw [hc u hu]; rfl⟩
  · intro d x hx
    obtain ⟨y, hy, hp, -⟩ := hnew d x hx
    exact ⟨y, hy, hp⟩

theorem agrees_modifySignal {s : SignalNo} {f : Signal → Signal}
    (hf : ∀ x, w.signals[s]? = some x →
      ∀ v, x.channel.value? = some v → (f x).channel.value? = some v) :
    w.Agrees (w.modifySignal s f) := by
  refine ⟨?_, fun c x hx => ⟨x, hx, rfl⟩⟩
  intro ch v hv
  cases ch with
  | before d => exact hv
  | response d => exact hv
  | completion d => exact hv
  | signal i =>
    obtain ⟨x, hx, hv⟩ := Option.bind_eq_some_iff.1 hv
    obtain ⟨u, hu, rfl⟩ := Option.map_eq_some_iff.1 hv
    apply Option.bind_eq_some_iff.2
    rw [getElem?_modifySignal]
    by_cases hsi : s = i
    · subst hsi
      exact ⟨f x, by simp [hx], by rw [hf x hx u hu]; rfl⟩
    · exact ⟨x, by simp [hsi, hx], by rw [hu]; rfl⟩

/-- A context changes, and with it perhaps whether its completion has been told. -/
theorem Tidy.adjust (h : w.Tidy told) {c : ContextNo} {f : Context → Context}
    {told' : ContextNo → Bool} (hrest : ∀ d, c ≠ d → told' d = told d)
    (hf : ∀ x, w.contexts[c]? = some x → x.Becomes (told' c) w (f x)) :
    (w.modifyContext c f).Tidy told' := by
  have hlive := isLiveRef_modifyContext (w := w) fun x hx => (hf x hx).isLive
  refine h.next (agrees_modifyContext fun x hx => ⟨(hf x hx).parent, (hf x hx).before,
    (hf x hx).response, (hf x hx).completion⟩) (fun r hr => (hlive r).trans hr) ?_ ?_
    (fun g hg => .inl hg) fun e he => .inl he
  · rintro r (hr | hr | hr | ⟨d, y, hy, hl, hr⟩ | hr)
    · cases r with
      | signal s => exact .inl (.inl hr)
      | context d =>
        obtain ⟨y, hy, hpos⟩ := holders_context_pos.1 hr
        rcases modifyContext_cases hy with ⟨rfl, x, hx, rfl⟩ | hx
        · rcases (hf x hx).holders hpos with hpos | hl
          · exact .inl (.inl (holders_context_pos.2 ⟨x, hx, hpos⟩))
          · right
            rw [hlive]
            simp [isLiveRef, World.isLive, hx, hl]
        · exact .inl (.inl (holders_context_pos.2 ⟨y, hx, hpos⟩))
    · exact .inl (.inr (.inl hr))
    · exact .inl (.inr (.inr (.inl hr)))
    · rcases modifyContext_cases hy with ⟨rfl, x, hx, rfl⟩ | hx
      · have hxl : x.isLive = true := (hf x hx).isLive.symm.trans hl
        rcases (hf x hx).refs hxl r hr with hr | hr
        · exact .inl (.inr (.inr (.inr (.inl ⟨_, x, hx, hxl, hr⟩))))
        · exact .inr ((hlive r).trans hr)
      · exact .inl (.inr (.inr (.inr (.inl ⟨d, y, hx, hl, hr⟩))))
    · exact .inl (.inr (.inr (.inr (.inr hr))))
  · intro d y hy
    rw [getElem?_modifyContext] at hy
    by_cases hcd : c = d
    · subst hcd
      rw [if_pos rfl] at hy
      obtain ⟨x, hx, rfl⟩ := Option.map_eq_some_iff.1 hy
      exact (hf x hx).tidy
    · rw [if_neg hcd] at hy
      rw [hrest d hcd]
      exact h.contexts d y hy

theorem Tidy.modifyContext (h : w.Tidy told) {c : ContextNo} {f : Context → Context}
    (hf : ∀ x, w.contexts[c]? = some x → x.Becomes (told c) w (f x)) :
    (w.modifyContext c f).Tidy told := h.adjust (fun _ _ => rfl) hf

theorem Tidy.modifySignal (h : w.Tidy told) {s : SignalNo} {f : Signal → Signal}
    (hf : ∀ x, w.signals[s]? = some x → x.Becomes w (f x)) : (w.modifySignal s f).Tidy told := by
  have hlive := isLiveRef_modifySignal (w := w) fun x hx => (hf x hx).isLive
  refine h.next (agrees_modifySignal fun x hx => (hf x hx).value)
    (fun r hr => (hlive r).trans hr) ?_ h.contexts (fun g hg => .inl hg) fun e he => .inl he
  rintro r (hr | hr | hr | hr | ⟨i, y, hy, hl, hr⟩)
  · cases r with
    | context d => exact .inl (.inl hr)
    | signal i =>
      obtain ⟨y, hy, hpos⟩ := holders_signal_pos.1 hr
      rcases modifySignal_cases hy with ⟨rfl, x, hx, rfl⟩ | hx
      · rcases (hf x hx).holders hpos with hpos | hl
        · exact .inl (.inl (holders_signal_pos.2 ⟨x, hx, hpos⟩))
        · right
          rw [hlive]
          simp [isLiveRef, isLiveSignal, hx, hl]
      · exact .inl (.inl (holders_signal_pos.2 ⟨y, hx, hpos⟩))
  · exact .inl (.inr (.inl hr))
  · exact .inl (.inr (.inr (.inl hr)))
  · exact .inl (.inr (.inr (.inr (.inl hr))))
  · rcases modifySignal_cases hy with ⟨rfl, x, hx, rfl⟩ | hx
    · have hxl : x.isLive = true := (hf x hx).isLive.symm.trans hl
      rcases (hf x hx).refs hxl r hr with hr | hr
      · exact .inl (.inr (.inr (.inr (.inr ⟨_, x, hx, hxl, hr⟩))))
      · exact .inr ((hlive r).trans hr)
    · exact .inl (.inr (.inr (.inr (.inr ⟨i, y, hx, hl, hr⟩))))

/-! ## Destruction and creation -/

theorem holds_congr (hc : w'.contexts = w.contexts) (hs : w'.signals = w.signals)
    (hst : w'.stack = w.stack) (hq : w'.queue = w.queue) (r : Ref) : w'.Holds r ↔ w.Holds r := by
  have hh : w'.holders r = w.holders r := by cases r <;> simp only [holders, hc, hs]
  simp only [Holds, hc, hs, hst, hq, hh]

/-- A context that nothing refers to ceases to be. -/
theorem Tidy.bury (h : w.Tidy told) {c : ContextNo} (hr : ¬ w.Holds (.context c)) :
    (w.modifyContext c fun x => { x with isLive := false, hold := none }).Tidy told := by
  have hagrees : w.Agrees (w.modifyContext c fun x => { x with isLive := false, hold := none }) :=
    agrees_modifyContext fun _ _ => ⟨rfl, fun _ h => h, fun _ h => h, fun _ h => h⟩
  have hholds : ∀ r, (w.modifyContext c fun x => { x with isLive := false, hold := none }).Holds r →
      w.Holds r := by
    rintro r (hr' | hr' | hr' | ⟨d, y, hy, hl, hr'⟩ | hr')
    · cases r with
      | signal s => exact .inl hr'
      | context d =>
        obtain ⟨y, hy, hpos⟩ := holders_context_pos.1 hr'
        rcases modifyContext_cases hy with ⟨rfl, x, hx, rfl⟩ | hx
        · exact .inl (holders_context_pos.2 ⟨x, hx, hpos⟩)
        · exact .inl (holders_context_pos.2 ⟨y, hx, hpos⟩)
    · exact .inr (.inl hr')
    · exact .inr (.inr (.inl hr'))
    · rcases modifyContext_cases hy with ⟨rfl, x, hx, rfl⟩ | hx
      · cases hl
      · exact .inr (.inr (.inr (.inl ⟨d, y, hx, hl, hr'⟩)))
    · exact .inr (.inr (.inr (.inr hr')))
  constructor
  · intro r hr'
    have hold := hholds r hr'
    have hlive := h.live r hold
    cases r with
    | signal s => exact hlive
    | context d =>
      -- what something still refers to is not what goes
      have hne : c ≠ d := by
        rintro rfl
        exact hr hold
      show (World.isLive _ d) = true
      unfold World.isLive
      rw [getElem?_modifyContext, if_neg hne]
      exact hlive
  · intro d y hy
    rcases modifyContext_cases hy with ⟨rfl, x, hx, rfl⟩ | hx
    · exact ⟨rfl, (h.contexts _ x hx).clients⟩
    · exact h.contexts d y hx
  · exact fun f hf => (h.frames f hf).mono hagrees
  · exact fun e he => (h.events e he).mono hagrees

/-- A signal that nothing refers to ceases to be. -/
theorem Tidy.burySignal (h : w.Tidy told) {s : SignalNo} (hr : ¬ w.Holds (.signal s)) :
    (w.modifySignal s fun x => { x with isLive := false }).Tidy told := by
  have hagrees : w.Agrees (w.modifySignal s fun x => { x with isLive := false }) :=
    agrees_modifySignal fun _ _ _ h => h
  have hholds : ∀ r, (w.modifySignal s fun x => { x with isLive := false }).Holds r →
      w.Holds r := by
    rintro r (hr' | hr' | hr' | hr' | ⟨i, y, hy, hl, hr'⟩)
    · cases r with
      | context d => exact .inl hr'
      | signal i =>
        obtain ⟨y, hy, hpos⟩ := holders_signal_pos.1 hr'
        rcases modifySignal_cases hy with ⟨rfl, x, hx, rfl⟩ | hx
        · exact .inl (holders_signal_pos.2 ⟨x, hx, hpos⟩)
        · exact .inl (holders_signal_pos.2 ⟨y, hx, hpos⟩)
    · exact .inr (.inl hr')
    · exact .inr (.inr (.inl hr'))
    · exact .inr (.inr (.inr (.inl hr')))
    · rcases modifySignal_cases hy with ⟨rfl, x, hx, rfl⟩ | hx
      · cases hl
      · exact .inr (.inr (.inr (.inr ⟨i, y, hx, hl, hr'⟩)))
  refine ⟨?_, h.contexts, fun f hf => (h.frames f hf).mono hagrees,
    fun e he => (h.events e he).mono hagrees⟩
  intro r hr'
  have hold := hholds r hr'
  have hlive := h.live r hold
  cases r with
  | context d => exact hlive
  | signal i =>
    have hne : s ≠ i := by
      rintro rfl
      exact hr hold
    show (isLiveSignal _ i) = true
    unfold isLiveSignal
    rw [getElem?_modifySignal, if_neg hne]
    exact hlive

theorem Tidy.destroy (h : w.Tidy told) {r : Ref} (hr : w.isHeld r = false) : (w.destroy r).Tidy told := by
  have hr : ¬ w.Holds r := fun hh => by rw [isHeld_iff.2 hh] at hr; cases hr
  cases r with
  | signal s => exact h.burySignal hr
  | context c =>
    simp only [World.destroy]
    split
    · exact h
    · rename_i x _
      have hfarewell : (w.farewell c x true).Tidy told := by
        have hreg : World.Tidy told { w with registry := w.registry.unregister x.id c } :=
          h.congr rfl rfl rfl rfl rfl
        have hmid := hreg.note (e := .destroyed c) trivial
        simp only [farewell, if_true]
        split
        · exact hmid
        · exact hmid.log _ _
      have hst : (w.farewell c x true).stack = w.stack := by
        simp only [farewell, if_true]
        split <;> simp
      have hq : (w.farewell c x true).queue = w.queue := by
        simp only [farewell, if_true]
        split <;> simp
      refine hfarewell.bury fun hh => hr ?_
      exact (holds_congr (contexts_farewell w c x true) (signals_farewell w c x true) hst hq _).1 hh

/-- Letting go of references keeps a world tidy, whatever they are. -/
theorem Tidy.releaseAll (h : w.Tidy told) (refs : List Ref) : (w.releaseAll refs).Tidy told :=
  releaseAll_induction (P := Tidy told) (fun _ _ h _ hr => h.destroy hr) h refs

/-- A value that is told stays when something is added. -/
theorem agrees_of_old (hc : ∀ (d : ContextNo) (x : Context), w.contexts[d]? = some x →
    w'.contexts[d]? = some x) (hs : ∀ (i : SignalNo) (x : Signal), w.signals[i]? = some x →
      w'.signals[i]? = some x) : w.Agrees w' := by
  refine ⟨?_, fun c x hx => ⟨x, hc c x hx, rfl⟩⟩
  intro ch v hv
  cases ch with
  | signal s =>
    obtain ⟨x, hx, hv⟩ := Option.bind_eq_some_iff.1 hv
    exact Option.bind_eq_some_iff.2 ⟨x, hs s x hx, hv⟩
  | before d =>
    obtain ⟨x, hx, hv⟩ := Option.bind_eq_some_iff.1 hv
    exact Option.bind_eq_some_iff.2 ⟨x, hc d x hx, hv⟩
  | response d =>
    obtain ⟨x, hx, hv⟩ := Option.bind_eq_some_iff.1 hv
    exact Option.bind_eq_some_iff.2 ⟨x, hc d x hx, hv⟩
  | completion d =>
    obtain ⟨x, hx, hv⟩ := Option.bind_eq_some_iff.1 hv
    exact Option.bind_eq_some_iff.2 ⟨x, hc d x hx, hv⟩

/-- A context comes to be. It refers only to what exists. -/
theorem Tidy.enter (h : w.Tidy told) {x : Context} (hx : x.Tidy (told w.contexts.size)) (hl : x.isLive = true)
    (hr : ∀ r ∈ x.refs, w.isLiveRef r = true) (g : Registry) : (w.enter x g).Tidy told := by
  have hold : ∀ (d : ContextNo) (y : Context), w.contexts[d]? = some y →
      (w.enter x g).contexts[d]? = some y := by
    intro d y hy
    rw [getElem?_enter, if_neg (Nat.ne_of_lt (lt_of_getElem?_eq_some hy))]
    exact hy
  have hagrees : w.Agrees (w.enter x g) := agrees_of_old hold fun i y hy => by
    rw [signals_enter]
    exact hy
  have hlive : ∀ r, w.isLiveRef r = true → (w.enter x g).isLiveRef r = true := by
    intro r hr
    cases r with
    | signal s =>
      show (w.enter x g).isLiveSignal s = true
      unfold isLiveSignal
      rw [signals_enter]
      exact hr
    | context d =>
      obtain ⟨y, hy, hyl⟩ := exists_of_isLive hr
      simp [isLiveRef, World.isLive, hold d y hy, hyl]
  have hself : (w.enter x g).isLiveRef (.context w.contexts.size) = true := by
    simp [isLiveRef, World.isLive, getElem?_enter, hl]
  apply h.next hagrees hlive
  · rintro r (hr' | hr' | hr' | ⟨d, y, hy, hyl, hr'⟩ | ⟨i, y, hy, hyl, hr'⟩)
    · cases r with
      | signal s =>
        obtain ⟨y, hy, hpos⟩ := holders_signal_pos.1 hr'
        rw [signals_enter] at hy
        exact .inl (.inl (holders_signal_pos.2 ⟨y, hy, hpos⟩))
      | context d =>
        obtain ⟨y, hy, hpos⟩ := holders_context_pos.1 hr'
        rw [getElem?_enter] at hy
        split at hy
        · rename_i heq
          subst heq
          exact .inr hself
        · exact .inl (.inl (holders_context_pos.2 ⟨y, hy, hpos⟩))
    · rw [stack_enter] at hr'
      exact .inl (.inr (.inl hr'))
    · rw [queue_enter] at hr'
      exact .inl (.inr (.inr (.inl hr')))
    · rw [getElem?_enter] at hy
      split at hy
      · obtain rfl := Option.some.inj hy
        exact .inr (hlive r (hr r hr'))
      · exact .inl (.inr (.inr (.inr (.inl ⟨d, y, hy, hyl, hr'⟩))))
    · rw [signals_enter] at hy
      exact .inl (.inr (.inr (.inr (.inr ⟨i, y, hy, hyl, hr'⟩))))
  · intro d y hy
    rw [getElem?_enter] at hy
    split at hy
    · rename_i heq
      obtain rfl := Option.some.inj hy
      exact heq ▸ hx
    · exact h.contexts d y hy
  · intro f hf
    rw [stack_enter] at hf
    exact .inl hf
  -- what is new in the history says nothing of channels
  · intro e he
    by_cases hmem : e ∈ w.history.toList
    · exact .inl hmem
    · right
      simp only [World.enter, World.log] at he
      split at he
      · simp only [World.note, Array.toList_push, List.mem_append, List.mem_singleton] at he
        rcases he with ((he | rfl) | rfl) | rfl
        · exact absurd he hmem
        all_goals trivial
      · simp only [World.note, Array.toList_push, List.mem_append, List.mem_singleton] at he
        rcases he with (he | rfl) | rfl
        · exact absurd he hmem
        all_goals trivial

theorem Tidy.addSignal (h : w.Tidy told) {x : Signal} (hl : x.isLive = true) (hr : x.refs = []) :
    (w.addSignal x).2.Tidy told := by
  have hget : ∀ i, (w.addSignal x).2.signals[i]? =
      if i = w.signals.size then some x else w.signals[i]? := fun i => Array.getElem?_push
  have hold : ∀ (i : SignalNo) (y : Signal), w.signals[i]? = some y →
      (w.addSignal x).2.signals[i]? = some y := by
    intro i y hy
    rw [hget, if_neg (Nat.ne_of_lt (lt_of_getElem?_eq_some hy))]
    exact hy
  refine h.next (agrees_of_old (fun _ _ hx => hx) hold) ?_ ?_ h.contexts (fun _ hf => .inl hf)
    fun _ he => .inl he
  · intro r hr
    cases r with
    | context d => exact hr
    | signal i =>
      obtain ⟨y, hy, hyl⟩ := exists_of_isLiveSignal hr
      simp [isLiveRef, isLiveSignal, hold i y hy, hyl]
  · rintro r (hr' | hr' | hr' | hr' | ⟨i, y, hy, hyl, hr'⟩)
    · cases r with
      | context d => exact .inl (.inl hr')
      | signal i =>
        obtain ⟨y, hy, hpos⟩ := holders_signal_pos.1 hr'
        rw [hget] at hy
        split at hy
        · rename_i heq
          subst heq
          right
          simp [isLiveRef, isLiveSignal, hget, hl]
        · exact .inl (.inl (holders_signal_pos.2 ⟨y, hy, hpos⟩))
    · exact .inl (.inr (.inl hr'))
    · exact .inl (.inr (.inr (.inl hr')))
    · exact .inl (.inr (.inr (.inr (.inl hr'))))
    · rw [hget] at hy
      split at hy
      · obtain rfl := Option.some.inj hy
        rw [hr] at hr'
        cases hr'
      · exact .inl (.inr (.inr (.inr (.inr ⟨i, y, hy, hyl, hr'⟩))))

/-- A new signal, which exists and keeps nothing. -/
theorem Tidy.makeSignal (h : w.Tidy told) (r : Option Resolution) :
    (w.makeSignal r).2.Tidy told ∧ (w.makeSignal r).2.isLiveSignal (w.makeSignal r).1 = true ∧
      ∀ ref, w.isLiveRef ref = true → (w.makeSignal r).2.isLiveRef ref = true := by
  have hkeep : ∀ (v : World) (x : Signal), v.signals = w.signals → v.contexts = w.contexts →
      ∀ ref, w.isLiveRef ref = true → (v.addSignal x).2.isLiveRef ref = true := by
    intro v x hs hc ref href
    cases ref with
    | context d =>
      show (v.contexts[d]?).any Context.isLive = true
      rw [hc]
      exact href
    | signal i =>
      obtain ⟨y, hy, hyl⟩ := exists_of_isLiveSignal href
      show ((v.signals.push x)[i]?).any Signal.isLive = true
      rw [hs, Array.getElem?_push, if_neg (Nat.ne_of_lt (lt_of_getElem?_eq_some hy)), hy]
      exact hyl
  cases r with
  | none =>
    exact ⟨h.addSignal rfl rfl, by simp [World.makeSignal, World.addSignal, isLiveSignal],
      hkeep w {} rfl rfl⟩
  | some r =>
    exact ⟨h.point.addSignal rfl rfl,
      by simp [World.makeSignal, World.addSignal, isLiveSignal, World.point],
      hkeep w.point _ rfl rfl⟩

/-! ## Channels -/

/-- Subscribing, unsubscribing and waiting change the observers of a channel and no value. -/
theorem Tidy.modifyChannel (h : w.Tidy told) {ch : ChannelRef}
    {f : {α : Type} → Channel α Observer → Channel α Observer}
    (hv : ∀ {α : Type} (c : Channel α Observer), (f c).value? = c.value?)
    (ho : ∀ {α : Type} (c : Channel α Observer), ∀ e ∈ (f c).observers, e ∈ c.observers ∨
      (∀ r ∈ e.2.refs, w.isLiveRef r = true) ∧ (e.2.isClients = true ∨ ∃ s, ch = .signal s)) :
    (w.modifyChannel ch f).Tidy told := by
  cases ch with
  | signal s =>
    apply h.modifySignal
    intro x _
    refine ⟨rfl, fun v hx => (hv _).trans hx, ?_, .inl⟩
    intro _ r hr
    obtain ⟨e, he, hr⟩ := List.mem_flatMap.1 hr
    rcases ho x.channel e he with he | ⟨hl, _⟩
    · exact .inl (List.mem_flatMap.2 ⟨e, he, hr⟩)
    · exact .inr (hl r hr)
  | before c =>
    apply h.modifyContext
    intro x hx
    refine (h.contexts c x hx).rewire (h.contexts c x hx).tether ?_ (fun _ h => h) rfl rfl rfl
      (fun v hx => (hv _).trans hx) (fun _ h => h) (fun _ h => h)
    intro e he
    simp only [Context.waiting, List.mem_append] at he ⊢
    rcases he with (he | he) | he
    · exact (ho x.before e he).imp (fun he => .inl (.inl he)) fun h => ⟨h.2.resolve_right (by simp), h.1⟩
    · exact .inl (.inl (.inr he))
    · exact .inl (.inr he)
  | response c =>
    apply h.modifyContext
    intro x hx
    refine (h.contexts c x hx).rewire (h.contexts c x hx).tether ?_ (fun _ h => h) rfl rfl rfl
      (fun _ h => h) (fun v hx => (hv _).trans hx) (fun _ h => h)
    intro e he
    simp only [Context.waiting, List.mem_append] at he ⊢
    rcases he with (he | he) | he
    · exact .inl (.inl (.inl he))
    · exact (ho x.response e he).imp (fun he => .inl (.inr he)) fun h => ⟨h.2.resolve_right (by simp), h.1⟩
    · exact .inl (.inr he)
  | completion c =>
    apply h.modifyContext
    intro x hx
    refine (h.contexts c x hx).rewire (h.contexts c x hx).tether ?_ (fun _ h => h) rfl rfl rfl
      (fun _ h => h) (fun _ h => h) (fun v hx => (hv _).trans hx)
    intro e he
    simp only [Context.waiting, List.mem_append] at he ⊢
    rcases he with (he | he) | he
    · exact .inl (.inl (.inl he))
    · exact .inl (.inl (.inr he))
    · exact (ho x.completion e he).imp .inr fun h => ⟨h.2.resolve_right (by simp), h.1⟩

/-- An observer is registered that refers only to what exists; at a context it is a client's. -/
theorem Tidy.subscribe (h : w.Tidy told) {ch : ChannelRef} {o : Observer}
    (hr : ∀ r ∈ o.refs, w.isLiveRef r = true)
    (hc : o.isClients = true ∨ ∃ s, ch = .signal s) :
    (w.modifyChannel ch fun c => (c.subscribe o).2).Tidy told := by
  refine h.modifyChannel (fun c => by cases c <;> rfl) fun c e he => ?_
  cases c with
  | fired v => exact .inl he
  | waiting n os =>
    rcases List.mem_append.1 he with he | he
    · exact .inl he
    · obtain rfl := List.mem_singleton.1 he
      exact .inr ⟨hr, hc⟩

theorem Tidy.unsubscribe (h : w.Tidy told) (ch : ChannelRef) (n : UInt64) :
    (w.modifyChannel ch fun c => c.unsubscribe n).Tidy told := by
  refine h.modifyChannel (fun c => by cases c <;> rfl) fun c e he => .inl ?_
  cases c with
  | fired v => exact he
  | waiting k os => exact List.mem_of_mem_eraseP he

theorem Tidy.takeNumber (h : w.Tidy told) (ch : ChannelRef) :
    (w.modifyChannel ch fun c => c.takeNumber).Tidy told :=
  h.modifyChannel (fun c => by cases c <;> rfl) fun c e he => .inl (by cases c <;> exact he)

/-- A channel has fired with the value that it tells. -/
theorem Tidy.deliver (h : w.Tidy told) (ch : ChannelRef) {v : Value} (hv : w.value? ch = some v)
    {os : List Observer} (hr : ∀ o ∈ os, ∀ r ∈ o.refs, w.isLiveRef r = true) :
    (w.deliver ch v os).Tidy told := by
  have hnote : (w.note (.fired ch v)).Tidy told := h.note hv
  refine hnote.point.push (f := .deliver ch false v os os) ?_ hv
  intro r hr'
  obtain ⟨o, ho, hr'⟩ := List.mem_flatMap.1 hr'
  exact hr o ho r hr'

/-- An observer has subscribed to a channel that has fired. -/
theorem Tidy.replay (h : w.Tidy told) {ch : ChannelRef} {v : Value} (hv : w.value? ch = some v)
    {o : Observer} (hr : ∀ r ∈ o.refs, w.isLiveRef r = true) : (w.replay ch v o).Tidy told := by
  refine h.push (f := .deliver ch true v [o] [o]) ?_ hv
  intro r hr'
  obtain ⟨o', ho, hro⟩ := List.mem_flatMap.1 hr'
  rw [List.mem_singleton.1 ho] at hro
  exact hr r hro

/-- What an existing context refers to exists. -/
theorem Tidy.context_live (h : w.Tidy told) {c : ContextNo} {x : Context} (hx : w.contexts[c]? = some x)
    (hl : x.isLive = true) {r : Ref} (hr : r ∈ x.refs) : w.isLiveRef r = true :=
  h.live r (.inr (.inr (.inr (.inl ⟨c, x, hx, hl, hr⟩))))

theorem Tidy.signal_live (h : w.Tidy told) {s : SignalNo} {x : Signal} (hx : w.signals[s]? = some x)
    (hl : x.isLive = true) {r : Ref} (hr : r ∈ x.refs) : w.isLiveRef r = true :=
  h.live r (.inr (.inr (.inr (.inr ⟨s, x, hx, hl, hr⟩))))

/-- A channel of an existing context fires, and the frame that notifies whoever waited takes them over. -/
theorem Tidy.fireContext (h : w.Tidy told) {c : ContextNo} {x : Context} (hx : w.contexts[c]? = some x)
    (hl : x.isLive = true) {f : Context → Context} (hf : x.Becomes (told c) w (f x)) (ch : ChannelRef)
    {v : Value} (hv : (w.modifyContext c f).value? ch = some v) {es : List (UInt64 × Observer)}
    (hes : es ⊆ x.waiting) : ((w.modifyContext c f).deliver ch v (es.map Prod.snd)).Tidy told := by
  have hbecomes : ∀ y, w.contexts[c]? = some y → y.Becomes (told c) w (f y) := by
    intro y hy
    obtain rfl := Option.some.inj (hx.symm.trans hy)
    exact hf
  apply (h.modifyContext hbecomes).deliver ch hv
  intro o ho r hr
  obtain ⟨e, he, rfl⟩ := List.mem_map.1 ho
  rw [isLiveRef_modifyContext fun y hy => (hbecomes y hy).isLive]
  exact h.context_live hx hl (Context.mem_refs.2 (.inl ⟨e, hes he, hr⟩))

theorem Tidy.fireBefore (h : w.Tidy told) {c : ContextNo} (hl : w.isLive c = true) (r : Response) :
    (w.fireBefore c r).Tidy told := by
  rcases w.fireBefore_cases c r with ⟨_, heq⟩ | ⟨x, hx, hwaits, heq⟩
  · rw [heq]
    exact h
  · rw [heq]
    obtain ⟨y, hy, hyl⟩ := exists_of_isLive hl
    obtain rfl := Option.some.inj (hx.symm.trans hy)
    refine h.fireContext hx hyl ?_ (.before c) ?_ ?_
    · refine (h.contexts c x hx).rewire (h.contexts c x hx).tether ?_ (fun _ h => h) rfl rfl rfl
        ?_ (fun _ h => h) (fun _ h => h)
      · intro e he
        left
        rw [Context.waiting, List.append_assoc]
        exact List.mem_append_right _ he
      · intro v hv
        cases ((waits_before hx).1 hwaits).symm.trans hv
    · simp [value?, getElem?_modifyContext, hx, Channel.value?]
    · exact fun _ he => List.mem_append_left _ (List.mem_append_left _ he)

theorem Tidy.fireResponse (h : w.Tidy told) {c : ContextNo} (hl : w.isLive c = true) (r : Response) :
    (w.fireResponse c r).Tidy told := by
  rcases w.fireResponse_cases c r with ⟨_, heq⟩ | ⟨x, hx, hwaits, heq⟩
  · rw [heq]
    exact h
  · rw [heq]
    obtain ⟨y, hy, hyl⟩ := exists_of_isLive hl
    obtain rfl := Option.some.inj (hx.symm.trans hy)
    refine h.fireContext hx hyl ?_ (.response c) ?_ ?_
    · refine (h.contexts c x hx).rewire (h.contexts c x hx).tether ?_ (fun _ h => h) rfl rfl rfl
        (fun _ h => h) ?_ (fun _ h => h)
      · intro e he
        left
        simp only [Context.waiting, List.mem_append] at he ⊢
        rcases he with (he | he) | he
        · exact .inl (.inl he)
        · cases he
        · exact .inr he
      · intro v hv
        cases ((waits_response hx).1 hwaits).symm.trans hv
    · simp [value?, getElem?_modifyContext, hx, Channel.value?]
    · exact fun _ he => List.mem_append_left _ (List.mem_append_right _ he)

theorem Tidy.fireCompletion (h : w.Tidy told) {c : ContextNo} (hl : w.isLive c = true) :
    (w.fireCompletion c).Tidy told := by
  rcases w.fireCompletion_cases c with ⟨_, heq⟩ | ⟨x, hx, hwaits, heq⟩
  · rw [heq]
    exact h
  · rw [heq]
    obtain ⟨y, hy, hyl⟩ := exists_of_isLive hl
    obtain rfl := Option.some.inj (hx.symm.trans hy)
    refine h.fireContext hx hyl ?_ (.completion c) ?_ ?_
    · refine (h.contexts c x hx).rewire (h.contexts c x hx).tether ?_ (fun _ h => h) rfl rfl rfl
        (fun _ h => h) (fun _ h => h) ?_
      · intro e he
        left
        rcases List.mem_append.1 he with he | he
        · exact List.mem_append_left _ he
        · cases he
      · intro v hv
        cases ((waits_completion hx).1 hwaits).symm.trans hv
    · simp [value?, getElem?_modifyContext, hx, Channel.value?]
    · exact fun _ he => List.mem_append_right _ he

theorem Tidy.fireSignal (h : w.Tidy told) {s : SignalNo} (hl : w.isLiveSignal s = true)
    (r : Resolution) : (w.fireSignal s r).Tidy told := by
  rcases w.fireSignal_cases s r with ⟨_, heq⟩ | ⟨x, hx, hwaits, heq⟩
  · rw [heq]
    exact h
  · rw [heq]
    have hnone := (waits_signal hx).1 hwaits
    obtain ⟨y, hy, hyl⟩ := exists_of_isLiveSignal hl
    obtain rfl := Option.some.inj (hx.symm.trans hy)
    have hmid : (w.modifySignal s fun x => { x with channel := .fired r }).Tidy told := by
      apply h.modifySignal
      intro y hy
      obtain rfl := Option.some.inj (hx.symm.trans hy)
      exact ⟨rfl, fun v hv => (by cases hnone.symm.trans hv), fun _ _ href => (by cases href),
        .inl⟩
    apply hmid.deliver (.signal s)
    · simp [value?, getElem?_modifySignal, hx, Channel.value?]
    · intro o ho ref href
      have hlive := isLiveRef_modifySignal (w := w) (s := s)
        (f := fun x => { x with channel := .fired r }) (fun _ _ => rfl) ref
      obtain ⟨e, he, rfl⟩ := List.mem_map.1 ho
      exact hlive.trans (h.signal_live hx hyl (List.mem_flatMap.2 ⟨e, he, href⟩))

end World

end FanIn
