import FanIn.Proofs.Tree.Updates

/-!
# What moves do to channels

The channels of contexts and the signals carry values of different types. Seen as channels for any of
these values they are all alike, and a move does something to one of them at most: an observer
subscribes to it or is removed, someone waits at it for a moment, or it fires. Which channel that is,
and what is done to it, can be read off the world that the move is made in, before it is made:
`World.use?`.

Main statement: `handles_move`. What channels carry, and who waits at them, goes back to it.
-/

namespace FanIn

/-- The same channel, its value seen as another. -/
def Channel.map {α β ω : Type} (g : α → β) : Channel α ω → Channel β ω
  | waiting n os => waiting n os
  | fired v => fired (g v)

/-- What is done to a channel. -/
inductive Use where
  | subscribe (o : Observer)
  | unsubscribe (number : UInt64)
  | wait
  | fire (v : Value)

namespace Use

/-- What becomes of the channel. -/
def apply : Use → Channel Value Observer → Channel Value Observer
  | subscribe o, k => (k.subscribe o).2
  | unsubscribe n, k => k.unsubscribe n
  | wait, k => k.takeNumber
  | fire v, k => ((k.fire? v).map Prod.snd).getD k

/-- What becomes of a channel, if one of them is used. -/
def at? (u : Option (ChannelRef × Use)) (ch : ChannelRef) (k : Channel Value Observer) :
    Channel Value Observer :=
  match u with
  | some (ch', u) => if ch' = ch then u.apply k else k
  | none => k

@[simp] theorem at?_none (ch : ChannelRef) (k : Channel Value Observer) : at? none ch k = k := rfl

@[simp] theorem at?_self (ch : ChannelRef) (u : Use) (k : Channel Value Observer) :
    at? (some (ch, u)) ch k = u.apply k := if_pos rfl

theorem at?_other {ch ch' : ChannelRef} (h : ch' ≠ ch) (u : Use) (k : Channel Value Observer) :
    at? (some (ch', u)) ch k = k := if_neg h

/-- A channel that has fired is as it is, whatever is done to it. -/
@[simp] theorem apply_fired (u : Use) (v : Value) : u.apply (.fired v) = .fired v := by
  cases u <;> rfl

/-- Whoever waits at a channel that has been used waited there, or has come to it. -/
theorem mem_at? {u : Option (ChannelRef × Use)} {ch : ChannelRef} {k : Channel Value Observer}
    {e : UInt64 × Observer} (h : e ∈ (at? u ch k).observers) :
    e ∈ k.observers ∨ u = some (ch, .subscribe e.2) := by
  unfold at? at h
  split at h
  · rename_i ch' u
    split at h
    · rename_i hch
      subst hch
      cases k with
      | fired v => rw [apply_fired] at h; cases h
      | waiting n os =>
        cases u with
        | subscribe o =>
          rcases List.mem_append.1 h with h | h
          · exact .inl h
          · obtain rfl := List.mem_singleton.1 h
            exact .inr rfl
        | unsubscribe n => exact .inl (List.mem_of_mem_eraseP h)
        | wait => exact .inl h
        | fire v => cases h
    · exact .inl h
  · exact .inl h

end Use

namespace World

/-! ## Channels -/

/-- A channel, if there is such a context or signal. -/
def channel? (w : World) : ChannelRef → Option (Channel Value Observer)
  | .before c => (w.contexts[c]?).map fun x => x.before.map .response
  | .response c => (w.contexts[c]?).map fun x => x.response.map .response
  | .completion c => (w.contexts[c]?).map fun x => x.completion.map fun _ => .done
  | .signal s => (w.signals[s]?).map fun x => x.channel.map .resolution

/-- Whether a context or a signal has ever been made. -/
def Known (w : World) : Ref → Prop
  | .context c => c < w.contexts.size
  | .signal s => s < w.signals.size

/-- A channel waits to be fired. -/
def Waits (w : World) (ch : ChannelRef) : Prop := w.Known ch.owner ∧ w.value? ch = none

instance (w : World) (r : Ref) : Decidable (w.Known r) :=
  match r with
  | .context c => inferInstanceAs (Decidable (c < w.contexts.size))
  | .signal s => inferInstanceAs (Decidable (s < w.signals.size))

instance (w : World) (ch : ChannelRef) : Decidable (w.Waits ch) :=
  inferInstanceAs (Decidable (_ ∧ _))

variable {w w' : World}

theorem value?_map {α : Type} (g : α → Value) (k : Channel α Observer) :
    (k.map g).value? = k.value?.map g := by cases k <;> rfl

theorem observers_map {α : Type} (g : α → Value) (k : Channel α Observer) :
    (k.map g).observers = k.observers := by cases k <;> rfl

/-- What a channel carries. -/
theorem value?_eq (w : World) (ch : ChannelRef) :
    w.value? ch = (w.channel? ch).bind Channel.value? := by
  cases ch <;> simp only [value?, channel?, Option.bind_map, Function.comp_def, value?_map]

/-- Who waits at a channel. -/
theorem observers_eq (w : World) (ch : ChannelRef) :
    w.observers ch = (w.channel? ch).elim [] Channel.observers := by
  cases ch with
  | signal s => cases h : w.signals[s]? <;> simp [observers, channel?, h, observers_map]
  | before c | response c | completion c =>
    cases h : w.contexts[c]? <;> simp [observers, channel?, h, observers_map]

theorem known_iff {ch : ChannelRef} : w.Known ch.owner ↔ ∃ k, w.channel? ch = some k := by
  have hlt {α : Type} (xs : Array α) (i : Nat) (g : α → Channel Value Observer) :
      i < xs.size ↔ ∃ k, (xs[i]?).map g = some k := by
    rw [← Option.isSome_iff_exists, Option.isSome_map]
    simp
  cases ch <;> exact hlt _ _ _

theorem waits_iff {ch : ChannelRef} :
    w.Waits ch ↔ ∃ n os, w.channel? ch = some (.waiting n os) := by
  unfold Waits
  rw [known_iff, value?_eq]
  constructor
  · rintro ⟨⟨k, hk⟩, hv⟩
    cases k with
    | waiting n os => exact ⟨n, os, hk⟩
    | fired v =>
      rw [hk] at hv
      cases hv
  · rintro ⟨n, os, hk⟩
    exact ⟨⟨_, hk⟩, by rw [hk]; rfl⟩

theorem value?_of_channel? {ch : ChannelRef} (h : w'.channel? ch = w.channel? ch) :
    w'.value? ch = w.value? ch := by rw [value?_eq, value?_eq, h]

theorem observers_of_channel? {ch : ChannelRef} (h : w'.channel? ch = w.channel? ch) :
    w'.observers ch = w.observers ch := by rw [observers_eq, observers_eq, h]

theorem waits_of_channel? {ch : ChannelRef} (h : w'.channel? ch = w.channel? ch) :
    w'.Waits ch ↔ w.Waits ch := by rw [waits_iff, waits_iff, h]

/-- What waits at a channel waits for it to fire. -/
theorem isFired_of_observers {ch : ChannelRef} {e : UInt64 × Observer} (h : e ∈ w.observers ch) :
    w.isFired ch = false := by
  rw [observers_eq] at h
  rw [isFired, value?_eq]
  cases hk : w.channel? ch with
  | none => rfl
  | some k =>
    rw [hk] at h
    cases k with
    | waiting n os => rfl
    | fired v => cases h

/-! ## What leaves channels alone -/

theorem channel?_congr (hc : w'.contexts = w.contexts) (hs : w'.signals = w.signals)
    (ch : ChannelRef) : w'.channel? ch = w.channel? ch := by
  cases ch <;> simp only [channel?, hc, hs]

@[simp] theorem channel?_note (e : Event) (ch : ChannelRef) :
    (w.note e).channel? ch = w.channel? ch := rfl

@[simp] theorem channel?_point (ch : ChannelRef) : w.point.channel? ch = w.channel? ch := rfl

@[simp] theorem channel?_push (fs : List Frame) (ch : ChannelRef) :
    (w.push fs).channel? ch = w.channel? ch := rfl

@[simp] theorem channel?_answered (r : Reply) (ch : ChannelRef) :
    (w.answered r).channel? ch = w.channel? ch := rfl

@[simp] theorem channel?_refused (f : Failure) (ch : ChannelRef) :
    (w.refused f).channel? ch = w.channel? ch := rfl

@[simp] theorem channel?_log (l : Log.Level) (m : String) (ch : ChannelRef) :
    (w.log l m).channel? ch = w.channel? ch :=
  channel?_congr (contexts_log w l m) (signals_log w l m) ch

theorem channel?_modifyContext {c : ContextNo} {f : Context → Context}
    (hf : ∀ x, (f x).before = x.before ∧ (f x).response = x.response ∧
      (f x).completion = x.completion) (ch : ChannelRef) :
    (w.modifyContext c f).channel? ch = w.channel? ch := by
  have hmap : ∀ (d : ContextNo) (g : Context → Channel Value Observer), (∀ x, g (f x) = g x) →
      ((w.modifyContext c f).contexts[d]?).map g = (w.contexts[d]?).map g := by
    intro d g hg
    rw [getElem?_modifyContext]
    split
    · simp [Function.comp_def, hg]
    · rfl
  cases ch with
  | before d => exact hmap d _ fun x => by rw [(hf x).1]
  | response d => exact hmap d _ fun x => by rw [(hf x).2.1]
  | completion d => exact hmap d _ fun x => by rw [(hf x).2.2]
  | signal s => rfl

theorem channel?_modifySignal {s : SignalNo} {f : Signal → Signal}
    (hf : ∀ x, (f x).channel = x.channel) (ch : ChannelRef) :
    (w.modifySignal s f).channel? ch = w.channel? ch := by
  cases ch with
  | signal i =>
    simp only [channel?, getElem?_modifySignal]
    split
    · simp [Function.comp_def, hf]
    · rfl
  | _ => rfl

@[simp] theorem channel?_destroy (r : Ref) (ch : ChannelRef) :
    (w.destroy r).channel? ch = w.channel? ch := by
  cases r with
  | signal s =>
    exact channel?_modifySignal (f := fun x => { x with isLive := false }) (fun _ => rfl) ch
  | context c =>
    simp only [destroy]
    split
    · rfl
    · rename_i x _
      have hgone := channel?_modifyContext (w := w.farewell c x true) (c := c)
        (f := fun x => { x with isLive := false, hold := none }) (fun _ => ⟨rfl, rfl, rfl⟩) ch
      exact hgone.trans (channel?_congr (contexts_farewell w c x true) (signals_farewell w c x true) ch)

@[simp] theorem channel?_releaseAll (refs : List Ref) (ch : ChannelRef) :
    (w.releaseAll refs).channel? ch = w.channel? ch :=
  releaseAll_induction (P := fun w' => w'.channel? ch = w.channel? ch)
    (fun w' r h _ _ => (channel?_destroy (w := w') r ch).trans h) rfl refs

theorem channel?_recount (c : ContextNo) (slots : Counter) (ch : ChannelRef) :
    (w.modifyContext c fun x => { x with slots := slots }).channel? ch = w.channel? ch :=
  channel?_modifyContext (f := fun x => { x with slots := slots }) (fun _ => ⟨rfl, rfl, rfl⟩) ch

theorem channel?_rehold {c : ContextNo} {f : Nat → Nat} (ch : ChannelRef) :
    (w.modifyContext c fun x => { x with holders := f x.holders }).channel? ch = w.channel? ch :=
  channel?_modifyContext (f := fun x => { x with holders := f x.holders })
    (fun _ => ⟨rfl, rfl, rfl⟩) ch

theorem channel?_reholdSignal {s : SignalNo} {f : Nat → Nat} (ch : ChannelRef) :
    (w.modifySignal s fun x => { x with holders := f x.holders }).channel? ch = w.channel? ch :=
  channel?_modifySignal (f := fun x => { x with holders := f x.holders }) (fun _ => rfl) ch

theorem channel?_hold (r : Ref) (ch : ChannelRef) : (w.hold r).channel? ch = w.channel? ch := by
  cases r with
  | context c => exact channel?_rehold (f := (· + 1)) ch
  | signal s => exact channel?_reholdSignal (f := (· + 1)) ch

@[simp] theorem channel?_reportBranch (c : ContextNo) (ch : ChannelRef) :
    (w.reportBranch c).channel? ch = w.channel? ch := by
  unfold reportBranch
  split <;> rfl

theorem channel?_notify (ch' : ChannelRef) (replay : Bool) (v : Value) (o : Observer)
    (ch : ChannelRef) : (w.notify ch' replay v o).channel? ch = w.channel? ch := by
  cases o with
  | client label keeps => rfl
  | empty => rfl
  | settleLink c =>
    simp only [World.notify]
    split
    · exact channel?_log _ _ ch
    · rfl
  | settleError c e result =>
    simp only [World.notify]
    split <;> rfl

theorem channel?_giveUpSlot (c : ContextNo) (share : Share) (ch : ChannelRef) :
    (w.giveUpSlot c share).channel? ch = w.channel? ch := by
  unfold giveUpSlot
  split
  · rfl
  · rename_i last slots _
    have hleft := channel?_recount (w := w) c slots ch
    cases last with
    | false => exact hleft
    | true =>
      simp only [if_true]
      split <;> exact hleft

theorem channel?_tellParent (c : ContextNo) (parent : Option ContextNo) (ch : ChannelRef) :
    (w.tellParent c parent).channel? ch = w.channel? ch := by
  unfold tellParent
  split
  · exact channel?_releaseAll _ ch
  · rename_i p
    split
    · exact channel?_releaseAll _ ch
    · rename_i last slots _
      have hleft := channel?_recount (w := w) p slots ch
      cases last with
      | false => exact (channel?_releaseAll _ ch).trans hleft
      | true => exact (channel?_releaseAll _ ch).trans hleft

theorem channel?_returnCall (r : Reply) (kept : List Ref) (ch : ChannelRef) :
    (w.returnCall r kept).channel? ch = w.channel? ch := by
  unfold returnCall
  refine (channel?_releaseAll _ ch).trans ?_
  cases r with
  | context c => exact channel?_hold (w := w) (.context c) ch
  | signal s => exact channel?_hold (w := w) (.signal s) ch
  | _ => rfl

theorem channel?_unwind (f : Failure) (fs : List Frame) (ch : ChannelRef) :
    (w.unwind f fs).channel? ch = w.channel? ch := by
  unfold unwind
  split
  · rfl
  · rfl
  · rfl
  · exact channel?_log _ _ ch
  · exact channel?_releaseAll _ ch
  · exact channel?_releaseAll _ ch
  · exact channel?_releaseAll _ ch
  · rfl

theorem channel?_takeSlot {c : ContextNo} {share : Share} (h : w.takeSlot c share = some w')
    (ch : ChannelRef) : w'.channel? ch = w.channel? ch := by
  obtain ⟨x, slots, _, _, rfl⟩ := takeSlot_eq_some h
  exact channel?_recount (w := w) c slots ch

theorem channel?_refuseSlot (c : ContextNo) (ch : ChannelRef) :
    (w.refuseSlot c).channel? ch = w.channel? ch := channel?_log _ _ ch

theorem channel?_success (c : ContextNo) (result : Option Int) (ch : ChannelRef) :
    (w.success c result).channel? ch = w.channel? ch := by
  unfold World.success
  dsimp only
  split
  · rfl
  · split
    · exact channel?_log (w := w.point) _ _ ch
    · exact channel?_modifyContext (w := w.point) (f := fun x => { x with state := .succeeded })
        (fun _ => ⟨rfl, rfl, rfl⟩) ch

theorem channel?_finish (thrown : Option Failure) (ch : ChannelRef) :
    (w.finish thrown).channel? ch = w.channel? ch := by
  unfold finish
  split
  · dsimp only
    split
    · rfl
    · exact channel?_log _ _ ch
  · rfl

/-! ## What uses a channel -/

/-- A channel that comes to be waits for its first observer; a signal may also be made fired. -/
def Pristine (ch : ChannelRef) (k : Channel Value Observer) : Prop :=
  k = .new ∨ ∃ s v, ch = .signal s ∧ k = .fired v

/-- One channel at most is used, and none ceases to be. -/
structure Handles (u : Option (ChannelRef × Use)) (w w' : World) : Prop where
  old : ∀ ch k, w.channel? ch = some k → w'.channel? ch = some (Use.at? u ch k)
  fresh : ∀ ch k, w'.channel? ch = some k → w.channel? ch = none → Pristine ch k

theorem Handles.of_same (h : ∀ ch, w'.channel? ch = w.channel? ch) : Handles none w w' where
  old ch k hk := (h ch).trans hk
  fresh ch k hk hnone := by cases hnone.symm.trans ((h ch).symm.trans hk)

theorem Handles.congr {u : Option (ChannelRef × Use)} {v v' : World} (h : Handles u v v')
    (hold : ∀ ch, v.channel? ch = w.channel? ch) (hnew : ∀ ch, w'.channel? ch = v'.channel? ch) :
    Handles u w w' where
  old ch k hk := (hnew ch).trans (h.old ch k ((hold ch).trans hk))
  fresh ch k hk hnone := h.fresh ch k ((hnew ch).symm.trans hk) ((hold ch).trans hnone)

/-- Every channel there is, is used or left alone, and no other comes to be. -/
theorem Handles.of_map {u : Option (ChannelRef × Use)}
    (h : ∀ ch, w'.channel? ch = (w.channel? ch).map (Use.at? u ch)) : Handles u w w' where
  old ch k hk := by rw [h, hk]; rfl
  fresh ch k hk hnone := by rw [h, hnone] at hk; cases hk

/-- What a channel is used for does not show at other channels. -/
theorem Handles.of_one {ch' : ChannelRef} {u : Use}
    (hself : w'.channel? ch' = (w.channel? ch').map u.apply)
    (hother : ∀ ch, ch ≠ ch' → w'.channel? ch = w.channel? ch) : Handles (some (ch', u)) w w' := by
  refine .of_map fun ch => ?_
  by_cases hch : ch' = ch
  · subst hch
    rw [hself]
    congr 1
    funext k
    exact (Use.at?_self ch' u k).symm
  · rw [hother ch (Ne.symm hch)]
    cases hk : w.channel? ch with
    | none => rfl
    | some k => rw [Option.map_some, Use.at?_other hch]

theorem handles_before {c : ContextNo} {f : Channel Response Observer → Channel Response Observer}
    {u : Use} (hf : ∀ x, w.contexts[c]? = some x →
      (f x.before).map .response = u.apply (x.before.map .response)) :
    Handles (some (.before c, u)) w (w.modifyContext c fun x => { x with before := f x.before }) := by
  refine .of_one ?_ fun ch hch => ?_
  · cases hx : w.contexts[c]? with
    | none => simp [channel?, getElem?_modifyContext, hx]
    | some x => simp [channel?, getElem?_modifyContext, hx, hf x hx]
  · cases ch with
    | before d =>
      have hne : c ≠ d := fun h => hch (by rw [h])
      simp [channel?, getElem?_modifyContext, hne]
    | response d | completion d =>
      simp only [channel?, getElem?_modifyContext]
      split
      · simp [Function.comp_def]
      · rfl
    | signal s => rfl

theorem handles_response {c : ContextNo} {f : Channel Response Observer → Channel Response Observer}
    {u : Use} (hf : ∀ x, w.contexts[c]? = some x →
      (f x.response).map .response = u.apply (x.response.map .response)) :
    Handles (some (.response c, u)) w
      (w.modifyContext c fun x => { x with response := f x.response }) := by
  refine .of_one ?_ fun ch hch => ?_
  · cases hx : w.contexts[c]? with
    | none => simp [channel?, getElem?_modifyContext, hx]
    | some x => simp [channel?, getElem?_modifyContext, hx, hf x hx]
  · cases ch with
    | response d =>
      have hne : c ≠ d := fun h => hch (by rw [h])
      simp [channel?, getElem?_modifyContext, hne]
    | before d | completion d =>
      simp only [channel?, getElem?_modifyContext]
      split
      · simp [Function.comp_def]
      · rfl
    | signal s => rfl

theorem handles_completion {c : ContextNo} {f : Channel Unit Observer → Channel Unit Observer}
    {u : Use} (hf : ∀ x, w.contexts[c]? = some x →
      (f x.completion).map (fun _ => .done) = u.apply (x.completion.map fun _ => .done)) :
    Handles (some (.completion c, u)) w
      (w.modifyContext c fun x => { x with completion := f x.completion }) := by
  refine .of_one ?_ fun ch hch => ?_
  · cases hx : w.contexts[c]? with
    | none => simp [channel?, getElem?_modifyContext, hx]
    | some x => simp [channel?, getElem?_modifyContext, hx, hf x hx]
  · cases ch with
    | completion d =>
      have hne : c ≠ d := fun h => hch (by rw [h])
      simp [channel?, getElem?_modifyContext, hne]
    | before d | response d =>
      simp only [channel?, getElem?_modifyContext]
      split
      · simp [Function.comp_def]
      · rfl
    | signal s => rfl

theorem handles_signal {s : SignalNo} {f : Channel Resolution Observer → Channel Resolution Observer}
    {u : Use} (hf : ∀ x, w.signals[s]? = some x →
      (f x.channel).map .resolution = u.apply (x.channel.map .resolution)) :
    Handles (some (.signal s, u)) w (w.modifySignal s fun x => { x with channel := f x.channel }) := by
  refine .of_one ?_ fun ch hch => ?_
  · cases hx : w.signals[s]? with
    | none => simp [channel?, getElem?_modifySignal, hx]
    | some x => simp [channel?, getElem?_modifySignal, hx, hf x hx]
  · cases ch with
    | signal i =>
      have hne : s ≠ i := fun h => hch (by rw [h])
      simp [channel?, getElem?_modifySignal, hne]
    | _ => rfl

/-- Observers come and go in the same way at channels of all types. -/
theorem handles_modifyChannel {f : {α : Type} → Channel α Observer → Channel α Observer} {u : Use}
    (hf : ∀ {α : Type} (g : α → Value) (k : Channel α Observer), (f k).map g = u.apply (k.map g))
    (ch : ChannelRef) : Handles (some (ch, u)) w (w.modifyChannel ch f) := by
  cases ch with
  | before c => exact handles_before fun _ _ => hf _ _
  | response c => exact handles_response fun _ _ => hf _ _
  | completion c => exact handles_completion fun _ _ => hf _ _
  | signal s => exact handles_signal fun _ _ => hf _ _

/-- What is done to a channel that has fired is not seen. -/
theorem Handles.of_fired {ch : ChannelRef} (h : ¬ w.Waits ch) (u : Use) :
    Handles (some (ch, u)) w w := by
  refine .of_one ?_ fun _ _ => rfl
  cases hk : w.channel? ch with
  | none => rfl
  | some k =>
    cases k with
    | waiting n os => exact absurd (waits_iff.2 ⟨n, os, hk⟩) h
    | fired v => rw [Option.map_some, Use.apply_fired]

theorem handles_subscribe (ch : ChannelRef) (o : Observer) :
    Handles (some (ch, .subscribe o)) w (w.subscribe ch o).2 := by
  rcases subscribe_cases w ch o with ⟨_, heq⟩ | ⟨v, hv, heq⟩
  · rw [heq]
    exact handles_modifyChannel (w := w) (f := fun k => (k.subscribe o).2) (u := .subscribe o)
      (fun g k => by cases k <;> rfl) ch
  · rw [heq]
    refine .of_fired ?_ _
    rintro ⟨-, hnone⟩
    cases hnone.symm.trans hv

/-! ## Firing -/

/-- What does not wait to be fired is left alone. -/
theorem not_waits {α ι : Type} {xs : Array ι} {i : Nat} {ch : ι → Channel α Observer} {v : α}
    {g : α → Value} (h : ((xs[i]?).bind fun x => (ch x).fire? v) = none) :
    ¬ (i < xs.size ∧ ((xs[i]?).bind fun x => (ch x).value?.map g) = none) := by
  rintro ⟨hlt, hnone⟩
  rw [Array.getElem?_eq_getElem hlt] at h hnone
  obtain ⟨u, hu⟩ := Option.isSome_iff_exists.1 (Channel.fire?_eq_none_iff.1 h)
  rw [Option.bind_some, hu] at hnone
  cases hnone

/-! A channel of a context or a signal that is there waits exactly if it carries nothing. -/

theorem waits_before {c : ContextNo} {x : Context} (hx : w.contexts[c]? = some x) :
    w.Waits (.before c) ↔ x.before.value? = none := by
  refine (and_iff_right (lt_of_getElem?_eq_some hx : w.Known (.context c))).trans ?_
  simp [value?, hx]

theorem waits_response {c : ContextNo} {x : Context} (hx : w.contexts[c]? = some x) :
    w.Waits (.response c) ↔ x.response.value? = none := by
  refine (and_iff_right (lt_of_getElem?_eq_some hx : w.Known (.context c))).trans ?_
  simp [value?, hx]

theorem waits_completion {c : ContextNo} {x : Context} (hx : w.contexts[c]? = some x) :
    w.Waits (.completion c) ↔ x.completion.value? = none := by
  refine (and_iff_right (lt_of_getElem?_eq_some hx : w.Known (.context c))).trans ?_
  simp [value?, hx]

theorem waits_signal {s : SignalNo} {x : Signal} (hx : w.signals[s]? = some x) :
    w.Waits (.signal s) ↔ x.channel.value? = none := by
  refine (and_iff_right (lt_of_getElem?_eq_some hx : w.Known (.signal s))).trans ?_
  simp [value?, hx]

/-- What firing a first channel comes to. -/
theorem fireBefore_cases (w : World) (c : ContextNo) (r : Response) :
    (¬ w.Waits (.before c) ∧ w.fireBefore c r = w) ∨
    ∃ x, w.contexts[c]? = some x ∧ w.Waits (.before c) ∧ w.fireBefore c r =
      (w.modifyContext c fun x => { x with before := .fired r }).deliver (.before c) (.response r)
        (x.before.observers.map Prod.snd) := by
  unfold World.fireBefore
  split
  · rename_i hnone
    exact .inl ⟨not_waits (g := .response) hnone, rfl⟩
  · rename_i os z hfire
    obtain ⟨x, hx, hfire⟩ := Option.bind_eq_some_iff.1 hfire
    obtain ⟨hnone, rfl, rfl⟩ := fire?_eq_some hfire
    exact .inr ⟨x, hx, (waits_before hx).2 hnone, rfl⟩

/-- What firing a second channel comes to. -/
theorem fireResponse_cases (w : World) (c : ContextNo) (r : Response) :
    (¬ w.Waits (.response c) ∧ w.fireResponse c r = w) ∨
    ∃ x, w.contexts[c]? = some x ∧ w.Waits (.response c) ∧ w.fireResponse c r =
      (w.modifyContext c fun x => { x with response := .fired r }).deliver (.response c) (.response r)
        (x.response.observers.map Prod.snd) := by
  unfold World.fireResponse
  split
  · rename_i hnone
    exact .inl ⟨not_waits (g := .response) hnone, rfl⟩
  · rename_i os z hfire
    obtain ⟨x, hx, hfire⟩ := Option.bind_eq_some_iff.1 hfire
    obtain ⟨hnone, rfl, rfl⟩ := fire?_eq_some hfire
    exact .inr ⟨x, hx, (waits_response hx).2 hnone, rfl⟩

/-- What firing a completion comes to. -/
theorem fireCompletion_cases (w : World) (c : ContextNo) :
    (¬ w.Waits (.completion c) ∧ w.fireCompletion c = w) ∨
    ∃ x, w.contexts[c]? = some x ∧ w.Waits (.completion c) ∧ w.fireCompletion c =
      (w.modifyContext c fun x => { x with completion := .fired () }).deliver (.completion c) .done
        (x.completion.observers.map Prod.snd) := by
  unfold World.fireCompletion
  split
  · rename_i hnone
    exact .inl ⟨not_waits (g := fun _ => .done) hnone, rfl⟩
  · rename_i os z hfire
    obtain ⟨x, hx, hfire⟩ := Option.bind_eq_some_iff.1 hfire
    obtain ⟨hnone, rfl, rfl⟩ := fire?_eq_some hfire
    exact .inr ⟨x, hx, (waits_completion hx).2 hnone, rfl⟩

/-- What firing a signal comes to. -/
theorem fireSignal_cases (w : World) (s : SignalNo) (r : Resolution) :
    (¬ w.Waits (.signal s) ∧ w.fireSignal s r = w) ∨
    ∃ x, w.signals[s]? = some x ∧ w.Waits (.signal s) ∧ w.fireSignal s r =
      (w.modifySignal s fun x => { x with channel := .fired r }).deliver (.signal s) (.resolution r)
        (x.channel.observers.map Prod.snd) := by
  unfold World.fireSignal
  split
  · rename_i hnone
    exact .inl ⟨not_waits (g := .resolution) hnone, rfl⟩
  · rename_i os z hfire
    obtain ⟨x, hx, hfire⟩ := Option.bind_eq_some_iff.1 hfire
    obtain ⟨hnone, rfl, rfl⟩ := fire?_eq_some hfire
    exact .inr ⟨x, hx, (waits_signal hx).2 hnone, rfl⟩

theorem Use.fire_map {α : Type} {g : α → Value} {k : Channel α Observer} (h : k.value? = none) (v : α) :
    (Channel.fired v).map g = (Use.fire (g v)).apply (k.map g) := by
  cases k with
  | waiting n os => rfl
  | fired u => cases h

theorem handles_fireBefore (c : ContextNo) (r : Response) :
    Handles (some (.before c, .fire (.response r))) w (w.fireBefore c r) := by
  rcases w.fireBefore_cases c r with ⟨hnot, heq⟩ | ⟨x, hx, hwaits, heq⟩
  · rw [heq]
    exact .of_fired hnot _
  · rw [heq]
    refine (handles_before (f := fun _ => .fired r) fun y hy => Use.fire_map ?_ r).congr
      (fun _ => rfl) fun _ => rfl
    exact (waits_before hy).1 hwaits

theorem handles_fireResponse (c : ContextNo) (r : Response) :
    Handles (some (.response c, .fire (.response r))) w (w.fireResponse c r) := by
  rcases w.fireResponse_cases c r with ⟨hnot, heq⟩ | ⟨x, hx, hwaits, heq⟩
  · rw [heq]
    exact .of_fired hnot _
  · rw [heq]
    refine (handles_response (f := fun _ => .fired r) fun y hy => Use.fire_map ?_ r).congr
      (fun _ => rfl) fun _ => rfl
    exact (waits_response hy).1 hwaits

theorem handles_fireCompletion (c : ContextNo) :
    Handles (some (.completion c, .fire .done)) w (w.fireCompletion c) := by
  rcases w.fireCompletion_cases c with ⟨hnot, heq⟩ | ⟨x, hx, hwaits, heq⟩
  · rw [heq]
    exact .of_fired hnot _
  · rw [heq]
    refine (handles_completion (f := fun _ => .fired ()) (u := .fire .done) fun y hy =>
      Use.fire_map (g := fun _ => .done) ?_ ()).congr (fun _ => rfl) fun _ => rfl
    exact (waits_completion hy).1 hwaits

theorem handles_fireSignal (s : SignalNo) (r : Resolution) :
    Handles (some (.signal s, .fire (.resolution r))) w (w.fireSignal s r) := by
  rcases w.fireSignal_cases s r with ⟨hnot, heq⟩ | ⟨x, hx, hwaits, heq⟩
  · rw [heq]
    exact .of_fired hnot _
  · rw [heq]
    refine (handles_signal (f := fun _ => .fired r) fun y hy => Use.fire_map ?_ r).congr
      (fun _ => rfl) fun _ => rfl
    exact (waits_signal hy).1 hwaits

/-- Before the first completion of the queue fires there is a message, and the context lets go of its
parent. -/
def preparing (w : World) (c : ContextNo) (q : List ContextNo) : World :=
  ((World.log { w with queue := some q } .debug
    ((w.contexts[c]?).elim "" completionNote)).modifyContext c fun x => { x with hold := none }).push
      [.told c ((w.contexts[c]?).bind Context.hold), .climb]

theorem completeNext_fires {c : ContextNo} {q : List ContextNo} (hq : w.queue = some (c :: q)) :
    w.completeNext = (w.preparing c q).fireCompletion c := by
  unfold World.completeNext
  rw [hq]
  rfl

@[simp] theorem channel?_preparing (c : ContextNo) (q : List ContextNo) (ch : ChannelRef) :
    (w.preparing c q).channel? ch = w.channel? ch :=
  (channel?_modifyContext (f := fun x => { x with hold := none }) (fun _ => ⟨rfl, rfl, rfl⟩) ch).trans
    (channel?_log (w := { w with queue := some q }) _ _ ch)

/-! ## What comes to be -/

/-- A context that comes to be has told nothing, and nobody waits for it. -/
theorem handles_enter {x : Context} (hb : x.before = .new) (hr : x.response = .new)
    (hc : x.completion = .new) (g : Registry) : Handles none w (w.enter x g) := by
  have hsame : ∀ ch : ChannelRef, (w.enter x g).channel? ch =
      World.channel? { w with contexts := w.contexts.push x } ch := by
    intro ch
    unfold enter
    exact (channel?_log _ _ _).trans rfl
  have hget : ∀ d : ContextNo, (w.contexts.push x)[d]? =
      if d = w.contexts.size then some x else w.contexts[d]? := fun d => Array.getElem?_push
  refine (show Handles none w { w with contexts := w.contexts.push x } from ⟨?_, ?_⟩).congr
    (fun _ => rfl) hsame
  · intro ch k hk
    have hknown := known_iff.2 ⟨k, hk⟩
    cases ch with
    | signal s => exact hk
    | before d | response d | completion d =>
      have hne : d ≠ w.contexts.size := Nat.ne_of_lt hknown
      simpa only [channel?, hget, if_neg hne, Use.at?_none] using hk
  · intro ch k hk hnone
    left
    cases ch with
    | signal s => cases hnone.symm.trans hk
    | before d | response d | completion d =>
      simp only [channel?, hget] at hk hnone
      split at hk
      · rename_i hd
        simp only [hb, hr, hc, Option.map_some, Option.some.injEq] at hk
        exact hk.symm
      · cases hnone.symm.trans hk

theorem channel?_enter_signal (x : Context) (g : Registry) (s : SignalNo) :
    (w.enter x g).channel? (.signal s) = w.channel? (.signal s) := by
  simp only [channel?]
  rw [signals_enter]

/-- A signal that comes to be waits for its first observer, or has fired. -/
theorem handles_addSignal {x : Signal} (hx : x.channel = .new ∨ ∃ r, x.channel = .fired r) :
    Handles none w (w.addSignal x).2 := by
  have hget : ∀ i : SignalNo, (w.signals.push x)[i]? =
      if i = w.signals.size then some x else w.signals[i]? := fun i => Array.getElem?_push
  refine ⟨?_, ?_⟩
  · intro ch k hk
    have hknown := known_iff.2 ⟨k, hk⟩
    cases ch with
    | signal i =>
      have hne : i ≠ w.signals.size := Nat.ne_of_lt hknown
      simpa only [channel?, addSignal, hget, if_neg hne, Use.at?_none] using hk
    | _ => exact hk
  · intro ch k hk hnone
    cases ch with
    | signal i =>
      simp only [channel?, addSignal, hget] at hk hnone
      split at hk
      · obtain rfl := Option.some.inj hk
        dsimp only
        rcases hx with hx | ⟨r, hx⟩
        · exact .inl (by rw [hx]; rfl)
        · exact .inr ⟨i, .resolution r, rfl, by rw [hx]; rfl⟩
      · cases hnone.symm.trans hk
    | _ => cases hnone.symm.trans hk

theorem handles_makeSignal (r : Option Resolution) : Handles none w (w.makeSignal r).2 := by
  cases r with
  | none => exact handles_addSignal (.inl rfl)
  | some r => exact (handles_addSignal (w := w.point) (.inr ⟨r, rfl⟩)).congr (fun _ => rfl) fun _ => rfl

/-- Something comes to be, and then a channel is used that was there. -/
theorem Handles.trans {v : World} {ch' : ChannelRef} {u : Use} (h : Handles none w v)
    (h' : Handles (some (ch', u)) v w') (hsame : v.channel? ch' = w.channel? ch') :
    Handles (some (ch', u)) w w' where
  old ch k hk := h'.old ch k (h.old ch k hk)
  fresh ch k hk hnone := by
    cases hv : v.channel? ch with
    | none => exact h'.fresh ch k hk hv
    | some k' =>
      have hne : ch' ≠ ch := by
        rintro rfl
        cases hnone.symm.trans (hsame.symm.trans hv)
      have hk' := h'.old ch k' hv
      rw [Use.at?_other hne] at hk'
      obtain rfl := Option.some.inj (hk.symm.trans hk')
      exact h.fresh ch k hv hnone

/-! ## What moves do to channels -/

/-- What a step of the library does to a channel. -/
def workUse? (w : World) : Option (ChannelRef × Use) :=
  match w.stack with
  | .respond c r :: _ => some (.before c, .fire (.response r))
  | .answer c r :: _ => some (.response c, .fire (.response r))
  | .climb :: _ =>
    match w.queue with
    | some (c :: _) => some (.completion c, .fire .done)
    | _ => none
  | .conclude c e failed result :: _ =>
    some (.signal result, .fire (.resolution
      { failure := failed.map (Failure.handlerFailed (w.idOf c) (some e)) }))
  | _ => none

/-- What a call does to a channel at once. -/
def callUse? (w : World) : Call → Option (ChannelRef × Use)
  | .createRoot spec =>
    if spec.fault?.isNone && (w.registry.register? w.isLive spec.id w.contexts.size).isSome then
      spec.link.map fun s => (.signal s, .subscribe (.settleLink w.contexts.size))
    else none
  | .subscribe ch label keeps =>
    some (ch, .subscribe (label.elim .empty fun label => .client label keeps))
  | .unsubscribe ch n => some (ch, .unsubscribe n)
  | .fireBefore c r => some (.before c, .fire (.response r))
  | .fireResponse c r => some (.response c, .fire (.response r))
  | .fireCompletion c => some (.completion c, .fire .done)
  | .fireSignal s r => some (.signal s, .fire (.resolution r))
  | .wait ch => some (ch, .wait)
  | _ => none

/-- What the return of a handler does to a channel. What a handler has thrown is told to nobody who
waits for it. -/
def handledUse? (w : World) (a : Handled) : Option (ChannelRef × Use) :=
  match w.stack, a with
  | .handler _ c e result :: _, .signal s => some (.signal s, .subscribe (.settleError c e result))
  | _, _ => none

/-- What a move does to a channel. -/
def use? (w : World) : Move → Option (ChannelRef × Use)
  | .advance => w.workUse?
  | .call call => w.callUse? call
  | .finish _ => none
  | .handled a => w.handledUse? a

theorem handles_completeNext : Handles (match w.queue with
    | some (c :: _) => some (.completion c, .fire .done)
    | _ => none) w w.completeNext := by
  cases hq : w.queue with
  | none =>
    unfold World.completeNext
    rw [hq]
    exact .of_same fun _ => rfl
  | some l =>
    cases l with
    | nil =>
      unfold World.completeNext
      rw [hq]
      exact .of_same fun _ => rfl
    | cons c q =>
      rw [completeNext_fires hq]
      exact (handles_fireCompletion c).congr (channel?_preparing c q) fun _ => rfl

theorem handles_resolveError (c : ContextNo) (e : Failure) (failed : Option (Option Failure))
    (result : SignalNo) : Handles (some (.signal result, .fire (.resolution
      { failure := failed.map (Failure.handlerFailed (w.idOf c) (some e)) }))) w
        (w.resolveError c e failed result) := by
  unfold World.resolveError
  split
  · exact handles_fireSignal _ _
  · exact (handles_fireSignal _ _).congr (channel?_log _ _) fun _ => rfl

theorem handles_advance : Handles w.workUse? w w.advance := by
  unfold World.advance workUse?
  cases hs : w.stack with
  | nil => exact .of_same fun _ => rfl
  | cons f rest =>
    cases f with
    | observer ch l v => exact .of_same fun _ => rfl
    | handler n c e s => exact .of_same fun _ => rfl
    | deliver ch replay v todo spent =>
      cases todo with
      | nil => exact .of_same (channel?_releaseAll _)
      | cons o todo => exact .of_same (channel?_notify _ _ _ _)
    | respond c r =>
      exact (handles_fireBefore (w := (World.note { w with stack := .answer c r :: rest }
        (.publishing c r)).reportBranch c) c r).congr (fun ch => channel?_reportBranch c ch)
          fun _ => rfl
    | answer c r =>
      exact (handles_fireResponse (w := World.point { w with stack := .giveUp c .own :: rest }) c
        r).congr (fun _ => rfl) fun _ => rfl
    | giveUp c share => exact .of_same (channel?_giveUpSlot _ _)
    | climb =>
      exact (handles_completeNext (w := { w with stack := rest })).congr (fun _ => rfl) fun _ => rfl
    | told c p => exact .of_same (channel?_tellParent _ _)
    | conclude c e failed result =>
      exact (handles_resolveError (w := { w with stack := rest }) c e failed result).congr
        (fun _ => rfl) fun _ => rfl
    | returning r kept => exact .of_same (channel?_returnCall _ _)
    | throwing f => exact .of_same (channel?_unwind _ _)

theorem handles_firing {ch : ChannelRef} {v : Value} {fire : World → World}
    (h : ∀ w : World, Handles (some (ch, .fire v)) w (fire w)) :
    Handles (some (ch, .fire v)) w (w.firing ch fire) := by
  unfold World.firing
  split
  · rename_i hfired
    refine (Handles.of_fired (w := w) ?_ _).congr (fun _ => rfl) fun _ => rfl
    rintro ⟨-, hnone⟩
    rw [isFired, hnone] at hfired
    cases hfired
  · exact (h (w.push [.returning (.flag true) []])).congr (fun _ => rfl) fun _ => rfl

/-- An observer subscribes on top of what is under way. -/
theorem channel?_subscribe (ch' : ChannelRef) (o : Observer) (ch : ChannelRef) :
    (match w.subscribe ch' o with
      | (.registered _, v) => v
      | (.replayed u, v) => v.replay ch' u o).channel? ch = (w.subscribe ch' o).2.channel? ch := by
  rcases subscribe_cases w ch' o with ⟨_, heq⟩ | ⟨v, _, heq⟩ <;> rw [heq]
  rfl

theorem handles_createRoot (spec : RootSpec) :
    Handles (w.callUse? (.createRoot spec)) w (w.createRoot spec) := by
  rw [World.createRoot_eq]
  simp only [callUse?]
  cases hf : spec.fault? with
  | some f => exact .of_same fun _ => rfl
  | none =>
    cases hg : w.registry.register? w.isLive spec.id w.contexts.size with
    | none => exact .of_same fun _ => rfl
    | some g =>
      have henter := handles_enter (w := { w with trees := w.trees.push spec.tree })
        (x := spec.build w.contexts.size w.trees.size) rfl rfl rfl g
      cases hl : spec.link with
      | none => exact henter.congr (fun _ => rfl) fun _ => rfl
      | some s =>
        -- the new context waits at the signal, which was there before
        have hsignal := channel?_enter_signal (w := { w with trees := w.trees.push spec.tree })
          (spec.build w.contexts.size w.trees.size) g s
        have hborn : Handles none w (World.note ((World.enter
            { w with trees := w.trees.push spec.tree } (spec.build w.contexts.size w.trees.size)
              g).push [.returning (.context w.contexts.size) []]) (.joined w.contexts.size .link)) :=
          henter.congr (fun _ => rfl) fun _ => rfl
        exact (hborn.trans (handles_subscribe (.signal s) (.settleLink w.contexts.size)) hsignal).congr
          (fun _ => rfl) (channel?_subscribe _ _)

theorem handles_createChild (parent : ContextNo) (location : Option Location) (handler : Option Nat)
    (correlation : Option String) :
    Handles none w (w.createChild parent location handler correlation) := by
  rw [World.createChild_eq]
  split
  · exact .of_same fun _ => rfl
  · exact .of_same fun _ => rfl
  · rename_i location p _
    dsimp only
    split
    · exact .of_same (channel?_refuseSlot parent)
    · rename_i w' hw'
      have htake := channel?_takeSlot hw'
      split
      · exact .of_same htake
      · rename_i g _
        exact (handles_enter (w := (w'.nextDescendant p.tree).2)
          (x := .child parent p (w'.nextDescendant p.tree).1 location handler correlation)
          rfl rfl rfl g).congr htake fun _ => rfl

theorem handles_error (c : ContextNo) (failure : Option Failure) :
    Handles none w (w.error c failure) := by
  unfold World.error
  split
  · exact .of_same fun _ => rfl
  · dsimp only
    split
    · exact .of_same fun _ => rfl
    · split
      · exact (handles_makeSignal _).congr (channel?_log (w := w.point) _ _) fun _ => rfl
      · refine (handles_makeSignal (w := w.point.modifyContext c fun x =>
          { x with state := .failed }) none).congr ?_ fun _ => rfl
        exact channel?_modifyContext (w := w.point) (f := fun x => { x with state := .failed })
          fun _ => ⟨rfl, rfl, rfl⟩

theorem handles_call (call : Call) : Handles (w.callUse? call) w (w.call call) := by
  cases call with
  | createRoot spec => exact handles_createRoot spec
  | createChild parent location handler correlation => exact handles_createChild _ _ _ _
  | success c result => exact .of_same (channel?_success c result)
  | error c failure => exact handles_error c failure
  | addChild c =>
    refine .of_same fun ch => ?_
    simp only [World.call]
    split
    · rename_i w' hw'
      exact channel?_takeSlot hw' ch
    · exact channel?_refuseSlot c ch
  | childCompleted c => exact .of_same fun _ => rfl
  | subscribe ch label keeps =>
    refine (handles_subscribe ch _).congr (fun _ => rfl) fun ch' => ?_
    simp only [World.call]
    rcases subscribe_cases w ch (label.elim .empty fun label => .client label keeps) with
      ⟨_, heq⟩ | ⟨v, _, heq⟩ <;> rw [heq] <;> rfl
  | unsubscribe ch n =>
    exact (handles_modifyChannel (w := w) (f := fun k => k.unsubscribe n) (u := .unsubscribe n)
      (fun g k => by cases k <;> rfl) ch).congr (fun _ => rfl) (channel?_releaseAll _)
  | fireBefore c r => exact handles_firing fun _ => handles_fireBefore c r
  | fireResponse c r => exact handles_firing fun _ => handles_fireResponse c r
  | fireCompletion c => exact handles_firing fun _ => handles_fireCompletion c
  | fireSignal s r => exact handles_firing fun _ => handles_fireSignal s r
  | wait ch =>
    exact (handles_modifyChannel (w := w) (f := fun k => k.takeNumber) (u := .wait)
      (fun g k => by cases k <;> rfl) ch).congr (fun _ => rfl) fun _ => rfl
  | makeSignal r => exact (handles_makeSignal r).congr (fun _ => rfl) fun _ => rfl
  | hold r => exact .of_same (channel?_hold r)
  | drop r =>
    refine .of_same fun ch => (channel?_releaseAll _ ch).trans ?_
    cases r with
    | context c => exact channel?_rehold (f := (· - 1)) ch
    | signal s => exact channel?_reholdSignal (f := (· - 1)) ch
  | register id c =>
    refine .of_same fun ch => ?_
    simp only [World.call]
    split <;> rfl
  | unregister id c => exact .of_same fun _ => rfl
  | setThreshold level => exact .of_same fun _ => rfl
  | addProcessor c path =>
    exact .of_same (channel?_modifyContext (w := w) (f := fun x => { x with trail := x.trail.add path })
      fun _ => ⟨rfl, rfl, rfl⟩)

theorem handles_settleBy (s : SignalNo) (c : ContextNo) (e : Failure) (result : SignalNo) :
    Handles (some (.signal s, .subscribe (.settleError c e result))) w (w.settleBy s c e result) :=
  (handles_subscribe (w := w.push [.returning (.signal result) [.signal s, .context c]]) (.signal s)
    (.settleError c e result)).congr (fun _ => rfl) (channel?_subscribe _ _)

/-- Nobody comes to wait at a signal that has fired. -/
theorem channel?_settleBy_of_fired {s : SignalNo} {v : Value} (h : w.value? (.signal s) = some v)
    (c : ContextNo) (e : Failure) (result : SignalNo) (ch : ChannelRef) :
    (w.settleBy s c e result).channel? ch = w.channel? ch := by
  refine (channel?_subscribe (w := w.push _) _ _ ch).trans ?_
  rcases subscribe_cases (w.push [.returning (.signal result) [.signal s, .context c]]) (.signal s)
    (.settleError c e result) with ⟨hnone, _⟩ | ⟨u, _, heq⟩
  · cases hnone.symm.trans h
  · rw [heq]
    rfl

theorem handles_handled (a : Handled) : Handles (w.handledUse? a) w (w.handled a) := by
  unfold World.handled handledUse?
  cases hs : w.stack with
  | nil => exact .of_same fun _ => rfl
  | cons f rest =>
    cases f with
    | handler n c e result =>
      cases a with
      | nothing => exact .of_same fun _ => rfl
      | signal s =>
        exact (handles_settleBy s c e result).congr
          (channel?_reholdSignal (w := { w with stack := rest }) (f := (· - 1))) fun _ => rfl
      | threw f =>
        -- the signal made for what was thrown has fired, and nobody comes to wait at it
        have hmade := handles_makeSignal (w := { w with stack := rest }) (some { failure := some f })
        refine hmade.congr (fun _ => rfl) fun ch =>
          channel?_settleBy_of_fired (v := .resolution { failure := some f }) ?_ c e result ch
        simp [value?, World.point, Channel.value?]
    | _ => exact .of_same fun _ => rfl

/-- A move does to channels what it is said to do, and nothing else. -/
theorem handles_move (m : Move) : Handles (w.use? m) w (w.move m) := by
  cases m with
  | advance => exact handles_advance
  | call call => exact handles_call call
  | finish thrown => exact .of_same (channel?_finish thrown)
  | handled a => exact handles_handled a

/-- What has been made stays known. -/
theorem known_lasts {ch : ChannelRef} (h : w.Known ch.owner) (m : Move) : (w.move m).Known ch.owner := by
  obtain ⟨k, hk⟩ := known_iff.1 h
  exact known_iff.2 ⟨_, (handles_move m).old ch k hk⟩

theorem signals_grow (m : Move) {s : SignalNo} (h : s < w.signals.size) :
    s < (w.move m).signals.size := by
  have hknown : w.Known (ChannelRef.signal s).owner := h
  exact known_lasts hknown m

/-- Whoever waits at a channel after a move has waited there before, or has come with the move. -/
theorem observers_move {m : Move} {ch : ChannelRef} {e : UInt64 × Observer}
    (he : e ∈ (w.move m).observers ch) :
    e ∈ w.observers ch ∨ w.use? m = some (ch, .subscribe e.2) := by
  rw [observers_eq] at he ⊢
  cases hk : w.channel? ch with
  | none =>
    cases hk' : (w.move m).channel? ch with
    | none => rw [hk'] at he; cases he
    | some k =>
      rw [hk'] at he
      rcases (handles_move m).fresh ch k hk' hk with rfl | ⟨s, v, rfl, rfl⟩ <;> cases he
  | some k =>
    rw [(handles_move m).old ch k hk] at he
    exact Use.mem_at? he

/-- Who comes to wait at a channel: whoever a client lets wait, a context that has the signal for its
link, or an error whose handler has returned the signal. -/
theorem subscribe_of_use {m : Move} {ch : ChannelRef} {o : Observer}
    (h : w.use? m = some (ch, .subscribe o)) :
    (∃ label keeps, m = .call (.subscribe ch label keeps) ∧
      o = label.elim .empty fun label => .client label keeps) ∨
    (∃ spec s, m = .call (.createRoot spec) ∧ spec.link = some s ∧ ch = .signal s ∧
      o = .settleLink w.contexts.size) ∨
    ∃ n c e result rest s, w.stack = .handler n c e result :: rest ∧ m = .handled (.signal s) ∧
      ch = .signal s ∧ o = .settleError c e result := by
  cases m with
  | finish thrown => cases h
  | advance =>
    simp only [use?, workUse?] at h
    split at h
    · cases h
    · cases h
    · split at h <;> cases h
    · cases h
    · cases h
  | handled a =>
    simp only [use?, handledUse?] at h
    split at h
    · rename_i n c e result rest s hs
      cases h
      exact .inr (.inr ⟨n, c, e, result, rest, s, hs, rfl, rfl, rfl⟩)
    · cases h
  | call call =>
    cases call with
    | createRoot spec =>
      simp only [use?, callUse?] at h
      split at h
      · obtain ⟨s, hs, heq⟩ := Option.map_eq_some_iff.1 h
        cases heq
        exact .inr (.inl ⟨spec, s, rfl, hs, rfl, rfl⟩)
      · cases h
    | subscribe ch' label keeps =>
      cases h
      exact .inl ⟨label, keeps, rfl, rfl⟩
    | _ => cases h

/-- Whoever is taken away from a channel is so by a client. -/
theorem unsubscribe_of_use {m : Move} {ch : ChannelRef} {n : UInt64}
    (h : w.use? m = some (ch, .unsubscribe n)) : m = .call (.unsubscribe ch n) := by
  cases m with
  | finish thrown => cases h
  | advance =>
    simp only [use?, workUse?] at h
    split at h
    · cases h
    · cases h
    · split at h <;> cases h
    · cases h
    · cases h
  | handled a =>
    simp only [use?, handledUse?] at h
    split at h <;> cases h
  | call call =>
    cases call with
    | createRoot spec =>
      simp only [use?, callUse?] at h
      split at h
      · obtain ⟨s, -, heq⟩ := Option.map_eq_some_iff.1 h
        cases heq
      · cases h
    | unsubscribe ch' n' =>
      cases h
      rfl
    | _ => cases h

end World

end FanIn
