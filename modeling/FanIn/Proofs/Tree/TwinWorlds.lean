import FanIn.Proofs.Tree.Twin

/-!
# Worlds that are twins

Two worlds are twins if everything in them is. The second may have signals that the first does not have:
those that tell of errors that are successes in the first, and those with which handlers have dealt with
such errors at once. On the stack the epilogue of an error may stand for a frame that lets the call of
the first world return. What the two histories have in common are their *gists*: all that happened at the
channels of contexts, in its order, without outcomes and values.

This module has the relation and its small steps: what is noted, logged, pushed, answered, changed in one
place, and the making of a signal in both worlds or in the second alone.
-/

namespace FanIn

open List Stack

/-- How the signals of two worlds correspond. -/
structure Ties where
  /-- The signals that both worlds have: their numbers in the second, in the order of the first. -/
  shared : List SignalNo := []
  /-- Signals that only the second world has. They stand for errors that are successes in the first. -/
  extra : List SignalNo := []
  /-- Signals that have fired, by which handlers answered in the second world alone. -/
  spent : List SignalNo := []

/-- More signals are made. -/
structure Ties.Grow (ν μ : Ties) : Prop where
  shared : ν.shared <+: μ.shared
  extra : ν.extra ⊆ μ.extra
  spent : ν.spent ⊆ μ.spent

namespace Stack

/-- What is left to do for an error of `c` of which the signal `s` is to tell, while in the first world
the same call, which succeeds, is about to return. -/
inductive Epilogue (ν : Ties) (c : ContextNo) (s : SignalNo) : List Frame → Prop
  | returning (answers : List SignalNo) (h : answers ⊆ ν.spent) :
      Epilogue ν c s [.returning (.signal s) (answers.map Ref.signal ++ [.context c])]
  | conclude (e : Failure) (failed : Option (Option Failure)) {rest : List Frame}
      (h : Epilogue ν c s rest) : Epilogue ν c s (.conclude c e failed s :: rest)
  | deliver (ch : ChannelRef) (replay : Bool) (v : Value) {spent : List Observer} {rest : List Frame}
      (hspent : ∀ r ∈ spent.flatMap Observer.refs, r = .context c ∨ r = .signal s)
      (h : Epilogue ν c s rest) : Epilogue ν c s (.deliver ch replay v [] spent :: rest)

/-- The work under way in twins. -/
inductive Twin (ν : Ties) : List Frame → List Frame → Prop
  | nil : Twin ν [] []
  | cons {f f' : Frame} {rest rest' : List Frame} (hf : f.Twin ν.shared f') (h : Twin ν rest rest') :
      Twin ν (f :: rest) (f' :: rest')
  /-- The call of a client succeeds in the first world and fails in the second. -/
  | failed {c : ContextNo} {s : SignalNo} {epilogue rest rest' : List Frame} (hc : Clients rest)
      (hs : s ∈ ν.extra) (he : Epilogue ν c s epilogue) (h : Twin ν rest rest') :
      Twin ν (.returning (.flag true) [.context c] :: rest) (epilogue ++ rest')

end Stack

/-- What two calls came to, or two earlier ones if they have not returned. -/
inductive Results (ν : Ties) (earlier earlier' : Except Failure Reply) :
    Except Failure Reply → Except Failure Reply → Prop
  | unchanged : Results ν earlier earlier' earlier earlier'
  | answered {r r' : Reply} (h : r.Twin ν.shared r') : Results ν earlier earlier' (.ok r) (.ok r')
  | refused (f : Failure) : Results ν earlier earlier' (.error f) (.error f)
  /-- A call that failed in the second world alone. -/
  | failed (r : Except Failure Reply) {s : SignalNo} (hs : s ∈ ν.extra) :
      Results ν earlier earlier' r (.ok (.signal s))

/-! ## Growing ties -/

variable {ν μ : Ties} {old old' : Except Failure Reply}

theorem Stack.Epilogue.mono (hν : ν.Grow μ) {c : ContextNo} {s : SignalNo}
    {frames : List Frame} (h : Epilogue ν c s frames) : Epilogue μ c s frames := by
  induction h with
  | returning answers h => exact .returning answers fun s hs => hν.spent (h hs)
  | conclude e failed _ ih => exact .conclude e failed ih
  | deliver ch replay v hspent _ ih => exact .deliver ch replay v hspent ih

theorem Stack.Twin.mono (hν : ν.Grow μ) {stack stack' : List Frame}
    (h : Stack.Twin ν stack stack') : Stack.Twin μ stack stack' := by
  induction h with
  | nil => exact .nil
  | cons hf _ ih => exact .cons (hf.mono hν.shared) ih
  | failed hc hs he _ ih => exact .failed hc (hν.extra hs) (he.mono hν) ih

theorem Stack.Twin.clients {stack stack' : List Frame} (h : Stack.Twin ν stack stack')
    (hc : Clients stack) : Clients stack' := by
  cases h with
  | nil => trivial
  | cons hf _ => exact hf.isClients.symm.trans hc
  | failed => cases hc

theorem Results.mono (hν : ν.Grow μ) {r r' : Except Failure Reply}
    (h : Results ν old old' r r') : Results μ old old' r r' := by
  cases h with
  | unchanged => exact .unchanged
  | answered h => exact .answered (h.mono hν.shared)
  | refused f => exact .refused f
  | failed r hs => exact .failed r (hν.extra hs)

/-- One more signal is made in both worlds. -/
def Ties.meet (ν : Ties) (s : SignalNo) : Ties := { ν with shared := ν.shared ++ [s] }

/-- One more signal is made in the second world alone. -/
def Ties.gain (ν : Ties) (s : SignalNo) : Ties := { ν with extra := ν.extra ++ [s] }

/-- One more signal that has fired is kept in the second world alone. -/
def Ties.spend (ν : Ties) (s : SignalNo) : Ties := { ν with spent := s :: ν.spent }

theorem Ties.grow_meet (ν : Ties) (s : SignalNo) : ν.Grow (ν.meet s) :=
  ⟨prefix_append _ _, fun _ => id, fun _ => id⟩

theorem Ties.grow_gain (ν : Ties) (s : SignalNo) : ν.Grow (ν.gain s) :=
  ⟨prefix_rfl, subset_append_left _ _, fun _ => id⟩

theorem Ties.grow_spend (ν : Ties) (s : SignalNo) : ν.Grow (ν.spend s) :=
  ⟨prefix_rfl, fun _ => id, subset_cons_self _ _⟩

/-- What an event says but for outcomes, values, and signals. -/
def Event.gist : Event → Option Event
  | logged .. => none
  | handling .. => none
  | observed (.signal _) .. => none
  | observed ch label _ => some (observed ch label .done)
  | replayed (.signal _) .. => none
  | replayed ch label _ => some (replayed ch label .done)
  | fired (.signal _) _ => none
  | fired ch _ => some (fired ch .done)
  | publishing c _ => some (publishing c {})
  | e => some e

namespace World

/-- What happened, but for outcomes, values, and signals. -/
def gists (w : World) : List Event := w.history.toList.filterMap Event.gist

/-- The second world is the first but for outcomes and the numbers of signals. -/
structure Twin (ν : Ties) (old old' : Except Failure Reply) (w v : World) : Prop where
  contexts : ∀ c : ContextNo, Option.Rel (Context.Twin ν.shared) w.contexts[c]? v.contexts[c]?
  known : ν.shared.length = w.signals.size
  signals : ∀ a b : SignalNo, ν.shared[a]? = some b →
    Option.Rel (Signal.Twin ν.shared) w.signals[a]? v.signals[b]?
  names : (ν.shared ++ ν.extra).Nodup
  bound : ∀ s ∈ ν.shared ++ ν.extra, s < v.signals.size
  lonely : ∀ (s : SignalNo) (y : Signal), v.signals[s]? = some y → s ∉ ν.shared →
    y.channel.observers = []
  spent : ∀ s ∈ ν.spent, ∃ y, v.signals[s]? = some y ∧ y.channel.isFired = true
  trees : w.trees = v.trees
  registry : w.registry = v.registry
  queue : w.queue = v.queue
  stack : Stack.Twin ν w.stack v.stack
  reply : Results ν old old' w.reply v.reply
  gists : w.gists = v.gists

variable {w v : World}

theorem gists_note (w : World) (e : Event) : (w.note e).gists = w.gists ++ e.gist.toList := by
  unfold gists note
  rw [Array.toList_push, List.filterMap_append]
  cases he : e.gist with
  | none => simp [he]
  | some g => simp [he]

theorem Twin.context? (h : Twin ν old old' w v) (c : ContextNo) :
    (w.contexts[c]? = none ∧ v.contexts[c]? = none) ∨ ∃ x y, w.contexts[c]? = some x ∧
      v.contexts[c]? = some y ∧ x.Twin ν.shared y := by
  have hc := h.contexts c
  cases hx : w.contexts[c]? with
  | none =>
    rw [hx] at hc
    cases hy : v.contexts[c]? with
    | none => exact .inl ⟨rfl, rfl⟩
    | some y => rw [hy] at hc; cases hc
  | some x =>
    rw [hx] at hc
    cases hy : v.contexts[c]? with
    | none => rw [hy] at hc; cases hc
    | some y =>
      rw [hy] at hc
      cases hc with
      | some hc => exact .inr ⟨x, y, rfl, rfl, hc⟩

/-- A signal of the first world exists, or existed, in both. -/
theorem Twin.signal? (h : Twin ν old old' w v) {a b : SignalNo} (hab : ν.shared[a]? = some b) :
    ∃ x y, w.signals[a]? = some x ∧ v.signals[b]? = some y ∧ x.Twin ν.shared y := by
  have hs := h.signals a b hab
  have ha : a < w.signals.size := h.known ▸ (List.getElem?_eq_some_iff.1 hab).1
  rw [Array.getElem?_eq_getElem ha] at hs
  cases hy : v.signals[b]? with
  | none => rw [hy] at hs; cases hs
  | some y =>
    rw [hy] at hs
    cases hs with
    | some hs => exact ⟨_, y, Array.getElem?_eq_getElem ha, rfl, hs⟩

/-- What is read off a context, if there is one. -/
theorem Twin.elim_context (h : Twin ν old old' w v) (c : ContextNo) {α : Type} {R : α → α → Prop}
    {a : α} (ha : R a a) {f g : Context → α} (hfg : ∀ x y, x.Twin ν.shared y → R (f x) (g y)) :
    R ((w.contexts[c]?).elim a f) ((v.contexts[c]?).elim a g) := by
  rcases h.context? c with ⟨hx, hy⟩ | ⟨x, y, hx, hy, hxy⟩
  · rw [hx, hy]
    exact ha
  · rw [hx, hy]
    exact hfg x y hxy

/-- What is read off a signal. -/
theorem Twin.elim_signal (h : Twin ν old old' w v) {i j : SignalNo} (hij : ν.shared[i]? = some j)
    {α : Type} {R : α → α → Prop} {a : α} {f g : Signal → α}
    (hfg : ∀ x y, x.Twin ν.shared y → R (f x) (g y)) :
    R ((w.signals[i]?).elim a f) ((v.signals[j]?).elim a g) := by
  obtain ⟨x, y, hx, hy, hxy⟩ := h.signal? hij
  rw [hx, hy]
  exact hfg x y hxy

theorem Twin.nodup (h : Twin ν old old' w v) : ν.shared.Nodup := (nodup_append.1 h.names).1

theorem Twin.not_shared (h : Twin ν old old' w v) {s : SignalNo} (hs : s ∈ ν.extra) :
    s ∉ ν.shared := fun hmem => (nodup_append.1 h.names).2.2 s hmem s hs rfl

/-- Every signal of the first world has a number in the second. -/
theorem Twin.exists_name (h : Twin ν old old' w v) {a : SignalNo} {x : Signal}
    (hx : w.signals[a]? = some x) : ∃ b, ν.shared[a]? = some b := by
  have ha : a < ν.shared.length := h.known ▸ lt_of_getElem?_eq_some hx
  exact ⟨_, List.getElem?_eq_getElem ha⟩

theorem Twin.size (h : Twin ν old old' w v) : w.contexts.size = v.contexts.size := by
  have hle {xs ys : Array Context} (hrel : ∀ c : ContextNo, xs[c]? = none → ys[c]? = none) :
      ys.size ≤ xs.size := Array.getElem?_eq_none_iff.1 (hrel _ (Array.getElem?_eq_none_iff.2 le_rfl))
  refine le_antisymm (hle fun c hc => ?_) (hle fun c hc => ?_)
  · rcases h.context? c with ⟨hx, _⟩ | ⟨x, y, _, hy, _⟩
    · exact hx
    · rw [hy] at hc; cases hc
  · rcases h.context? c with ⟨_, hy⟩ | ⟨x, y, hx, _, _⟩
    · exact hy
    · rw [hx] at hc; cases hc

/-! ## Small updates -/

theorem Twin.note (h : Twin ν old old' w v) {e g : Event} (he : e.gist = g.gist) :
    Twin ν old old' (w.note e) (v.note g) :=
  { h with gists := by rw [gists_note, gists_note, h.gists, he] }

theorem Twin.noteRight (h : Twin ν old old' w v) {e : Event} (he : e.gist = none) :
    Twin ν old old' w (v.note e) :=
  { h with gists := by rw [gists_note, h.gists, he]; exact (List.append_nil _).symm }

theorem Twin.noteLeft (h : Twin ν old old' w v) {e : Event} (he : e.gist = none) :
    Twin ν old old' (w.note e) v :=
  { h with gists := by rw [gists_note, h.gists, he]; exact List.append_nil _ }

theorem Twin.logRight (h : Twin ν old old' w v) (l : Log.Level) (m : String) :
    Twin ν old old' w (v.log l m) := by
  unfold World.log
  split
  · exact h.noteRight rfl
  · exact h

theorem Twin.logLeft (h : Twin ν old old' w v) (l : Log.Level) (m : String) :
    Twin ν old old' (w.log l m) v := by
  unfold World.log
  split
  · exact h.noteLeft rfl
  · exact h

theorem Twin.log (h : Twin ν old old' w v) (l l' : Log.Level) (m m' : String) :
    Twin ν old old' (w.log l m) (v.log l' m') := (h.logLeft l m).logRight l' m'

theorem Twin.point (h : Twin ν old old' w v) : Twin ν old old' w.point v.point := { h with }

theorem Twin.pointRight (h : Twin ν old old' w v) : Twin ν old old' w v.point := { h with }

theorem Twin.restack (h : Twin ν old old' w v) {stack stack' : List Frame}
    (hs : Stack.Twin ν stack stack') :
    Twin ν old old' { w with stack := stack } { v with stack := stack' } := { h with stack := hs }

theorem Twin.push (h : Twin ν old old' w v) {frames frames' : List Frame}
    (hf : Forall₂ (Frame.Twin ν.shared) frames frames') :
    Twin ν old old' (w.push frames) (v.push frames') := by
  have hstack : Stack.Twin ν (frames ++ w.stack) (frames' ++ v.stack) := by
    induction hf with
    | nil => exact h.stack
    | cons hf _ ih => exact .cons hf ih
  exact h.restack hstack

theorem Twin.requeue (h : Twin ν old old' w v) (queue : Option (List ContextNo)) :
    Twin ν old old' { w with queue := queue } { v with queue := queue } := { h with queue := rfl }

theorem Twin.answered (h : Twin ν old old' w v) {r r' : Reply} (hr : r.Twin ν.shared r') :
    Twin ν old old' (w.answered r) (v.answered r') := { h with reply := .answered hr }

theorem Twin.refused (h : Twin ν old old' w v) (f : Failure) :
    Twin ν old old' (w.refused f) (v.refused f) := { h with reply := .refused f }

theorem Twin.modifyContext (h : Twin ν old old' w v) (c : ContextNo) {f g : Context → Context}
    (hf : ∀ x y, w.contexts[c]? = some x → x.Twin ν.shared y → (f x).Twin ν.shared (g y)) :
    Twin ν old old' (w.modifyContext c f) (v.modifyContext c g) :=
  { h with
    contexts := fun d => by
      rw [getElem?_modifyContext, getElem?_modifyContext]
      split
      · rename_i hcd
        subst hcd
        rcases h.context? c with ⟨hx, hy⟩ | ⟨x, y, hx, hy, hxy⟩
        · rw [hx, hy]
          exact .none
        · rw [hx, hy]
          exact .some (hf x y hx hxy)
      · exact h.contexts d }

/-- A change of what twins have in common. -/
theorem Twin.adjust (h : Twin ν old old' w v) (c : ContextNo) {g : Context → Context}
    (houtline : ∀ x, (g x).outline = g x.outline)
    (hrest : ∀ x, (g x).state = x.state ∧ (g x).before = x.before ∧ (g x).response = x.response ∧
      (g x).completion = x.completion) :
    Twin ν old old' (w.modifyContext c g) (v.modifyContext c g) :=
  h.modifyContext c fun _ _ _ hxy => hxy.adjust houtline hrest

theorem Twin.modifySignal (h : Twin ν old old' w v) {a b : SignalNo} (hab : ν.shared[a]? = some b)
    {f g : Signal → Signal} (hf : ∀ x y, w.signals[a]? = some x → v.signals[b]? = some y →
      x.Twin ν.shared y → (f x).Twin ν.shared (g y))
    (hg : ∀ y, y.channel.isFired = true → (g y).channel.isFired = true) :
    Twin ν old old' (w.modifySignal a f) (v.modifySignal b g) :=
  { h with
    known := h.known.trans Array.size_modify.symm
    signals := fun a' b' hab' => by
      rw [getElem?_modifySignal, getElem?_modifySignal]
      by_cases ha : a = a'
      · subst ha
        obtain rfl : b = b' := Option.some.inj (hab.symm.trans hab')
        obtain ⟨x, y, hx, hy, hxy⟩ := h.signal? hab
        rw [if_pos rfl, if_pos rfl, hx, hy]
        exact .some (hf x y hx hy hxy)
      · have hb : b ≠ b' := by
          rintro rfl
          have heq := Ref.Twin.injective h.nodup (.signal hab) (.signal hab')
          exact ha (Ref.signal.inj heq)
        rw [if_neg ha, if_neg hb]
        exact h.signals a' b' hab'
    bound := fun s hs => (h.bound s hs).trans_eq Array.size_modify.symm
    lonely := fun s y hy hs => by
      rw [getElem?_modifySignal, if_neg] at hy
      · exact h.lonely s y hy hs
      · rintro rfl
        exact hs (mem_of_getElem? hab)
    spent := fun s hs => by
      obtain ⟨y, hy, hfired⟩ := h.spent s hs
      rw [getElem?_modifySignal, hy]
      split
      · exact ⟨_, rfl, hg y hfired⟩
      · exact ⟨_, rfl, hfired⟩ }

theorem Twin.modifySignalRight (h : Twin ν old old' w v) {s : SignalNo} (hs : s ∉ ν.shared)
    {g : Signal → Signal}
    (hlonely : ∀ y, y.channel.observers = [] → (g y).channel.observers = [])
    (hg : ∀ y, y.channel.isFired = true → (g y).channel.isFired = true) :
    Twin ν old old' w (v.modifySignal s g) :=
  { h with
    signals := fun a b hab => by
      rw [getElem?_modifySignal, if_neg]
      · exact h.signals a b hab
      · rintro rfl
        exact hs (mem_of_getElem? hab)
    bound := fun s hs => (h.bound s hs).trans_eq Array.size_modify.symm
    lonely := fun i y hy hi => by
      rw [getElem?_modifySignal] at hy
      split at hy
      · obtain ⟨y, hy', rfl⟩ := Option.map_eq_some_iff.1 hy
        exact hlonely y (h.lonely i y hy' hi)
      · exact h.lonely i y hy hi
    spent := fun i hi => by
      obtain ⟨y, hy, hfired⟩ := h.spent i hi
      rw [getElem?_modifySignal, hy]
      split
      · exact ⟨_, rfl, hg y hfired⟩
      · exact ⟨_, rfl, hfired⟩ }

/-! ## More signals -/

theorem Twin.spend (h : Twin ν old old' w v) {s : SignalNo} {y : Signal} (hy : v.signals[s]? = some y)
    (hfired : y.channel.isFired = true) : Twin (ν.spend s) old old' w v :=
  { h with
    stack := h.stack.mono (ν.grow_spend s)
    reply := h.reply.mono (ν.grow_spend s)
    spent := fun i hi => by
      rcases mem_cons.1 hi with rfl | hi
      · exact ⟨y, hy, hfired⟩
      · exact h.spent i hi }

/-- A signal is made in both worlds. -/
theorem Twin.addSignal (h : Twin ν old old' w v) {x y : Signal}
    (hxy : x.Twin (ν.meet v.signals.size).shared y) :
    Twin (ν.meet v.signals.size) old old' (w.addSignal x).2 (v.addSignal y).2 :=
  have hgrow := ν.grow_meet v.signals.size
  { h with
    contexts := fun c => by
      rcases h.context? c with ⟨hx, hy⟩ | ⟨x, y, hx, hy, hxy⟩
      · exact hx.symm ▸ hy.symm ▸ .none
      · exact hx.symm ▸ hy.symm ▸ .some (hxy.mono hgrow.shared)
    stack := h.stack.mono hgrow
    reply := h.reply.mono hgrow
    known := by
      show (ν.shared ++ [v.signals.size]).length = (w.signals.push x).size
      rw [length_append, Array.size_push, h.known]
      rfl
    signals := fun a b hab => by
      show Option.Rel _ (w.signals.push x)[a]? (v.signals.push y)[b]?
      rw [Array.getElem?_push, Array.getElem?_push]
      by_cases ha : a = w.signals.size
      · obtain rfl : v.signals.size = b := by
          subst ha
          have hlast : (ν.shared ++ [v.signals.size])[w.signals.size]? = some v.signals.size := by
            rw [← h.known]
            exact List.getElem?_concat_length
          exact Option.some.inj (hlast.symm.trans hab)
        rw [if_pos ha, if_pos rfl]
        exact .some hxy
      · have hlt : a < ν.shared.length := by
          have hle : a < (ν.shared ++ [v.signals.size]).length := (List.getElem?_eq_some_iff.1 hab).1
          rw [length_append] at hle
          exact lt_of_le_of_ne (Nat.lt_succ_iff.1 hle) (h.known ▸ ha)
        have hab' : ν.shared[a]? = some b := by
          rwa [show (ν.meet v.signals.size).shared = ν.shared ++ [v.signals.size] from rfl,
            List.getElem?_append_left hlt] at hab
        obtain ⟨x', y', hx, hy, hxy'⟩ := h.signal? hab'
        rw [if_neg ha, if_neg (lt_of_getElem?_eq_some hy).ne, hx, hy]
        exact .some (hxy'.mono hgrow.shared)
    names := by
      show (ν.shared ++ [v.signals.size] ++ ν.extra).Nodup
      rw [append_assoc]
      exact perm_middle.nodup_iff.2 (nodup_cons.2 ⟨fun hmem => (h.bound _ hmem).false, h.names⟩)
    bound := fun s hs => by
      show s < (v.signals.push y).size
      rw [Array.size_push]
      rcases mem_append.1 hs with hs | hs
      · rcases mem_append.1 hs with hs | hs
        · exact Nat.lt_succ_of_lt (h.bound s (mem_append_left _ hs))
        · exact mem_singleton.1 hs ▸ Nat.lt_succ_self _
      · exact Nat.lt_succ_of_lt (h.bound s (mem_append_right _ hs))
    lonely := fun s z hz hs => by
      have hz' : (v.signals.push y)[s]? = some z := hz
      rw [Array.getElem?_push, if_neg fun heq => hs (mem_append_right _ (mem_singleton.2 heq))] at hz'
      exact h.lonely s z hz' fun hmem => hs (mem_append_left _ hmem)
    spent := fun s hs => by
      obtain ⟨z, hz, hfired⟩ := h.spent s hs
      refine ⟨z, ?_, hfired⟩
      show (v.signals.push y)[s]? = some z
      rw [Array.getElem?_push, if_neg (lt_of_getElem?_eq_some hz).ne]
      exact hz }

/-- A signal is made in the second world alone. -/
theorem Twin.addSignalRight (h : Twin ν old old' w v) {y : Signal} (hy : y.channel.observers = []) :
    Twin (ν.gain v.signals.size) old old' w (v.addSignal y).2 :=
  { h with
    stack := h.stack.mono (ν.grow_gain _)
    reply := h.reply.mono (ν.grow_gain _)
    signals := fun a b hab => by
      show Option.Rel _ w.signals[a]? (v.signals.push y)[b]?
      obtain ⟨x, z, hx, hz, hxz⟩ := h.signal? hab
      rw [Array.getElem?_push, if_neg (lt_of_getElem?_eq_some hz).ne, hx, hz]
      exact .some hxz
    names := by
      show (ν.shared ++ (ν.extra ++ [v.signals.size])).Nodup
      rw [← append_assoc]
      refine (perm_append_singleton _ _).nodup_iff.2 (nodup_cons.2 ⟨fun hmem => ?_, h.names⟩)
      exact (h.bound _ hmem).false
    bound := fun s hs => by
      show s < (v.signals.push y).size
      have hs' : s ∈ (ν.shared ++ ν.extra) ++ [v.signals.size] := by rwa [append_assoc]
      rw [Array.size_push]
      rcases mem_append.1 hs' with hs | hs
      · exact Nat.lt_succ_of_lt (h.bound s hs)
      · exact mem_singleton.1 hs ▸ Nat.lt_succ_self _
    lonely := fun s z hz hs => by
      have hz' : (v.signals.push y)[s]? = some z := hz
      rw [Array.getElem?_push] at hz'
      split at hz'
      · exact Option.some.inj hz' ▸ hy
      · exact h.lonely s z hz' hs
    spent := fun s hs => by
      obtain ⟨z, hz, hfired⟩ := h.spent s hs
      refine ⟨z, ?_, hfired⟩
      show (v.signals.push y)[s]? = some z
      rw [Array.getElem?_push, if_neg (lt_of_getElem?_eq_some hz).ne]
      exact hz }

end World

end FanIn
