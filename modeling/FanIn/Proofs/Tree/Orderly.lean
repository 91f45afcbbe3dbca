import FanIn.Proofs.Tree.Dealings
import FanIn.Proofs.Tree.Lasting
import FanIn.Proofs.Tree.Values

/-!
# Every reachable world is orderly

All that holds of a world while clients keep to terms: its stack has its shape, it is tidy, and its
books are sound. A legal move keeps all of it, each part with the help of the others. What exists
does so because the stack has its shape; the stack has its shape because slots can be given up; and
slots can be given up because the books are sound.

Main statements: `Orderly.move` and `Reachable.orderly`.
-/

namespace FanIn.World

open Stack

/-- Whether a context is complete. Where clients fire no channels of contexts, the library has told the
completions of just these. -/
def completed (w : World) (c : ContextNo) : Bool := w.isFired (.completion c)

theorem completed_of_getElem? {w : World} {c : ContextNo} {x : Context}
    (hx : w.contexts[c]? = some x) : w.completed c = x.isComplete := by
  unfold completed isFired value? Context.isComplete Channel.isFired
  simp [hx]

/-- What holds of a world on terms `t`. -/
structure Orderly (t : Terms) (w : World) : Prop where
  order : w.Ordered t
  tidy : w.Tidy w.completed
  sound : w.ledger.Sound t
  pledged : w.ledger.Pledged

variable {t : Terms} {w w' : World}

/-! ## Legal moves -/

theorem turn_of_call {call : Call} (h : w.allows (.call call) = true) : w.isClientsTurn = true := by
  cases call <;> simp only [allows, Bool.and_eq_true] at h <;> exact h.1

/-- What a call uses is held. -/
theorem held_of_call {call : Call} (h : w.allows (.call call) = true) {r : Ref}
    (hr : r ∈ call.uses) : 0 < w.holders r := by
  cases call with
  | hold r => cases hr
  | unsubscribe ch n => cases hr
  | _ =>
    simp only [allows, Bool.and_eq_true] at h
    simpa using List.all_eq_true.1 h.2 r hr

/-- What a client takes a reference to exists. -/
theorem live_of_hold {r : Ref} (h : w.allows (.call (.hold r)) = true) : w.isLiveRef r = true := by
  simp only [allows, Bool.and_eq_true] at h
  exact h.2

/-- A client removes only observers of its own. -/
theorem clients_of_unsubscribe {ch : ChannelRef} {n : UInt64}
    (h : w.allows (.call (.unsubscribe ch n)) = true) :
    (w.observer? ch n).all Observer.isClients = true := by
  simp only [allows, Bool.and_eq_true] at h
  exact h.2

theorem observer_of_finish {thrown : Option Failure} (h : w.allows (.finish thrown) = true) :
    ∃ ch l v rest, w.stack = .observer ch l v :: rest := by
  simp only [allows] at h
  split at h
  · rename_i ch l v rest hs
    exact ⟨ch, l, v, rest, hs⟩
  · cases h

theorem handler_of_handled {a : Handled} (h : w.allows (.handled a) = true) :
    (∃ n c e s rest, w.stack = .handler n c e s :: rest) ∧ ∀ r ∈ a.uses, 0 < w.holders r := by
  simp only [allows] at h
  split at h
  · rename_i n c e s rest hs
    exact ⟨⟨n, c, e, s, rest, hs⟩, fun r hr => by simpa using List.all_eq_true.1 h r hr⟩
  · cases h

/-- Only the library goes on where it is not the client's turn. -/
theorem advance_of_allows {m : Move} (hm : w.allows m = true) {f : Frame} {rest : List Frame}
    (hs : w.stack = f :: rest) (hf : f.isClients = false) : m = .advance := by
  cases m with
  | advance => rfl
  | call call =>
    have hturn := clients_of_turn (turn_of_call hm)
    rw [hs] at hturn
    cases hf.symm.trans hturn
  | finish thrown =>
    obtain ⟨ch, l, v, rest', hs'⟩ := observer_of_finish hm
    cases hs.symm.trans hs'
    cases hf
  | handled a =>
    obtain ⟨⟨n, c, e, s, rest', hs'⟩, _⟩ := handler_of_handled hm
    cases hs.symm.trans hs'
    cases hf

theorem eq_advance {m : Move} (hm : (within t).allows w m = true) {f : Frame} {rest : List Frame}
    (hs : w.stack = f :: rest) (hf : f.isClients = false) : m = .advance :=
  advance_of_allows (Bool.and_eq_true_iff.1 hm).1 hs hf

/-- Terms exclude that a client fires a channel of a context. -/
theorem fires_not_of_keepsTo {call : Call} (h : w.keepsTo t (.call call) = true) (c : ContextNo)
    (r : Response) :
    call ≠ .fireBefore c r ∧ call ≠ .fireResponse c r ∧ call ≠ .fireCompletion c := by
  refine ⟨?_, ?_, ?_⟩ <;> rintro rfl <;> cases h

theorem Tidy.held_live {told : ContextNo → Bool} (h : w.Tidy told) {r : Ref}
    (hr : 0 < w.holders r) : w.isLiveRef r = true :=
  h.live r (.inl hr)

/-! ## Moves -/

/-- On the client's turn no slot is about to be given up. -/
theorem Ordered.inOrder (h : w.Ordered t) (hc : Clients w.stack) : w.InOrder t := by
  rcases h with h | ⟨c, share, rest, hs, _⟩
  · exact h
  · rw [hs] at hc
    cases hc

/-- A slot is given up when that is due, and then the stack is in order. -/
theorem Ordered.advance (h : w.Ordered t)
    (hfail : ∀ c p rest, w.stack = .told c (some p) :: rest → t.strict = true →
      ((w.contexts[p]?).bind fun x => x.slots.release) ≠ none) : w.advance.Ordered t := by
  left
  rcases h with h | ⟨c, share, rest, hs, hcalm, _, hrest⟩
  · exact inOrder_advance h hfail
  · unfold World.advance
    rw [hs]
    exact hrest.giveUpSlot hcalm c share

/-- On strict terms a slot that is about to be given up can be. -/
theorem Orderly.due_ne_none (h : w.Orderly t) (ht : t.strict = true) {f : Frame} {rest : List Frame}
    (hs : w.stack = f :: rest) {c : ContextNo} {share : Share} (hf : f.dues = {.slot c share})
    (hl : w.isLive c = true) : ((w.contexts[c]?).bind fun x => x.slots.release) ≠ none := by
  obtain ⟨x, hx, _⟩ := exists_of_isLive hl
  rw [hx]
  have hpop := ledger_pop_owe hs hf
  have hunstuck := h.sound.unstuck ht
  have hbalanced := h.sound.balanced (Bool.and_eq_true_iff.1 ht).1
  rw [hpop] at hunstuck hbalanced
  have hacc : (World.ledger { w with stack := rest }).accounts[c]? = some x.account := account_of hx
  have hopen := hunstuck.release_ne_none hbalanced hacc
  exact hopen

/-- A parent can always be told. -/
theorem Orderly.release_ne_none (h : w.Orderly t) {c p : ContextNo} {rest : List Frame}
    (hs : w.stack = .told c (some p) :: rest) (ht : t.strict = true) :
    ((w.contexts[p]?).bind fun x => x.slots.release) ≠ none := by
  refine h.due_ne_none ht hs rfl ?_
  apply h.tidy.frame_live (f := .told c (some p)) (r := .context p)
  · rw [hs]
    exact List.mem_cons_self
  · simp [Frame.refs]

/-- The first context of the queue is not complete. -/
theorem Orderly.head_open (h : w.Orderly t) {c : ContextNo} {q : List ContextNo} {x : Context}
    (hq : w.queue = some (c :: q)) (hx : w.contexts[c]? = some x) : x.isComplete = false := by
  have hmem : c ∈ w.ledger.queue := by
    show c ∈ w.queue.getD []
    rw [hq]
    exact List.mem_cons_self
  obtain ⟨a, ha, _, hopen⟩ := h.sound.sane.queued c hmem
  rw [accounts_ledger, hx] at ha
  obtain rfl := Option.some.inj ha
  exact hopen

/-- The library has not told the completion of the first context of the queue. -/
theorem Orderly.head_untold (h : w.Orderly t) {c : ContextNo} {q : List ContextNo}
    (hq : w.queue = some (c :: q)) : w.completed c = false := by
  have hmem : c ∈ w.queue.getD [] := by
    rw [hq]
    exact List.mem_cons_self
  obtain ⟨x, hx, _⟩ := exists_of_isLive (h.tidy.queue_live hmem)
  rw [completed_of_getElem? hx]
  exact h.head_open hq hx

/-- Whatever a legal move does, the books change as they may. -/
theorem Orderly.dealt (h : w.Orderly t) {m : Move} (hm : (within t).allows w m = true) :
    Ledger.Dealt t m.verdict? w.ledger (w.move m).ledger := by
  obtain ⟨hallows, hkeeps⟩ := Bool.and_eq_true_iff.1 hm
  cases m with
  | advance => exact dealt_advance h.tidy h.order (fun c q hq => h.head_untold hq) h.sound.sane
  | call call =>
    have hin := h.order.inOrder (clients_of_turn (turn_of_call hallows))
    refine .inl (deals_call hin.leaving call
      (fun r hr => h.tidy.held_live (held_of_call hallows hr)) ?_ hkeeps)
    rintro ch n rfl
    exact clients_of_unsubscribe hallows
  | finish thrown =>
    show Ledger.Dealt t _ w.ledger (w.finish thrown).ledger
    rw [ledger_finish]
    exact .inl .refl
  | handled a =>
    exact .inl (deals_handled h.tidy fun r hr =>
      h.tidy.held_live ((handler_of_handled hallows).2 r hr))

/-- The books change by steps of the books alone. -/
theorem Orderly.steps (h : w.Orderly t) {m : Move} (hm : (within t).allows w m = true) :
    Ledger.Steps t m.verdict? w.ledger (w.move m).ledger := (h.dealt hm).steps

/-- A legal move leaves the stack in order. -/
theorem Orderly.move_ordered (h : w.Orderly t) {m : Move} (hm : (within t).allows w m = true) :
    (w.move m).Ordered t := by
  obtain ⟨hallows, hkeeps⟩ := Bool.and_eq_true_iff.1 hm
  cases m with
  | advance => exact h.order.advance fun c p rest hs ht => h.release_ne_none hs ht
  | call call =>
    have hturn := clients_of_turn (turn_of_call hallows)
    exact ordered_call (h.order.inOrder hturn) hturn call
      (fun c hc => h.tidy.held_live (held_of_call hallows hc)) (fires_not_of_keepsTo hkeeps)
  | finish thrown =>
    obtain ⟨ch, l, v, rest, hs⟩ := observer_of_finish hallows
    exact .inl (inOrder_finish (h.order.inOrder (by rw [hs]; rfl)) thrown)
  | handled a =>
    obtain ⟨⟨n, c, e, s, rest, hs⟩, _⟩ := handler_of_handled hallows
    exact .inl (inOrder_handled (h.order.inOrder (by rw [hs]; rfl)) a)

/-- A move leaves the world tidy, if what it is about exists. -/
theorem tidy_move {told : ContextNo → Bool} (h : w.Tidy told) (hnew : told w.contexts.size = false)
    (hlive : ∀ f rest, w.stack = f :: rest → ∀ r ∈ f.subjects, w.isLiveRef r = true)
    (hq : ∀ c q, w.queue = some (c :: q) → told c = false) {m : Move} (hm : w.allows m = true) :
    (w.move m).Tidy (w.toldAfter told m) := by
  cases m with
  | advance => exact tidy_advance h hlive hq
  | call call =>
    refine tidy_call h hnew call ?_
    rintro r (hr | rfl)
    · exact h.held_live (held_of_call hm hr)
    · exact live_of_hold hm
  | finish thrown => exact tidy_finish h thrown
  | handled a => exact tidy_handled h fun r hr => h.held_live ((handler_of_handled hm).2 r hr)

/-- A completion is fired by the library, which tells it, or by a client. -/
theorem completed_of_move {m : Move} {c : ContextNo} (h : (w.move m).completed c = true) :
    w.completed c = true ∨
      (m = .advance ∧ (∃ rest, w.stack = .climb :: rest) ∧ ∃ q, w.queue = some (c :: q)) ∨
        m = .call (.fireCompletion c) := by
  obtain ⟨v, hv⟩ := Option.isSome_iff_exists.1 h
  cases hold : w.value? (.completion c) with
  | some u => exact .inl (Option.isSome_iff_exists.2 ⟨u, hold⟩)
  | none =>
    right
    have huse := use_of_value? hv hold nofun
    cases m with
    | advance =>
      simp only [use?, workUse?] at huse
      split at huse <;> try cases huse
      rename_i rest hs
      split at huse <;> cases huse
      exact .inl ⟨rfl, ⟨rest, hs⟩, _, ‹_›⟩
    | call call =>
      cases call with
      | fireCompletion d =>
        simp only [use?, callUse?, Option.some.injEq, Prod.mk.injEq, ChannelRef.completion.injEq] at huse
        exact .inr (huse.1 ▸ rfl)
      | createRoot spec =>
        simp only [use?, callUse?] at huse
        split at huse
        · obtain ⟨s, _, heq⟩ := Option.map_eq_some_iff.1 huse
          cases heq
        · cases huse
      | _ => cases huse
    | finish thrown => cases huse
    | handled a =>
      simp only [use?, handledUse?] at huse
      split at huse <;> cases huse

/-- Where clients fire no completions, those that the library tells are all that there are. -/
theorem completed_move {m : Move} (hk : w.keepsTo t m = true)
    (hq : ∀ c q, w.queue = some (c :: q) → w.isLive c = true) (c : ContextNo) :
    (w.move m).completed c = w.toldAfter w.completed m c := by
  rw [Bool.eq_iff_iff, toldAfter_eq_true]
  constructor
  · intro hfired
    rcases completed_of_move hfired with hold | hclimb | rfl
    · exact .inl hold
    · exact .inr hclimb
    · cases hk
  · rintro (hold | ⟨rfl, ⟨rest, hs⟩, q, hqueue⟩)
    · exact isFired_lasts hold m
    · obtain ⟨x, hx, _⟩ := exists_of_isLive (hq c q hqueue)
      refine isFired_of_use (v := .done) ?_ (lt_of_getElem?_eq_some hx)
      simp only [use?, workUse?, hs, hqueue]

/-- A legal move leaves the world tidy. -/
theorem Orderly.move_tidy (h : w.Orderly t) {m : Move} (hm : (within t).allows w m = true) :
    (w.move m).Tidy (w.move m).completed := by
  obtain ⟨hallows, hkeeps⟩ := Bool.and_eq_true_iff.1 hm
  have hnew : w.completed w.contexts.size = false := by
    unfold completed isFired value?
    simp
  have hq : ∀ c q, w.queue = some (c :: q) → w.isLive c = true := by
    intro c q hq
    apply h.tidy.queue_live
    rw [hq]
    exact List.mem_cons_self
  have hafter : (w.move m).completed = w.toldAfter w.completed m :=
    funext fun c => completed_move hkeeps hq c
  rw [hafter]
  exact tidy_move h.tidy hnew (fun _ _ hs _ hr => h.order.subjects_live h.tidy hs hr)
    (fun c q hq => h.head_untold hq) hallows

/-- Every legal move keeps a world orderly. -/
theorem Orderly.move (h : w.Orderly t) {m : Move} (hm : (within t).allows w m = true) :
    (w.move m).Orderly t where
  order := h.move_ordered hm
  tidy := h.move_tidy hm
  sound := (h.steps hm).sound h.sound
  pledged := (h.steps hm).pledged h.pledged

/-- Nothing has happened yet. -/
theorem orderly_start (threshold : Log.Level) : (start threshold).Orderly t where
  order := .inl ⟨trivial, rfl⟩
  tidy := by
    constructor
    case live =>
      rintro r (hr | ⟨f, hf, _⟩ | ⟨c, hc, _⟩ | ⟨c, x, hx, _⟩ | ⟨s, x, hx, _⟩)
      · cases r <;> exact absurd hr (Nat.lt_irrefl 0)
      · cases hf
      · cases hc
      · cases hx
      · cases hx
    case contexts => intro c x hx; cases hx
    case frames => intro f hf; cases hf
    case events => intro e he; cases he
  sound := Ledger.sound_empty
  pledged := Ledger.pledged_empty

/-! ## Runs -/

/-- What a run of clients that keep to terms leads to. -/
def Reachable (t : Terms) (w : World) : Prop :=
  ∃ threshold moves, (within t).legal (start threshold) moves = true ∧
    (within t).run (start threshold) moves = w

/-- What holds at the start and is kept by every legal move of an orderly world holds of whatever a run
leads to. -/
theorem Reachable.keeps {P : World → Prop} (h : w.Reachable t)
    (hstart : ∀ threshold, P (start threshold))
    (hmove : ∀ v m, v.Orderly t → (within t).allows v m = true → P v → P (v.move m)) : P w := by
  obtain ⟨threshold, moves, hlegal, rfl⟩ := h
  have hboth := (within t).invariant (P := fun v => v.Orderly t ∧ P v)
    (fun v m hv hm => ⟨hv.1.move hm, hmove v m hv.1 hm hv.2⟩)
    ⟨orderly_start threshold, hstart threshold⟩ hlegal
  exact hboth.2

/-- Every world that a legal run reaches is orderly. -/
theorem Reachable.orderly (h : w.Reachable t) : w.Orderly t :=
  h.keeps orderly_start fun _ _ hv hm _ => hv.move hm

/-- A run can be continued. -/
theorem Reachable.run (h : w.Reachable t) {moves : List Move}
    (hlegal : (within t).legal w moves = true) : ((within t).run w moves).Reachable t := by
  obtain ⟨threshold, first, hfirst, rfl⟩ := h
  refine ⟨threshold, first ++ moves, ?_, (within t).run_append _ _ _⟩
  rw [Machine.legal_append, hfirst, hlegal]
  rfl

theorem Reachable.move (h : w.Reachable t) {m : Move} (hm : (within t).allows w m = true) :
    (w.move m).Reachable t := by
  have hone : (within t).legal w [m] = true := Bool.and_eq_true_iff.2 ⟨hm, rfl⟩
  exact h.run hone

/-- As `Reachable.keeps`, where what is known of reachable worlds is needed. -/
theorem Reachable.induction {P : World → Prop} (h : w.Reachable t)
    (hstart : ∀ threshold, P (start threshold))
    (hmove : ∀ v m, v.Reachable t → (within t).allows v m = true → P v → P (v.move m)) : P w := by
  obtain ⟨threshold, moves, hlegal, rfl⟩ := h
  have hboth := (within t).invariant (P := fun v => v.Reachable t ∧ P v)
    (fun v m hv hm => ⟨hv.1.move hm, hmove v m hv.1 hm hv.2⟩)
    ⟨⟨threshold, [], rfl, rfl⟩, hstart threshold⟩ hlegal
  exact hboth.2

end FanIn.World
