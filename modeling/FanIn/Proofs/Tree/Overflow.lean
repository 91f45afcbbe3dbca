import FanIn.Proofs.Tree.Orderly

/-!
# Counters that overflow

A counter that is full wraps to a negative number when one more is added. It is closed then, and for
good: nothing is added to a closed counter and nothing taken off it. So whether a counter has overflowed
can be seen from it at any later time, and if none shows it, none has ever been asked to count too many.

Main statement: `Reachable.bounded`.
-/

namespace FanIn

namespace Ledger

variable {t : Terms} {verdict : Option (ContextNo × Response)} {L L' : Ledger}

/-- The counter of a context. -/
def counter? (L : Ledger) (c : ContextNo) : Option Counter := (L.accounts[c]?).map Account.slots

theorem counter?_congr (h : L'.accounts = L.accounts) (c : ContextNo) :
    L'.counter? c = L.counter? c := by
  unfold counter?
  rw [h]

/-- A change of an account leaves a closed counter alone if it leaves counters alone, or is made only
to an open one. -/
theorem counter?_change {c d : ContextNo} {f : Account → Account} {k : Counter}
    (h : L.counter? c = some k) (hk : k.count ≤ 0)
    (hf : ∀ a, L.accounts[d]? = some a → 0 < a.slots.count ∨ (f a).slots = a.slots) :
    (L.change d f).counter? c = some k := by
  obtain ⟨a, hc, rfl⟩ := Option.map_eq_some_iff.1 h
  unfold counter?
  rw [accounts_change]
  by_cases hd : d = c
  · subst hd
    rcases hf a hc with hpos | hsame
    · omega
    · rw [if_pos rfl, hc, ← hsame]
      rfl
  · rw [if_neg hd, hc]
    rfl

theorem counter?_recount {c d : ContextNo} {a : Account} {slots k : Counter}
    (h : L.counter? c = some k) (hk : k.count ≤ 0) (hd : L.accounts[d]? = some a)
    (hpos : 0 < a.slots.count) : (L.recount d slots).counter? c = some k :=
  counter?_change h hk fun b hb => by
    obtain rfl := Option.some.inj (hb.symm.trans hd)
    exact .inl hpos

theorem counter?_enter {c : ContextNo} {k : Counter} (h : L.counter? c = some k) (a : Account) :
    (L.enter a).counter? c = some k := by
  obtain ⟨b, hc, rfl⟩ := Option.map_eq_some_iff.1 h
  unfold counter?
  rw [accounts_enter, if_neg (Nat.ne_of_lt (List.getElem?_eq_some_iff.1 hc).1), hc]
  rfl

/-- A closed counter stays as it is. -/
theorem Step.closed (h : Step t verdict L L') {c : ContextNo} {k : Counter}
    (hc : L.counter? c = some k) (hk : k.count ≤ 0) : L'.counter? c = some k := by
  cases h with
  | root => exact counter?_enter hc _
  | @linked _ s _ =>
    rw [counter?_congr (accounts_entrust (L.enter { link := some s, slots := .start 2 }) s _)]
    exact counter?_enter hc _
  | child hp hadd _ => exact counter?_enter (counter?_recount hc hk hp (Counter.count_tryAdd hadd).1) _
  | rejected hp hadd _ => exact counter?_recount hc hk hp (Counter.count_tryAdd hadd).1
  | join hd hadd _ => exact counter?_recount hc hk hd (Counter.count_tryAdd hadd).1
  | leave _ _ => exact hc
  | @decide _ d a r _ _ _ =>
    exact counter?_change (d := d) (f := fun a => { a with state := r.state }) hc hk fun _ _ => .inr rfl
  | signal _ => exact hc
  | settle _ =>
    rw [counter?_congr (accounts_entrust _ _ _)]
    exact hc
  | resolve _ _ => exact hc
  | @before _ d r _ =>
    exact counter?_change (f := fun a => { a with before := a.before.or (some r) }) hc hk
      fun _ _ => .inr rfl
  | @answer L d r =>
    have hmid : L.counter? c = some k := hc
    exact counter?_change (d := d) (f := fun a => { a with response := a.response.or (some r) }) hmid hk
      fun _ _ => .inr rfl
  | @release L d share a last slots hd hr =>
    have hmid : L.counter? c = some k := hc
    rw [counter?_congr (accounts_release L d share slots last)]
    exact counter?_recount hmid hk hd (Counter.count_release hr).1
  | refuse _ _ => exact hc
  | @complete _ d queue a _ _ =>
    rw [counter?_congr (accounts_complete L d queue a.parent)]
    exact counter?_change (f := fun a => { a with isComplete := true }) hc hk fun _ _ => .inr rfl
  | abandon _ => exact hc

theorem Steps.closed (h : Steps t verdict L L') {c : ContextNo} {k : Counter}
    (hc : L.counter? c = some k) (hk : k.count ≤ 0) : L'.counter? c = some k := by
  induction h with
  | refl => exact hc
  | tail _ hstep ih => exact hstep.closed ih hk

theorem counter?_of_change {c d : ContextNo} {f : Account → Account} {k : Counter}
    (h : (L.change d f).counter? c = some k) :
    L.counter? c = some k ∨ ∃ a, L.accounts[c]? = some a ∧ d = c ∧ (f a).slots = k := by
  obtain ⟨b, hb, rfl⟩ := Option.map_eq_some_iff.1 h
  rw [accounts_change] at hb
  split at hb
  · rename_i hd
    obtain ⟨a, ha, rfl⟩ := Option.map_eq_some_iff.1 hb
    exact .inr ⟨a, ha, hd, rfl⟩
  · exact .inl (Option.map_eq_some_iff.2 ⟨b, hb, rfl⟩)

/-- What an account says beside its counter does not matter. -/
theorem counter?_of_change_same {c d : ContextNo} {f : Account → Account} {k : Counter}
    (hf : ∀ a, (f a).slots = a.slots) (h : (L.change d f).counter? c = some k) :
    L.counter? c = some k := by
  rcases counter?_of_change h with hold | ⟨a, ha, _, hk⟩
  · exact hold
  · exact Option.map_eq_some_iff.2 ⟨a, ha, (hf a).symm.trans hk⟩

/-- Taking a slot brings no counter to zero. -/
theorem counter?_of_taken {c d : ContextNo} {a : Account} {slots k : Counter}
    (hadd : a.slots.tryAdd = some slots) (h : (L.recount d slots).counter? c = some k)
    (h0 : k.count = 0) : L.counter? c = some k := by
  rcases counter?_of_change h with hold | ⟨_, _, _, hk⟩
  · exact hold
  · obtain rfl : slots = k := hk
    obtain ⟨hpos, hone | ⟨_, hneg⟩⟩ := Counter.count_tryAdd hadd <;> omega

/-- No context is new with a counter at zero. -/
theorem counter?_of_enter {c : ContextNo} {a : Account} {k : Counter} (ha : a.slots.count ≠ 0)
    (h : (L.enter a).counter? c = some k) (h0 : k.count = 0) : L.counter? c = some k := by
  obtain ⟨b, hb, rfl⟩ := Option.map_eq_some_iff.1 h
  rw [accounts_enter] at hb
  split at hb
  · obtain rfl := Option.some.inj hb
    exact absurd h0 ha
  · exact Option.map_eq_some_iff.2 ⟨b, hb, rfl⟩

/-- A counter reaches zero when a slot is given up, and that puts its context into the queue. -/
theorem Step.emptied (h : Step t verdict L L') {c : ContextNo} {k : Counter}
    (hc : L'.counter? c = some k) (h0 : k.count = 0) : L.counter? c = some k ∨ c ∈ L'.queue := by
  have hone : (Counter.start 1).count ≠ 0 := by decide
  cases h with
  | root => exact .inl (counter?_of_enter hone hc h0)
  | @linked _ s _ =>
    have htwo : (Counter.start 2).count ≠ 0 := by decide
    rw [counter?_congr (accounts_entrust (L.enter { link := some s, slots := .start 2 }) s _)] at hc
    exact .inl (counter?_of_enter htwo hc h0)
  | child _ hadd _ => exact .inl (counter?_of_taken hadd (counter?_of_enter hone hc h0) h0)
  | rejected _ hadd _ => exact .inl (counter?_of_taken hadd hc h0)
  | join _ hadd _ => exact .inl (counter?_of_taken hadd hc h0)
  | leave _ _ => exact .inl hc
  | @decide _ d a r _ _ _ =>
    exact .inl (counter?_of_change_same (d := d) (f := fun a => { a with state := r.state })
      (fun _ => rfl) hc)
  | signal _ => exact .inl hc
  | settle _ =>
    rw [counter?_congr (accounts_entrust _ _ _)] at hc
    exact .inl hc
  | resolve _ _ => exact .inl hc
  | @before _ d r _ =>
    exact .inl (counter?_of_change_same (f := fun a => { a with before := a.before.or (some r) })
      (fun _ => rfl) hc)
  | @answer L d r =>
    have hmid : (L.change d fun a => { a with response := a.response.or (some r) }).counter? c =
      some k := hc
    exact .inl (counter?_of_change_same (f := fun a => { a with response := a.response.or (some r) })
      (fun _ => rfl) hmid)
  | @release L d share a last slots hd hr =>
    rw [counter?_congr (accounts_release L d share slots last)] at hc
    rcases counter?_of_change hc with hold | ⟨_, _, rfl, hk⟩
    · exact .inl hold
    · -- the slot that was given up was the last one
      obtain rfl : slots = k := hk
      rw [queue_release, if_pos ((Counter.count_release hr).2.2.2 h0)]
      exact .inr (List.mem_append_right _ (List.mem_singleton_self d))
  | refuse _ _ => exact .inl hc
  | @complete _ d queue a _ _ =>
    rw [counter?_congr (accounts_complete L d queue a.parent)] at hc
    exact .inl (counter?_of_change_same (f := fun a => { a with isComplete := true }) (fun _ => rfl) hc)
  | abandon _ => exact .inl hc

theorem Deals.emptied (h : Deals t verdict L L') {c : ContextNo} {k : Counter}
    (hc : L'.counter? c = some k) (h0 : k.count = 0) : L.counter? c = some k ∨ c ∈ L'.queue := by
  induction h with
  | refl => exact .inl hc
  | tail _ hdeal ih =>
    rcases hdeal.step.emptied hc h0 with hold | hqueued
    · exact (ih hold).imp id fun hqueued => hdeal.queue.subset hqueued
    · exact .inr hqueued

theorem Dealt.emptied (h : Dealt t verdict L L') {c : ContextNo} {k : Counter}
    (hc : L'.counter? c = some k) (h0 : k.count = 0) : L.counter? c = some k ∨ c ∈ L'.queue :=
  h.elim (fun hdeals => hdeals.emptied hc h0) fun hstep => hstep.emptied hc h0

/-- The counter of a context has overflowed. -/
def Overflowed (L : Ledger) (c : ContextNo) : Prop := ∃ k, L.counter? c = some k ∧ k.count < 0

theorem Overflowed.enter {c : ContextNo} (h : L.Overflowed c) (a : Account) :
    (L.enter a).Overflowed c := by
  obtain ⟨k, hc, hneg⟩ := h
  exact ⟨k, counter?_enter hc a, hneg⟩

/-- A counter that has overflowed has overflowed for good. -/
theorem Steps.overflowed (h : Steps t verdict L L') {c : ContextNo} (hc : L.Overflowed c) :
    L'.Overflowed c := by
  obtain ⟨k, hc, hneg⟩ := hc
  exact ⟨k, h.closed hc (Int.le_of_lt hneg), hneg⟩

end Ledger

namespace World

open Ledger

variable {t : Terms} {w w' : World}

theorem counter?_of {c : ContextNo} {x : Context} (h : w.contexts[c]? = some x) :
    w.ledger.counter? c = some x.slots := by
  unfold counter?
  rw [account_of h]
  rfl

/-- No counter has overflowed. -/
def inRange (w : World) : Bool := w.contexts.all fun x => 0 ≤ x.slots.pending

theorem inRange_iff : w.inRange = true ↔ ∀ c, ¬ w.ledger.Overflowed c := by
  have hnonneg : ∀ x : Context, 0 ≤ x.slots.pending ↔ ¬ x.slots.count < 0 := by
    intro x
    rw [Int32.le_iff_toInt_le, not_lt]
    rfl
  unfold inRange
  simp only [Array.all_eq_true, decide_eq_true_eq, hnonneg]
  constructor
  · rintro h c ⟨k, hk, hneg⟩
    obtain ⟨a, ha, rfl⟩ := Option.map_eq_some_iff.1 hk
    rw [accounts_ledger] at ha
    obtain ⟨x, hx, rfl⟩ := Option.map_eq_some_iff.1 ha
    obtain ⟨hlt, rfl⟩ := Array.getElem?_eq_some_iff.1 hx
    exact h c hlt hneg
  · intro h c hlt hneg
    exact h c ⟨_, counter?_of (Array.getElem?_eq_getElem hlt), hneg⟩

/-- In range, every counter counts. -/
theorem nonneg_of_inRange (h : w.inRange = true) {c : ContextNo} {x : Context}
    (hx : w.contexts[c]? = some x) : 0 ≤ x.slots.count := by
  have hnot := inRange_iff.1 h c
  by_contra hneg
  exact hnot ⟨_, counter?_of hx, not_le.1 hneg⟩

/-- A counter without room is full, and one more makes it overflow. -/
theorem overflowed_of_full {c : ContextNo} (hroom : w.hasRoom c = false) (share : Share) :
    ∃ w', w.takeSlot c share = some w' ∧ w'.ledger.Overflowed c := by
  obtain ⟨x, hx, hfull⟩ : ∃ x, w.contexts[c]? = some x ∧ x.slots.count = 2 ^ 31 - 1 := by
    unfold hasRoom at hroom
    cases hx : w.contexts[c]? with
    | none =>
      rw [hx] at hroom
      cases hroom
    | some x =>
      refine ⟨x, rfl, ?_⟩
      have hnot : ¬ x.slots.pending < Int32.maxValue := by simpa [hx] using hroom
      have hmax : Int32.maxValue.toInt = 2 ^ 31 - 1 := by decide
      rw [Int32.lt_iff_toInt_lt, hmax] at hnot
      have hlt := x.slots.count_lt
      unfold Counter.count at hlt ⊢
      omega
  obtain ⟨slots, hadd⟩ : ∃ slots, x.slots.tryAdd = some slots :=
    ⟨_, if_pos (Counter.isOpen_iff.2 (by omega))⟩
  obtain ⟨_, hcount⟩ := Counter.count_tryAdd hadd
  have hlt := slots.count_lt
  have hneg : slots.count < 0 := by omega
  have hget : (w.modifyContext c fun x => { x with slots := slots }).contexts[c]? =
      some { x with slots := slots } := by
    rw [getElem?_modifyContext, if_pos rfl, hx]
    rfl
  refine ⟨((w.modifyContext c fun x => { x with slots := slots }).point).note (.joined c share), ?_,
    _, counter?_of hget, hneg⟩
  unfold takeSlot
  rw [hx, Option.bind_some, hadd]
  rfl

/-- A participant that cannot be counted makes a counter overflow. -/
theorem overflowed_of_addChild {c : ContextNo} (hroom : w.hasRoom c = false) :
    (w.call (.addChild c)).ledger.Overflowed c := by
  obtain ⟨w', hslot, hover⟩ := overflowed_of_full hroom .participant
  simp only [World.call, hslot]
  exact hover

/-- So does a child, even one whose id is in use. -/
theorem overflowed_of_createChild {c : ContextNo} (hroom : w.hasRoom c = false) (location : Location)
    (handler : Option Nat) (correlation : Option String) :
    (w.call (.createChild c (some location) handler correlation)).ledger.Overflowed c := by
  obtain ⟨w', hslot, hover⟩ := overflowed_of_full hroom (.child w.contexts.size)
  obtain ⟨x, _, hx, _⟩ := takeSlot_eq_some hslot
  simp only [World.call, World.createChild_eq, hx, hslot]
  split
  · exact hover
  · rename_i g _
    have hmid : (w'.nextDescendant x.tree).2.ledger.Overflowed c := hover
    show (World.enter _ _ g).ledger.Overflowed c
    rw [ledger_enter]
    exact hmid.enter _

/-- On terms that let counters overflow, a move keeps to those that do not unless one does. -/
theorem allows_of_inRange (h : w.Orderly t) {m : Move} (hm : (within t).allows w m = true)
    (hr : (w.move m).inRange = true) :
    w.inRange = true ∧ (within { t with bounded := true }).allows w m = true := by
  rw [inRange_iff] at hr
  constructor
  · exact inRange_iff.2 fun c hc => hr c ((h.steps hm).overflowed hc)
  · obtain ⟨hallows, hkeeps⟩ := Bool.and_eq_true_iff.1 hm
    refine Bool.and_eq_true_iff.2 ⟨hallows, ?_⟩
    cases m with
    | call call =>
      cases call with
      | addChild c =>
        by_contra hfull
        have hroom : w.hasRoom c = false := by simpa [keepsTo] using hfull
        exact hr c (overflowed_of_addChild hroom)
      | createChild c location handler correlation =>
        by_contra hfull
        obtain ⟨hloc, hroom⟩ : ¬ location = none ∧ w.hasRoom c = false := by
          simpa [keepsTo] using hfull
        obtain ⟨l, rfl⟩ := Option.ne_none_iff_exists'.1 hloc
        exact hr c (overflowed_of_createChild hroom l handler correlation)
      | _ => exact hkeeps
    | _ => exact hkeeps

/-- A run in which no counter has overflowed is one whose clients have seen to that. -/
theorem legal_of_inRange {threshold : Log.Level} {moves : List Move}
    (h : (within t).legal (start threshold) moves = true)
    (hr : ((within t).run (start threshold) moves).inRange = true) :
    (within { t with bounded := true }).legal (start threshold) moves = true := by
  have hboth := (within t).run_induction (s := start threshold)
    (P := fun moves w => w.Orderly t ∧
      (w.inRange = true → (within { t with bounded := true }).legal (start threshold) moves = true))
    ⟨orderly_start threshold, fun _ => rfl⟩ ?_ h
  · exact hboth.2 hr
  · rintro moves m ⟨horder, ih⟩ hm
    refine ⟨horder.move hm, fun hr => ?_⟩
    obtain ⟨hold, hallows⟩ := allows_of_inRange horder hm hr
    rw [Machine.legal_append, ih hold]
    show (_ && true) = true
    rw [Bool.and_true]
    exact hallows

/-- Where no counter has overflowed, clients have kept to the terms that exclude it. -/
theorem Reachable.bounded (h : w.Reachable t) (hr : w.inRange = true) :
    w.Reachable { t with bounded := true } := by
  obtain ⟨threshold, moves, hlegal, rfl⟩ := h
  exact ⟨threshold, moves, legal_of_inRange hlegal hr, rfl⟩

end World

end FanIn
