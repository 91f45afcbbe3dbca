import Mathlib.Logic.Function.Iterate
import FanIn.Proofs.Tree.Overflow

/-!
# What calls answer

A call that uses no code of a client is over after some steps of the library: it has answered, and what
was under way before it goes on. This is about the two calls that take a slot. They are refused exactly
if the counter of the context is closed.

Main statements: `answers_addChild` and `answers_createChild`.
-/

namespace FanIn.World

open Ledger Stack

variable {t : Terms} {w w' : World}

/-- A call answers, without any code of a client being called before it does. -/
def Answers (w : World) (call : Call) (answer : Except Failure Reply) : Prop :=
  ∃ n, (∀ k < n, (advance^[k] (w.call call)).isClientsTurn = false) ∧
    (advance^[n] (w.call call)).stack = w.stack ∧ (advance^[n] (w.call call)).reply = answer

/-- A call is refused because the state of a context is not such that it could be answered. -/
def Refuses (w : World) (call : Call) : Prop := ∃ text, w.Answers call (.error (.illegalState text))

theorem isClientsTurn_congr (h : w'.stack = w.stack) : w'.isClientsTurn = w.isClientsTurn := by
  unfold isClientsTurn
  rw [h]

/-- A call answers once. -/
theorem Answers.unique {call : Call} {a a' : Except Failure Reply} (hturn : w.isClientsTurn = true)
    (h : w.Answers call a) (h' : w.Answers call a') : a = a' := by
  obtain ⟨n, hn, hs, rfl⟩ := h
  obtain ⟨n', hn', hs', rfl⟩ := h'
  have hfirst : ∀ {i j : Nat}, (advance^[i] (w.call call)).stack = w.stack →
      (∀ k < j, (advance^[k] (w.call call)).isClientsTurn = false) → j ≤ i := by
    intro i j hi hj
    by_contra hlt
    have hbusy := hj i (Nat.lt_of_not_le hlt)
    rw [isClientsTurn_congr hi, hturn] at hbusy
    cases hbusy
  rw [Nat.le_antisymm (hfirst hs' hn) (hfirst hs hn')]

/-- A call that answers at once. -/
theorem answers_at_once {call : Call} {answer : Except Failure Reply}
    (hs : (w.call call).stack = w.stack) (hr : (w.call call).reply = answer) :
    w.Answers call answer := ⟨0, nofun, hs, hr⟩

theorem tryAdd_eq_none {c : Counter} : c.tryAdd = none ↔ c.count ≤ 0 := by
  rw [Counter.tryAdd_eq_none_iff, ← Bool.not_eq_true, Counter.isOpen_iff, not_lt]

theorem takeSlot_eq_none {c : ContextNo} {x : Context} (hx : w.contexts[c]? = some x)
    (share : Share) : w.takeSlot c share = none ↔ x.slots.count ≤ 0 := by
  unfold takeSlot
  rw [hx, Option.bind_some, Option.map_eq_none_iff, tryAdd_eq_none]

theorem reply_refuseSlot (c : ContextNo) :
    (w.refuseSlot c).reply = .error (.alreadyCompleted (w.idOf c)) := rfl

/-- Someone is to take part in a context. -/
theorem answers_addChild {c : ContextNo} {x : Context} (hx : w.contexts[c]? = some x) :
    (x.slots.count ≤ 0 → w.Answers (.addChild c) (.error (.alreadyCompleted (w.idOf c)))) ∧
    (0 < x.slots.count → w.Answers (.addChild c) (.ok .done)) := by
  constructor
  · intro hclosed
    have hnone := (takeSlot_eq_none hx .participant).2 hclosed
    refine answers_at_once ?_ ?_ <;> simp only [World.call, hnone]
    · exact stack_refuseSlot w c
    · exact reply_refuseSlot c
  · intro hopen
    have hsome : w.takeSlot c .participant ≠ none := fun h => by
      have := (takeSlot_eq_none hx .participant).1 h
      omega
    obtain ⟨w', hw'⟩ := Option.ne_none_iff_exists'.1 hsome
    obtain ⟨y, slots, _, _, heq⟩ := takeSlot_eq_some hw'
    refine answers_at_once ?_ ?_ <;> simp only [World.call, hw']
    · rw [heq]
      rfl
    · rfl

/-- A failure that reaches the code of a client is the answer to its call. -/
theorem advance_throwing {f : Failure} {rest : List Frame} (hs : w.stack = .throwing f :: rest)
    (hc : Clients rest) : w.advance = World.refused { w with stack := rest } f := by
  unfold World.advance
  rw [hs]
  cases rest with
  | nil => rfl
  | cons g below =>
    cases g with
    | observer ch l v => rfl
    | handler n c e s => rfl
    | _ => cases hc

/-- A slot that leaves others is given up, and nothing follows from that. -/
theorem advance_giveUp_eq {c : ContextNo} {share : Share} {rest : List Frame} {y : Context} {slots : Counter}
    (hs : w.stack = .giveUp c share :: rest) (hy : w.contexts[c]? = some y)
    (hrel : y.slots.release = some (false, slots)) :
    w.advance = { ((w.modifyContext c fun x => { x with slots := slots }).point).note (.left c share) with
      stack := rest } := by
  unfold World.advance
  rw [hs]
  simp only [World.giveUpSlot, hy, Option.bind_some, hrel]
  rfl

theorem advance_giveUp {c : ContextNo} {share : Share} {rest : List Frame} {y : Context}
    (hs : w.stack = .giveUp c share :: rest) (hy : w.contexts[c]? = some y)
    (hmany : 1 < y.slots.count) : w.advance.stack = rest := by
  have hrel : ∃ slots, y.slots.release = some (false, slots) := by
    cases hrel : y.slots.release with
    | none =>
      have := Counter.release_eq_none.1 hrel
      omega
    | some r =>
      obtain ⟨last, slots⟩ := r
      obtain ⟨_, hcount, hlast⟩ := Counter.count_release hrel
      cases last with
      | false => exact ⟨slots, rfl⟩
      | true =>
        have := hlast.1 rfl
        omega
  obtain ⟨slots, hrel⟩ := hrel
  rw [advance_giveUp_eq hs hy hrel]

/-- A slot that has just been taken is given up again, and the failure is the answer. -/
theorem answers_rejected {c : ContextNo} {y : Context} {share : Share} {f : Failure}
    (hturn : w.isClientsTurn = true) {call : Call} {v : World}
    (hcall : w.call call = v.push [.giveUp c share, .throwing f]) (hs : v.stack = w.stack)
    (hy : v.contexts[c]? = some y) (hmany : 1 < y.slots.count) : w.Answers call (.error f) := by
  have hgiveUp : (v.push [.giveUp c share, .throwing f]).stack =
      .giveUp c share :: .throwing f :: w.stack := by rw [stack_push, hs]; rfl
  have hthrowing := advance_giveUp hgiveUp hy hmany
  have hanswer := advance_throwing hthrowing (clients_of_turn hturn)
  refine ⟨2, ?_, ?_, ?_⟩ <;> rw [hcall]
  · intro k hk
    match k, hk with
    | 0, _ =>
      show World.isClientsTurn _ = false
      unfold isClientsTurn
      rw [Function.iterate_zero, id_eq, hgiveUp]
      rfl
    | 1, _ =>
      show World.isClientsTurn _ = false
      unfold isClientsTurn
      rw [Function.iterate_one, hthrowing]
      rfl
  · show (World.advance (World.advance _)).stack = _
    rw [hanswer]
    rfl
  · show (World.advance (World.advance _)).reply = _
    rw [hanswer]
    rfl

/-- A call that is about to return. -/
theorem answers_returning {r : Reply} {call : Call} {v : World}
    (hcall : w.call call = v.push [.returning r []]) (hs : v.stack = w.stack) :
    w.Answers call (.ok r) := by
  have hstack : (v.push [.returning r []]).stack = .returning r [] :: w.stack := by
    rw [stack_push, hs]
    rfl
  have hreturn : (v.push [.returning r []]).advance =
      World.returnCall { v.push [.returning r []] with stack := w.stack } r [] := by
    unfold World.advance
    rw [hstack]
  refine ⟨1, ?_, ?_, ?_⟩ <;> rw [hcall]
  · intro k hk
    obtain rfl := Nat.lt_one_iff.1 hk
    show World.isClientsTurn _ = false
    unfold isClientsTurn
    rw [Function.iterate_zero, id_eq, hstack]
    rfl
  · rw [Function.iterate_one, hreturn]
    cases r <;> simp [returnCall, releaseAll]
  · rw [Function.iterate_one, hreturn]
    cases r <;> simp [returnCall, releaseAll, answered]

/-- A child is to be created. -/
theorem answers_createChild {c : ContextNo} {x : Context} (hx : w.contexts[c]? = some x)
    (hturn : w.isClientsTurn = true) (location : Location) (handler : Option Nat)
    (correlation : Option String) :
    (x.slots.count ≤ 0 → w.Answers (.createChild c (some location) handler correlation)
      (.error (.alreadyCompleted (w.idOf c)))) ∧
    (0 < x.slots.count →
      (w.call (.createChild c (some location) handler correlation)).inRange = true →
        w.Answers (.createChild c (some location) handler correlation)
          (.ok (.context w.contexts.size)) ∨
        ∃ id, w.Answers (.createChild c (some location) handler correlation)
          (.error (.idInUse id))) := by
  have hcall : w.call (.createChild c (some location) handler correlation) =
      w.createChild c (some location) handler correlation := rfl
  constructor
  · intro hclosed
    have hnone := (takeSlot_eq_none hx (.child w.contexts.size)).2 hclosed
    refine answers_at_once ?_ ?_ <;> rw [hcall] <;> simp only [World.createChild_eq, hx, hnone]
    · exact stack_refuseSlot w c
    · exact reply_refuseSlot c
  · intro hopen hrange
    have hsome : w.takeSlot c (.child w.contexts.size) ≠ none := fun h => by
      have := (takeSlot_eq_none hx _).1 h
      omega
    obtain ⟨w', hw'⟩ := Option.ne_none_iff_exists'.1 hsome
    obtain ⟨y, slots, hy, hadd, heq⟩ := takeSlot_eq_some hw'
    obtain rfl := Option.some.inj (hy.symm.trans hx)
    have hget : (w'.nextDescendant y.tree).2.contexts[c]? = some { y with slots := slots } := by
      rw [heq]
      show (w.modifyContext c fun x => { x with slots := slots }).contexts[c]? = _
      rw [getElem?_modifyContext, if_pos rfl, hx]
      rfl
    have hstack : (w'.nextDescendant y.tree).2.stack = w.stack := by
      rw [heq]
      rfl
    cases hreg : (w'.nextDescendant y.tree).2.registry.register? (w'.nextDescendant y.tree).2.isLive
      (w'.nextDescendant y.tree).1 w.contexts.size with
    | none =>
      right
      have hreject : w.call (.createChild c (some location) handler correlation) =
          ((w'.nextDescendant y.tree).2.note (.rejected c (w'.nextDescendant y.tree).1)).push
            [.giveUp c (.child w.contexts.size),
              .throwing (.idInUse (w'.nextDescendant y.tree).1)] := by
        rw [hcall]
        simp only [World.createChild_eq, hx, hw', hreg]
      -- the counter has not overflowed, so there are two slots at least
      rw [hreject] at hrange
      have hnonneg := nonneg_of_inRange hrange hget
      obtain ⟨_, hone | ⟨_, hneg⟩⟩ := Counter.count_tryAdd hadd
      · refine ⟨_, answers_rejected hturn hreject hstack hget ?_⟩
        dsimp only
        omega
      · dsimp only at hnonneg
        omega
    | some g =>
      left
      have henter : w.call (.createChild c (some location) handler correlation) =
          ((w'.nextDescendant y.tree).2.enter
            (.child c y (w'.nextDescendant y.tree).1 location handler correlation) g).push
              [.returning (.context w.contexts.size) []] := by
        rw [hcall]
        simp only [World.createChild_eq, hx, hw', hreg]
      exact answers_returning henter ((stack_enter _ _ _).trans hstack)

end FanIn.World
