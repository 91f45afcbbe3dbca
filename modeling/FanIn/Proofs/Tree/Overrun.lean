import FanIn.Proofs.Tree.Overflow

/-!
# Asking a counter to count too many

A counter is full at `2 ^ 31 - 1`, and one more participant makes it overflow. Any client that holds an
open context can bring it there by calls that succeed, one after the other, and none of them changes
anything but the counter: `run_joins`. What has been joined so often is below zero by then, which it never
is otherwise, and stays there.

Main statement: `Reachable.overrun`.
-/

namespace FanIn.World

open Ledger

variable {t : Terms} {w : World} {c : ContextNo} {x : Context}

/-- The world after so many participants, one at least, have joined a context, which makes its counter
what is given. -/
def joinedBy (w : World) (c : ContextNo) (slots : Counter) (n : Nat) : World :=
  { w.modifyContext c fun x => { x with slots := slots } with
    points := w.points + n
    reply := .ok .done
    history := w.history ++ Array.replicate n (.joined c .participant) }

theorem getElem?_joinedBy (hx : w.contexts[c]? = some x) (slots : Counter) (n : Nat) :
    (w.joinedBy c slots n).contexts[c]? = some { x with slots := slots } := by
  show (w.modifyContext c fun x => { x with slots := slots }).contexts[c]? = _
  rw [getElem?_modifyContext, if_pos rfl, hx]
  rfl

theorem joinedBy_joinedBy (slots slots' : Counter) (n m : Nat) :
    (w.joinedBy c slots n).joinedBy c slots' m = w.joinedBy c slots' (n + m) := by
  have htwice := modifyContext_modifyContext w c (fun x => { x with slots := slots })
    fun x => { x with slots := slots' }
  have hcontexts := congrArg World.contexts htwice
  simp only [modifyContext] at hcontexts
  simp only [joinedBy, modifyContext, hcontexts, Nat.add_assoc, Array.append_assoc,
    Array.replicate_append_replicate]

/-- A participant joins an open context. -/
theorem call_addChild (hx : w.contexts[c]? = some x) (hopen : 0 < x.slots.count) :
    w.call (.addChild c) = w.joinedBy c ⟨x.slots.pending + 1⟩ 1 := by
  have hadd : x.slots.tryAdd = some ⟨x.slots.pending + 1⟩ := if_pos (Counter.isOpen_iff.2 hopen)
  have htake : w.takeSlot c .participant = some
      (((w.modifyContext c fun y => { y with slots := ⟨x.slots.pending + 1⟩ }).point).note
        (.joined c .participant)) := by
    rw [takeSlot, hx, Option.bind_some, hadd]
    rfl
  rw [World.call, htake]
  simp [joinedBy, answered, note, point, modifyContext]

/-- **Participants join one after the other**, for as long as the counter does not overflow and once
more. -/
theorem run_joins (hx : w.contexts[c]? = some x) (hopen : 0 < x.slots.count) {n : Nat}
    (hroom : x.slots.count + n < 2 ^ 31) :
    machine.run w (List.replicate (n + 1) (.call (.addChild c))) =
      w.joinedBy c ⟨x.slots.pending + .ofNat (n + 1)⟩ (n + 1) := by
  induction n with
  | zero => exact call_addChild hx hopen
  | succ n ih =>
    have hcount : (⟨x.slots.pending + .ofNat (n + 1)⟩ : Counter).count = x.slots.count + (n + 1) :=
      Counter.count_add (Int.le_of_lt hopen) hroom
    have hlast := call_addChild (getElem?_joinedBy (w := w) hx ⟨x.slots.pending + .ofNat (n + 1)⟩ (n + 1))
      (by rw [hcount]; omega)
    have hnext : x.slots.pending + .ofNat (n + 1) + 1 = x.slots.pending + .ofNat (n + 1 + 1) := by
      rw [Int32.add_assoc, Int32.ofNat_add (n + 1) 1]
      rfl
    rw [List.replicate_succ', Machine.run_append, ih (by push_cast at hroom ⊢; omega)]
    show (w.joinedBy c _ (n + 1)).call (.addChild c) = _
    rw [hlast, joinedBy_joinedBy, hnext]

theorem holders_joinedBy (hx : w.contexts[c]? = some x) (slots : Counter) (n : Nat) :
    (w.joinedBy c slots n).holders (.context c) = w.holders (.context c) := by
  simp only [holders, getElem?_joinedBy hx, hx, Option.elim_some]

/-- Only the terms that keep counters in range forbid a client to let someone join a context it holds. -/
theorem allows_addChild (hturn : w.isClientsTurn = true) (hheld : 0 < w.holders (.context c))
    (ht : t.bounded = false) : (within t).allows w (.call (.addChild c)) = true := by
  simp [within, allows, keepsTo, ht, areHeld, Call.uses, hturn, hheld]

/-- Nothing forbids any of them to a client that holds the context. -/
theorem legal_joins (hx : w.contexts[c]? = some x) (hopen : 0 < x.slots.count) {n : Nat}
    (hroom : x.slots.count + n < 2 ^ 31) (hturn : w.isClientsTurn = true)
    (hheld : 0 < w.holders (.context c)) (ht : t.bounded = false) :
    (within t).legal w (List.replicate (n + 1) (.call (.addChild c))) = true := by
  have hallows : ∀ slots k, (within t).allows (w.joinedBy c slots k) (.call (.addChild c)) = true :=
    fun slots k => allows_addChild (w := w.joinedBy c slots k) hturn (holders_joinedBy hx slots k ▸ hheld) ht
  induction n with
  | zero => exact Bool.and_eq_true_iff.2 ⟨allows_addChild hturn hheld ht, rfl⟩
  | succ n ih =>
    have hroom : x.slots.count + n < 2 ^ 31 := by push_cast at hroom; omega
    rw [List.replicate_succ', Machine.legal_append, ih hroom, Bool.true_and]
    show ((within t).allows (machine.run w (List.replicate (n + 1) (.call (.addChild c)))) _ && true) = true
    rw [run_joins hx hopen hroom, hallows]
    rfl

/-- **Any client can bring the counter of an open context to overflow**, and changes nothing else by
that. -/
theorem Reachable.overrun (h : w.Reachable t) (ht : t.bounded = false) (hturn : w.isClientsTurn = true)
    (hheld : 0 < w.holders (.context c)) (hx : w.contexts[c]? = some x) (hopen : 0 < x.slots.count)
    {n : Nat} (hfull : x.slots.count + n = 2 ^ 31) : (w.joinedBy c ⟨.minValue⟩ n).Reachable t := by
  have hlt := x.slots.count_lt
  obtain ⟨k, rfl⟩ : ∃ k, n = k + 1 := ⟨n - 1, by omega⟩
  have hroom : x.slots.count + k < 2 ^ 31 := by push_cast at hfull; omega
  rw [← Counter.pending_add_of_full hopen hfull, ← run_joins hx hopen hroom]
  exact h.run (legal_joins hx hopen hroom hturn hheld ht)

/-! ## A root that has overflowed -/

/-- A root, which a client holds. -/
def loneMoves : List Move :=
  [.call (.createRoot { origin := .bridge "a" "" (some 0), location := some ⟨"box", "a"⟩ }), .advance]

def lone : World := machine.run start loneMoves

/-- The client asks the root to count as many participants as its counter can count, its own slot
aside, and one more. -/
theorem reachable_overrun :
    (lone.joinedBy 0 ⟨.minValue⟩ (2 ^ 31 - 1)).Reachable { matched := true, bounded := false } := by
  have reachable : lone.Reachable { matched := true, bounded := false } :=
    ⟨_, loneMoves, by decide +kernel, rfl⟩
  have one : (lone.contexts[0]?).map (fun x => x.slots.count) = some 1 := by decide +kernel
  obtain ⟨x, hx, hcount⟩ := Option.map_eq_some_iff.1 one
  exact reachable.overrun rfl (by decide +kernel) (by decide +kernel) hx (by omega) (by omega)

/-- Its counter is far below zero then. -/
theorem count_overrun : ∃ x, (lone.joinedBy 0 ⟨.minValue⟩ (2 ^ 31 - 1)).contexts[0]? = some x ∧
    x.slots.count = -2 ^ 31 :=
  Option.map_eq_some_iff.1 (by decide +kernel)

end FanIn.World
