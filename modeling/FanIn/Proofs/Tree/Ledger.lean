import Mathlib.Algebra.BigOperators.Group.Multiset.Basic
import Mathlib.Algebra.GroupWithZero.Nat
import Mathlib.Logic.Relation
import FanIn.Proofs.Counting
import FanIn.Tree.Context

/-!
# The books of all contexts

What matters for completion is little: how far the outcome of a context is told, how many slots it
has left, and what it has still coming, a telling of its outcome or the giving up of a slot. The
`Ledger` keeps these books, without references, observers, callbacks or a stack. What is coming is
*due*: by the work under way, or by a signal, once that fires.

`Ledger.Step` is all that can ever happen to the books. That the world does nothing else is shown
in `FanIn.Proofs.Tree.Dealings`; here it is only said.
-/

namespace FanIn

/-- What clients keep to, beyond what is asked of all of them. -/
structure Terms where
  /-- `childCompleted` is called on a context at most as often as `addChild` has succeeded. -/
  matched : Bool
  /-- No context ever has more participants than its counter can count. -/
  bounded : Bool
  deriving DecidableEq, Repr

/-- Both of it. -/
def Terms.strict (t : Terms) : Bool := t.matched && t.bounded

/-- What a context has coming. -/
inductive Due where
  /-- Its outcome is to be published. -/
  | outcome (c : ContextNo) (r : Response)
  /-- A slot of it is to be given up. -/
  | slot (c : ContextNo) (share : Share)

namespace Due

/-- The context that has it coming. -/
def owner : Due → ContextNo
  | outcome c _ => c
  | slot c _ => c

/-- Whether a context still keeps its own slot for it. -/
def isOutcomeOf (c : ContextNo) : Due → Bool
  | outcome d _ => d == c
  | slot .. => false

/-- Whether a participant is about to leave a context. -/
def isLeaveOf (c : ContextNo) : Due → Bool
  | outcome .. => false
  | slot d share => share == .participant && d == c

/-- Whether a context keeps a slot for it that nothing else stands for. A participant about to leave
is still counted among the participants. -/
def isOwedTo (c : ContextNo) : Due → Bool
  | outcome d _ => d == c
  | slot d share => share != .participant && d == c

@[simp] theorem owner_outcome (c : ContextNo) (r : Response) : (outcome c r).owner = c := rfl

@[simp] theorem owner_slot (c : ContextNo) (share : Share) : (slot c share).owner = c := rfl

@[simp] theorem isOutcomeOf_outcome (c d : ContextNo) (r : Response) :
    (outcome d r).isOutcomeOf c = (d == c) := rfl

@[simp] theorem isOutcomeOf_slot (c d : ContextNo) (share : Share) :
    (slot d share).isOutcomeOf c = false := rfl

@[simp] theorem isLeaveOf_outcome (c d : ContextNo) (r : Response) :
    (outcome d r).isLeaveOf c = false := rfl

@[simp] theorem isLeaveOf_slot (c d : ContextNo) (share : Share) :
    (slot d share).isLeaveOf c = (share == .participant && d == c) := rfl

@[simp] theorem isOwedTo_outcome (c d : ContextNo) (r : Response) :
    (outcome d r).isOwedTo c = (d == c) := rfl

@[simp] theorem isOwedTo_slot (c d : ContextNo) (share : Share) :
    (slot d share).isOwedTo c = (share != .participant && d == c) := rfl

/-- What is counted for a context is due to it. -/
theorem owner_of_isOutcomeOf {c : ContextNo} {d : Due} (h : d.isOutcomeOf c) : d.owner = c := by
  cases d <;> simp_all

theorem owner_of_isOwedTo {c : ContextNo} {d : Due} (h : d.isOwedTo c) : d.owner = c := by
  cases d <;> simp_all

end Due

/-- The state that goes with an outcome. -/
def Response.state (r : Response) : State := if r.isFailed then .failed else .succeeded

theorem Response.state_ne_pending (r : Response) : r.state ≠ .pending := by
  unfold state; split <;> simp

/-- The books of one context. -/
structure Account where
  parent : Option ContextNo := none
  link : Option SignalNo := none
  state : State := .pending
  slots : Counter
  before : Option Response := none
  response : Option Response := none
  isComplete : Bool := false

/-- The books of one signal: what is due once it fires. -/
structure Pledge where
  isFired : Bool := false
  dues : Multiset Due := 0

/-- The books of all contexts. -/
@[ext] structure Ledger where
  accounts : List Account := []
  pledges : List Pledge := []
  /-- What the work under way is about to do. -/
  work : Multiset Due := 0
  /-- The contexts that wait for their completion to be told. -/
  queue : List ContextNo := []
  /-- How many participants a context has. -/
  guests : ContextNo → Int := fun _ => 0

/-- One entry of a list changes: what a sum over the list gains and loses. -/
theorem sum_map_modify_add {α M : Type} [AddCommMonoid M] (g : α → M) (f : α → α) {l : List α}
    {i : Nat} {x : α} (h : l[i]? = some x) :
    ((l.modify i f).map g).sum + g x = (l.map g).sum + g (f x) := by
  induction l generalizing i with
  | nil => simp at h
  | cons a l ih =>
    cases i with
    | zero =>
      obtain rfl : a = x := by simpa using h
      simp only [List.modify_zero_cons, List.map_cons, List.sum_cons]
      rw [add_right_comm, add_comm (g (f a)), add_right_comm]
    | succ i =>
      have := ih (i := i) (by simpa using h)
      simp only [List.modify_succ_cons, List.map_cons, List.sum_cons, add_assoc, this]

namespace Ledger

/-! ## What is in the books -/

/-- All that is due. -/
def dues (L : Ledger) : Multiset Due := (L.pledges.map Pledge.dues).sum + L.work

/-- How often the outcome of a context is due. -/
def untold (L : Ledger) (c : ContextNo) : Nat := L.dues.countP fun d => d.isOutcomeOf c

/-- How many participants are about to leave a context. -/
def leaving (L : Ledger) (c : ContextNo) : Nat := L.dues.countP fun d => d.isLeaveOf c

/-- How many slots of a context are due, apart from those of participants. -/
def owed (L : Ledger) (c : ContextNo) : Nat := L.dues.countP fun d => d.isOwedTo c

/-- Whether an account is that of a child which is not complete. -/
def isOpenChild (c : ContextNo) (a : Account) : Bool := a.parent == some c && !a.isComplete

/-- How many children of a context are not complete. -/
def openChildren (L : Ledger) (c : ContextNo) : Nat :=
  (L.accounts.map fun a => if isOpenChild c a then 1 else 0).sum

/-! ## What changes in the books -/

/-- Something becomes due. -/
def owe (L : Ledger) (d : Due) : Ledger := { L with work := d ::ₘ L.work }

/-- An account changes. -/
def change (L : Ledger) (c : ContextNo) (f : Account → Account) : Ledger :=
  { L with accounts := L.accounts.modify c f }

/-- The counter of an account changes. -/
def recount (L : Ledger) (c : ContextNo) (slots : Counter) : Ledger :=
  L.change c fun a => { a with slots := slots }

/-- A context is added. -/
def enter (L : Ledger) (a : Account) : Ledger := { L with accounts := L.accounts ++ [a] }

/-- The queue changes. -/
def requeue (L : Ledger) (queue : List ContextNo) : Ledger := { L with queue := queue }

/-- A context enters the queue. -/
def enqueue (L : Ledger) (c : ContextNo) : Ledger := L.requeue (L.queue ++ [c])

/-- A context has more participants, or fewer. -/
def attend (L : Ledger) (c : ContextNo) (n : Int) : Ledger :=
  { L with guests := Function.update L.guests c (L.guests c + n) }

/-- Something becomes due once a signal fires, which is at once if it has fired. -/
def entrust (L : Ledger) (s : SignalNo) (d : Due) : Ledger :=
  if (L.pledges[s]?).any Pledge.isFired then L.owe d
  else { L with pledges := L.pledges.modify s fun p => { p with dues := d ::ₘ p.dues } }

/-- A signal fires. -/
def resolve (L : Ledger) (s : SignalNo) : Ledger :=
  { L with
    pledges := L.pledges.modify s fun _ => { isFired := true }
    work := (L.pledges[s]?).elim 0 Pledge.dues + L.work }

/-- A slot of a context is given up. -/
def release (L : Ledger) (c : ContextNo) (share : Share) (slots : Counter) (last : Bool) : Ledger :=
  let L := L.recount c slots
  let L := if share = .participant then L.attend c (-1) else L
  if last then L.enqueue c else L

/-- The completion of a context is told; its parent is to be told. -/
def complete (L : Ledger) (c : ContextNo) (queue : List ContextNo) (parent : Option ContextNo) :
    Ledger :=
  let L := (L.change c fun a => { a with isComplete := true }).requeue queue
  parent.elim L fun p => L.owe (.slot p (.child c))

/-! ## How the books change -/

theorem accounts_change (L : Ledger) (c d : ContextNo) (f : Account → Account) :
    (L.change c f).accounts[d]? = if c = d then (L.accounts[d]?).map f else L.accounts[d]? := by
  unfold change
  rw [List.getElem?_modify]
  by_cases h : c = d
  · simp [h]
  · simp only [h, if_false]
    exact Option.map_id'

theorem accounts_enter (L : Ledger) (a : Account) (d : ContextNo) :
    (L.enter a).accounts[d]? = if d = L.accounts.length then some a else L.accounts[d]? := by
  unfold enter
  rcases Nat.lt_trichotomy d L.accounts.length with h | h | h
  · rw [List.getElem?_append_left h, if_neg (Nat.ne_of_lt h)]
  · simp [h]
  · rw [if_neg (Nat.ne_of_gt h), List.getElem?_eq_none (Nat.le_of_lt h),
      List.getElem?_eq_none (by simpa using Nat.succ_le_of_lt h)]

@[simp] theorem length_change (L : Ledger) (c : ContextNo) (f : Account → Account) :
    (L.change c f).accounts.length = L.accounts.length := by simp [change]

@[simp] theorem length_enter (L : Ledger) (a : Account) :
    (L.enter a).accounts.length = L.accounts.length + 1 := by simp [enter]

@[simp] theorem accounts_owe (L : Ledger) (d : Due) : (L.owe d).accounts = L.accounts := rfl

@[simp] theorem accounts_attend (L : Ledger) (c : ContextNo) (n : Int) :
    (L.attend c n).accounts = L.accounts := rfl

@[simp] theorem accounts_requeue (L : Ledger) (q : List ContextNo) :
    (L.requeue q).accounts = L.accounts := rfl

@[simp] theorem accounts_enqueue (L : Ledger) (c : ContextNo) :
    (L.enqueue c).accounts = L.accounts := rfl

@[simp] theorem accounts_entrust (L : Ledger) (s : SignalNo) (d : Due) :
    (L.entrust s d).accounts = L.accounts := by unfold entrust; split <;> rfl

@[simp] theorem queue_entrust (L : Ledger) (s : SignalNo) (d : Due) :
    (L.entrust s d).queue = L.queue := by unfold entrust; split <;> rfl

@[simp] theorem guests_owe (L : Ledger) (d : Due) : (L.owe d).guests = L.guests := rfl

@[simp] theorem guests_change (L : Ledger) (c : ContextNo) (f : Account → Account) :
    (L.change c f).guests = L.guests := rfl

@[simp] theorem guests_recount (L : Ledger) (c : ContextNo) (slots : Counter) :
    (L.recount c slots).guests = L.guests := rfl

@[simp] theorem guests_enter (L : Ledger) (a : Account) : (L.enter a).guests = L.guests := rfl

theorem guests_attend (L : Ledger) (c : ContextNo) (n : Int) (e : ContextNo) :
    (L.attend c n).guests e = L.guests e + if e = c then n else 0 := by
  simp only [attend, Function.update_apply]
  split
  · rename_i h; rw [h]
  · rw [add_zero]

@[simp] theorem guests_entrust (L : Ledger) (s : SignalNo) (d : Due) :
    (L.entrust s d).guests = L.guests := by unfold entrust; split <;> rfl

@[simp] theorem dues_change (L : Ledger) (c : ContextNo) (f : Account → Account) :
    (L.change c f).dues = L.dues := rfl

@[simp] theorem dues_enter (L : Ledger) (a : Account) : (L.enter a).dues = L.dues := rfl

@[simp] theorem dues_attend (L : Ledger) (c : ContextNo) (n : Int) :
    (L.attend c n).dues = L.dues := rfl

@[simp] theorem dues_requeue (L : Ledger) (q : List ContextNo) : (L.requeue q).dues = L.dues := rfl

@[simp] theorem dues_enqueue (L : Ledger) (c : ContextNo) : (L.enqueue c).dues = L.dues := rfl

@[simp] theorem dues_owe (L : Ledger) (d : Due) : (L.owe d).dues = d ::ₘ L.dues :=
  Multiset.add_cons d _ _

@[simp] theorem accounts_release (L : Ledger) (c : ContextNo) (share : Share) (slots : Counter)
    (last : Bool) : (L.release c share slots last).accounts = (L.recount c slots).accounts := by
  unfold release
  cases last <;> by_cases hs : share = .participant <;> simp [hs]

@[simp] theorem dues_release (L : Ledger) (c : ContextNo) (share : Share) (slots : Counter)
    (last : Bool) : (L.release c share slots last).dues = L.dues := by
  unfold release
  cases last <;> by_cases hs : share = .participant <;> simp [hs, recount]

@[simp] theorem queue_release (L : Ledger) (c : ContextNo) (share : Share) (slots : Counter)
    (last : Bool) :
    (L.release c share slots last).queue = if last then L.queue ++ [c] else L.queue := by
  unfold release
  cases last <;> by_cases hs : share = .participant <;> simp [hs] <;> rfl

@[simp] theorem accounts_complete (L : Ledger) (c : ContextNo) (q : List ContextNo)
    (p : Option ContextNo) : (L.complete c q p).accounts =
      (L.change c fun a => { a with isComplete := true }).accounts := by cases p <;> rfl

@[simp] theorem queue_complete (L : Ledger) (c : ContextNo) (q : List ContextNo)
    (p : Option ContextNo) : (L.complete c q p).queue = q := by cases p <;> rfl

@[simp] theorem guests_complete (L : Ledger) (c : ContextNo) (q : List ContextNo)
    (p : Option ContextNo) : (L.complete c q p).guests = L.guests := by cases p <;> rfl

@[simp] theorem pledges_release (L : Ledger) (c : ContextNo) (share : Share) (slots : Counter)
    (last : Bool) : (L.release c share slots last).pledges = L.pledges := by
  unfold release
  cases last <;> by_cases hs : share = .participant <;> simp [hs] <;> rfl

@[simp] theorem pledges_complete (L : Ledger) (c : ContextNo) (q : List ContextNo)
    (p : Option ContextNo) : (L.complete c q p).pledges = L.pledges := by cases p <;> rfl

/-- What is entrusted to a signal is due. -/
theorem dues_entrust {L : Ledger} {s : SignalNo} (h : s < L.pledges.length) (d : Due) :
    (L.entrust s d).dues = d ::ₘ L.dues := by
  unfold entrust
  split
  · exact dues_owe L d
  · have hs : L.pledges[s]? = some L.pledges[s] := List.getElem?_eq_getElem h
    have hsum := sum_map_modify_add Pledge.dues (fun p => { p with dues := d ::ₘ p.dues }) hs
    rw [Multiset.add_cons, ← Multiset.cons_add, add_left_inj] at hsum
    unfold dues
    rw [hsum, Multiset.cons_add]

/-- What was due once a signal fires is due when it fires. -/
@[simp] theorem dues_resolve (L : Ledger) (s : SignalNo) : (L.resolve s).dues = L.dues := by
  unfold resolve dues
  cases hs : L.pledges[s]? with
  | none =>
    have hlen : L.pledges.length ≤ s := List.getElem?_eq_none_iff.1 hs
    simp [List.modify_eq_self hlen]
  | some p =>
    have hsum := sum_map_modify_add Pledge.dues (fun _ => { isFired := true }) hs
    simp only [Option.elim_some, ← add_assoc, hsum, add_zero]

/-! ## What can happen to the books -/

/-- What can happen to the books while clients keep to terms `t`. A terminal call that decides an
outcome is `verdict`. -/
inductive Step (t : Terms) (verdict : Option (ContextNo × Response)) : Ledger → Ledger → Prop
  /-- A root is created. -/
  | root (L : Ledger) : Step t verdict L (L.enter { slots := .start 1 })
  /-- A root is created with an external link. -/
  | linked {L : Ledger} {s : SignalNo} : s < L.pledges.length →
      Step t verdict L ((L.enter { link := some s, slots := .start 2 }).entrust s
        (.slot L.accounts.length .link))
  /-- A child is created. -/
  | child {L : Ledger} {p : ContextNo} {a : Account} {slots : Counter} : L.accounts[p]? = some a →
      a.slots.tryAdd = some slots → (t.bounded → a.slots.count < 2 ^ 31 - 1) →
      Step t verdict L ((L.recount p slots).enter { parent := some p, slots := .start 1 })
  /-- A child is not created after all, but the slot for it is taken. -/
  | rejected {L : Ledger} {p d : ContextNo} {a : Account} {slots : Counter} :
      L.accounts[p]? = some a → a.slots.tryAdd = some slots →
      (t.bounded → a.slots.count < 2 ^ 31 - 1) →
      Step t verdict L ((L.recount p slots).owe (.slot p (.child d)))
  /-- A participant joins. -/
  | join {L : Ledger} {c : ContextNo} {a : Account} {slots : Counter} : L.accounts[c]? = some a →
      a.slots.tryAdd = some slots → (t.bounded → a.slots.count < 2 ^ 31 - 1) →
      Step t verdict L ((L.recount c slots).attend c 1)
  /-- A participant is about to leave. -/
  | leave {L : Ledger} {c : ContextNo} {a : Account} : L.accounts[c]? = some a →
      (t.matched → (L.leaving c : Int) < L.guests c) →
      Step t verdict L (L.owe (.slot c .participant))
  /-- A terminal call decides the outcome. -/
  | decide {L : Ledger} {c : ContextNo} {a : Account} {r : Response} : L.accounts[c]? = some a →
      a.state = .pending → verdict = some (c, r) →
      Step t verdict L ((L.change c fun a => { a with state := r.state }).owe (.outcome c r))
  /-- A signal is made. -/
  | signal (L : Ledger) (fired : Bool) :
      Step t verdict L { L with pledges := L.pledges ++ [{ isFired := fired }] }
  /-- The outcome has to wait for a signal. -/
  | settle {L : Ledger} {s : SignalNo} {c : ContextNo} {r : Response} : s < L.pledges.length →
      Step t verdict (L.owe (.outcome c r)) (L.entrust s (.outcome c r))
  /-- A signal fires. -/
  | resolve {L : Ledger} {s : SignalNo} {p : Pledge} : L.pledges[s]? = some p →
      p.isFired = false → Step t verdict L (L.resolve s)
  /-- The outcome is published on the first channel. -/
  | before {L : Ledger} {c : ContextNo} {r : Response} : .outcome c r ∈ L.work →
      Step t verdict L (L.change c fun a => { a with before := a.before.or (some r) })
  /-- The outcome is published on the second channel. -/
  | answer {L : Ledger} {c : ContextNo} {r : Response} :
      Step t verdict (L.owe (.outcome c r))
        ((L.change c fun a => { a with response := a.response.or (some r) }).owe (.slot c .own))
  /-- A slot is given up. -/
  | release {L : Ledger} {c : ContextNo} {share : Share} {a : Account} {last : Bool}
      {slots : Counter} : L.accounts[c]? = some a → a.slots.release = some (last, slots) →
      Step t verdict (L.owe (.slot c share)) (L.release c share slots last)
  /-- A slot cannot be given up. -/
  | refuse {L : Ledger} {c : ContextNo} {share : Share} {a : Account} : L.accounts[c]? = some a →
      a.slots.release = none → Step t verdict (L.owe (.slot c share)) L
  /-- The first context of the queue is completed. -/
  | complete {L : Ledger} {c : ContextNo} {queue : List ContextNo} {a : Account} :
      L.queue = c :: queue → L.accounts[c]? = some a →
      Step t verdict L (L.complete c queue a.parent)
  /-- The queue is given up, with the contexts still in it. -/
  | abandon {L : Ledger} : t.strict = false → Step t verdict L (L.requeue [])

/-- What a move does to the books: some steps, most often one or none. -/
def Steps (t : Terms) (verdict : Option (ContextNo × Response)) : Ledger → Ledger → Prop :=
  Relation.ReflTransGen (Step t verdict)

end Ledger

end FanIn
