import FanIn.Machine
import FanIn.Proofs.Counting

/-!
# A counter closes once

Participants are added to a counter and released from it, by anyone and in any order. What the counter
has reported, request by request, says who has joined and who has left, and the counter is what it began
with, those who have joined, and less those who have left. It comes to zero when the last one leaves, of
which one release is told, and from then on it refuses everything.

Main statement: `closes_once`. No order of the requests is asked for. All that is asked is that nobody is
added to a counter that is full, for then the number wraps.
-/

namespace FanIn.Counter

/-- A counter in use: what it holds, and what it has reported to every request so far. -/
structure Usage where
  counter : Counter
  reports : List (Request × Except Failure Bool) := []

/-- What a closed counter reports. -/
def refusal : Request → Except Failure Bool
  | .add => .ok false
  | .release => .error overReleased

namespace Usage

/-- One more request is served. -/
def serve (u : Usage) (r : Request) : Usage :=
  ⟨(u.counter.serve r).2, u.reports ++ [(r, (u.counter.serve r).1)]⟩

/-- Whether a request does not count beyond the greatest number. -/
def hasRoom (u : Usage) : Request → Bool
  | .add => u.counter.count < 2 ^ 31 - 1
  | .release => true

/-- Counters that are used by anyone in any order, but never for more than they can count. -/
def machine : Machine Usage Request := ⟨serve, hasRoom⟩

/-- Whether a report says that a participant has been added. -/
def isJoin : Request × Except Failure Bool → Bool
  | (.add, .ok true) => true
  | _ => false

/-- Whether a report says that a participant has been released. -/
def isLeave : Request × Except Failure Bool → Bool
  | (.release, .ok _) => true
  | _ => false

/-- Whether a report tells a release that it was the last. -/
def isClosing : Request × Except Failure Bool → Bool
  | (.release, .ok true) => true
  | _ => false

/-- How many participants have been added. -/
def joined (u : Usage) : Nat := u.reports.countP isJoin

/-- How many participants have been released. -/
def left (u : Usage) : Nat := u.reports.countP isLeave

/-- How many releases have been told that they were the last. -/
def closings (u : Usage) : Nat := u.reports.countP isClosing

theorem countP_serve (p : Request × Except Failure Bool → Bool) (u : Usage) (r : Request) :
    (u.serve r).reports.countP p =
      u.reports.countP p + if p (r, (u.counter.serve r).1) then 1 else 0 := by
  rw [serve, List.countP_append, List.countP_singleton]

end Usage

/-! ## Open and closed counters -/

theorem serve_add_of_open {c : Counter} (ho : 0 < c.count) (hroom : c.count < 2 ^ 31 - 1) :
    ∃ c', c.serve .add = (.ok true, c') ∧ c'.count = c.count + 1 := by
  cases hadd : c.tryAdd with
  | none =>
    have hclosed := tryAdd_eq_none_iff.1 hadd
    rw [isOpen_iff.2 ho] at hclosed
    cases hclosed
  | some c' =>
    obtain ⟨-, hcount | ⟨hfull, -⟩⟩ := count_tryAdd hadd
    · exact ⟨c', by simp [serve, hadd], hcount⟩
    · omega

theorem serve_release_of_open {c : Counter} (ho : 0 < c.count) :
    ∃ c' last, c.serve .release = (.ok last, c') ∧ c'.count = c.count - 1 ∧
      (last = true ↔ c.count = 1) := by
  cases hrel : c.release with
  | none =>
    have hclosed := release_eq_none.1 hrel
    omega
  | some found =>
    obtain ⟨last, c'⟩ := found
    obtain ⟨-, hcount, hlast⟩ := count_release hrel
    refine ⟨c', last, by simp [serve, hrel], hcount, hlast.trans ?_⟩
    omega

/-- A closed counter refuses everything and stays as it is. -/
theorem serve_of_closed {c : Counter} (h : c.count ≤ 0) (r : Request) :
    c.serve r = (refusal r, c) := by
  have hclosed : c.isOpen = false := by
    rw [← Bool.not_eq_true, isOpen_iff]
    omega
  cases r with
  | add => simp [serve, tryAdd_eq_none_iff.2 hclosed, refusal]
  | release => simp [serve, release_eq_none_iff.2 hclosed, refusal]

/-- The last participant is released exactly where there is one left. -/
theorem release_last_iff {c : Counter} :
    (c.serve .release).1 = .ok true ↔ c.count = 1 ∧ (c.serve .release).2.count = 0 := by
  by_cases ho : 0 < c.count
  · obtain ⟨c', last, hserve, hcount, hlast⟩ := serve_release_of_open ho
    rw [hserve]
    constructor
    · intro hok
      have hone := hlast.1 (Except.ok.inj hok)
      exact ⟨hone, by simp only [hcount, hone, Int.sub_self]⟩
    · rintro ⟨hone, -⟩
      exact congrArg Except.ok (hlast.2 hone)
  · rw [serve_of_closed (by omega)]
    constructor
    · intro hok
      cases hok
    · rintro ⟨hone, -⟩
      omega

namespace Usage

/-- Once a counter has closed, it refuses whatever comes. -/
theorem run_of_closed {u : Usage} (h : u.counter.count ≤ 0) (more : List Request) :
    machine.run u more = ⟨u.counter, u.reports ++ more.map fun r => (r, refusal r)⟩ := by
  induction more generalizing u with
  | nil => simp
  | cons r more ih =>
    have hserve : machine.move u r = ⟨u.counter, u.reports ++ [(r, refusal r)]⟩ := by
      simp only [machine, serve, serve_of_closed h]
    have hrest := ih (u := machine.move u r) (by rw [hserve]; exact h)
    rw [Machine.run_cons, hrest, hserve]
    simp

/-! ## Histories -/

/-- What is kept of a counter that began with a positive number of slots. -/
structure Kept (slots : Int32) (u : Usage) : Prop where
  balance : u.counter.count = slots.toInt + u.joined - u.left
  nonneg : 0 ≤ u.counter.count
  closings : u.closings = if u.counter.count = 0 then 1 else 0

theorem kept_start {slots : Int32} (h : 0 < slots) : Kept slots ⟨start slots, []⟩ := by
  have hpos : 0 < slots.toInt := Int32.lt_iff_toInt_lt.1 h
  constructor
  · simp [count_start, joined, left]
  · rw [count_start]
    omega
  · rw [if_neg (by rw [count_start]; omega)]
    rfl

variable {slots : Int32} {u : Usage}

/-- A refusal changes nothing and counts for nothing. -/
theorem Kept.refuse (h : Kept slots u) (hclosed : u.counter.count ≤ 0) (r : Request) :
    Kept slots (u.serve r) := by
  have hserve := serve_of_closed hclosed r
  have hcounter : (u.serve r).counter = u.counter := congrArg Prod.snd hserve
  have hnothing : ∀ p : Request × Except Failure Bool → Bool, p (r, refusal r) = false →
      (u.serve r).reports.countP p = u.reports.countP p := fun p hp => by
    rw [countP_serve, hserve, if_neg (by rw [hp]; decide), Nat.add_zero]
  constructor
  · rw [joined, left, hnothing _ (by cases r <;> rfl), hnothing _ (by cases r <;> rfl), hcounter]
    exact h.balance
  · rw [hcounter]
    exact h.nonneg
  · rw [Usage.closings, hnothing _ (by cases r <;> rfl), hcounter]
    exact h.closings

theorem Kept.add (h : Kept slots u) (ho : 0 < u.counter.count)
    (hroom : u.counter.count < 2 ^ 31 - 1) : Kept slots (u.serve .add) := by
  obtain ⟨c', hserve, hcount⟩ := serve_add_of_open ho hroom
  have hcounter : (u.serve .add).counter = c' := congrArg Prod.snd hserve
  have hjoined : (u.serve .add).joined = u.joined + 1 := by
    rw [joined, countP_serve, hserve]
    rfl
  have hleft : (u.serve .add).left = u.left := by
    rw [left, countP_serve]
    rfl
  have hclosings : (u.serve .add).closings = u.closings := by
    rw [Usage.closings, countP_serve]
    rfl
  have hbalance := h.balance
  constructor
  · rw [hcounter, hjoined, hleft]
    omega
  · rw [hcounter]
    omega
  · rw [hclosings, h.closings, hcounter, if_neg (by omega), if_neg (by omega)]

theorem Kept.release (h : Kept slots u) (ho : 0 < u.counter.count) :
    Kept slots (u.serve .release) := by
  obtain ⟨c', last, hserve, hcount, hlast⟩ := serve_release_of_open ho
  have hcounter : (u.serve .release).counter = c' := congrArg Prod.snd hserve
  have hjoined : (u.serve .release).joined = u.joined := by
    rw [joined, countP_serve]
    rfl
  have hleft : (u.serve .release).left = u.left + 1 := by
    rw [left, countP_serve, hserve]
    rfl
  have hclosings : (u.serve .release).closings = if last then 1 else 0 := by
    -- nobody has been told before
    rw [Usage.closings, countP_serve, hserve, ← Usage.closings, h.closings, if_neg (by omega), Nat.zero_add]
    cases last <;> rfl
  have hbalance := h.balance
  have hzero : last = true ↔ c'.count = 0 := hlast.trans (by omega)
  constructor
  · rw [hcounter, hjoined, hleft]
    omega
  · rw [hcounter]
    omega
  · rw [hclosings, hcounter]
    simp only [hzero]

theorem Kept.serve (h : Kept slots u) {r : Request} (hroom : u.hasRoom r = true) :
    Kept slots (u.serve r) := by
  by_cases ho : 0 < u.counter.count
  · cases r with
    | add => exact h.add ho (of_decide_eq_true hroom)
    | release => exact h.release ho
  · exact h.refuse (by omega) r

theorem kept_run (h : 0 < slots) {requests : List Request}
    (hlegal : machine.legal ⟨start slots, []⟩ requests = true) :
    Kept slots (machine.run ⟨start slots, []⟩ requests) :=
  machine.invariant (fun _ _ hkept hroom => hkept.serve hroom) (kept_start h) hlegal

end Usage

/-- **A counter closes once.** Whatever number of slots it began with, and in whatever order participants
were added and released since:

* if it began with any, its number is what it began with, those added and less those released, and is
  never negative; a release is told that it was the last exactly if it takes the number from one to zero,
  which has happened once if every slot has been released and never as long as one has not; and once it
  has happened everything is refused, and the number stays zero;
* if it began with none, everything is refused from the start. -/
theorem closes_once (slots : Int32) (requests : List Request) {u : Usage}
    (hu : Usage.machine.run ⟨start slots, []⟩ requests = u) :
    (0 < slots → Usage.machine.legal ⟨start slots, []⟩ requests = true →
      (u.counter.count = slots.toInt + u.joined - u.left ∧ 0 ≤ u.counter.count) ∧
      ((u.counter.serve .release).1 = .ok true ↔
        u.counter.count = 1 ∧ (u.counter.serve .release).2.count = 0) ∧
      u.closings ≤ 1 ∧
      (u.closings = 1 ↔ (u.left : Int) = slots.toInt + u.joined) ∧
      ((u.left : Int) < slots.toInt + u.joined → u.closings = 0) ∧
      (u.closings = 1 → u.counter.count = 0 ∧ ∀ more, Usage.machine.run u more =
        ⟨u.counter, u.reports ++ more.map fun r => (r, refusal r)⟩)) ∧
    (slots ≤ 0 → u = ⟨start slots, requests.map fun r => (r, refusal r)⟩ ∧ u.closings = 0) := by
  subst hu
  constructor
  · intro hpos hlegal
    obtain ⟨hbalance, hnonneg, hclosings⟩ := Usage.kept_run hpos hlegal
    generalize Usage.machine.run ⟨start slots, []⟩ requests = u at *
    refine ⟨⟨hbalance, hnonneg⟩, release_last_iff, ?_, ?_, ?_, ?_⟩
    · split at hclosings <;> omega
    · split at hclosings <;> constructor <;> intro h <;> omega
    · intro hleft
      rw [hclosings, if_neg (by omega)]
    · intro hone
      have hzero : u.counter.count = 0 := by
        split at hclosings
        · assumption
        · omega
      exact ⟨hzero, fun more => Usage.run_of_closed (Int.le_of_eq hzero) more⟩
  · intro hclosed
    have hcount : (start slots).count ≤ 0 := Int32.le_iff_toInt_le.1 hclosed
    rw [Usage.run_of_closed (u := ⟨start slots, []⟩) hcount requests]
    refine ⟨by simp, ?_⟩
    simp only [Usage.closings, List.nil_append, List.countP_eq_zero, List.mem_map]
    rintro e ⟨r, -, rfl⟩
    cases r <;> simp [refusal, Usage.isClosing]

/-- The owner's slot and the one for a link; two participants come, one of them leaves, and the owner
leaves before the other one and the link do. What comes then is refused. -/
theorem closes_once_owner_first :
    ∃ u : Usage, Usage.machine.run ⟨start 2, []⟩
        [.add, .add, .release, .release, .release, .release] = u ∧
      u.closings = 1 ∧ (∀ more, (Usage.machine.run u more).counter = u.counter) ∧
      Usage.machine.run ⟨start (-1), []⟩ [.add, .release] =
        ⟨start (-1), [(.add, .ok false), (.release, .error overReleased)]⟩ := by
  obtain ⟨-, -, -, hone, -, hclosed⟩ := (closes_once 2
    [.add, .add, .release, .release, .release, .release] rfl).1 (by decide) (by decide +kernel)
  have htold := hone.2 (by decide +kernel)
  exact ⟨_, rfl, htold, fun more => by rw [(hclosed htold).2 more],
    ((closes_once (-1) [.add, .release] rfl).2 (by decide)).1⟩

end FanIn.Counter
