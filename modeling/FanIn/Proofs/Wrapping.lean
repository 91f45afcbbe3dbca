import Mathlib.Tactic.ByContra
import FanIn.Proofs.Closing

/-!
# A full counter wraps

Nothing keeps a participant from being added to a counter that already holds the greatest number of
32 bits. That addition is reported as a success, and the number becomes the least one there is: the
counter is closed with everyone still registered, and no release is ever told that it was the last.

Main statement: `adds_one_unless_full`. It happens at the greatest number and nowhere else, so at most
once in the life of a counter, and every counter that begins open can be brought to it.
-/

namespace FanIn.Counter

/-- Whether an addition, if it succeeds, puts one on the number and leaves the counter open. -/
def AddsOne (c : Counter) : Prop :=
  ∀ c', c.serve .add = (.ok true, c') → c'.count = c.count + 1 ∧ 0 < c'.count

/-- What is left of a full counter to which a participant is added. -/
def wrapped : Counter := ⟨Int32.minValue⟩

theorem count_wrapped : wrapped.count = -2 ^ 31 := by decide

theorem serve_add_of_full {c : Counter} (h : c.count = 2 ^ 31 - 1) : c.serve .add = (.ok true, wrapped) := by
  have hpending : c.pending = Int32.maxValue := Int32.toInt_inj.1 (h.trans (by decide))
  obtain ⟨p⟩ := c
  subst hpending
  rfl

/-- The number after an addition is the least one where it was the greatest, and one more elsewhere. -/
theorem addsOne_iff {c : Counter} : c.AddsOne ↔ c.count ≠ 2 ^ 31 - 1 := by
  constructor
  · intro h hfull
    have hone := (h wrapped (serve_add_of_full hfull)).1
    rw [count_wrapped] at hone
    omega
  · intro hne c' hserve
    by_cases ho : 0 < c.count
    · have hlt := count_lt c
      obtain ⟨d, hd, hcount⟩ := serve_add_of_open ho (by omega)
      obtain rfl := (Prod.mk.inj (hd.symm.trans hserve)).2
      exact ⟨hcount, by omega⟩
    · rw [serve_of_closed (by omega)] at hserve
      cases hserve

/-- Nothing but an addition makes the number greater, and that by one at most. -/
theorem count_serve_le (c : Counter) (r : Request) :
    (c.serve r).2.count ≤ c.count + [r].count .add := by
  by_cases ho : 0 < c.count
  · have hlt := count_lt c
    cases r with
    | add =>
      by_cases hfull : c.count = 2 ^ 31 - 1
      · rw [serve_add_of_full hfull, count_wrapped]
        omega
      · obtain ⟨c', hserve, hcount⟩ := serve_add_of_open ho (by omega)
        rw [hserve]
        simp [hcount]
    | release =>
      obtain ⟨c', last, hserve, hcount, -⟩ := serve_release_of_open ho
      have hadds : [Request.release].count .add = 0 := rfl
      simp only [hserve, hadds, hcount]
      omega
  · rw [serve_of_closed (by omega)]
    exact Int.le_add_of_nonneg_right (Int.natCast_nonneg _)

namespace Usage

variable {u : Usage}

theorem count_run_le (u : Usage) (requests : List Request) :
    (machine.run u requests).counter.count ≤ u.counter.count + requests.count .add := by
  induction requests generalizing u with
  | nil => simp
  | cons r requests ih =>
    have hone := count_serve_le u.counter r
    have hrest := ih (machine.move u r)
    rw [Machine.run_cons, List.count_cons]
    simp only [machine, serve, List.count_singleton] at hone hrest ⊢
    omega

/-- A request finds room unless it adds to a full counter. -/
theorem allows_eq_false {r : Request} :
    machine.allows u r = false ↔ r = .add ∧ u.counter.count = 2 ^ 31 - 1 := by
  have hlt := count_lt u.counter
  cases r with
  | add =>
    simp only [machine, hasRoom, decide_eq_false_iff_not, true_and]
    omega
  | release => simp [machine, hasRoom]

/-- A counter that is open is filled by as many additions as it has room for. -/
theorem fill {n : Nat} (ho : 0 < u.counter.count) (hn : u.counter.count + n ≤ 2 ^ 31 - 1) :
    machine.legal u (List.replicate n .add) = true ∧
      (machine.run u (List.replicate n .add)).counter.count = u.counter.count + n := by
  induction n generalizing u with
  | zero => simp [Machine.legal]
  | succ n ih =>
    have hroom : u.counter.count < 2 ^ 31 - 1 := by omega
    obtain ⟨c', hserve, hcount⟩ := serve_add_of_open ho hroom
    have hcounter : (machine.move u .add).counter = c' := congrArg Prod.snd hserve
    obtain ⟨hlegal, hrun⟩ := ih (u := machine.move u .add) (by rw [hcounter]; omega) (by rw [hcounter]; omega)
    rw [List.replicate_succ]
    refine ⟨Bool.and_eq_true_iff.2 ⟨decide_eq_true hroom, hlegal⟩, ?_⟩
    rw [Machine.run_cons, hrun, hcounter]
    omega

/-- What is refused tells nobody that it was the last. -/
theorem closings_refused (c : Counter) (reports : List (Request × Except Failure Bool)) (more : List Request) :
    closings ⟨c, reports ++ more.map fun r => (r, refusal r)⟩ = reports.countP isClosing := by
  rw [closings, List.countP_append, Nat.add_eq_left, List.countP_eq_zero]
  intro e he
  obtain ⟨r, -, rfl⟩ := List.mem_map.1 he
  cases r <;> simp [refusal, isClosing]

/-- Once a full counter has wrapped, everything is refused, and nobody was told that it was the last. -/
theorem run_of_full {slots : Int32} {first : List Request}
    (hlegal : machine.legal ⟨start slots, []⟩ first = true)
    (hu : machine.run ⟨start slots, []⟩ first = u) (hfull : u.counter.count = 2 ^ 31 - 1)
    (more : List Request) :
    machine.run u (.add :: more) =
        ⟨wrapped, u.reports ++ (.add, .ok true) :: more.map fun r => (r, refusal r)⟩ ∧
      (machine.run u (.add :: more)).closings = 0 := by
  have hmove : machine.move u .add = ⟨wrapped, u.reports ++ [(.add, .ok true)]⟩ := by
    simp only [machine, serve, serve_add_of_full hfull]
  have hrun : machine.run u (.add :: more) =
      ⟨wrapped, (u.reports ++ [(.add, .ok true)]) ++ more.map fun r => (r, refusal r)⟩ := by
    rw [Machine.run_cons, hmove]
    exact run_of_closed (u := ⟨wrapped, _⟩) (show wrapped.count ≤ 0 by decide) more
  -- a counter that is closed from the start never gets here
  have hpos : 0 < slots := Int32.not_le.1 fun hslots => by
    have hcount : (start slots).count ≤ 0 := Int32.le_iff_toInt_le.1 hslots
    have hstill : u.counter = start slots := by rw [← hu, run_of_closed (u := ⟨start slots, []⟩) hcount]
    rw [hstill] at hfull
    omega
  have hnobody : u.reports.countP isClosing = 0 := by
    have hkept := (kept_run hpos hlegal).closings
    rwa [hu, if_neg (by omega)] at hkept
  rw [hrun]
  refine ⟨by simp, ?_⟩
  rw [closings_refused, List.countP_append, hnobody]
  rfl

end Usage

/-- **An addition puts one on the number, unless the counter is full.** Whatever number of slots a counter
began with, and in whatever order participants were added and released since:

* an addition that succeeds puts one on the number and leaves the counter open, except where the number is
  the greatest there is: there it succeeds as well, and the number becomes the least there is;
* so all additions have put one on exactly if none found the counter full, which no one does while slots
  and additions together are no more than the greatest number;
* the first one that did was the last: it closed the counter without any release having been told that it
  was the last, and everything since was refused;
* a counter that began open can be filled. -/
theorem adds_one_unless_full (slots : Int32) (requests : List Request) {u : Usage}
    (hu : Usage.machine.run ⟨start slots, []⟩ requests = u) :
    (u.counter.AddsOne ↔ u.counter.count ≠ 2 ^ 31 - 1) ∧
    (u.counter.count = 2 ^ 31 - 1 →
      u.counter.serve .add = (.ok true, wrapped) ∧ wrapped.count = -2 ^ 31) ∧
    (Usage.machine.legal ⟨start slots, []⟩ requests = true ↔
      ∀ first rest, requests = first ++ .add :: rest →
        (Usage.machine.run ⟨start slots, []⟩ first).counter.AddsOne) ∧
    (slots.toInt + requests.count .add ≤ 2 ^ 31 - 1 →
      Usage.machine.legal ⟨start slots, []⟩ requests = true) ∧
    (Usage.machine.legal ⟨start slots, []⟩ requests = false → ∃ first rest,
      requests = first ++ .add :: rest ∧ Usage.machine.legal ⟨start slots, []⟩ first = true ∧
      (Usage.machine.run ⟨start slots, []⟩ first).counter.count = 2 ^ 31 - 1 ∧
      u = ⟨wrapped, (Usage.machine.run ⟨start slots, []⟩ first).reports ++
        (.add, .ok true) :: rest.map fun r => (r, refusal r)⟩ ∧
      u.closings = 0) ∧
    (0 < slots → ∃ n, Usage.machine.legal ⟨start slots, []⟩ (List.replicate n .add) = true ∧
      (Usage.machine.run ⟨start slots, []⟩ (List.replicate n .add)).counter.count = 2 ^ 31 - 1) := by
  have hundue : Usage.machine.legal ⟨start slots, []⟩ requests = false → ∃ first rest,
      requests = first ++ .add :: rest ∧ Usage.machine.legal ⟨start slots, []⟩ first = true ∧
      (Usage.machine.run ⟨start slots, []⟩ first).counter.count = 2 ^ 31 - 1 := by
    intro hillegal
    obtain ⟨first, r, rest, rfl, hfirst, hr⟩ := Usage.machine.exists_undue hillegal
    obtain ⟨rfl, hfull⟩ := Usage.allows_eq_false.1 hr
    exact ⟨first, rest, rfl, hfirst, hfull⟩
  refine ⟨addsOne_iff, fun hfull => ⟨serve_add_of_full hfull, count_wrapped⟩, ⟨?_, ?_⟩, ?_, ?_, ?_⟩
  · rintro hlegal first rest rfl
    rw [Machine.legal_append, Bool.and_eq_true] at hlegal
    have hroom := (Bool.and_eq_true_iff.1 hlegal.2).1
    refine addsOne_iff.2 fun hfull => ?_
    rw [Usage.allows_eq_false.2 ⟨rfl, hfull⟩] at hroom
    cases hroom
  · intro hall
    by_contra hillegal
    obtain ⟨first, rest, hsplit, -, hfull⟩ := hundue (Bool.not_eq_true _ ▸ hillegal)
    exact addsOne_iff.1 (hall first rest hsplit) hfull
  · intro hfew
    by_contra hillegal
    obtain ⟨first, rest, rfl, -, hfull⟩ := hundue (Bool.not_eq_true _ ▸ hillegal)
    -- those before this one do not fill the counter
    have hle := Usage.count_run_le ⟨start slots, []⟩ first
    rw [hfull, count_start] at hle
    rw [List.count_append, List.count_cons_self] at hfew
    omega
  · intro hillegal
    obtain ⟨first, rest, rfl, hfirst, hfull⟩ := hundue hillegal
    obtain ⟨hrun, hnobody⟩ := Usage.run_of_full hfirst rfl hfull rest
    rw [← Machine.run_append, hu] at hrun hnobody
    exact ⟨first, rest, rfl, hfirst, hfull, hrun, hnobody⟩
  · intro hpos
    have hopen : 0 < (start slots).count := Int32.lt_iff_toInt_lt.1 hpos
    have hlt := count_lt (start slots)
    obtain ⟨n, hn⟩ := Int.eq_ofNat_of_zero_le (a := 2 ^ 31 - 1 - (start slots).count) (by omega)
    obtain ⟨hlegal, hcount⟩ := Usage.fill (u := ⟨start slots, []⟩) (n := n) hopen (by simp only; omega)
    exact ⟨n, hlegal, hcount.trans (by simp only; omega)⟩

/-- The counter has room for one; two are added, and then nobody can leave any more. -/
theorem adds_one_unless_full_overflowing :
    ∃ u : Usage, Usage.machine.run ⟨start 2147483646, []⟩ [.add, .add, .release] = u ∧
      Usage.machine.legal ⟨start 2147483646, []⟩ [.add] = true ∧
      Usage.machine.legal ⟨start 2147483646, []⟩ [.add, .add, .release] = false ∧
      (Usage.machine.run ⟨start 2147483646, []⟩ [.add]).counter.count = 2 ^ 31 - 1 ∧
      u.counter = wrapped ∧ u.closings = 0 := by
  have hroom := (adds_one_unless_full 2147483646 [.add] rfl).2.2.2.1 (by decide)
  have hillegal : Usage.machine.legal ⟨start 2147483646, []⟩ [.add, .add, .release] = false := by decide
  obtain ⟨first, rest, -, -, -, hu, hnobody⟩ :=
    (adds_one_unless_full 2147483646 [.add, .add, .release] rfl).2.2.2.2.1 hillegal
  exact ⟨_, rfl, hroom, hillegal, by decide, congrArg Usage.counter hu, hnobody⟩

/-- An addition to the greatest number there is succeeds, and leaves an open counter closed. -/
theorem addition_closes_full :
    (start 2147483647).isOpen = true ∧ (start 2147483647).serve .add = (.ok true, start (-2147483648)) ∧
      (start (-2147483648)).isOpen = false ∧
      ¬ ∀ (slots : Int32) (requests : List Request),
        (Usage.machine.run ⟨start slots, []⟩ requests).counter.AddsOne := by
  refine ⟨rfl, rfl, rfl, fun hall => ?_⟩
  have hone := (hall 2147483647 [] (start (-2147483648)) rfl).2
  exact absurd hone (by decide)

end FanIn.Counter
