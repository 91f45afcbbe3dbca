import Mathlib.Algebra.Group.Int.Defs
import FanIn.Counter

/-!
# The laws of counters

A counter is a 32-bit word; these are its laws in integers. A release takes one off an open
counter and reports whether nothing is left. An addition puts one on it, but for the one number
that the word has no successor for: there it wraps, and the counter is closed for good.
-/

namespace FanIn.Counter

/-- The number of participants, as an integer. -/
def count (c : Counter) : Int := c.pending.toInt

theorem isOpen_iff {c : Counter} : c.isOpen ↔ 0 < c.count := by
  simp [isOpen, count, Int32.lt_iff_toInt_lt]

theorem count_start (n : Int32) : (start n).count = n.toInt := rfl

theorem count_lt (c : Counter) : c.count < 2 ^ 31 := Int32.toInt_lt _

/-- One is taken off a number that is not negative. -/
theorem count_pred {c : Counter} (h : 0 ≤ c.count) : (⟨c.pending - 1⟩ : Counter).count = c.count - 1 := by
  have hlt := count_lt c
  have h1 : (1 : Int32).toInt = 1 := by decide
  simp only [count, Int32.toInt_sub, h1] at h hlt ⊢
  rw [Int.bmod_eq_of_le] <;> omega

/-- So many are put on a number that is not negative, while there is room for them. -/
theorem count_add {c : Counter} {n : Nat} (h : 0 ≤ c.count) (hroom : c.count + n < 2 ^ 31) :
    (⟨c.pending + .ofNat n⟩ : Counter).count = c.count + n := by
  have hn : (Int32.ofNat n).toInt = n := Int32.toInt_ofNat_of_lt (by omega)
  simp only [count, Int32.toInt_add, hn] at h hroom ⊢
  rw [Int.bmod_eq_of_le] <;> omega

/-- One more than there is room for makes the smallest number of all. -/
theorem pending_add_of_full {c : Counter} {n : Nat} (h : 0 < c.count) (hfull : c.count + n = 2 ^ 31) :
    c.pending + .ofNat n = Int32.minValue := by
  have hn : (Int32.ofNat n).toInt = n := Int32.toInt_ofNat_of_lt (by omega)
  have hsum : c.pending.toInt + n = 2 ^ 31 := hfull
  rw [← Int32.toInt_inj, Int32.toInt_add, hn, hsum]
  decide

/-- What a successful release means. -/
theorem count_release {c c' : Counter} {last : Bool} (h : c.release = some (last, c')) :
    0 < c.count ∧ c'.count = c.count - 1 ∧ (last = true ↔ c'.count = 0) := by
  unfold release at h
  split at h
  · rename_i ho
    have hpos := isOpen_iff.1 ho
    obtain ⟨rfl, rfl⟩ := Prod.mk.inj (Option.some.inj h)
    have hsub := count_pred (Int.le_of_lt hpos)
    refine ⟨hpos, hsub, ?_⟩
    rw [hsub, beq_iff_eq, ← Int32.toInt_inj]
    have h1 : (1 : Int32).toInt = 1 := by decide
    simp only [count, h1]
    omega
  · cases h

/-- Releasing fails on closed counters and on no others. -/
theorem release_eq_none {c : Counter} : c.release = none ↔ c.count ≤ 0 := by
  rw [release_eq_none_iff, ← Bool.not_eq_true, isOpen_iff]
  omega

/-- What a successful addition means. -/
theorem count_tryAdd {c c' : Counter} (h : c.tryAdd = some c') :
    0 < c.count ∧ (c'.count = c.count + 1 ∨ c.count = 2 ^ 31 - 1 ∧ c'.count < 0) := by
  unfold tryAdd at h
  split at h
  · rename_i ho
    have hpos := isOpen_iff.1 ho
    obtain rfl := Option.some.inj h
    refine ⟨hpos, ?_⟩
    have hlt := count_lt c
    have h1 : (1 : Int32).toInt = 1 := by decide
    by_cases hmax : c.count = 2 ^ 31 - 1
    · right
      simp only [count] at hmax ⊢
      rw [Int32.toInt_add, hmax, h1]
      decide
    · left
      simp only [count] at hmax hlt hpos ⊢
      rw [Int32.toInt_add, h1, Int.bmod_eq_of_le] <;> omega
  · cases h

/-- What was added, if there was room for it, is taken off again. -/
theorem release_tryAdd {c c' : Counter} (h : c.tryAdd = some c') (hroom : c.count < 2 ^ 31 - 1) :
    c'.release = some (false, c) := by
  obtain ⟨hpos, hadd | ⟨hmax, -⟩⟩ := count_tryAdd h
  · unfold tryAdd at h
    rw [if_pos (isOpen_iff.2 hpos)] at h
    obtain rfl := Option.some.inj h
    have hback : c.pending + 1 - 1 = c.pending := by
      rw [Int32.add_sub_cancel]
    have hmany : (c.pending + 1 == 1) = false := by
      refine beq_eq_false_iff_ne.2 fun hone => ?_
      have hcount : (c.pending + 1).toInt = c.count + 1 := hadd
      rw [hone] at hcount
      have h1 : (1 : Int32).toInt = 1 := by decide
      omega
    unfold release
    rw [if_pos (isOpen_iff.2 (by omega)), hback, hmany]
  · omega

end FanIn.Counter
