import FanIn.ContextId
import Mathlib.Logic.Function.Basic
import Std.Data.String.ToNat

/-!
# Reading the ids of descendants

The id of a root may be any text, one with separators and digits in it as well. Still the id of a
descendant tells the root and the number: no numeral has a separator in it, so the last separator is the
one that was put between them.

Main statements: `read_child` and `child_injective`.
-/

namespace FanIn.ContextId

/-- An id split at its last separator: what is before it, and what is after it. -/
def split (id : String) : String × String :=
  let back := id.toList.reverse
  (String.ofList ((back.dropWhile fun c => c != separator).drop 1).reverse,
    String.ofList (back.takeWhile fun c => c != separator).reverse)

/-- The root and the number that the id of a descendant tells. -/
def read (id : String) : String × Option Nat := ((split id).1, (split id).2.toNat?)

/-- No numeral has a separator in it. -/
theorem ne_separator_of_mem {n : Nat} {c : Char} (h : c ∈ (toString n).toList) :
    (c != separator) = true := by
  rw [Nat.toString_eq_repr, Nat.toList_repr] at h
  refine bne_iff_ne.2 ?_
  rintro rfl
  exact Nat.underscore_not_in_toDigits h

theorem toList_child (root : String) (n : UInt64) :
    (child root n).toList = root.toList ++ separator :: (toString n.toNat).toList := by
  simp [child, String.toList_append]

theorem split_child (root : String) (n : UInt64) : split (child root n) = (root, toString n.toNat) := by
  have hdigits : ∀ c ∈ (toString n.toNat).toList.reverse, (c != separator) = true := fun c hc =>
    ne_separator_of_mem (List.mem_reverse.1 hc)
  have hback : (child root n).toList.reverse =
      (toString n.toNat).toList.reverse ++ separator :: root.toList.reverse := by
    rw [toList_child]
    simp
  unfold split
  dsimp only
  rw [hback, List.dropWhile_append_of_pos hdigits, List.takeWhile_append_of_pos hdigits,
    List.dropWhile_cons_of_neg (by simp), List.takeWhile_cons_of_neg (by simp), List.append_nil,
    List.reverse_reverse, String.ofList_toList, List.drop_one, List.tail_cons, List.reverse_reverse,
    String.ofList_toList]

/-- **The id of a descendant tells the root and the number.** -/
theorem read_child (root : String) (n : UInt64) : read (child root n) = (root, some n.toNat) := by
  rw [read, split_child, Nat.toString_eq_repr, Nat.toNat?_repr]

theorem child_injective : Function.Injective fun p : String × UInt64 => child p.1 p.2 := by
  rintro ⟨root, n⟩ ⟨root', n'⟩ h
  have hread : read (child root n) = read (child root' n') := congrArg read h
  rw [read_child, read_child, Prod.mk.injEq, Option.some.injEq] at hread
  exact Prod.ext hread.1 (UInt64.toNat_inj.1 hread.2)

theorem child_inj {root root' : String} {n n' : UInt64} :
    child root n = child root' n' ↔ root = root' ∧ n = n' := by
  refine ⟨fun h => Prod.mk.inj (@child_injective (root, n) (root', n') h), ?_⟩
  rintro ⟨rfl, rfl⟩
  rfl

/-- A number that is not too large is written as it is. -/
theorem child_ofNat {n : Nat} (h : n < UInt64.size) (root : String) :
    child root (UInt64.ofNat n) = root ++ "_" ++ toString n := by
  rw [child, UInt64.toNat_ofNat_of_lt' h]
  rfl

end FanIn.ContextId
