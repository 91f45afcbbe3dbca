/-!
# Texts as a terminal shows them

Diagnostics travel as NUL-terminated texts: whoever prints one sees it up to its first NUL
character and no further. `Text.visible` is that part; `visible_append` says that nothing
appended after a NUL is ever seen, and `visible_eq_self` that a text without one is seen whole.
-/

namespace FanIn.Text

/-- A text without a NUL character. -/
def IsPlain (s : String) : Prop := '\x00' ∉ s.toList

instance (s : String) : Decidable (IsPlain s) := inferInstanceAs (Decidable (¬ '\x00' ∈ s.toList))

@[simp] theorem isPlain_append {s t : String} : IsPlain (s ++ t) ↔ IsPlain s ∧ IsPlain t := by
  simp [IsPlain]

/-- The part of a text before its first NUL character, the whole text if it has none. -/
def visible (s : String) : String :=
  String.ofList (s.toList.takeWhile fun c => c != '\x00')

@[simp] theorem toList_visible (s : String) :
    (visible s).toList = s.toList.takeWhile fun c => c != '\x00' := by
  simp [visible]

theorem takeWhile_append_of_mem {s : List Char} (h : '\x00' ∈ s) (t : List Char) :
    (s ++ t).takeWhile (fun c => c != '\x00') = s.takeWhile fun c => c != '\x00' := by
  induction s with
  | nil => simp at h
  | cons c s ih =>
    by_cases hc : c = '\x00'
    · simp [hc]
    · have : '\x00' ∈ s := by simpa [Ne.symm hc] using h
      simp [hc, ih this]

/-- What follows a NUL character is never seen. -/
theorem visible_append {s : String} (h : '\x00' ∈ s.toList) (t : String) :
    visible (s ++ t) = visible s := by
  simp only [visible, String.toList_append, takeWhile_append_of_mem h]

theorem takeWhile_eq_self {s : List Char} (h : '\x00' ∉ s) :
    s.takeWhile (fun c => c != '\x00') = s := by
  induction s with
  | nil => rfl
  | cons c s ih =>
    have hc : c ≠ '\x00' := fun e => h (by simp [e])
    have hs : '\x00' ∉ s := fun m => h (by simp [m])
    simp [hc, ih hs]

/-- A text without a NUL character is seen whole. -/
theorem visible_eq_self {s : String} (h : '\x00' ∉ s.toList) : visible s = s := by
  simp only [visible, takeWhile_eq_self h, String.ofList_toList]

theorem isPlain_visible (s : String) : IsPlain (visible s) := by
  rw [IsPlain, toList_visible]
  intro hnul
  simpa using List.all_eq_true.1 List.all_takeWhile _ hnul

/-- What comes before the first NUL character is seen whole. -/
theorem visible_append_of_isPlain {s : String} (h : IsPlain s) (t : String) :
    visible (s ++ t) = s ++ visible t := by
  apply String.toList_injective
  simp only [toList_visible, String.toList_append]
  rw [List.takeWhile_append_of_pos]
  intro c hc
  exact bne_iff_ne.2 fun hnul => h (hnul ▸ hc)

/-- What is not seen begins with a NUL character. -/
theorem exists_unseen (s : String) :
    ∃ rest, s = visible s ++ rest ∧ (rest = "" ∨ ∃ t, rest = "\x00" ++ t) := by
  refine ⟨String.ofList (s.toList.dropWhile fun c => c != '\x00'), ?_, ?_⟩
  · apply String.toList_injective
    simp [List.takeWhile_append_dropWhile]
  · cases hdrop : s.toList.dropWhile fun c => c != '\x00' with
    | nil => exact .inl rfl
    | cons c rest =>
      have hne : (s.toList.dropWhile fun c => c != '\x00') ≠ [] := by simp [hdrop]
      have hnul := List.head_dropWhile_not _ hne
      simp only [hdrop, List.head_cons, bne_eq_false_iff_eq] at hnul
      refine .inr ⟨String.ofList rest, ?_⟩
      apply String.toList_injective
      simp [hnul]

end FanIn.Text
