import FanIn.Proofs.Tree.Descent

/-!
# Lineages

The *lineage* of a context is the path from it up to the root of its tree: the context itself, the one
that it was created from, and so on. It does not matter which of them still exist. Parents are older than
their children, so the path comes to an end, and what is created later does not change it.

Main statements: `parents_older` and `lineage_move`.
-/

namespace FanIn.World

/-- The context that a context was created from. -/
def parentOf? (w : World) (c : ContextNo) : Option ContextNo := (w.contexts[c]?).bind Context.parent

/-- A context and its ancestors, upwards. -/
def lineage (w : World) (c : ContextNo) : List ContextNo :=
  match w.parentOf? c with
  | none => [c]
  | some p => if _h : p < c then c :: lineage w p else [c]
termination_by c

/-- The last of a lineage. -/
def rootOf (w : World) (c : ContextNo) : ContextNo := (w.lineage c).getLastD c

/-- Every parent is older than its children. -/
def Aged (w : World) : Prop := ∀ c p, w.parentOf? c = some p → p < c

variable {w w' : World} {c p : ContextNo}

theorem parentOf?_eq (c : ContextNo) :
    w.parentOf? c = (w.descent.contexts[c]?).bind Pedigree.parent := by
  rw [getElem?_descent_contexts, Option.bind_map]
  rfl

/-! ## Paths upwards -/

theorem lineage_of_root (h : w.parentOf? c = none) : w.lineage c = [c] := by
  rw [lineage, h]

theorem lineage_of_child (hw : w.Aged) (h : w.parentOf? c = some p) :
    w.lineage c = c :: w.lineage p := by
  rw [lineage, h]
  exact dif_pos (hw c p h)

/-- A path upwards begins where it is from. -/
theorem exists_lineage (w : World) (c : ContextNo) : ∃ after, w.lineage c = c :: after := by
  rw [lineage]
  split
  · exact ⟨[], rfl⟩
  · split
    · exact ⟨_, rfl⟩
    · exact ⟨[], rfl⟩

/-- Induction up a lineage, from the root down. -/
theorem Aged.induction (hw : w.Aged) {P : ContextNo → Prop} (root : ∀ c, w.parentOf? c = none → P c)
    (child : ∀ c p, w.parentOf? c = some p → P p → P c) (c : ContextNo) : P c := by
  induction c using Nat.strong_induction_on with
  | _ c ih =>
    cases h : w.parentOf? c with
    | none => exact root c h
    | some p => exact child c p h (ih p (hw c p h))

theorem rootOf_of_root (h : w.parentOf? c = none) : w.rootOf c = c := by
  rw [rootOf, lineage_of_root h]
  rfl

theorem getLastD_lineage (hw : w.Aged) (c d : ContextNo) : (w.lineage c).getLastD d = w.rootOf c := by
  have hne : w.lineage c ≠ [] := by
    cases h : w.parentOf? c with
    | none => simp [lineage_of_root h]
    | some p => simp [lineage_of_child hw h]
  rw [rootOf, List.getLastD_eq_getLast?, List.getLastD_eq_getLast?, List.getLast?_eq_some_getLast hne]
  rfl

theorem rootOf_of_child (hw : w.Aged) (h : w.parentOf? c = some p) : w.rootOf c = w.rootOf p := by
  rw [← getLastD_lineage hw p c, rootOf, lineage_of_child hw h]
  cases w.lineage p <;> rfl

/-- The path ends at a context that was created from none. -/
theorem parentOf?_rootOf (hw : w.Aged) (c : ContextNo) : w.parentOf? (w.rootOf c) = none := by
  induction c using hw.induction with
  | root c h => rw [rootOf_of_root h, h]
  | child c p h ih => rw [rootOf_of_child hw h, ih]

/-- Whatever is on the path from a context upwards is not younger. -/
theorem le_of_mem_lineage (hw : w.Aged) {c d : ContextNo} (h : d ∈ w.lineage c) : d ≤ c := by
  induction c using hw.induction with
  | root c hroot =>
    rw [lineage_of_root hroot, List.mem_singleton] at h
    exact Nat.le_of_eq h
  | child c p hparent ih =>
    rw [lineage_of_child hw hparent] at h
    rcases List.mem_cons.1 h with rfl | h
    · exact Nat.le_refl d
    · exact (ih h).trans (hw c p hparent).le

theorem lineage_nodup (hw : w.Aged) (c : ContextNo) : (w.lineage c).Nodup := by
  induction c using hw.induction with
  | root c h =>
    rw [lineage_of_root h]
    exact List.nodup_singleton c
  | child c p h ih =>
    rw [lineage_of_child hw h]
    exact List.nodup_cons.2 ⟨fun hmem => Nat.not_lt.2 (le_of_mem_lineage hw hmem) (hw c p h), ih⟩

/-- The path from an ancestor is the rest of the path. -/
theorem lineage_suffix (hw : w.Aged) {c a : ContextNo} {before after : List ContextNo}
    (h : w.lineage c = before ++ a :: after) : w.lineage a = a :: after := by
  induction c using hw.induction generalizing before with
  | root c hroot =>
    rw [lineage_of_root hroot] at h
    cases before with
    | nil =>
      obtain ⟨rfl, rfl⟩ := List.cons.inj h
      exact lineage_of_root hroot
    | cons b before => simp at h
  | child c p hparent ih =>
    rw [lineage_of_child hw hparent] at h
    cases before with
    | nil =>
      obtain ⟨rfl, rfl⟩ := List.cons.inj h
      exact lineage_of_child hw hparent
    | cons b before => exact ih (List.cons.inj h).2

theorem rootOf_le (hw : w.Aged) (c : ContextNo) : w.rootOf c ≤ c := by
  induction c using hw.induction with
  | root c h => exact (rootOf_of_root h).le
  | child c p h ih => exact (rootOf_of_child hw h).trans_le (ih.trans (hw c p h).le)

/-! ## What is created later -/

/-- No context loses its pedigree. -/
theorem Descends.lasts {m : Move} {D : Descent} (h : w.Descends m D) {q : Pedigree}
    (hc : w.descent.contexts[c]? = some q) : D.contexts[c]? = some q := by
  have hpush : ∀ q', (w.descent.contexts.push q')[c]? = some q := fun q' => by
    rw [Array.getElem?_push, if_neg (Nat.ne_of_lt (lt_of_getElem?_eq_some hc)), hc]
  cases h with
  | same => exact hc
  | root => exact hpush _
  | child => exact hpush _
  | rejected => exact hc

/-- Whoever is created from another is younger. -/
theorem Descends.aged {m : Move} (hw : w.Aged) (h : w.Descends m w'.descent) : w'.Aged := by
  intro c p hp
  rw [parentOf?_eq] at hp
  generalize w'.descent = D at h hp
  have hold : (w.descent.contexts[c]?).bind Pedigree.parent = some p → p < c := fun hp =>
    hw c p ((parentOf?_eq c).trans hp)
  cases h with
  | same => exact hold hp
  | rejected => exact hold hp
  | root =>
    simp only [Array.getElem?_push] at hp
    split at hp
    · cases hp
    · exact hold hp
  | child hx =>
    simp only [Array.getElem?_push] at hp
    split at hp
    · rename_i hc
      obtain rfl := Option.some.inj hp
      rw [hc, size_descent_contexts]
      exact lt_of_getElem?_eq_some hx
    · exact hold hp

theorem Aged.move (hw : w.Aged) (m : Move) : (w.move m).Aged := (descends_move w m).aged hw

theorem aged_start (threshold : Log.Level) : (start threshold).Aged := by
  intro c p h
  cases h

/-- What every move keeps holds after any moves. -/
theorem run_keeps {P : World → Prop} (keep : ∀ (w : World) (m : Move), P w → P (w.move m)) (h : P w)
    (moves : List Move) : P (machine.run w moves) := by
  induction moves generalizing w with
  | nil => exact h
  | cons m moves ih => exact ih (keep w m h)

/-- **Parents are older than their children.** -/
theorem parents_older (threshold : Log.Level) (moves : List Move) :
    (machine.run (start threshold) moves).Aged :=
  run_keeps (fun _ m hw => hw.move m) (aged_start threshold) moves

theorem pedigree_lasts {q : Pedigree} (h : w.descent.contexts[c]? = some q) (m : Move) :
    (w.move m).descent.contexts[c]? = some q := (descends_move w m).lasts h

theorem parentOf?_move (hc : c < w.contexts.size) (m : Move) : (w.move m).parentOf? c = w.parentOf? c := by
  obtain ⟨q, hq⟩ : ∃ q, w.descent.contexts[c]? = some q :=
    ⟨_, Array.getElem?_eq_getElem (size_descent_contexts.symm ▸ hc)⟩
  rw [parentOf?_eq, parentOf?_eq, pedigree_lasts hq m, hq]

/-- **A context keeps its ancestors.** -/
theorem lineage_move (hw : w.Aged) (hc : c < w.contexts.size) (m : Move) :
    (w.move m).lineage c = w.lineage c := by
  induction c using hw.induction with
  | root c h => rw [lineage_of_root h, lineage_of_root (parentOf?_move hc m ▸ h)]
  | child c p h ih =>
    rw [lineage_of_child hw h, lineage_of_child (hw.move m) ((parentOf?_move hc m).trans h),
      ih ((hw c p h).trans hc)]

theorem rootOf_move (hw : w.Aged) (hc : c < w.contexts.size) (m : Move) :
    (w.move m).rootOf c = w.rootOf c := by
  rw [rootOf, lineage_move hw hc m, rootOf]

end FanIn.World
