import FanIn.Proofs.Identifiers
import FanIn.Proofs.Tree.Lineage

/-!
# How descendants are numbered

All descendants of a root, whatever their parents, are numbered by one counter, which gives a number to
every call that creates a child and has got a slot for it. If the id that comes of the number is in use the
call fails, and the number is left out. So the ids of the descendants tell in which order they were created,
and no two of them are the same; and since an id tells the root as well, those of different roots are
different.

Main statement: `descendants_numbered`. It asks nothing of clients but that they try less than 2^64 times.
-/

namespace FanIn.World

/-! ## Trees -/

/-- Each context belongs to the tree of its parent, and each root to one of its own. -/
structure Planted (D : Descent) : Prop where
  bound : ∀ (c : ContextNo) (p : Pedigree), D.contexts[c]? = some p → p.tree < D.trees.size
  child : ∀ (c d : ContextNo) (p q : Pedigree), D.contexts[c]? = some p → p.parent = some d →
    D.contexts[d]? = some q → p.tree = q.tree
  roots : ∀ (c d : ContextNo) (p q : Pedigree), D.contexts[c]? = some p → D.contexts[d]? = some q →
    p.parent = none → q.parent = none → p.tree = q.tree → c = d

variable {w : World} {m : Move} {c r : ContextNo} {p q : Pedigree}

theorem parentOf?_of_descent (h : w.descent.contexts[c]? = some p) : w.parentOf? c = p.parent := by
  rw [parentOf?_eq, h]
  rfl

theorem idOf_of_descent (h : w.descent.contexts[c]? = some p) : w.idOf c = p.id := by
  rw [getElem?_descent_contexts] at h
  obtain ⟨x, hx, rfl⟩ := Option.map_eq_some_iff.1 h
  simp [idOf, hx, Context.pedigree]

theorem exists_pedigree (h : c < w.contexts.size) : ∃ p, w.descent.contexts[c]? = some p :=
  ⟨_, Array.getElem?_eq_getElem (size_descent_contexts.symm ▸ h)⟩

theorem idOf_move (h : c < w.contexts.size) (m : Move) : (w.move m).idOf c = w.idOf c := by
  obtain ⟨p, hp⟩ := exists_pedigree h
  rw [idOf_of_descent hp, idOf_of_descent (pedigree_lasts hp m)]

/-- A context that is pushed in is a root with a tree of its own, or has the tree of its parent. -/
theorem Planted.push {D D' : Descent} (h : Planted D)
    (hc : D'.contexts = D.contexts.push p) (hsize : D.trees.size ≤ D'.trees.size)
    (hbound : p.tree < D'.trees.size)
    (holder : ∀ (c d : ContextNo) (q : Pedigree), D.contexts[c]? = some q → q.parent = some d →
      d < D.contexts.size)
    (hparent : ∀ d, p.parent = some d → ∃ q, D.contexts[d]? = some q ∧ p.tree = q.tree)
    (hroot : p.parent = none → p.tree = D.trees.size) : Planted D' := by
  have hget : ∀ c : ContextNo, D'.contexts[c]? =
      if c = D.contexts.size then some p else D.contexts[c]? := fun c => by
    rw [hc, Array.getElem?_push]
  constructor
  · intro c q hq
    rw [hget] at hq
    split at hq
    · obtain rfl := Option.some.inj hq
      exact hbound
    · exact (h.bound c q hq).trans_le hsize
  · intro c d q s hq hd hs
    rw [hget] at hq hs
    split at hq
    · obtain rfl := Option.some.inj hq
      obtain ⟨s', hs', htree⟩ := hparent d hd
      rw [if_neg (Nat.ne_of_lt (lt_of_getElem?_eq_some hs')), hs'] at hs
      obtain rfl := Option.some.inj hs
      exact htree
    · rw [if_neg (Nat.ne_of_lt (holder c d q hq hd))] at hs
      exact h.child c d q s hq hd hs
  · intro c d q s hq hs hqn hsn htree
    rw [hget] at hq hs
    split at hq <;> split at hs
    · rename_i hc' hd'
      exact hc'.trans hd'.symm
    · obtain rfl := Option.some.inj hq
      have := h.bound d s hs
      have := hroot hqn
      omega
    · obtain rfl := Option.some.inj hs
      have := h.bound c q hq
      have := hroot hsn
      omega
    · exact h.roots c d q s hq hs hqn hsn htree

theorem Planted.congr {D D' : Descent} (h : Planted D) (hc : D'.contexts = D.contexts)
    (ht : D'.trees.size = D.trees.size) : Planted D' := by
  obtain ⟨contexts, trees⟩ := D'
  obtain rfl : contexts = D.contexts := hc
  exact ⟨fun c p hp => ht ▸ h.bound c p hp, h.child, h.roots⟩

theorem Planted.move (h : Planted w.descent) (hw : w.Aged) (m : Move) : Planted (w.move m).descent := by
  have hdescends := descends_move w m
  have holder : ∀ (c d : ContextNo) (q : Pedigree), w.descent.contexts[c]? = some q →
      q.parent = some d → d < w.descent.contexts.size := fun c d q hq hd =>
    (hw c d ((parentOf?_of_descent hq).trans hd)).trans (lt_of_getElem?_eq_some hq)
  generalize (w.move m).descent = D at hdescends
  cases hdescends with
  | same => exact h
  | rejected => exact h.congr rfl Array.size_modify
  | root =>
    refine h.push rfl (by simp) (by simp [Context.pedigree, RootSpec.build]) holder ?_ ?_
    · intro d hd
      cases hd
    · intro _
      exact size_descent_trees.symm
  | @child parent x location handler correlation hx =>
    have hp : w.descent.contexts[parent]? = some x.pedigree := pedigree_of_getElem? hx
    refine h.push rfl (by simp) ?_ holder ?_ ?_
    · rw [Array.size_modify]
      exact h.bound parent x.pedigree hp
    · intro d hd
      obtain rfl := Option.some.inj hd
      exact ⟨_, hp, rfl⟩
    · intro hnone
      cases hnone

theorem planted_run (threshold : Log.Level) (moves : List Move) :
    Planted (machine.run (start threshold) moves).descent := by
  have hnobody : ∀ c : ContextNo, (start threshold).descent.contexts[c]? = none := fun c => by
    rw [getElem?_descent_contexts]
    rfl
  have hstart : Planted (start threshold).descent := by
    constructor <;> intro c <;> simp [hnobody]
  exact (run_keeps (P := fun w => w.Aged ∧ Planted w.descent) (fun _ m h => ⟨h.1.move m, h.2.move h.1 m⟩)
    ⟨aged_start threshold, hstart⟩ moves).2

theorem Planted.tree_rootOf (h : Planted w.descent) (hw : w.Aged) (c : ContextNo) :
    ∀ p, w.descent.contexts[c]? = some p →
      ∃ q, w.descent.contexts[w.rootOf c]? = some q ∧ q.parent = none ∧ p.tree = q.tree := by
  induction c using hw.induction with
  | root c hroot =>
    intro p hp
    rw [rootOf_of_root hroot]
    exact ⟨p, hp, (parentOf?_of_descent hp).symm.trans hroot, rfl⟩
  | child c d hparent ih =>
    intro p hp
    have hlt : d < w.contexts.size :=
      (hw c d hparent).trans (size_descent_contexts ▸ lt_of_getElem?_eq_some hp)
    obtain ⟨s, hs⟩ := exists_pedigree hlt
    obtain ⟨q, hq, hnone, htree⟩ := ih s hs
    have hsame := h.child c d p s hp ((parentOf?_of_descent hp).symm.trans hparent) hs
    rw [rootOf_of_child hw hparent]
    exact ⟨q, hq, hnone, hsame.trans htree⟩

/-- The tree of a context tells the root. -/
theorem Planted.rootOf_eq_iff (h : Planted w.descent) (hw : w.Aged)
    (hc : w.descent.contexts[c]? = some p) (hr : w.descent.contexts[r]? = some q) (hq : q.parent = none) :
    w.rootOf c = r ↔ p.tree = q.tree := by
  obtain ⟨s, hs, hnone, htree⟩ := h.tree_rootOf hw c p hc
  constructor
  · intro heq
    rw [heq, hr] at hs
    obtain rfl := Option.some.inj hs
    exact htree
  · exact fun heq => h.roots _ _ s q hs hr hnone hq (htree.symm.trans heq)

/-! ## Descendants and attempts -/

/-- The descendants of a root, in the order in which they were created. -/
def descendants (w : World) (r : ContextNo) : List ContextNo :=
  (List.range w.contexts.size).filter fun c => c != r && w.rootOf c == r

/-- The move, and the world it is made in, if it is an attempt to create a descendant of a root that has
got a slot. -/
def tries (w : World) (r : ContextNo) (m : Move) : List (World × Move) :=
  if (w.attempt? m).any fun p => w.rootOf p == r then [(w, m)] else []

/-- The attempts in the course of some moves. -/
def attempts (w : World) (r : ContextNo) : List Move → List (World × Move)
  | [] => []
  | m :: moves => w.tries r m ++ (w.move m).attempts r moves

/-- An attempt succeeds: its id is not in use, and there is one more context. -/
def Succeeds (w : World) (m : Move) (id : String) : Prop :=
  w.find? id = none ∧ (w.move m).contexts.size = w.contexts.size + 1

/-- An attempt is rejected: its id is in use, and the call is about to fail. -/
def Rejects (w : World) (m : Move) (id : String) : Prop :=
  (w.find? id).isSome = true ∧ (w.move m).contexts.size = w.contexts.size ∧
    ∃ parent, (w.move m).stack =
      .giveUp parent (.child w.contexts.size) :: .throwing (.idInUse id) :: w.stack

/-- The descendants of a root have these numbers after some attempts, and the ids that come of them. -/
structure Numbered (w : World) (r : ContextNo) (name : Nat → String) (tried : List (World × Move))
    (numbers : List Nat) : Prop where
  ids : (w.descendants r).map w.idOf = numbers.map name
  increasing : numbers.Pairwise (· < ·)
  within : ∀ n ∈ numbers, 0 < n ∧ n ≤ tried.length
  /-- The attempt that got a number created the context that has it, or its id was in use, and then no
  context has the number. -/
  outcome : ∀ (i : Nat) (u : World) (m : Move), tried[i]? = some (u, m) →
    i + 1 ∈ numbers ∧ u.Succeeds m (name (i + 1)) ∧ u.contexts.size ∈ w.descendants r ∧
        w.idOf u.contexts.size = name (i + 1) ∨
      i + 1 ∉ numbers ∧ u.Rejects m (name (i + 1))

theorem mem_descendants : c ∈ w.descendants r ↔ c < w.contexts.size ∧ c ≠ r ∧ w.rootOf c = r := by
  simp [descendants]

theorem attempts_concat (w : World) (r : ContextNo) (moves : List Move) (m : Move) :
    w.attempts r (moves ++ [m]) = w.attempts r moves ++ (machine.run w moves).tries r m := by
  induction moves generalizing w with
  | nil => simp [attempts]
  | cons m' moves ih =>
    rw [List.cons_append, attempts, attempts, ih, List.append_assoc]
    rfl

theorem tries_of_quiet (h : w.attempt? m = none) : w.tries r m = [] := by
  rw [tries, h]
  rfl

theorem tries_of_attempt {p : ContextNo} (h : w.attempt? m = some p) :
    w.tries r m = if w.rootOf p = r then [(w, m)] else [] := by
  simp [tries, h]

/-- The descendants after a move are those before it, and the newborn if it is one. -/
theorem descendants_move (hw : w.Aged) (m : Move) (r : ContextNo) :
    ((w.move m).contexts.size = w.contexts.size → (w.move m).descendants r = w.descendants r) ∧
    ((w.move m).contexts.size = w.contexts.size + 1 → (w.move m).descendants r = w.descendants r ++
      if w.contexts.size ≠ r ∧ (w.move m).rootOf w.contexts.size = r then [w.contexts.size] else []) := by
  have hold : ((List.range w.contexts.size).filter fun c => c != r && (w.move m).rootOf c == r) =
      w.descendants r := by
    refine List.filter_congr fun c hc => ?_
    rw [rootOf_move hw (List.mem_range.1 hc) m]
  constructor
  · intro hsize
    rw [descendants, hsize, hold]
  · intro hsize
    rw [descendants, hsize, List.range_succ, List.filter_append, hold, List.filter_singleton]
    simp

/-! ## One move -/

/-- A place in a list that has grown by one is an old one or the last. -/
theorem getElem?_concat_cases {α : Type} {l : List α} {a b : α} {i : Nat}
    (h : (l ++ [a])[i]? = some b) : l[i]? = some b ∨ i = l.length ∧ b = a := by
  rw [List.getElem?_append] at h
  split at h
  · exact .inl h
  · obtain ⟨hlt, heq⟩ := List.getElem?_eq_some_iff.1 h
    rw [List.length_singleton] at hlt
    exact .inr ⟨by omega, heq.symm.trans (List.getElem_singleton _)⟩

section

variable {name : Nat → String} {tried : List (World × Move)} {numbers : List Nat}

/-- What was said of the descendants of a root stays true as long as they stay the same. -/
theorem Numbered.stay (h : w.Numbered r name tried numbers)
    (hsame : (w.move m).descendants r = w.descendants r) : (w.move m).Numbered r name tried numbers := by
  refine ⟨?_, h.increasing, h.within, fun i u m' hu => ?_⟩
  · rw [hsame, ← h.ids]
    exact List.map_congr_left fun c hc => idOf_move (mem_descendants.1 hc).1 m
  · rw [hsame]
    rcases h.outcome i u m' hu with ⟨hmem, hdone, hdesc, hown⟩ | hrejected
    · exact .inl ⟨hmem, hdone, hdesc, (idOf_move (mem_descendants.1 hdesc).1 m).trans hown⟩
    · exact .inr hrejected

/-- The attempt that is made now gets the next number, and there is one more descendant. -/
theorem Numbered.grow (h : w.Numbered r name tried numbers) (hw : w.Aged) (hr : r < w.contexts.size)
    (hdone : w.Succeeds m (name (tried.length + 1))) (hroot : (w.move m).rootOf w.contexts.size = r)
    (hown : (w.move m).idOf w.contexts.size = name (tried.length + 1)) :
    (w.move m).Numbered r name (tried ++ [(w, m)]) (numbers ++ [tried.length + 1]) := by
  have hdesc : (w.move m).descendants r = w.descendants r ++ [w.contexts.size] := by
    rw [(descendants_move hw m r).2 hdone.2, if_pos ⟨Nat.ne_of_gt hr, hroot⟩]
  have hfresh : tried.length + 1 ∉ numbers := fun hmem => by
    have := (h.within _ hmem).2
    omega
  constructor
  · rw [hdesc, List.map_append, List.map_append, ← h.ids, List.map_singleton, List.map_singleton, hown]
    congr 1
    exact List.map_congr_left fun c hc => idOf_move (mem_descendants.1 hc).1 m
  · refine List.pairwise_append.2 ⟨h.increasing, List.pairwise_singleton _ _, fun n hn k hk => ?_⟩
    rw [List.mem_singleton.1 hk]
    exact Nat.lt_succ_of_le (h.within n hn).2
  · intro n hn
    rw [List.length_append, List.length_singleton]
    rcases List.mem_append.1 hn with hn | hn
    · exact ⟨(h.within n hn).1, (h.within n hn).2.trans (Nat.le_succ _)⟩
    · rw [List.mem_singleton.1 hn]
      exact ⟨Nat.succ_pos _, le_rfl⟩
  · intro i u m' hu
    rw [hdesc]
    rcases getElem?_concat_cases hu with hu | ⟨rfl, heq⟩
    · have hi := (List.getElem?_eq_some_iff.1 hu).1
      rcases h.outcome i u m' hu with ⟨hmem, hdone', hu', hown'⟩ | ⟨hmem, hrejected⟩
      · exact .inl ⟨List.mem_append_left _ hmem, hdone', List.mem_append_left _ hu',
          (idOf_move (mem_descendants.1 hu').1 m).trans hown'⟩
      · refine .inr ⟨fun hin => ?_, hrejected⟩
        rcases List.mem_append.1 hin with hin | hin
        · exact hmem hin
        · have := List.mem_singleton.1 hin
          omega
    · obtain ⟨rfl, rfl⟩ := Prod.mk.inj heq
      exact .inl ⟨List.mem_append_right _ List.mem_cons_self, hdone,
        List.mem_append_right _ List.mem_cons_self, hown⟩

/-- The attempt that is made now gets the next number, which is left out. -/
theorem Numbered.skip (h : w.Numbered r name tried numbers) (hw : w.Aged)
    (hrejected : w.Rejects m (name (tried.length + 1))) :
    (w.move m).Numbered r name (tried ++ [(w, m)]) numbers := by
  have hstay : (w.move m).Numbered r name tried numbers := h.stay ((descendants_move hw m r).1 hrejected.2.1)
  refine ⟨hstay.ids, hstay.increasing, fun n hn => ?_, fun i u m' hu => ?_⟩
  · rw [List.length_append, List.length_singleton]
    exact ⟨(h.within n hn).1, (h.within n hn).2.trans (Nat.le_succ _)⟩
  · rcases getElem?_concat_cases hu with hu | ⟨rfl, heq⟩
    · exact hstay.outcome i u m' hu
    · obtain ⟨rfl, rfl⟩ := Prod.mk.inj heq
      refine .inr ⟨fun hmem => ?_, hrejected⟩
      have := (h.within _ hmem).2
      omega

/-- Only the ids of numbers up to that of the last attempt matter. -/
theorem Numbered.rename (h : w.Numbered r name tried numbers) {name' : Nat → String}
    (heq : ∀ n ≤ tried.length, name' n = name n) : w.Numbered r name' tried numbers := by
  refine ⟨?_, h.increasing, h.within, fun i u m' hu => ?_⟩
  · rw [h.ids]
    exact List.map_congr_left fun n hn => (heq n (h.within n hn).2).symm
  · rw [heq (i + 1) (List.getElem?_eq_some_iff.1 hu).1]
    exact h.outcome i u m' hu

end

/-- The id of the descendant with a number. -/
def numberedId (rootId : String) (n : Nat) : String := ContextId.child rootId (UInt64.ofNat n)

/-- A call whose id is in use gives its slot up and fails. -/
theorem stack_of_rejected {parent : ContextNo} {x : Context} {location : Location} {handler : Option Nat}
    {correlation : Option String} (hx : w.contexts[parent]? = some x)
    (taken : w.attempt? (.call (.createChild parent (some location) handler correlation)) = some parent)
    (used : (w.find? (w.nextId x)).isSome = true) :
    (w.createChild parent (some location) handler correlation).stack =
      .giveUp parent (.child w.contexts.size) :: .throwing (.idInUse (w.nextId x)) :: w.stack := by
  obtain ⟨u, hslot⟩ : ∃ u, w.takeSlot parent (.child w.contexts.size) = some u := by
    cases hslot : w.takeSlot parent (.child w.contexts.size) with
    | none => simp [attempt?, hslot] at taken
    | some u => exact ⟨u, rfl⟩
  have hid := nextId_takeSlot hslot x
  rw [← find?_takeSlot hslot x.tree, ← register?_eq_none_iff (c := w.contexts.size)] at used
  rw [stack_createChild]
  simp only [callFrames, birthFrames, hx, hslot, hid, used]
  rfl

/-- The next number of the tree, as its count has it. -/
theorem nextId_of_count {x : Context} {rootId : String} {n : Nat}
    (h : w.descent.trees[x.tree]? = some (rootId, UInt64.ofNat n)) :
    w.nextId x = numberedId rootId (n + 1) := by
  rw [getElem?_descent_trees] at h
  obtain ⟨t, ht, hcount⟩ := Option.map_eq_some_iff.1 h
  obtain ⟨rfl, hn⟩ := Prod.mk.inj hcount
  rw [numberedId, UInt64.ofNat_add, ← hn]
  simp only [nextId, nextDescendant, ht, Option.getD_some]
  rfl

/-- The descendants of a root have numbers, and its tree has counted the attempts to create one. -/
def Counted (w : World) (r : ContextNo) (q : Pedigree) (tried : List (World × Move)) : Prop :=
  ∃ numbers, w.Numbered r (numberedId q.id) tried numbers ∧
    w.descent.trees[q.tree]? = some (q.id, UInt64.ofNat tried.length)

section

variable {q : Pedigree} {tried : List (World × Move)}

/-- The newborn of a move that adds a pedigree. -/
theorem newborn_of_push {p : Pedigree} (h : (w.move m).descent.contexts = w.descent.contexts.push p) :
    (w.move m).contexts.size = w.contexts.size + 1 ∧
      (w.move m).descent.contexts[w.contexts.size]? = some p := by
  rw [← size_descent_contexts, h]
  exact ⟨by rw [Array.size_push, size_descent_contexts],
    by rw [Array.getElem?_push, size_descent_contexts, if_pos rfl]⟩

/-- A move that has nothing to do with the tree. -/
theorem Counted.stay (h : w.Counted r q tried) (htries : w.tries r m = [])
    (hsame : (w.move m).descendants r = w.descendants r)
    (htrees : (w.move m).descent.trees[q.tree]? = w.descent.trees[q.tree]?) :
    (w.move m).Counted r q (tried ++ w.tries r m) := by
  obtain ⟨numbers, hnumbered, hcount⟩ := h
  rw [htries, List.append_nil]
  exact ⟨numbers, hnumbered.stay hsame, htrees.trans hcount⟩

/-- The count of a tree after one more attempt. -/
theorem count_attempt {tree : Nat} {trees : Array (String × UInt64)} (htree : tree = q.tree)
    (hcount : trees[q.tree]? = some (q.id, UInt64.ofNat tried.length)) (a : World × Move) :
    (trees.modify tree fun t => (t.1, t.2 + 1))[q.tree]? =
      some (q.id, UInt64.ofNat (tried ++ [a]).length) := by
  rw [Array.getElem?_modify, if_pos htree, hcount, List.length_append, UInt64.ofNat_add]
  rfl

/-- A context is created below another one. -/
theorem Counted.created (h : w.Counted r q tried) (hw : w.Aged) (hr : r < w.contexts.size)
    {parent : ContextNo} {x : Context} {location : Location} {handler : Option Nat}
    {correlation : Option String} (hx : w.contexts[parent]? = some x)
    (hroot : w.rootOf parent = r ↔ x.tree = q.tree) (taken : w.attempt? m = some parent)
    (free : w.find? (w.nextId x) = none)
    (hcontexts : (w.move m).descent.contexts =
      w.descent.contexts.push (x.pedigree.child parent (w.nextId x) location handler correlation))
    (htrees : (w.move m).descent.trees = w.descent.trees.modify x.tree fun t => (t.1, t.2 + 1)) :
    (w.move m).Counted r q (tried ++ w.tries r m) := by
  obtain ⟨hsucc, hnew⟩ := newborn_of_push hcontexts
  have hparent : (w.move m).rootOf w.contexts.size = w.rootOf parent := by
    rw [rootOf_of_child (hw.move m) (parentOf?_of_descent hnew), rootOf_move hw (lt_of_getElem?_eq_some hx)]
  by_cases hmine : w.rootOf parent = r
  · obtain ⟨numbers, hnumbered, hcount⟩ := h
    have hnext := nextId_of_count (hroot.1 hmine ▸ hcount)
    rw [tries_of_attempt taken, if_pos hmine]
    exact ⟨_, hnumbered.grow hw hr ⟨hnext ▸ free, hsucc⟩ (hparent.trans hmine)
      ((idOf_of_descent hnew).trans hnext), htrees ▸ count_attempt (hroot.1 hmine) hcount _⟩
  · refine h.stay ?_ ?_ ?_
    · rw [tries_of_attempt taken, if_neg hmine]
    · rw [(descendants_move hw m r).2 hsucc, hparent, if_neg (fun h => hmine h.2), List.append_nil]
    · rw [htrees, Array.getElem?_modify, if_neg (mt hroot.2 hmine)]

/-- A call that is to create one fails, since the id is in use. -/
theorem Counted.refused (h : w.Counted r q tried) (hw : w.Aged) {parent : ContextNo} {x : Context}
    (hroot : w.rootOf parent = r ↔ x.tree = q.tree) (taken : w.attempt? m = some parent)
    (hrejects : w.Rejects m (w.nextId x))
    (htrees : (w.move m).descent.trees = w.descent.trees.modify x.tree fun t => (t.1, t.2 + 1)) :
    (w.move m).Counted r q (tried ++ w.tries r m) := by
  by_cases hmine : w.rootOf parent = r
  · obtain ⟨numbers, hnumbered, hcount⟩ := h
    have hnext := nextId_of_count (hroot.1 hmine ▸ hcount)
    rw [tries_of_attempt taken, if_pos hmine]
    exact ⟨_, hnumbered.skip hw (hnext ▸ hrejects), htrees ▸ count_attempt (hroot.1 hmine) hcount _⟩
  · refine h.stay ?_ ((descendants_move hw m r).1 hrejects.2.1) ?_
    · rw [tries_of_attempt taken, if_neg hmine]
    · rw [htrees, Array.getElem?_modify, if_neg (mt hroot.2 hmine)]

/-- **One move and the numbers of one tree.** -/
theorem Counted.move (h : w.Counted r q tried) (hw : w.Aged) (hp : Planted w.descent)
    (hq : w.descent.contexts[r]? = some q) (hnone : q.parent = none) (m : Move) :
    (w.move m).Counted r q (tried ++ w.tries r m) := by
  have hr : r < w.contexts.size := size_descent_contexts (w := w) ▸ lt_of_getElem?_eq_some hq
  have hroot : ∀ p x, w.contexts[p]? = some x → (w.rootOf p = r ↔ x.tree = q.tree) := fun p x hx =>
    hp.rootOf_eq_iff hw (pedigree_of_getElem? hx) hq hnone
  have hsize : (w.move m).descent.contexts.size = (w.move m).contexts.size := size_descent_contexts
  have hdescends := descends_move w m
  generalize hD : (w.move m).descent = D at hdescends
  cases hdescends with
  | same quiet =>
    refine h.stay (tries_of_quiet quiet) ((descendants_move hw m r).1 ?_) (by rw [hD])
    rw [← hsize, hD, size_descent_contexts]
  | @root spec valid =>
    obtain ⟨hsucc, hnew⟩ := newborn_of_push (congrArg Descent.contexts hD)
    have hself : (w.move (.call (.createRoot spec))).rootOf w.contexts.size = w.contexts.size :=
      rootOf_of_root (parentOf?_of_descent hnew)
    refine h.stay (tries_of_quiet rfl) ?_ ?_
    · rw [(descendants_move hw _ r).2 hsucc, hself, if_neg (fun h => h.1 h.2), List.append_nil]
    · rw [hD, Array.getElem?_push, if_neg (Nat.ne_of_lt (hp.bound r q hq))]
  | child hx taken free =>
    exact h.created hw hr hx (hroot _ _ hx) taken free (congrArg Descent.contexts hD)
      (congrArg Descent.trees hD)
  | rejected hx taken used =>
    refine h.refused hw (hroot _ _ hx) taken ⟨used, ?_, _, stack_of_rejected hx taken used⟩
      (congrArg Descent.trees hD)
    rw [← hsize, hD, size_descent_contexts]

end

/-! ## Runs -/

/-- The youngest context has no descendants. -/
theorem descendants_eq_nil (hw : w.Aged) (h : w.contexts.size ≤ r + 1) : w.descendants r = [] := by
  refine List.eq_nil_iff_forall_not_mem.2 fun c hc => ?_
  obtain ⟨hlt, hne, hroot⟩ := mem_descendants.1 hc
  have hle := rootOf_le hw c
  rw [hroot] at hle
  exact hne (Nat.le_antisymm (Nat.le_of_lt_succ (hlt.trans_le h)) hle)

/-- Nobody is created below a context that is not there yet. -/
theorem tries_of_unborn (hw : w.Aged) (h : w.contexts.size ≤ r) (m : Move) : w.tries r m = [] := by
  cases hm : w.attempt? m with
  | none => exact tries_of_quiet hm
  | some p =>
    have hp : p < w.contexts.size := by
      unfold attempt? at hm
      split at hm
      · split at hm
        · rename_i hslot
          obtain rfl := Option.some.inj hm
          obtain ⟨u, hu⟩ := Option.isSome_iff_exists.1 hslot
          obtain ⟨x, slots, hx, -, -⟩ := takeSlot_eq_some hu
          exact lt_of_getElem?_eq_some hx
        · cases hm
      · cases hm
    rw [tries_of_attempt hm, if_neg]
    exact Nat.ne_of_lt ((rootOf_le hw p).trans_lt (hp.trans_le h))

/-- A root has just been created. -/
theorem counted_newborn (hw : w.Aged) (h : w.contexts.size ≤ r) (hborn : r < (w.move m).contexts.size)
    (hroot : (w.move m).parentOf? r = none) : ∃ q, (w.move m).descent.contexts[r]? = some q ∧
      q.parent = none ∧ (w.move m).Counted r q [] := by
  have hsize : (w.move m).descent.contexts.size = (w.move m).contexts.size := size_descent_contexts
  have hdescends := descends_move w m
  obtain ⟨D, hD⟩ : ∃ D, (w.move m).descent = D := ⟨_, rfl⟩
  rw [hD] at hdescends
  have hpush : ∀ p, D.contexts = w.descent.contexts.push p →
      (w.move m).contexts.size = w.contexts.size + 1 ∧ (w.move m).descent.contexts[r]? = some p := by
    intro p heq
    obtain ⟨hsucc, hnew⟩ := newborn_of_push (heq ▸ congrArg Descent.contexts hD)
    have hlast : r = w.contexts.size := Nat.le_antisymm (Nat.le_of_lt_succ (hborn.trans_eq hsucc)) h
    exact ⟨hsucc, hlast ▸ hnew⟩
  have hsame : (w.move m).descent.contexts = w.descent.contexts → False := fun heq => by
    rw [← hsize, heq, size_descent_contexts] at hborn
    exact Nat.not_lt.2 h hborn
  cases hdescends with
  | same => exact (hsame (by rw [hD])).elim
  | rejected => exact (hsame (by rw [hD])).elim
  | root =>
    obtain ⟨hsucc, hq⟩ := hpush _ rfl
    refine ⟨_, hq, rfl, [], ⟨?_, .nil, fun n hn => (by cases hn), fun i u m' hu => (by cases hu)⟩, ?_⟩
    · rw [descendants_eq_nil (hw.move _) (hsucc.trans_le (Nat.succ_le_succ h))]
      rfl
    · rw [hD, Array.getElem?_push, size_descent_trees]
      exact if_pos rfl
  | child =>
    obtain ⟨-, hq⟩ := hpush _ rfl
    rw [parentOf?_of_descent hq] at hroot
    cases hroot

/-- **The numbers of one tree after a run.** -/
theorem counted_run (threshold : Log.Level) (moves : List Move) (r : ContextNo) :
    let w := machine.run (start threshold) moves
    let tried := (start threshold).attempts r moves
    w.parentOf? r = none → w.contexts.size ≤ r ∧ tried = [] ∨
      ∃ q, w.descent.contexts[r]? = some q ∧ q.parent = none ∧ w.Counted r q tried := by
  induction moves using List.reverseRecOn with
  | nil => exact fun _ => .inl ⟨Nat.zero_le r, rfl⟩
  | append_singleton moves m ih =>
    intro w tried hroot
    have hw := parents_older threshold moves
    have hrun : w = (machine.run (start threshold) moves).move m := by
      show machine.run _ (moves ++ [m]) = _
      rw [Machine.run_append]
      rfl
    have htried : tried = (start threshold).attempts r moves ++
        (machine.run (start threshold) moves).tries r m := attempts_concat _ r moves m
    rw [hrun] at hroot ⊢
    rw [htried]
    by_cases hborn : r < (machine.run (start threshold) moves).contexts.size
    · rw [parentOf?_move hborn] at hroot
      rcases ih hroot with ⟨hnot, -⟩ | ⟨q, hq, hnone, hcounted⟩
      · exact absurd hborn (Nat.not_lt.2 hnot)
      · exact .inr ⟨q, pedigree_lasts hq m, hnone,
          hcounted.move hw (planted_run threshold moves) hq hnone m⟩
    · have hle := Nat.not_lt.1 hborn
      have hold : (start threshold).attempts r moves = [] := by
        refine ((ih ?_).resolve_right ?_).2
        · rw [parentOf?_eq, Array.getElem?_eq_none (size_descent_contexts.trans_le hle)]
          rfl
        · rintro ⟨q, hq, -⟩
          exact hborn (size_descent_contexts (w := machine.run (start threshold) moves) ▸
            lt_of_getElem?_eq_some hq)
      rw [hold, tries_of_unborn hw hle]
      by_cases hnow : r < ((machine.run (start threshold) moves).move m).contexts.size
      · exact .inr (counted_newborn hw hle hnow hroot)
      · exact .inl ⟨Nat.not_lt.1 hnow, rfl⟩

/-- The ids of the descendants of a root are made of its own. -/
theorem exists_number (threshold : Log.Level) (moves : List Move) {c r : ContextNo}
    (hc : c ∈ (machine.run (start threshold) moves).descendants r) :
    ∃ n : UInt64, (machine.run (start threshold) moves).idOf c =
      ContextId.child ((machine.run (start threshold) moves).idOf r) n := by
  obtain ⟨hlt, -, hroot⟩ := mem_descendants.1 hc
  have hw := parents_older threshold moves
  have hle : r ≤ c := hroot ▸ rootOf_le hw c
  rcases counted_run threshold moves r (hroot ▸ parentOf?_rootOf hw c) with
    ⟨hunborn, -⟩ | ⟨q, hq, -, numbers, hnumbered, -⟩
  · exact absurd (hle.trans_lt hlt) (Nat.not_lt.2 hunborn)
  · have hmem := List.mem_map_of_mem (f := (machine.run (start threshold) moves).idOf) hc
    rw [hnumbered.ids] at hmem
    obtain ⟨n, -, hn⟩ := List.mem_map.1 hmem
    exact ⟨_, by rw [← hn, idOf_of_descent hq]; rfl⟩

/-- No two numbers that are not too large make the same id. -/
theorem Numbered.nodup {name : Nat → String} {tried : List (World × Move)} {numbers : List Nat}
    (h : w.Numbered r name tried numbers)
    (hinj : ∀ n ≤ tried.length, ∀ k ≤ tried.length, name n = name k → n = k) :
    ((w.descendants r).map w.idOf).Nodup := by
  rw [h.ids]
  have hnodup : numbers.Nodup := h.increasing.imp Nat.ne_of_lt
  exact hnodup.map_on fun n hn k hk => hinj n (h.within n hn).2 k (h.within k hk).2

/-- **The ids of descendants are unambiguous.** An id that is made of the id of a root and a number tells
both. All descendants of a root have the id of the root with a number to it, up in the order in which they
were created, so no two of them have the same. The numbers are those of the attempts to create one, from
one on, without those that were rejected because the id was in use. And descendants of roots with different
ids never have the same id. -/
theorem descendants_numbered (threshold : Log.Level) (moves : List Move) :
    let w := machine.run (start threshold) moves
    (∀ root n, ContextId.read (ContextId.child root n) = (root, some n.toNat)) ∧
    (Function.Injective fun p : String × UInt64 => ContextId.child p.1 p.2) ∧
    (∀ r x, w.contexts[r]? = some x → x.parent = none →
      let tried := (start threshold).attempts r moves
      tried.length < 2 ^ 64 → ((w.descendants r).map w.idOf).Nodup ∧
        ∃ numbers, w.Numbered r (fun n => x.id ++ "_" ++ toString n) tried numbers) ∧
    ∀ r r' c c', c ∈ w.descendants r → c' ∈ w.descendants r' → w.idOf r ≠ w.idOf r' →
      w.idOf c ≠ w.idOf c' := by
  intro w
  refine ⟨ContextId.read_child, ContextId.child_injective, ?_, ?_⟩
  · intro r x hx hnone tried hfew
    have hroot : w.parentOf? r = none := by rw [parentOf?, hx]; exact hnone
    rcases counted_run threshold moves r hroot with ⟨hunborn, -⟩ | ⟨q, hq, -, numbers, hnumbered, -⟩
    · exact absurd (lt_of_getElem?_eq_some hx) (Nat.not_lt.2 hunborn)
    · have hid : q.id = x.id := by
        rw [← idOf_of_descent hq]
        simp [idOf, hx, w]
      rw [hid] at hnumbered
      refine ⟨hnumbered.nodup fun n hn k hk heq => ?_, numbers, hnumbered.rename fun n hn => ?_⟩
      · have hsame := (ContextId.child_inj.1 heq).2
        rwa [← UInt64.toNat_inj, UInt64.toNat_ofNat_of_lt' (hn.trans_lt hfew),
          UInt64.toNat_ofNat_of_lt' (hk.trans_lt hfew)] at hsame
      · exact (ContextId.child_ofNat (hn.trans_lt hfew) x.id).symm
  · intro r r' c c' hc hc' hne heq
    obtain ⟨n, hn⟩ := exists_number threshold moves hc
    obtain ⟨n', hn'⟩ := exists_number threshold moves hc'
    exact hne (ContextId.child_inj.1 (hn.symm.trans (heq.trans hn'))).1

/-- Two roots, the second under the id that the first descendant of the first is to get; a call that fails for
that reason, and then two descendants of the first root, the second below the first, and one of the other. -/
def crowdedMoves : List Move :=
  occupyingMoves ++
    [.call (.createChild 0 (some ⟨"container", "component"⟩) none none), .advance, .advance,
      .call (.createChild 0 (some ⟨"container", "component"⟩) none none), .advance,
      .call (.createChild 2 (some ⟨"container", "component"⟩) none none), .advance,
      .call (.createChild 1 (some ⟨"container", "component"⟩) none none), .advance]

theorem descendants_numbered_crowded :
    let w := machine.run start crowdedMoves
    machine.legal start crowdedMoves = true ∧
    (w.descendants 0).map w.idOf = ["root_2", "root_3"] ∧ (w.descendants 1).map w.idOf = ["root_1_1"] ∧
    (∃ numbers,
      w.Numbered 0 (fun n => "root" ++ "_" ++ toString n) ((start).attempts 0 crowdedMoves) numbers) ∧
    w.idOf 3 ≠ w.idOf 4 := by
  intro w
  obtain ⟨-, -, hnumbered, hapart⟩ := descendants_numbered Log.Level.debug crowdedMoves
  have hroot : (w.contexts[0]?).map (fun x => (x.id, x.parent)) = some ("root", none) := by decide +kernel
  obtain ⟨x, hx, hx'⟩ := Option.map_eq_some_iff.1 hroot
  obtain ⟨hid, hnone⟩ := Prod.mk.inj hx'
  have hlength : ((start).attempts 0 crowdedMoves).length = 3 := by decide +kernel
  obtain ⟨-, numbers, hnumbers⟩ := hnumbered 0 x hx hnone (by rw [hlength]; decide)
  rw [hid] at hnumbers
  exact ⟨by decide +kernel, by decide +kernel, by decide +kernel, ⟨numbers, hnumbers⟩,
    hapart 0 1 3 4 (by decide +kernel) (by decide +kernel) (by decide +kernel)⟩

end FanIn.World
