import FanIn.Proofs.Tree.Record

/-!
# What contexts have from their creation

Who a context is, where it comes from and what it is set up with is decided when it is created, and nothing
changes it: this is its *pedigree*. The pedigrees of all contexts, with the numbers that the trees have
given out, are the *descent* of a world. Most moves leave it as it is. What the others make of it can be
read off the world that they are made in, before they are made.

Main statement: `descends_move`. It asks nothing of clients. What contexts inherit, and how they are
numbered, goes back to it.
-/

namespace FanIn

/-- The pedigree of a child. -/
def Pedigree.child (parent : ContextNo) (p : Pedigree) (id : String) (location : Location)
    (handler : Option Nat) (correlation : Option String) : Pedigree where
  id := id
  serverId := p.serverId
  correlation := .ofGiven correlation p.correlation
  location := location
  handler := handler.getD p.handler
  settings := p.settings
  received := p.received
  parent := some parent
  link := none
  tree := p.tree

/-- The pedigrees of all contexts ever made, and of each tree the id of its root and the number it gave
out last. -/
@[ext]
structure Descent where
  contexts : Array Pedigree
  trees : Array (String × UInt64)

/-- What there is of a tree in the descent of a world. -/
def Tree.count (t : Tree) : String × UInt64 := (t.rootId, t.numbered)

/-- The descent that is on record. -/
def Record.descent (R : Record) : Descent := ⟨R.contexts.map Standing.pedigree, R.trees.map Tree.count⟩

namespace World

def descent (w : World) : Descent where
  contexts := w.contexts.map Context.pedigree
  trees := w.trees.map Tree.count

variable {w w' : World}

theorem getElem?_descent_contexts (c : ContextNo) :
    w.descent.contexts[c]? = (w.contexts[c]?).map Context.pedigree := Array.getElem?_map

theorem pedigree_of_getElem? {c : ContextNo} {x : Context} (h : w.contexts[c]? = some x) :
    w.descent.contexts[c]? = some x.pedigree := by
  rw [getElem?_descent_contexts, h]
  rfl

theorem getElem?_descent_trees (t : Nat) : w.descent.trees[t]? = (w.trees[t]?).map Tree.count :=
  Array.getElem?_map

@[simp] theorem size_descent_contexts : w.descent.contexts.size = w.contexts.size := Array.size_map

@[simp] theorem size_descent_trees : w.descent.trees.size = w.trees.size := Array.size_map

theorem descent_record : w.record.descent = w.descent := Descent.ext Array.map_map rfl

theorem descent_modifyContext {c : ContextNo} {f : Context → Context}
    (hf : ∀ x, (f x).pedigree = x.pedigree) : (w.modifyContext c f).descent = w.descent :=
  Descent.ext (map_modify_same hf) rfl

/-! ## What leaves the descent alone -/

theorem descent_destroy (r : Ref) : (w.destroy r).descent = w.descent := by
  cases r with
  | signal s => rfl
  | context c =>
    simp only [destroy]
    split
    · rfl
    · rw [descent_modifyContext (by intro x; rfl)]
      simp only [farewell, if_true]
      split
      · rfl
      · rw [← descent_record, record_log, descent_record]
        rfl

theorem descent_marked (m : Move) : (w.marked m).descent = w.descent := by
  refine marked_induction (P := fun v => v.descent = w.descent) rfl (fun c => ?_) (fun c r => ?_) m
  · unfold reportBranch
    split
    · rfl
    · refine Descent.ext rfl ?_
      simp only [descent]
      rw [map_modify_same (by intro t; rfl)]
  · exact descent_modifyContext fun _ => rfl

/-- A move that creates nothing leaves the descent alone. -/
theorem descent_move {m : Move} (hc : ∀ call, m = .call call → call.enters = false) :
    (w.move m).descent = w.descent :=
  Endures.move (P := fun v => v.descent = w.descent)
    ⟨fun h hR => by rw [← descent_record, hR, descent_record, h], fun h _ => (descent_destroy _).trans h⟩
    (descent_marked m) hc (.inr fun _ _ h => h)

/-! ## The calls that create something -/

/-- What a move makes of the descent. -/
inductive Descends (w : World) : Move → Descent → Prop
  | same {m : Move} (quiet : w.attempt? m = none) : Descends w m w.descent
  | root {spec : RootSpec} (valid : spec.fault? = none) :
      Descends w (.call (.createRoot spec))
        { contexts := w.descent.contexts.push (spec.build w.contexts.size w.trees.size).pedigree
          trees := w.descent.trees.push (spec.id, 0) }
  | child {parent : ContextNo} {x : Context} {location : Location} {handler : Option Nat}
      {correlation : Option String} (hx : w.contexts[parent]? = some x)
      (taken : w.attempt? (.call (.createChild parent (some location) handler correlation)) = some parent)
      (free : w.find? (w.nextId x) = none) :
      Descends w (.call (.createChild parent (some location) handler correlation))
        { contexts := w.descent.contexts.push
            (x.pedigree.child parent (w.nextId x) location handler correlation)
          trees := w.descent.trees.modify x.tree fun t => (t.1, t.2 + 1) }
  /-- The id is in use, and its number is used up. -/
  | rejected {parent : ContextNo} {x : Context} {location : Location} {handler : Option Nat}
      {correlation : Option String} (hx : w.contexts[parent]? = some x)
      (taken : w.attempt? (.call (.createChild parent (some location) handler correlation)) = some parent)
      (used : (w.find? (w.nextId x)).isSome = true) :
      Descends w (.call (.createChild parent (some location) handler correlation))
        { contexts := w.descent.contexts
          trees := w.descent.trees.modify x.tree fun t => (t.1, t.2 + 1) }

theorem Descends.congr {m : Move} {D D' : Descent} (h : w.Descends m D) (hc : D'.contexts = D.contexts)
    (ht : D'.trees = D.trees) : w.Descends m D' := Descent.ext hc ht ▸ h

/-- What a call that creates a context makes of the descent, as it is on record. -/
theorem Enters.descends {call : Call} {R : Record} (h : w.Enters call R) :
    w.Descends (.call call) R.descent := by
  have hcontexts : w.record.contexts.map Standing.pedigree = w.descent.contexts :=
    congrArg Descent.contexts descent_record
  have hnumbered : ∀ i : Nat,
      (w.trees.modify i fun t => { t with numbered := t.numbered + 1 }).map Tree.count =
        w.descent.trees.modify i fun t => (t.1, t.2 + 1) := fun i => map_modify_comm fun _ => rfl
  have hpush : ∀ x : Context, (w.record.contexts.push x.standing).map Standing.pedigree =
      w.descent.contexts.push x.pedigree := fun x => by
    rw [Array.map_push, hcontexts]
    rfl
  cases h with
  | refused quiet => exact descent_record ▸ .same quiet
  | root valid => exact (Descends.root valid).congr (hpush _) Array.map_push
  | @child parent x location handler correlation g hx taken free =>
    have hfree : w.find? (w.nextId x) = none := by
      rw [← Option.not_isSome_iff_eq_none, ← register?_eq_none_iff, free]
      exact Option.some_ne_none g
    exact (Descends.child hx taken hfree).congr (hpush _) (hnumbered _)
  | rejected hx taken used => exact (Descends.rejected hx taken used).congr hcontexts (hnumbered _)

/-- **What a move makes of the descent.** -/
theorem descends_move (w : World) (m : Move) : w.Descends m (w.move m).descent := by
  rcases m.enters_cases with ⟨call, rfl, hc⟩ | hnone
  · exact descent_record ▸ (enters_call hc).descends
  · rw [descent_move hnone]
    refine .same ?_
    cases m with
    | call call => cases call <;> first | rfl | cases hnone _ rfl
    | _ => rfl

end World

end FanIn
