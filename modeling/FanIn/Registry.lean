/-!
# The registry of live contexts

The registry maps ids to the contexts registered under them. An entry does not keep its context
alive: while the context lives the entry protects the id, afterwards the entry is stale and the
next registration takes the id over. Only the context an entry belongs to can remove it, so a
context that is removed late never evicts the one that took its id over.

Contexts are told apart by their numbers, and whether one is alive is for the caller to say.

The view of a registry is `Registry.holder?`; `holder?_register?` and `holder?_unregister` say what
the two updates make of it.
-/

namespace FanIn

/-- Which context each id was last given to. At most one entry per id. -/
structure Registry where
  entries : List (String × Nat) := []
  deriving DecidableEq, Repr, Inhabited

namespace Registry

/-- The context an id was last given to, dead or alive. -/
def holder? (r : Registry) (id : String) : Option Nat := r.entries.lookup id

def erase (r : Registry) (id : String) : Registry :=
  ⟨r.entries.filter fun e => e.1 != id⟩

def find? (r : Registry) (isLive : Nat → Bool) (id : String) : Option Nat :=
  (r.holder? id).filter isLive

/-- Gives an id to a context, whoever had it. -/
def insert (r : Registry) (id : String) (context : Nat) : Registry :=
  match r.holder? id with
  | some _ => ⟨(id, context) :: (r.erase id).entries⟩
  | none => ⟨(id, context) :: r.entries⟩

/-- Gives an id to a context, unless a live context has it. -/
def register? (r : Registry) (isLive : Nat → Bool) (id : String) (context : Nat) :
    Option Registry :=
  match r.find? isLive id with
  | some _ => none
  | none => some (r.insert id context)

/-- Takes an id back from a context, if it still belongs to it. -/
def unregister (r : Registry) (id : String) (context : Nat) : Registry :=
  if r.holder? id == some context then r.erase id else r

/-- The number of entries, stale ones included. -/
def size (r : Registry) : Nat := r.entries.length

theorem lookup_cons_eq {α : Type} (key other : String) (a : α) (entries : List (String × α)) :
    List.lookup other ((key, a) :: entries) =
      if other = key then some a else List.lookup other entries := by
  rw [List.lookup_cons]
  by_cases h : other = key
  · simp [h]
  · simp [h, beq_eq_false_iff_ne.2 h]

/-- What is found where the entries of a key are left out. -/
theorem lookup_filter_ne {α : Type} (key other : String) (entries : List (String × α)) :
    List.lookup other (entries.filter fun e => e.1 != key) =
      if other = key then none else List.lookup other entries := by
  induction entries with
  | nil => simp
  | cons e entries ih =>
    obtain ⟨k, a⟩ := e
    rw [lookup_cons_eq]
    by_cases hk : k = key
    · rw [List.filter_cons_of_neg (by simp [hk]), ih]
      by_cases ho : other = key <;> simp [ho, hk]
    · rw [List.filter_cons_of_pos (by simp [hk]), lookup_cons_eq, ih]
      by_cases ho : other = k
      · simp [ho, hk]
      · simp [ho]

theorem holder?_erase (r : Registry) (id other : String) :
    (r.erase id).holder? other = if other = id then none else r.holder? other :=
  lookup_filter_ne id other r.entries

theorem holder?_insert (r : Registry) (id : String) (context : Nat) (other : String) :
    (r.insert id context).holder? other = if other = id then some context else r.holder? other := by
  unfold insert
  split
  · have he := holder?_erase r id other
    simp only [holder?] at he ⊢
    rw [lookup_cons_eq, he]
    by_cases ho : other = id <;> simp [ho]
  · simp only [holder?, lookup_cons_eq]

/-- Registering gives one id to one context and leaves all others as they are. -/
theorem holder?_register? {r r' : Registry} {isLive : Nat → Bool} {id : String} {context : Nat}
    (h : r.register? isLive id context = some r') (other : String) :
    r'.holder? other = if other = id then some context else r.holder? other := by
  unfold register? at h
  split at h
  · simp at h
  · obtain rfl := Option.some.inj h
    exact holder?_insert r id context other

/-- Unregistering takes one id from the context that holds it and leaves all others as they
are. -/
theorem holder?_unregister (r : Registry) (id : String) (context : Nat) (other : String) :
    (r.unregister id context).holder? other =
      if other = id ∧ r.holder? id = some context then none else r.holder? other := by
  unfold unregister
  by_cases h : r.holder? id = some context
  · simp [h, holder?_erase]
  · simp [h]

/-! ## Ids that are taken -/

/-- The ids that are registered. -/
def ids (r : Registry) : List String := r.entries.map Prod.fst

/-- The entries are what the look-up finds. -/
theorem mem_entries_iff {r : Registry} (h : r.ids.Nodup) {id : String} {context : Nat} :
    (id, context) ∈ r.entries ↔ r.holder? id = some context := by
  obtain ⟨entries⟩ := r
  simp only [ids, holder?] at h ⊢
  induction entries with
  | nil => simp
  | cons e entries ih =>
    obtain ⟨key, other⟩ := e
    obtain ⟨hkey, hrest⟩ := List.nodup_cons.1 h
    rw [lookup_cons_eq, List.mem_cons, Prod.mk.injEq, ih hrest]
    by_cases hk : id = key
    · subst hk
      -- the id has its one entry in front
      have hnone : List.lookup id entries ≠ some context := fun hl =>
        hkey (List.mem_map.2 ⟨(id, context), (ih hrest).2 hl, rfl⟩)
      simp [hnone, eq_comm]
    · simp [hk]

theorem nodup_ids_erase {r : Registry} (h : r.ids.Nodup) (id : String) : (r.erase id).ids.Nodup :=
  h.sublist (List.filter_sublist.map Prod.fst)

theorem nodup_ids_unregister {r : Registry} (h : r.ids.Nodup) (id : String) (context : Nat) :
    (r.unregister id context).ids.Nodup := by
  unfold unregister
  split
  · exact nodup_ids_erase h id
  · exact h

theorem not_mem_ids {r : Registry} {id : String} (h : r.holder? id = none) : id ∉ r.ids := by
  intro hmem
  obtain ⟨e, he, rfl⟩ := List.mem_map.1 hmem
  have hne := List.lookup_eq_none_iff.1 h e he
  simp at hne

theorem nodup_ids_insert {r : Registry} (h : r.ids.Nodup) (id : String) (context : Nat) :
    (r.insert id context).ids.Nodup := by
  unfold insert
  split
  · refine List.nodup_cons.2 ⟨not_mem_ids (r := r.erase id) ?_, nodup_ids_erase h id⟩
    rw [holder?_erase, if_pos rfl]
  · rename_i hnone
    exact List.nodup_cons.2 ⟨not_mem_ids hnone, h⟩

theorem nodup_ids_register? {r r' : Registry} {isLive : Nat → Bool} {id : String} {context : Nat}
    (h : r.ids.Nodup) (hr : r.register? isLive id context = some r') : r'.ids.Nodup := by
  unfold register? at hr
  split at hr
  · cases hr
  · obtain rfl := Option.some.inj hr
    exact nodup_ids_insert h id context

end Registry

end FanIn
