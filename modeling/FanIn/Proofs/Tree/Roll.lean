import FanIn.Proofs.Tree.Record

/-!
# The roll of contexts

A world calls the roll of its contexts, the id of each and whether it exists, and it keeps a registry.
Only a creation and a destruction change either, as long as clients do not write into the registry
themselves. So the registry has an entry for each context that exists, under its id, and no other.

Main statement: `registry_mirrors_roll`. Nothing is asked of clients but that they leave the registry
alone; they may fire channels of contexts and give up slots that nobody took.
-/

namespace FanIn

/-- What the roll says of a context. -/
def Context.entry (x : Context) : String × Bool := (x.id, x.isLive)

namespace World

/-- The registry, and of all contexts ever made their ids and whether they exist. -/
def roll (w : World) : Registry × Array (String × Bool) :=
  (w.registry, w.contexts.map Context.entry)

/-- The registry has an entry for each context that exists, under its id, and no other. -/
structure Enrolled (w : World) : Prop where
  ids : w.registry.ids.Nodup
  holder : ∀ id c, w.registry.holder? id = some c ↔ w.roll.2[c]? = some (id, true)

variable {w w' : World}

theorem entry_of_roll {c : ContextNo} {id : String} {b : Bool} :
    w.roll.2[c]? = some (id, b) ↔ ∃ x, w.contexts[c]? = some x ∧ x.id = id ∧ x.isLive = b := by
  simp [roll, Context.entry]

theorem isLive_of_roll (h : w'.roll = w.roll) (c : ContextNo) : w'.isLive c = w.isLive c := by
  have hentry : (w'.contexts[c]?).map Context.entry = (w.contexts[c]?).map Context.entry := by
    simpa [roll] using congrArg (fun p => p.2[c]?) h
  unfold isLive
  cases hx : w.contexts[c]? <;> cases hy : w'.contexts[c]? <;> simp_all [Context.entry]

theorem idOf_of_roll (h : w'.roll = w.roll) (c : ContextNo) : w'.idOf c = w.idOf c := by
  have hentry : (w'.contexts[c]?).map Context.entry = (w.contexts[c]?).map Context.entry := by
    simpa [roll] using congrArg (fun p => p.2[c]?) h
  unfold idOf
  cases hx : w.contexts[c]? <;> cases hy : w'.contexts[c]? <;> simp_all [Context.entry]

theorem size_of_roll (h : w'.roll = w.roll) : w'.contexts.size = w.contexts.size := by
  simpa [roll] using congrArg (fun p => p.2.size) h

theorem registry_enter (x : Context) (g : Registry) : (w.enter x g).registry = g := by
  unfold enter log
  dsimp only
  split <;> rfl

theorem roll_enter (x : Context) (g : Registry) : (w.enter x g).roll = (g, w.roll.2.push x.entry) := by
  refine Prod.ext (registry_enter x g) ?_
  simp only [roll, enter, contexts_log]
  exact Array.map_push

/-! ## What leaves the roll alone -/

/-- Only the registry and what the roll says of each context matters. -/
theorem Enrolled.congr (h : w.Enrolled) (hr : w'.roll = w.roll) : w'.Enrolled := by
  obtain ⟨hreg, -⟩ := Prod.mk.inj hr
  constructor
  · rw [hreg]
    exact h.ids
  · intro id c
    rw [hreg, hr]
    exact h.holder id c

/-- The roll is on record. -/
theorem roll_eq (w : World) :
    w.roll = (w.record.registry, w.record.contexts.map fun x => (x.pedigree.id, x.isLive)) :=
  Prod.ext rfl (by simp only [roll, record, Array.map_map]; rfl)

theorem roll_of_record (h : w'.record = w.record) : w'.roll = w.roll := by rw [roll_eq, h, ← roll_eq]

/-- The roll does not say how far an outcome is decided, or what has been reported. -/
theorem roll_marked (m : Move) : (w.marked m).roll = w.roll := by
  refine marked_induction (P := fun v => v.roll = w.roll) rfl (fun c => ?_) (fun c r => ?_) m
  · unfold reportBranch
    split <;> rfl
  · refine Prod.ext rfl ?_
    simp only [roll, judge, modifyContext]
    rw [map_modify_same (by intro x; rfl)]

/-! ## Destruction and creation -/

theorem roll_destroy {c : ContextNo} {x : Context} (hx : w.contexts[c]? = some x) (d : ContextNo) :
    (w.destroy (.context c)).roll.2[d]? = if c = d then some (x.id, false) else w.roll.2[d]? := by
  simp only [roll, Array.getElem?_map, getElem?_contexts_destroy, Ref.context.injEq]
  split
  · rename_i hcd
    simp [← hcd, hx, Context.entry]
  · rfl

/-- A context that exists is destroyed, and its entry with it. -/
theorem Enrolled.destroy (h : w.Enrolled) {r : Ref} (hl : w.isLiveRef r = true) :
    (w.destroy r).Enrolled := by
  cases r with
  | signal s => exact h.congr rfl
  | context c =>
    obtain ⟨x, hx, hxl⟩ := exists_of_isLive hl
    have hreg := registry_destroy hx
    have hroll := roll_destroy hx
    have hown : w.registry.holder? x.id = some c :=
      (h.holder x.id c).2 (entry_of_roll.2 ⟨x, hx, rfl, hxl⟩)
    constructor
    · rw [hreg]
      exact Registry.nodup_ids_unregister h.ids x.id c
    · intro id d
      rw [hreg, Registry.holder?_unregister, hroll, hown]
      by_cases hid : id = x.id
      · -- the id is free now: whoever had it is the one that goes
        subst hid
        have hd : w.roll.2[d]? = some (x.id, true) → c = d := fun hd =>
          Option.some.inj (hown.symm.trans ((h.holder x.id d).2 hd))
        by_cases hcd : c = d <;> simp [hcd]
        exact fun he => hcd (hd he)
      · have hc : w.roll.2[c]? = some (x.id, true) := entry_of_roll.2 ⟨x, hx, rfl, hxl⟩
        simp only [hid, false_and, if_false]
        rw [h.holder id d]
        by_cases hcd : c = d
        · subst hcd
          simp [hc, Ne.symm hid]
        · simp [hcd]

/-- A context that exists enters under an id that no other one has. -/
theorem Enrolled.enter (h : w.Enrolled) {x : Context} (hl : x.isLive = true) {g : Registry}
    (hg : w.registry.register? w.isLive x.id w.contexts.size = some g) : (w.enter x g).Enrolled := by
  have hreg := registry_enter (w := w) x g
  have hroll : ∀ d : ContextNo, (w.enter x g).roll.2[d]? =
      if d = w.contexts.size then some (x.id, true) else w.roll.2[d]? := by
    intro d
    simp only [roll, Array.getElem?_map, getElem?_enter]
    split
    · simp [Context.entry, hl]
    · rfl
  -- whoever has an id exists, so that an id which can be given is free
  have hfree : w.registry.holder? x.id = none := by
    cases hh : w.registry.holder? x.id with
    | none => rfl
    | some d =>
      obtain ⟨y, hy, -, hyl⟩ := entry_of_roll.1 ((h.holder x.id d).1 hh)
      have hlive : w.isLive d = true := by simp [isLive, hy, hyl]
      simp [Registry.register?, Registry.find?, hh, Option.filter, hlive] at hg
  constructor
  · rw [hreg]
    exact Registry.nodup_ids_register? h.ids hg
  · intro id d
    rw [hreg, Registry.holder?_register? hg, hroll]
    have hbound : w.roll.2[w.contexts.size]? = none := by simp [roll]
    by_cases hid : id = x.id
    · subst hid
      have hno : w.roll.2[d]? ≠ some (x.id, true) := fun hd => by
        rw [(h.holder x.id d).2 hd] at hfree
        cases hfree
      by_cases hd : d = w.contexts.size
      · simp [hd]
      · simp [hd, hno, Ne.symm hd]
    · rw [if_neg hid, h.holder id d]
      by_cases hd : d = w.contexts.size
      · simp [hd, hbound, Ne.symm hid]
      · simp [hd]

/-! ## Moves -/

/-- A property that depends on the roll alone, and that destruction keeps. -/
structure Erodes (P : World → Prop) : Prop where
  congr : ∀ {w w' : World}, P w → w'.roll = w.roll → P w'
  destroy : ∀ {w : World} {r : Ref}, P w → w.isLiveRef r = true → P (w.destroy r)

namespace Erodes

variable {P : World → Prop} (hP : Erodes P)
include hP

theorem endures : Endures P := ⟨fun h hR => hP.congr h (roll_of_record hR), hP.destroy⟩

/-- A move that enters no context keeps the property, unless clients write into the registry and it
depends on that. -/
theorem move (h : P w) {m : Move} (hc : ∀ call, m = .call call → call.enters = false)
    (hs : m.sparesRegistry = true ∨ ∀ (v : World) (g : Registry), P v → P { v with registry := g }) :
    P (w.move m) := hP.endures.move (hP.congr h (roll_marked m)) hc hs

end Erodes

/-- A call that creates a context leaves the roll alone, or enters one context, under an id that was
free. -/
theorem roll_call_of_enters {call : Call} (hc : call.enters = true) :
    (w.call call).roll = w.roll ∨
    ∃ x g, x.isLive = true ∧ w.registry.register? w.isLive x.id w.contexts.size = some g ∧
      (w.call call).roll = (w.enter x g).roll := by
  have henters := enters_call (w := w) hc
  have hpush : ∀ x : Context, (w.record.contexts.push x.standing).map
      (fun x => (x.pedigree.id, x.isLive)) = w.roll.2.push x.entry := fun x => by
    rw [Array.map_push, roll_eq]
    rfl
  rw [roll_eq (w.call call)]
  generalize (w.call call).record = R at henters
  cases henters with
  | refused quiet => exact .inl (roll_eq w).symm
  | rejected hx taken used => exact .inl (roll_eq w).symm
  | root valid free => exact .inr ⟨_, _, rfl, free, by rw [roll_enter, ← hpush]⟩
  | child hx taken free => exact .inr ⟨_, _, rfl, free, by rw [roll_enter, ← hpush]⟩

/-- A property that depends on the roll alone, and that destruction and creation keep. -/
structure Withstands (P : World → Prop) : Prop extends Erodes P where
  enter : ∀ {w : World} {x : Context} {g : Registry}, P w → x.isLive = true →
    w.registry.register? w.isLive x.id w.contexts.size = some g → P (w.enter x g)

namespace Withstands

variable {P : World → Prop} (hP : Withstands P)
include hP

theorem move (h : P w) (m : Move) (hs : m.sparesRegistry = true ∨
    ∀ (v : World) (g : Registry), P v → P { v with registry := g }) : P (w.move m) := by
  rcases m.enters_cases with ⟨call, rfl, hc⟩ | hnone
  · rcases roll_call_of_enters hc with hroll | ⟨x, g, hl, hg, hroll⟩
    · exact hP.congr h hroll
    · exact hP.congr (hP.enter h hl hg) hroll
  · exact hP.toErodes.move h hnone hs

end Withstands

/-- A move that leaves the registry alone keeps it in step with the roll. -/
theorem Enrolled.move (h : w.Enrolled) (m : Move) (hs : m.sparesRegistry = true) :
    (w.move m).Enrolled :=
  Withstands.move ⟨⟨.congr, fun h hl => h.destroy hl⟩, fun h hl hg => h.enter hl hg⟩ h m (.inl hs)

/-- A context keeps its id, whatever clients do to the registry. -/
theorem id_lasts {c : ContextNo} {x : Context} (h : w.contexts[c]? = some x) (m : Move) :
    ∃ y, (w.move m).contexts[c]? = some y ∧ y.id = x.id := by
  refine Withstands.move (P := fun w => ∃ y, w.contexts[c]? = some y ∧ y.id = x.id)
    ⟨⟨?_, ?_⟩, ?_⟩ ⟨x, h, rfl⟩ m (.inr fun _ _ h => h)
  · rintro v v' ⟨y, hy, hid⟩ hroll
    have hentry : v'.roll.2[c]? = some (x.id, y.isLive) := by
      rw [hroll]
      exact entry_of_roll.2 ⟨y, hy, hid, rfl⟩
    obtain ⟨z, hz, hzid, _⟩ := entry_of_roll.1 hentry
    exact ⟨z, hz, hzid⟩
  · rintro v r ⟨y, hy, hid⟩ _
    cases r with
    | signal s => exact ⟨y, hy, hid⟩
    | context d =>
      simp only [World.destroy]
      split
      · exact ⟨y, hy, hid⟩
      · rw [getElem?_modifyContext, contexts_farewell, hy]
        split
        · exact ⟨_, rfl, hid⟩
        · exact ⟨y, rfl, hid⟩
  · rintro v z g ⟨y, hy, hid⟩ _ _
    refine ⟨y, ?_, hid⟩
    rw [getElem?_enter, if_neg (Nat.ne_of_lt (lt_of_getElem?_eq_some hy)), hy]

theorem enrolled_start (threshold : Log.Level) : (start threshold).Enrolled where
  ids := List.nodup_nil
  holder := by
    intro id c
    constructor
    · intro h
      cases h
    · intro h
      simp [roll, start] at h

/-! ## Runs -/

theorem isLive_iff {c : ContextNo} : w.isLive c = true ↔ w.roll.2[c]? = some (w.idOf c, true) := by
  rw [entry_of_roll]
  unfold isLive idOf
  cases w.contexts[c]? <;> simp

/-- Looking an id up finds the context that exists under it. -/
theorem Enrolled.find?_eq_some (h : w.Enrolled) {id : String} {c : ContextNo} :
    w.find? id = some c ↔ w.isLive c = true ∧ w.idOf c = id := by
  unfold World.find? Registry.find?
  rw [Option.filter_eq_some_iff, h.holder]
  constructor
  · rintro ⟨hentry, hlive⟩
    have hown := isLive_iff.1 hlive
    rw [hentry] at hown
    exact ⟨hlive, (Prod.mk.inj (Option.some.inj hown)).1.symm⟩
  · rintro ⟨hlive, rfl⟩
    exact ⟨isLive_iff.1 hlive, hlive⟩

/-- The contexts that exist, each with its id. -/
def enrolment (w : World) : List (String × ContextNo) :=
  (w.contexts.toList.zipIdx.filter fun e => e.1.isLive).map fun e => (e.1.id, e.2)

theorem mem_enrolment {id : String} {c : ContextNo} :
    (id, c) ∈ w.enrolment ↔ w.roll.2[c]? = some (id, true) := by
  rw [entry_of_roll]
  simp only [enrolment, List.mem_map, List.mem_filter, List.mem_zipIdx_iff_getElem?]
  constructor
  · rintro ⟨⟨x, d⟩, ⟨hx, hl⟩, he⟩
    obtain ⟨rfl, rfl⟩ := Prod.mk.inj he
    exact ⟨x, by simpa using hx, rfl, hl⟩
  · rintro ⟨x, hx, rfl, hl⟩
    exact ⟨(x, c), ⟨by simpa using hx, hl⟩, rfl⟩

theorem length_enrolment (w : World) :
    w.enrolment.length = w.contexts.countP Context.isLive := by
  rw [enrolment, List.length_map, ← List.countP_eq_length_filter, ← Array.countP_toList]
  conv_rhs => rw [← List.zipIdx_map_fst 0 w.contexts.toList, List.countP_map]
  rfl

theorem nodup_enrolment (w : World) : w.enrolment.Nodup := by
  -- the contexts stand in the order of their numbers
  have hnumbers : (w.enrolment.map Prod.snd).Nodup := by
    rw [enrolment, List.map_map]
    have hall : (w.contexts.toList.zipIdx.map Prod.snd).Nodup := by
      rw [List.zipIdx_map_snd]
      exact List.nodup_range'
    exact hall.sublist (List.filter_sublist.map Prod.snd)
  exact hnumbers.of_map _

/-- The entries are the contexts that exist, in some order. -/
theorem Enrolled.perm (h : w.Enrolled) : w.registry.entries.Perm w.enrolment := by
  refine (List.perm_ext_iff_of_nodup (h.ids.of_map _) w.nodup_enrolment).2 ?_
  rintro ⟨id, c⟩
  rw [Registry.mem_entries_iff h.ids, h.holder, mem_enrolment]

/-- **The registry mirrors the contexts that exist.** At any moment of any run whose clients leave the
registry alone, no two contexts that exist have the same id, looking an id up finds the context that
exists under it, and nothing if there is none, and the registry has as many entries as there are contexts
that exist. -/
theorem registry_mirrors_roll {threshold : Log.Level} {moves : List Move}
    (h : (machine.restrict fun _ m => m.sparesRegistry).legal (start threshold) moves = true)
    (hw : machine.run (start threshold) moves = w) :
    (∀ c d, w.isLive c = true → w.isLive d = true → w.idOf c = w.idOf d → c = d) ∧
    (∀ id c, w.find? id = some c ↔ w.isLive c = true ∧ w.idOf c = id) ∧
    (∀ id, w.find? id = none ↔ ∀ c, w.isLive c = true → w.idOf c ≠ id) ∧
    w.registry.size = w.contexts.countP Context.isLive := by
  have henrolled : w.Enrolled := hw ▸
    (machine.restrict fun _ m => m.sparesRegistry).invariant (P := Enrolled)
      (fun v m hv hm => hv.move m (Bool.and_eq_true_iff.1 hm).2) (enrolled_start threshold) h
  refine ⟨?_, fun id c => henrolled.find?_eq_some, ?_, ?_⟩
  · intro c d hc hd hid
    have hfound := henrolled.find?_eq_some.2 ⟨hc, hid⟩
    exact Option.some.inj (hfound.symm.trans (henrolled.find?_eq_some.2 ⟨hd, rfl⟩))
  · intro id
    constructor
    · intro hnone c hc hid
      rw [henrolled.find?_eq_some.2 ⟨hc, hid⟩] at hnone
      cases hnone
    · intro hfree
      cases hf : w.find? id with
      | none => rfl
      | some c =>
        obtain ⟨hc, hid⟩ := henrolled.find?_eq_some.1 hf
        exact absurd hid (hfree c hc)
  · rw [← w.length_enrolment]
    exact henrolled.perm.length_eq

/-- A tree completes while its child is held, and its root is destroyed. Its id is used again: the first
child of the new tree is refused, for its id belongs to the old one, and the second is not. Both are
created while the exception handler of the new root runs. -/
def reuseMoves : List Move :=
  [Move.call (.createRoot { origin := .bridge "a" "" (some 0), location := some ⟨"box", "a"⟩ }), .advance,
    .call (.createChild 0 (some ⟨"box", "b"⟩) none none), .advance, .call (.success 1 none)] ++
    List.replicate 10 Move.advance ++ Move.call (.success 0 none) :: List.replicate 10 Move.advance ++
  [Move.call (.drop (.context 0)),
    .call (.createRoot { origin := .bridge "a" "" (some 0), location := some ⟨"box", "c"⟩ }), .advance,
    .call (.error 2 (some .outOfMemory)),
    .call (.createChild 2 (some ⟨"box", "d"⟩) none none), .advance, .advance,
    .call (.createChild 2 (some ⟨"box", "e"⟩) none none), .advance, .handled .nothing] ++
    List.replicate 8 Move.advance

theorem registry_mirrors_roll_reused :
    ∃ w : World, machine.run start reuseMoves = w ∧ w.registry.size = 3 ∧
      w.contexts.countP Context.isLive = 3 ∧ w.find? "a" = some 2 ∧ w.find? "a_1" = some 1 ∧
      w.isLive 0 = false ∧ w.idOf 0 = w.idOf 2 := by
  have legal : (machine.restrict fun _ m => m.sparesRegistry).legal start reuseMoves = true := by
    decide +kernel
  obtain ⟨_, hfind, _, hsize⟩ := registry_mirrors_roll legal rfl
  exact ⟨_, rfl, by decide +kernel, hsize ▸ by decide +kernel, (hfind "a" 2).2 (by decide +kernel),
    (hfind "a_1" 1).2 (by decide +kernel), by decide +kernel, by decide +kernel⟩

end World

end FanIn
