import Mathlib.Data.Set.Card
import FanIn.Proofs.Tree.Roll

/-!
# Who holds an id

Ids pass from context to context. A context takes an id when it is created, or when a client registers
it; it gives its own id back when it is destroyed, and a client may give any id back in its name. An id
belongs to whoever took it last, until that one gives it back: what anyone else gives back counts for
nothing. This is said of the sequence of all takings and returns, `HeldBy`, without a registry.

Main statement: `registry_holds_latest`. The registry tells who holds each id, whatever clients do to
it: they may register contexts under any number of ids, take ids of contexts that exist no more, and
give ids back that belong to someone else.
-/

namespace FanIn

/-- What may happen to an id. -/
inductive Transfer where
  /-- A context takes it. -/
  | taken (id : String) (c : ContextNo)
  /-- It is given back in the name of a context, which need not have it. -/
  | returned (id : String) (c : ContextNo)
  deriving DecidableEq, Repr

/-- Who holds an id: whoever took it last, unless it gave it back since. -/
def HeldBy (ts : List Transfer) (id : String) (c : ContextNo) : Prop :=
  ∃ earlier later, ts = earlier ++ Transfer.taken id c :: later ∧
    (∀ d, Transfer.taken id d ∉ later) ∧ Transfer.returned id c ∉ later

/-! ## One transfer after the other -/

variable {ts us : List Transfer} {id other : String} {c d : ContextNo} {r r' : Registry}

theorem not_heldBy_nil : ¬ HeldBy [] id c := by
  rintro ⟨earlier, later, h, -⟩
  simp at h

theorem heldBy_snoc {t : Transfer} : HeldBy (ts ++ [t]) id c ↔
    t = .taken id c ∨ HeldBy ts id c ∧ (∀ d, t ≠ .taken id d) ∧ t ≠ .returned id c := by
  constructor
  · rintro ⟨earlier, later, h, htaken, hreturned⟩
    rcases List.eq_nil_or_concat' later with rfl | ⟨later, u, rfl⟩
    · exact .inl (List.head_eq_of_cons_eq (List.append_inj' h rfl).2)
    · rw [← List.cons_append, ← List.append_assoc] at h
      obtain ⟨rfl, hu⟩ := List.append_inj' h rfl
      obtain rfl : t = u := List.head_eq_of_cons_eq hu
      simp only [List.mem_append, List.mem_singleton, not_or] at htaken hreturned
      exact .inr ⟨⟨earlier, later, rfl, fun d => (htaken d).1, hreturned.1⟩,
        fun d => Ne.symm (htaken d).2, Ne.symm hreturned.2⟩
  · rintro (rfl | ⟨⟨earlier, later, rfl, htaken, hreturned⟩, hd, hc⟩)
    · exact ⟨ts, [], rfl, fun _ => List.not_mem_nil, List.not_mem_nil⟩
    · refine ⟨earlier, later ++ [t], by simp, fun d => ?_, ?_⟩
      · simpa [htaken d] using Ne.symm (hd d)
      · simpa [hreturned] using Ne.symm hc

/-- The holder of an id that is taken is the one that takes it. -/
theorem heldBy_taken : HeldBy (ts ++ [.taken id c]) other d ↔
    if other = id then d = c else HeldBy ts other d := by
  rw [heldBy_snoc]
  by_cases h : other = id
  · simp [h, eq_comm]
  · simp [h, Ne.symm h]

/-- A return takes an id from the one who gives it back, if it has it. -/
theorem heldBy_returned : HeldBy (ts ++ [.returned id c]) other d ↔
    HeldBy ts other d ∧ ¬ (other = id ∧ d = c) := by
  rw [heldBy_snoc]
  simp [eq_comm]

/-- The same for any number of returns. -/
theorem heldBy_returns (hus : ∀ t ∈ us, ∃ id c, t = Transfer.returned id c) :
    HeldBy (ts ++ us) id c ↔ HeldBy ts id c ∧ Transfer.returned id c ∉ us := by
  induction us using List.reverseRecOn with
  | nil => simp
  | append_singleton us t ih =>
    obtain ⟨id', c', rfl⟩ := hus t (by simp)
    rw [← List.append_assoc, heldBy_returned, ih fun t ht => hus t (List.mem_append_left _ ht)]
    simp [and_assoc]

/-! ## The registry and the transfers -/

/-- The registry tells of each id who holds it. -/
def Registry.Tracks (r : Registry) (ts : List Transfer) : Prop :=
  ∀ id c, r.holder? id = some c ↔ HeldBy ts id c

namespace Registry.Tracks

theorem take {isLive : Nat → Bool} (h : r.Tracks ts) (hr : r.register? isLive id c = some r') :
    r'.Tracks (ts ++ [.taken id c]) := by
  intro other d
  rw [holder?_register? hr, heldBy_taken, ← h other d]
  split
  · simp [eq_comm]
  · rfl

theorem giveBack (h : r.Tracks ts) : (r.unregister id c).Tracks (ts ++ [.returned id c]) := by
  intro other d
  rw [holder?_unregister, heldBy_returned, ← h other d]
  by_cases ho : other = id
  · subst ho
    cases hh : r.holder? other with
    | none => simp
    | some e => by_cases he : e = c <;> simp [he] <;> grind
  · simp [ho]

/-- Several contexts give ids back at once. -/
theorem giveAllBack (h : r.Tracks ts) (hus : ∀ t ∈ us, ∃ id c, t = Transfer.returned id c)
    (hr : ∀ id, r'.holder? id = (r.holder? id).filter fun c => Transfer.returned id c ∉ us) :
    r'.Tracks (ts ++ us) := by
  intro id c
  rw [hr, Option.filter_eq_some_iff, heldBy_returns hus, h id c, decide_eq_true_iff]

/-- Whether an id can be given away. -/
theorem register?_eq_none {isLive : Nat → Bool} (h : r.Tracks ts) :
    r.register? isLive id c = none ↔ ∃ d, HeldBy ts id d ∧ isLive d = true := by
  simp only [register?, find?]
  cases hf : (r.holder? id).filter isLive with
  | none =>
    simp only [reduceCtorEq, false_iff, not_exists, not_and]
    intro d hd hl
    rw [(h id d).2 hd, Option.filter_some_pos hl] at hf
    cases hf
  | some d =>
    obtain ⟨hd, hl⟩ := Option.filter_eq_some_iff.1 hf
    exact iff_of_true rfl ⟨d, (h id d).1 hd, hl⟩

/-- The registry has one entry for each id that someone holds. -/
theorem size_eq (h : r.Tracks ts) (hids : r.ids.Nodup) :
    r.size = {id | ∃ c, HeldBy ts id c}.ncard := by
  have hset : {id | ∃ c, HeldBy ts id c} = ↑r.ids.toFinset := by
    ext id
    simp only [Set.mem_ofPred_eq, List.coe_toFinset, ids, List.mem_map, Prod.exists,
      exists_and_right, exists_eq_right, mem_entries_iff hids, h id]
  rw [hset, Set.ncard_coe_finset, List.toFinset_card_of_nodup hids, ids, List.length_map]
  rfl

end Registry.Tracks

namespace World

variable {w v : World}

/-! ## What happens to ids -/

/-- The contexts of a later world that were not there, each of which has taken its id. -/
def arrivals (w v : World) : List Transfer :=
  (List.range' w.contexts.size (v.contexts.size - w.contexts.size)).map fun c =>
    .taken (v.idOf c) c

/-- The contexts that exist no more in a later world, each of which has given its own id back. -/
def departures (w v : World) : List Transfer :=
  ((List.range w.contexts.size).filter fun c => w.isLive c && !v.isLive c).map fun c =>
    .returned (w.idOf c) c

/-- What a client itself does to an id. A registration may be refused. -/
def filings (w : World) : Move → List Transfer
  | .call (.register id c) =>
    match (w.call (.register id c)).reply with
    | .ok (.flag true) => [.taken id c]
    | _ => []
  | .call (.unregister id c) => [.returned id c]
  | _ => []

/-- What a move does to ids. -/
def transfers (w : World) (m : Move) : List Transfer :=
  w.filings m ++ w.arrivals (w.move m) ++ w.departures (w.move m)

/-- What a list of moves does to ids. -/
def transfersOver (w : World) : List Move → List Transfer
  | [] => []
  | m :: moves => w.transfers m ++ (w.move m).transfersOver moves

theorem filings_of_sparesRegistry {m : Move} (h : m.sparesRegistry = true) : w.filings m = [] := by
  unfold filings
  split
  · cases h
  · cases h
  · rfl

theorem arrivals_of_size (h : v.contexts.size = w.contexts.size) : w.arrivals v = [] := by
  simp [arrivals, h]

theorem departures_of_isLive (h : ∀ c, w.isLive c = true → v.isLive c = true) :
    w.departures v = [] := by
  simp only [departures, List.map_eq_nil_iff, List.filter_eq_nil_iff, Bool.and_eq_true,
    Bool.not_eq_true']
  rintro c - ⟨hl, hd⟩
  rw [h c hl] at hd
  cases hd

theorem mem_departures : Transfer.returned id c ∈ w.departures v ↔
    w.isLive c = true ∧ v.isLive c = false ∧ w.idOf c = id := by
  simp only [departures, List.mem_map, List.mem_filter, List.mem_range, Bool.and_eq_true,
    Bool.not_eq_true', Transfer.returned.injEq]
  constructor
  · rintro ⟨d, ⟨-, hl, hd⟩, hid, rfl⟩
    exact ⟨hl, hd, hid⟩
  · rintro ⟨hl, hd, hid⟩
    obtain ⟨x, hx, -⟩ := exists_of_isLive hl
    exact ⟨c, ⟨lt_of_getElem?_eq_some hx, hl, hd⟩, hid, rfl⟩

/-! ## What is destroyed -/

/-- Some contexts were destroyed, and with each its own entry. Nothing else happened to the roll. -/
structure Eroded (w v : World) : Prop where
  size : v.contexts.size = w.contexts.size
  ids : ∀ c, v.idOf c = w.idOf c
  nodup : w.registry.ids.Nodup → v.registry.ids.Nodup
  alive : ∀ c, v.isLive c = true → w.isLive c = true
  holder : ∀ id, v.registry.holder? id =
    (w.registry.holder? id).filter fun c => Transfer.returned id c ∉ w.departures v

theorem Eroded.refl (w : World) : w.Eroded w where
  size := rfl
  ids _ := rfl
  nodup h := h
  alive _ h := h
  holder id := by
    rw [departures_of_isLive fun _ h => h]
    cases w.registry.holder? id <;> simp [Option.filter]

theorem Eroded.congr {v' : World} (h : w.Eroded v) (hroll : v'.roll = v.roll) : w.Eroded v' where
  size := (size_of_roll hroll).trans h.size
  ids c := (idOf_of_roll hroll c).trans (h.ids c)
  nodup hids := (Prod.mk.inj hroll).1 ▸ h.nodup hids
  alive c hc := h.alive c (isLive_of_roll hroll c ▸ hc)
  holder id := by
    have hdepartures : w.departures v' = w.departures v := by
      simp only [departures, isLive_of_roll hroll]
    rw [(Prod.mk.inj hroll).1, h.holder id, hdepartures]

/-- One more context is destroyed. Its entry may be gone by then, and its id be someone else's. -/
theorem Eroded.destroy {r : Ref} (h : w.Eroded v) (hl : v.isLiveRef r = true) :
    w.Eroded (v.destroy r) := by
  cases r with
  | signal s => exact h.congr rfl
  | context c =>
    have hc : v.isLive c = true := hl
    obtain ⟨x, hx, -⟩ := exists_of_isLive hc
    have hlive : ∀ d, (v.destroy (.context c)).isLive d = (v.isLive d && decide (d ≠ c)) := by
      intro d
      simpa [isLiveRef] using isLiveRef_destroy (w := v) (.context c) (.context d)
    have hid : w.idOf c = x.id := by
      rw [← h.ids c, idOf, hx]
      rfl
    refine ⟨(size_contexts_destroy _).trans h.size, fun d => (idOf_destroy _ d).trans (h.ids d),
      fun hids => ?_, fun d hd => ?_, fun id => ?_⟩
    · rw [registry_destroy hx]
      exact Registry.nodup_ids_unregister (h.nodup hids) x.id c
    · rw [hlive, Bool.and_eq_true] at hd
      exact h.alive d hd.1
    · -- whoever has the entry before has it still, unless it is the one that goes
      have hgone : ∀ d, Transfer.returned id d ∈ w.departures (v.destroy (.context c)) ↔
          Transfer.returned id d ∈ w.departures v ∨ x.id = id ∧ d = c := by
        intro d
        rw [mem_departures, mem_departures, hlive]
        by_cases hd : d = c
        · subst hd
          simp [hc, h.alive d hc, hid]
        · simp [hd]
      have hstays : Transfer.returned id c ∉ w.departures v := by
        simp [mem_departures, hc]
      rw [registry_destroy hx, Registry.holder?_unregister, h.holder id, h.holder x.id]
      simp only [hgone]
      cases hw : w.registry.holder? id <;> grind

/-- What does not create anything, and asks nothing of the registry, erodes the roll at most. -/
theorem eroded_move {m : Move} (hm : ∀ call, m = .call call → call.enters = false)
    (hs : m.sparesRegistry = true) : w.Eroded (w.move m) :=
  Erodes.move ⟨Eroded.congr, Eroded.destroy⟩ (.refl w) hm (.inl hs)

/-- A context enters, and takes its id. -/
theorem transfers_enter {x : Context} {g : Registry} (hl : x.isLive = true)
    (hroll : v.roll = (w.enter x g).roll) :
    w.arrivals v = [.taken x.id w.contexts.size] ∧ w.departures v = [] := by
  have hget : ∀ d : ContextNo, (w.enter x g).contexts[d]? =
      if d = w.contexts.size then some x else w.contexts[d]? := getElem?_enter x g
  have hsize : v.contexts.size = w.contexts.size + 1 := by
    rw [size_of_roll hroll]
    simp [enter, contexts_log, note]
  constructor
  · have hid : v.idOf w.contexts.size = x.id := by
      rw [idOf_of_roll hroll, idOf, hget, if_pos rfl]
      rfl
    simp [arrivals, hsize, hid]
  · refine departures_of_isLive fun c hc => ?_
    rw [isLive_of_roll hroll]
    unfold isLive at hc ⊢
    rw [hget]
    split
    · simp [hl]
    · exact hc

/-! ## Runs -/

/-- The registry tells who holds each id, with one entry for each. -/
structure Tenured (w : World) (ts : List Transfer) : Prop where
  ids : w.registry.ids.Nodup
  tracks : w.registry.Tracks ts

variable {threshold : Log.Level}

theorem tenured_start (threshold : Log.Level) : (start threshold).Tenured [] where
  ids := List.nodup_nil
  tracks _ _ := iff_of_false (by simp [start, Registry.holder?]) not_heldBy_nil

theorem Tenured.erode (h : w.Tenured ts) (he : w.Eroded v) : v.Tenured (ts ++ w.departures v) where
  ids := he.nodup h.ids
  tracks := by
    refine h.tracks.giveAllBack (fun t ht => ?_) he.holder
    obtain ⟨c, -, rfl⟩ := List.mem_map.1 ht
    exact ⟨_, c, rfl⟩

theorem Tenured.enter {x : Context} {g : Registry} (h : w.Tenured ts)
    (hg : w.registry.register? w.isLive x.id w.contexts.size = some g) (hv : v.registry = g) :
    v.Tenured (ts ++ [.taken x.id w.contexts.size]) where
  ids := hv ▸ Registry.nodup_ids_register? h.ids hg
  tracks := hv ▸ h.tracks.take hg

/-- A client registers a context, unless the id belongs to one that exists. -/
theorem Tenured.register (h : w.Tenured ts) (id : String) (c : ContextNo) :
    (w.call (.register id c)).Tenured (ts ++ w.filings (.call (.register id c))) := by
  simp only [filings, call]
  split
  · simpa [answered] using ⟨h.ids, h.tracks⟩
  · rename_i g hg
    exact ⟨Registry.nodup_ids_register? h.ids hg, h.tracks.take hg⟩

theorem Tenured.unregister (h : w.Tenured ts) (id : String) (c : ContextNo) :
    (w.call (.unregister id c)).Tenured (ts ++ [.returned id c]) where
  ids := Registry.nodup_ids_unregister h.ids id c
  tracks := h.tracks.giveBack

/-- A client that writes into the registry creates and destroys nothing. -/
theorem transfers_of_contexts {m : Move} (hm : (w.move m).contexts = w.contexts) :
    w.transfers m = w.filings m := by
  have hdepartures : w.departures (w.move m) = [] :=
    departures_of_isLive fun c hc => by rwa [isLive, hm]
  rw [transfers, arrivals_of_size (by rw [hm]), hdepartures, List.append_nil, List.append_nil]

/-- A call that creates a context gives it an id, or does nothing to any id. -/
theorem Tenured.create (h : w.Tenured ts) (call : Call) (hc : call.enters = true) :
    (w.call call).Tenured (ts ++ w.transfers (.call call)) := by
  have hs : (Move.call call).sparesRegistry = true := by cases call <;> first | rfl | cases hc
  rw [transfers, filings_of_sparesRegistry hs, List.nil_append, World.move]
  rcases roll_call_of_enters hc with hroll | ⟨x, g, hl, hg, hroll⟩
  · have he := (Eroded.refl w).congr hroll
    rw [arrivals_of_size he.size]
    exact h.erode he
  · obtain ⟨harrivals, hdepartures⟩ := transfers_enter hl hroll
    rw [harrivals, hdepartures, List.append_nil]
    exact h.enter hg ((Prod.mk.inj hroll).1.trans (registry_enter x g))

/-- A move does to the registry what it does to ids. -/
theorem Tenured.move (h : w.Tenured ts) (m : Move) : (w.move m).Tenured (ts ++ w.transfers m) := by
  have erode : ∀ m : Move, (∀ call, m = .call call → call.enters = false) →
      m.sparesRegistry = true → (w.move m).Tenured (ts ++ w.transfers m) := by
    intro m hm hs
    have he := eroded_move (w := w) hm hs
    rw [transfers, filings_of_sparesRegistry hs, arrivals_of_size he.size]
    exact h.erode he
  cases m with
  | advance => exact erode _ (fun _ h => nomatch h) rfl
  | finish thrown => exact erode _ (fun _ h => nomatch h) rfl
  | handled a => exact erode _ (fun _ h => nomatch h) rfl
  | call call =>
    cases call with
    | createRoot spec => exact h.create (.createRoot spec) rfl
    | createChild parent location handler correlation =>
      exact h.create (.createChild parent location handler correlation) rfl
    | register id c =>
      rw [transfers_of_contexts]
      · exact h.register id c
      · simp only [World.move, World.call]
        split <;> rfl
    | unregister id c =>
      rw [transfers_of_contexts rfl]
      exact h.unregister id c
    | _ => exact erode _ (fun _ h => by cases h; rfl) rfl

theorem Tenured.run (h : w.Tenured ts) (moves : List Move) :
    (machine.run w moves).Tenured (ts ++ w.transfersOver moves) := by
  induction moves generalizing w ts with
  | nil => simpa [transfersOver] using h
  | cons m moves ih =>
    rw [transfersOver, ← List.append_assoc]
    exact ih (h.move m)

/-- **The registry holds, for each id, whoever took it last.** At any moment of any run, whatever clients
register and unregister: who holds an id is whoever took it last and has not given it back since. An id can
be given to a context if nobody holds it or if its holder exists no more; otherwise nothing changes. Looking
an id up finds its holder, if that exists. Giving an id back in the name of a context frees the id if that
context holds it, and otherwise changes nothing. There are as many entries as there are ids with a holder,
whether or not it exists. -/
theorem registry_holds_latest {moves : List Move} (hw : machine.run (start threshold) moves = w)
    (hts : (start threshold).transfersOver moves = ts) :
    (∀ id c, w.registry.holder? id = some c ↔ HeldBy ts id c) ∧
    (∀ id c, (w.registry.register? w.isLive id c).isSome ↔ ∀ d, HeldBy ts id d → w.isLive d = false) ∧
    (∀ id c, (∃ d, HeldBy ts id d ∧ w.isLive d = true) →
      w.move (.call (.register id c)) = w.answered (.flag false)) ∧
    (∀ id c, (∀ d, HeldBy ts id d → w.isLive d = false) → ∃ r,
      w.move (.call (.register id c)) = World.answered { w with registry := r } (.flag true) ∧
      ∀ other, r.holder? other = if other = id then some c else w.registry.holder? other) ∧
    (∀ id c, w.find? id = some c ↔ HeldBy ts id c ∧ w.isLive c = true) ∧
    (∀ id c, ∃ r, w.move (.call (.unregister id c)) = World.answered { w with registry := r } .done ∧
      (HeldBy ts id c → ∀ other, r.holder? other = if other = id then none else w.registry.holder? other) ∧
      (¬ HeldBy ts id c → r = w.registry)) ∧
    w.registry.size = {id | ∃ c, HeldBy ts id c}.ncard := by
  have htenured : w.Tenured ts := by
    have hrun := (tenured_start threshold).run moves
    rwa [hw, List.nil_append, hts] at hrun
  have htracks := htenured.tracks
  have hnone : ∀ id c, w.registry.register? w.isLive id c = none ↔
      ∃ d, HeldBy ts id d ∧ w.isLive d = true := fun _ _ => htracks.register?_eq_none
  refine ⟨htracks, ?_, ?_, ?_, ?_, ?_, htracks.size_eq htenured.ids⟩
  · intro id c
    rw [Option.isSome_iff_ne_none, Ne, hnone]
    simp
  · intro id c hlive
    simp only [World.move, call, (hnone id c).2 hlive]
  · intro id c hdead
    cases hg : w.registry.register? w.isLive id c with
    | none =>
      obtain ⟨d, hd, hl⟩ := (hnone id c).1 hg
      rw [hdead d hd] at hl
      cases hl
    | some g =>
      refine ⟨g, ?_, Registry.holder?_register? hg⟩
      simp only [World.move, call, hg]
  · intro id c
    rw [World.find?, Registry.find?, Option.filter_eq_some_iff, htracks]
  · intro id c
    refine ⟨w.registry.unregister id c, rfl, fun hc other => ?_, fun hc => ?_⟩
    · simp [Registry.holder?_unregister, (htracks id c).2 hc]
    · have hne : w.registry.holder? id ≠ some c := fun hh => hc ((htracks id c).1 hh)
      simp [Registry.unregister, hne]

/-- A context is registered under two more ids, and destroyed: both stay behind. A second context takes
one of them over, and the first one gives it back in vain, in its own name. -/
def takeoverMoves : List Move :=
  [Move.call (.createRoot { origin := .bridge "a" "" (some 0), location := some ⟨"box", "a"⟩ }), .advance,
    .call (.register "x" 0), .call (.register "y" 0), .call (.drop (.context 0)),
    .call (.createRoot { origin := .bridge "b" "" (some 0), location := some ⟨"box", "b"⟩ }), .advance,
    .call (.register "x" 1), .call (.unregister "x" 0)]

theorem registry_holds_latest_takeover :
    ∃ w : World, machine.run start takeoverMoves = w ∧ machine.legal start takeoverMoves = true ∧
      w.isLive 0 = false ∧ w.registry.holder? "a" = none ∧ w.registry.holder? "y" = some 0 ∧
      w.find? "x" = some 1 ∧ {id | ∃ c, HeldBy (start.transfersOver takeoverMoves) id c}.ncard = 3 ∧
      w.move (.call (.register "x" 1)) = w.answered (.flag false) := by
  obtain ⟨hheld, -, hrefused, -, hfind, -, hsize⟩ :=
    registry_holds_latest (show machine.run start takeoverMoves = _ from rfl) rfl
  have hx : (machine.run start takeoverMoves).registry.holder? "x" = some 1 := by decide +kernel
  have hl : (machine.run start takeoverMoves).isLive 1 = true := by decide +kernel
  exact ⟨_, rfl, by decide +kernel, by decide +kernel, by decide +kernel, by decide +kernel,
    (hfind "x" 1).2 ⟨(hheld "x" 1).1 hx, hl⟩, hsize ▸ by decide +kernel,
    hrefused "x" 1 ⟨1, (hheld "x" 1).1 hx, hl⟩⟩

end World

end FanIn
