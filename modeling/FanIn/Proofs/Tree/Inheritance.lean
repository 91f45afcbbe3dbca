import FanIn.Proofs.Tree.Lineage

/-!
# What contexts inherit

A context that is created has what it is given, and what it is not given it has from its parent. So the
nearest context on the path up to the root that was given a correlation id, or an exception handler,
decides. An empty correlation id counts as none; where none was given, the id of the root stands for it,
and says so. All else is the root's.

Main statement: `inherited`. It is about every context ever created, whatever has become of those above it,
and asks nothing of clients.
-/

namespace FanIn

namespace Call

/-- The correlation id that a context is created with. An empty one is none. -/
def correlation? : Call → Option String
  | createRoot spec => spec.correlation.filter fun id => !id.isEmpty
  | createChild _ _ _ correlation => correlation.filter fun id => !id.isEmpty
  | _ => none

/-- The exception handler that a context is created with. -/
def handler? : Call → Option Nat
  | createRoot spec => spec.handler
  | createChild _ _ handler _ => handler
  | _ => none

/-- The context that a child is created from. -/
def parent? : Call → Option ContextNo
  | createChild parent _ _ _ => some parent
  | _ => none

theorem parent?_eq_some {call : Call} {parent : ContextNo} : call.parent? = some parent ↔
    ∃ location handler correlation, call = createChild parent location handler correlation := by
  cases call <;> simp [parent?]

end Call

theorem Correlation.ofGiven_eq (given : Option String) (default : Correlation) :
    Correlation.ofGiven given default =
      ((given.filter fun id => !id.isEmpty).map fun id => ⟨id, true⟩).getD default := by
  cases given with
  | none => rfl
  | some id => by_cases h : id.isEmpty <;> simp [ofGiven, Option.filter, h]

/-- The server id that a root is created with. An empty one is none. -/
def RootSpec.ownServerId (spec : RootSpec) : String :=
  match spec.origin with
  | .bridge _ own _ => own
  | .flow _ _ => ""

theorem RootSpec.serverId_eq (spec : RootSpec) :
    spec.serverId = if spec.ownServerId = "" then spec.settings.serverId else spec.ownServerId := by
  obtain ⟨origin, location, correlation, link, settings⟩ := spec
  cases origin with
  | flow flow fresh => rfl
  | bridge id own handler => by_cases h : own = "" <;> simp [serverId, ownServerId, h]

/-- Whoever is handed valid arguments is handed an exception handler. -/
theorem RootSpec.handler_of_valid {spec : RootSpec} (h : spec.fault? = none) :
    some (spec.handler.getD 0) = spec.handler := by
  cases hh : spec.handler with
  | none => exact absurd (.inr (.inr (.inl hh))) (not_lacks h)
  | some n => rfl

namespace World

/-! ## Which call created which context -/

/-- The call, if a move is one that creates a context. -/
def born (w : World) : Move → List Call
  | .call call => if w.contexts.size < (w.call call).contexts.size then [call] else []
  | _ => []

/-- The calls that created a context each, in the order in which they did: the first one created the
context with the number zero. -/
def creations (w : World) : List Move → List Call
  | [] => []
  | m :: moves => w.born m ++ (w.move m).creations moves

/-- How the pedigree of a context comes from the call that created it and from the pedigrees of others. -/
inductive Begets (D : Descent) : Call → Pedigree → Prop
  | root {spec : RootSpec} {received tree : Nat} (valid : spec.fault? = none) :
      Begets D (.createRoot spec) (spec.build received tree).pedigree
  | child {parent : ContextNo} {p : Pedigree} {location : Location} {handler : Option Nat}
      {correlation : Option String} (rootId : String) (n : UInt64) (hp : D.contexts[parent]? = some p) :
      Begets D (.createChild parent (some location) handler correlation)
        (p.child parent (ContextId.child rootId n) location handler correlation)

/-- Every context is as the call that created it has it. -/
structure Recorded (w : World) (calls : List Call) : Prop where
  length : calls.length = w.contexts.size
  begets : ∀ (c : ContextNo) (call : Call) (p : Pedigree), calls[c]? = some call →
    w.descent.contexts[c]? = some p → Begets w.descent call p

variable {w w' : World} {calls : List Call} {c : ContextNo}

theorem born_of_eq {call : Call} (h : (w.call call).contexts.size = w.contexts.size) :
    w.born (.call call) = [] := by
  simp [born, h]

theorem born_of_succ {call : Call} (h : (w.call call).contexts.size = w.contexts.size + 1) :
    w.born (.call call) = [call] := by
  simp [born, h]

theorem Begets.mono {D D' : Descent} (hD : ∀ (c : ContextNo) (p : Pedigree), D.contexts[c]? = some p →
    D'.contexts[c]? = some p) {call : Call} {p : Pedigree} (h : Begets D call p) : Begets D' call p := by
  cases h with
  | root valid => exact .root valid
  | child rootId n hp => exact .child rootId n (hD _ _ hp)

theorem Recorded.keep (h : Recorded w calls) (hc : w'.descent.contexts = w.descent.contexts) :
    Recorded w' calls := by
  have hsize : w'.contexts.size = w.contexts.size := by
    rw [← size_descent_contexts, hc, size_descent_contexts]
  refine ⟨h.length.trans hsize.symm, fun c call p hcall hp => ?_⟩
  rw [hc] at hp
  exact (h.begets c call p hcall hp).mono fun _ _ hold => hc.symm ▸ hold

/-- One more context. -/
theorem Recorded.push (h : Recorded w calls) {call : Call} {p : Pedigree}
    (hc : w'.descent.contexts = w.descent.contexts.push p) (hp : Begets w.descent call p) :
    Recorded w' (calls ++ [call]) := by
  have hsize : w'.contexts.size = w.contexts.size + 1 := by
    rw [← size_descent_contexts, hc, Array.size_push, size_descent_contexts]
  have hlasts : ∀ (c : ContextNo) (q : Pedigree), w.descent.contexts[c]? = some q →
      w'.descent.contexts[c]? = some q := fun c q hq => by
    rw [hc, Array.getElem?_push, if_neg (Nat.ne_of_lt (lt_of_getElem?_eq_some hq)), hq]
  refine ⟨by simp [h.length, hsize], fun c other q hother hq => ?_⟩
  rw [hc, Array.getElem?_push, size_descent_contexts] at hq
  rw [List.getElem?_append] at hother
  split at hq
  · rename_i hlast
    obtain rfl := Option.some.inj hq
    rw [if_neg (Nat.not_lt.2 (h.length.trans hlast.symm).le), hlast, h.length, Nat.sub_self] at hother
    obtain rfl := Option.some.inj hother
    exact hp.mono hlasts
  · have hlt : c < calls.length := h.length ▸ size_descent_contexts (w := w) ▸ lt_of_getElem?_eq_some hq
    rw [if_pos hlt] at hother
    exact (h.begets c other q hother hq).mono hlasts

theorem Recorded.move (h : Recorded w calls) (m : Move) : Recorded (w.move m) (calls ++ w.born m) := by
  have hdescends := descends_move w m
  have hsize : (w.move m).descent.contexts.size = (w.move m).contexts.size := size_descent_contexts
  generalize hD : (w.move m).descent = D at hdescends
  have same : (w.move m).descent.contexts = w.descent.contexts → Recorded (w.move m) (calls ++ w.born m) :=
    fun heq => by
      have hnone : w.born m = [] := by
        cases m with
        | call call => exact born_of_eq (by rw [← size_descent_contexts, ← size_descent_contexts, ← heq]; rfl)
        | _ => rfl
      rw [hnone, List.append_nil]
      exact h.keep heq
  have one : ∀ (call : Call) (p : Pedigree), m = .call call →
      (w.move m).descent.contexts = w.descent.contexts.push p → Begets w.descent call p →
      Recorded (w.move m) (calls ++ w.born m) := fun call p hm heq hp => by
    subst hm
    rw [born_of_succ]
    · exact h.push heq hp
    · rw [← size_descent_contexts, ← size_descent_contexts, ← Array.size_push p, ← heq]
      rfl
  cases hdescends with
  | same => exact same (by rw [hD])
  | rejected => exact same (by rw [hD])
  | root valid => exact one _ _ rfl (by rw [hD]) (.root valid)
  | @child parent x location handler correlation hx =>
    have hp : w.descent.contexts[parent]? = some x.pedigree := pedigree_of_getElem? hx
    exact one _ (x.pedigree.child parent (w.nextId x) location handler correlation) rfl (by rw [hD])
      (.child ((w.trees[x.tree]?).getD default).rootId _ hp)

theorem recorded_run (h : Recorded w calls) (moves : List Move) :
    Recorded (machine.run w moves) (calls ++ w.creations moves) := by
  induction moves generalizing w calls with
  | nil => simpa [creations] using h
  | cons m moves ih =>
    rw [creations, ← List.append_assoc]
    exact ih (h.move m)

theorem recorded_start (threshold : Log.Level) : Recorded (start threshold) [] :=
  ⟨rfl, fun _ _ _ hcall => by cases hcall⟩

/-- Every call on record was made. -/
theorem mem_of_mem_creations {moves : List Move} {call : Call} (h : call ∈ w.creations moves) :
    .call call ∈ moves := by
  induction moves generalizing w with
  | nil => cases h
  | cons m moves ih =>
    rw [creations, List.mem_append] at h
    rcases h with h | h
    · cases m with
      | call other =>
        simp only [born] at h
        split at h
        · rw [List.mem_singleton.1 h]
          exact List.mem_cons_self
        · cases h
      | _ => cases h
    · exact List.mem_cons_of_mem _ (ih h)

/-! ## What is inherited -/

/-- What a context has from those on the path above it, and from the calls that created them. -/
structure Inherits (w : World) (calls : List Call) (c : ContextNo) (x : Context) : Prop where
  /-- The correlation id that the nearest one was given, or else the id of the root. -/
  correlation : x.correlation =
    match (w.lineage c).findSome? fun a => (calls[a]?).bind Call.correlation? with
    | some id => ⟨id, true⟩
    | none => ⟨w.idOf (w.rootOf c), false⟩
  /-- The exception handler that the nearest one was given. There is one. -/
  handler : some x.handler = (w.lineage c).findSome? fun a => (calls[a]?).bind Call.handler?
  /-- All else is the root's, and was given to it. -/
  root : ∃ spec y, calls[w.rootOf c]? = some (.createRoot spec) ∧ w.contexts[w.rootOf c]? = some y ∧
    (x.settings = y.settings ∧ y.settings = spec.settings) ∧
    (x.serverId = y.serverId ∧
      y.serverId = if spec.ownServerId = "" then spec.settings.serverId else spec.ownServerId) ∧
    x.received = y.received ∧ x.tree = y.tree
  parent : x.parent = (calls[c]?).bind Call.parent?
  parentId : w.parentId? x = ((calls[c]?).bind Call.parent?).map w.idOf

/-- Whether a context says that it has a parent: it knows the id of one. -/
def hasParent (w : World) (x : Context) : Bool := !((w.parentId? x).getD "").isEmpty

theorem Recorded.call (h : Recorded w calls) {x : Context} (hx : w.contexts[c]? = some x) :
    ∃ call, calls[c]? = some call ∧ Begets w.descent call x.pedigree := by
  have hlt : c < calls.length := h.length ▸ lt_of_getElem?_eq_some hx
  exact ⟨calls[c], List.getElem?_eq_getElem hlt,
    h.begets c _ _ (List.getElem?_eq_getElem hlt) (pedigree_of_getElem? hx)⟩

theorem Recorded.inherits_root (h : Recorded w calls) {x : Context} (hx : w.contexts[c]? = some x)
    (hroot : w.parentOf? c = none) : Inherits w calls c x := by
  obtain ⟨call, hcall, hbegets⟩ := h.call hx
  have hparent : x.pedigree.parent = none := by
    rw [parentOf?, hx] at hroot
    exact hroot
  generalize hp : x.pedigree = p at hbegets hparent
  cases hbegets with
  | child => cases hparent
  | @root spec received tree valid =>
    have hline := lineage_of_root hroot
    have hrootOf := rootOf_of_root hroot
    have hid : w.idOf c = spec.id := by
      simp only [idOf, hx, Option.elim_some]
      exact congrArg Pedigree.id hp
    constructor
    · rw [hline, hrootOf, hid]
      refine (congrArg Pedigree.correlation hp).trans ((Correlation.ofGiven_eq _ _).trans ?_)
      simp only [List.findSome?_singleton, hcall, Option.bind_some, Call.correlation?]
      cases spec.correlation.filter _ <;> rfl
    · rw [hline]
      refine (congrArg some (congrArg Pedigree.handler hp)).trans ((RootSpec.handler_of_valid valid).trans ?_)
      simp [hcall, Call.handler?]
    · rw [hrootOf]
      exact ⟨spec, x, hcall, hx, ⟨rfl, congrArg Pedigree.settings hp⟩,
        ⟨rfl, (congrArg Pedigree.serverId hp).trans spec.serverId_eq⟩, rfl, rfl⟩
    · rw [hcall]
      exact congrArg Pedigree.parent hp
    · rw [hcall, parentId?]
      exact congrArg (Option.map w.idOf) (congrArg Pedigree.parent hp)

theorem Recorded.inherits_child (h : Recorded w calls) (hw : w.Aged) {x : Context} {p : ContextNo}
    (hx : w.contexts[c]? = some x) (hparent : w.parentOf? c = some p)
    (ih : ∀ y, w.contexts[p]? = some y → Inherits w calls p y) : Inherits w calls c x := by
  obtain ⟨call, hcall, hbegets⟩ := h.call hx
  have hparent' : x.pedigree.parent = some p := by
    rw [parentOf?, hx] at hparent
    exact hparent
  generalize hq : x.pedigree = q at hbegets hparent'
  cases hbegets with
  | root => cases hparent'
  | @child parent r location handler correlation rootId n hr =>
    obtain rfl : parent = p := Option.some.inj hparent'
    rw [getElem?_descent_contexts] at hr
    obtain ⟨y, hy, rfl⟩ := Option.map_eq_some_iff.1 hr
    have hy' := ih y hy
    have hline := lineage_of_child hw hparent
    have hrootOf := rootOf_of_child hw hparent
    constructor
    · rw [hline, hrootOf]
      refine (congrArg Pedigree.correlation hq).trans ((Correlation.ofGiven_eq _ _).trans ?_)
      simp only [List.findSome?_cons, hcall, Option.bind_some, Call.correlation?]
      cases correlation.filter _ with
      | none => exact hy'.correlation
      | some id => rfl
    · rw [hline]
      refine (congrArg some (congrArg Pedigree.handler hq)).trans ?_
      simp only [List.findSome?_cons, hcall, Option.bind_some, Call.handler?]
      cases handler with
      | none => exact hy'.handler
      | some k => rfl
    · obtain ⟨spec, z, hspec, hz, ⟨hsettings, hgiven⟩, ⟨hserver, hown⟩, hreceived, htree⟩ := hy'.root
      rw [hrootOf]
      exact ⟨spec, z, hspec, hz, ⟨(congrArg Pedigree.settings hq).trans hsettings, hgiven⟩,
        ⟨(congrArg Pedigree.serverId hq).trans hserver, hown⟩,
        (congrArg Pedigree.received hq).trans hreceived, (congrArg Pedigree.tree hq).trans htree⟩
    · rw [hcall]
      exact congrArg Pedigree.parent hq
    · rw [hcall, parentId?]
      exact congrArg (Option.map w.idOf) (congrArg Pedigree.parent hq)

theorem Recorded.inherits (h : Recorded w calls) (hw : w.Aged) (c : ContextNo) :
    ∀ x, w.contexts[c]? = some x → Inherits w calls c x := by
  induction c using hw.induction with
  | root c hroot => exact fun x hx => h.inherits_root hx hroot
  | child c p hparent ih => exact fun x hx => h.inherits_child hw hx hparent ih

/-! ## Contexts that know a parent -/

theorem child_ne_empty (rootId : String) (n : UInt64) : ContextId.child rootId n ≠ "" := by
  intro h
  have := congrArg String.length h
  simp [ContextId.child, ContextId.separator, String.length_append] at this

/-- No id is empty, if no fresh one is. -/
theorem Begets.id_ne_empty {D : Descent} {call : Call} {p : Pedigree} (h : Begets D call p)
    (hfresh : ∀ spec flow fresh, call = .createRoot spec → spec.origin = .flow flow fresh → fresh ≠ "") :
    p.id ≠ "" := by
  cases h with
  | child rootId n => exact child_ne_empty rootId n
  | @root spec received tree valid =>
    show spec.id ≠ ""
    cases horigin : spec.origin with
    | flow flow fresh =>
      rw [RootSpec.id, horigin]
      exact hfresh spec flow fresh rfl horigin
    | bridge id own handler =>
      rw [RootSpec.id, horigin]
      rintro rfl
      exact RootSpec.not_lacks valid (.inr (.inr (.inr ⟨own, handler, horigin⟩)))

theorem Recorded.hasParent_iff (h : Recorded w calls)
    (hids : ∀ (d : ContextNo) (y : Context), w.contexts[d]? = some y → y.id ≠ "") {x : Context}
    (hx : w.contexts[c]? = some x) :
    w.hasParent x = true ↔ ∃ parent location handler correlation,
      calls[c]? = some (.createChild parent location handler correlation) := by
  obtain ⟨call, hcall, hbegets⟩ := h.call hx
  have hparent : w.parentId? x = x.pedigree.parent.map w.idOf := rfl
  rw [hasParent, hparent, hcall]
  generalize x.pedigree = p at hbegets
  cases hbegets with
  | root => simp [Context.pedigree, RootSpec.build]
  | @child parent q location handler correlation rootId n hq =>
    rw [getElem?_descent_contexts] at hq
    obtain ⟨y, hy, -⟩ := Option.map_eq_some_iff.1 hq
    simp [Pedigree.child, idOf, hy, hids parent y hy]

/-- **What contexts inherit.** A context has the correlation id that the nearest context on the path from it
up to the root was given, itself included, and the flag that it was given; if none was given one, it has the
root's id, and the flag that it was not. It has the exception handler that the nearest one was given, and
the configuration, the server id, the moment of arrival and the tree, which keeps the time spent, of its
root. It knows the id of the context it was created from, and it has a parent exactly if it was created as
a child, as long as the fresh ids of roots are not empty. -/
theorem inherited (threshold : Log.Level) (moves : List Move) {c : ContextNo} {x : Context}
    (hx : (machine.run (start threshold) moves).contexts[c]? = some x) :
    let w := machine.run (start threshold) moves
    let calls := (start threshold).creations moves
    Inherits w calls c x ∧
      ((∀ spec flow fresh, .call (.createRoot spec) ∈ moves → spec.origin = .flow flow fresh → fresh ≠ "") →
        (w.hasParent x = true ↔ ∃ parent location handler correlation,
          calls[c]? = some (.createChild parent location handler correlation))) := by
  intro w calls
  have hrecorded : Recorded w calls := recorded_run (recorded_start threshold) moves
  refine ⟨hrecorded.inherits (parents_older threshold moves) c x hx, fun hfresh => ?_⟩
  refine hrecorded.hasParent_iff (fun d y hy => ?_) hx
  obtain ⟨call, hcall, hbegets⟩ := hrecorded.call hy
  refine hbegets.id_ne_empty fun spec flow fresh heq => hfresh spec flow fresh ?_
  exact heq ▸ mem_of_mem_creations (List.mem_of_getElem? hcall)

/-- A place to create contexts at. -/
def desk : Location := ⟨"shop", "desk"⟩

/-- Work that came in without a server id of its own, and with an empty correlation id. -/
def order : RootSpec where
  origin := .bridge "order" "" (some 3)
  location := some desk
  correlation := some ""
  settings := { serverId := "eu" }

/-- A root, its child, and a child of that. The last two complete, and the one in the middle is destroyed. -/
def handedDownMoves : List Move :=
  [.call (.createRoot order), .advance,
    .call (.createChild 0 (some desk) (some 7) (some "basket")), .advance,
    .call (.createChild 1 (some desk) none (some "")), .advance,
    .call (.success 2 none)] ++ List.replicate 10 .advance ++
    [.call (.success 1 none)] ++ List.replicate 10 .advance ++ [.call (.drop (.context 1))]

theorem inherited_past_destroyed :
    let w := machine.run start handedDownMoves
    machine.legal start handedDownMoves = true ∧ w.isLive 1 = false ∧
    ∃ x, w.contexts[2]? = some x ∧ x.correlation = ⟨"basket", true⟩ ∧ x.handler = 7 ∧ x.serverId = "eu" ∧
      Inherits w ((start).creations handedDownMoves) 2 x ∧ w.hasParent x = true := by
  intro w
  have hlegal : machine.legal start handedDownMoves = true := by decide +kernel
  have hgone : w.isLive 1 = false := by decide +kernel
  have hfacts : (w.contexts[2]?).map (fun x => (x.correlation, x.handler, x.serverId)) =
      some (⟨"basket", true⟩, 7, "eu") := by decide +kernel
  obtain ⟨x, hx, hx'⟩ := Option.map_eq_some_iff.1 hfacts
  simp only [Prod.mk.injEq] at hx'
  obtain ⟨hinherits, hparent⟩ := inherited Log.Level.debug handedDownMoves hx
  have hcall : (((start).creations handedDownMoves)[2]?).bind Call.parent? = some 1 := by decide +kernel
  obtain ⟨call, hcall, hone⟩ := Option.bind_eq_some_iff.1 hcall
  obtain ⟨location, handler, correlation, rfl⟩ := Call.parent?_eq_some.1 hone
  refine ⟨hlegal, hgone, x, hx, hx'.1, hx'.2.1, hx'.2.2, hinherits, (hparent ?_).2 ⟨_, _, _, _, hcall⟩⟩
  intro spec flow fresh hmem horigin
  obtain rfl : spec = order := by simpa [handedDownMoves] using hmem
  cases horigin

end World

end FanIn
