import FanIn.Proofs.Tree.Overrun
import FanIn.Proofs.Tree.Refusal
import FanIn.Proofs.Tree.Turns

/-!
# Creating a context or nothing

A context is created, or the call fails and has left nothing behind but what it says: no context, no
entry in the registry, no observer at the link, and no slot. The context that was made for an id that is in
use is destroyed again, and since it was never registered nothing is heard of it. A child whose id turns out to be in use has
been given a slot and a number by then; the slot is given up again, as one of several, so that nothing
completes on that account, and the number stays used.

Main statement: `created_or_untouched`. It is about every world in which a client makes the call, and says
what the call answers. The counter of the parent must have room for the child.
-/

namespace FanIn

/-- Whether a failure says that an argument is no good. -/
def Failure.isInvalidArgument : Failure → Bool
  | standard .invalidArgument _ => true
  | _ => false

/-- Something is missing from the arguments that a root is created from. -/
def RootSpec.Lacks (spec : RootSpec) : Prop :=
  (∃ fresh, spec.origin = .flow none fresh) ∨ spec.location = none ∨ spec.handler = none ∨
    ∃ serverId handler, spec.origin = .bridge "" serverId handler

theorem RootSpec.fault?_eq_some {spec : RootSpec} {f : Failure} (h : spec.fault? = some f) :
    spec.Lacks ∧ f.isInvalidArgument = true := by
  obtain ⟨origin, location, correlation, link, settings⟩ := spec
  match origin, location with
  | .flow none fresh, _ => cases h; exact ⟨.inl ⟨fresh, rfl⟩, rfl⟩
  | .flow (some flow) fresh, none => cases h; exact ⟨.inr (.inl rfl), rfl⟩
  | .flow (some ⟨name, none, statistics⟩) fresh, some location =>
    cases h
    exact ⟨.inr (.inr (.inl rfl)), rfl⟩
  | .flow (some ⟨name, some n, statistics⟩) fresh, some location => cases h
  | .bridge id serverId handler, none => cases h; exact ⟨.inr (.inl rfl), rfl⟩
  | .bridge id serverId none, some location => cases h; exact ⟨.inr (.inr (.inl rfl)), rfl⟩
  | .bridge id serverId (some n), some location =>
    by_cases hempty : id.isEmpty
    · obtain rfl := String.isEmpty_iff.1 hempty
      cases h
      exact ⟨.inr (.inr (.inr ⟨serverId, some n, rfl⟩)), rfl⟩
    · simp [fault?, hempty] at h

theorem RootSpec.not_lacks {spec : RootSpec} (h : spec.fault? = none) : ¬ spec.Lacks := by
  obtain ⟨origin, location, correlation, link, settings⟩ := spec
  rintro (⟨fresh, rfl⟩ | rfl | hhandler | ⟨serverId, handler, rfl⟩)
  · cases h
  · cases origin with
    | flow flow fresh => cases flow <;> cases h
    | bridge id serverId handler => cases h
  · cases origin with
    | flow flow fresh =>
      cases flow with
      | none => cases h
      | some flow =>
        have hnone : flow.handler = none := hhandler
        cases location <;> simp [fault?, hnone] at h
    | bridge id serverId handler =>
      obtain rfl : handler = none := hhandler
      cases location <;> simp [fault?] at h
  · cases location <;> cases handler <;> simp [fault?] at h

namespace World

open Stack

variable {w v : World}

/-- The number in its tree that the next descendant of a context gets, as part of an id. -/
def nextId (w : World) (x : Context) : String := (w.nextDescendant x.tree).1

/-- After a call that failed, everything is as it was before but for the answer, the events it leaves in
the history and the trees. -/
structure Untouched (w v : World) (events : List Event) (trees : Array Tree) : Prop where
  contexts : v.contexts = w.contexts
  signals : v.signals = w.signals
  registry : v.registry = w.registry
  queue : v.queue = w.queue
  stack : v.stack = w.stack
  threshold : v.threshold = w.threshold
  history : v.history.toList = w.history.toList ++ events
  trees : v.trees = trees

/-- What creating a root comes to. -/
structure RootCreation (w : World) (spec : RootSpec) (v : World) : Prop where
  /-- It fails if an argument is missing or empty, or a context that exists is registered under the id. -/
  fails : (∃ f, v.reply = .error f) ↔ spec.Lacks ∨ (w.find? spec.id).isSome = true
  failed : ∀ f, v.reply = .error f → f.isInvalidArgument = true ∧ w.Untouched v [] w.trees
  created : (∀ f, v.reply ≠ .error f) → v.reply = .ok (.context w.contexts.size) ∧ v.stack = w.stack

/-- The message about a slot that is refused. -/
def refusal (id : String) : String := "context " ++ id ++ " has completed, cannot add a child"

/-- What creating a child comes to. -/
structure ChildCreation (w : World) (parent : ContextNo) (x : Context) (location : Option Location)
    (v : World) : Prop where
  reply : v.reply =
    if location.isNone then .error .needsLocation
    else if x.slots.count = 0 then .error (.alreadyCompleted x.id)
    else if (w.find? (w.nextId x)).isSome then .error (.idInUse (w.nextId x))
    else .ok (.context w.contexts.size)
  stack : v.stack = w.stack
  unplaced : location.isNone = true → w.Untouched v [] w.trees
  /-- The parent takes nobody any more, and says so. -/
  closed : location.isNone = false → x.slots.count = 0 →
    w.Untouched v
      (if Log.Level.warning.passes w.threshold then [.logged .warning (Text.visible (refusal x.id))] else [])
      w.trees
  /-- The id is in use. A slot was taken and given up, and a number is used up. -/
  inUse : location.isNone = false → x.slots.count ≠ 0 → (w.find? (w.nextId x)).isSome = true →
    w.Untouched v
      [.joined parent (.child w.contexts.size), .rejected parent (w.nextId x),
        .left parent (.child w.contexts.size)]
      (w.trees.modify x.tree fun t => { t with numbered := t.numbered + 1 })

theorem register?_eq_none_iff {id : String} {c : ContextNo} :
    w.registry.register? w.isLive id c = none ↔ (w.find? id).isSome = true := by
  unfold Registry.register? find?
  cases w.registry.find? w.isLive id <;> simp

/-! ## Turns -/

/-- A call that is over after some steps of the library is over in one turn. -/
theorem turn_of_iterate {call : Call} (hallows : w.allows (.call call) = true) {n : Nat}
    (hs : (advance^[n] (w.call call)).stack = w.stack) :
    w.Turn (.call call) (advance^[n] (w.call call)) :=
  ⟨turn_of_call hallows, hallows, (isClientsTurn_congr hs).trans (turn_of_call hallows), n, rfl⟩

/-- A call that is about to return. -/
theorem advance_returning_eq {r : Reply} {rest : List Frame} (hs : w.stack = .returning r [] :: rest) :
    w.advance.stack = rest ∧ w.advance.reply = .ok r := by
  unfold World.advance
  rw [hs]
  cases r <;> simp [returnCall, releaseAll, answered]

/-! ## Roots -/

/-- The root is there, with a slot for its link if it has one. -/
theorem getElem?_createRoot {spec : RootSpec} {g : Registry} (hf : spec.fault? = none)
    (hg : w.registry.register? w.isLive spec.id w.contexts.size = some g) :
    (w.createRoot spec).contexts[w.contexts.size]? = some (spec.build w.contexts.size w.trees.size) := by
  have henter : (World.enter { w with trees := w.trees.push spec.tree }
      (spec.build w.contexts.size w.trees.size) g).contexts[w.contexts.size]? =
        some (spec.build w.contexts.size w.trees.size) := by
    rw [getElem?_enter]
    exact if_pos rfl
  rw [World.createRoot_eq]
  simp only [hf, hg]
  split
  · exact henter
  · rename_i s _
    split
    · rename_i v heq
      rcases subscribe_cases (World.note _ (.joined w.contexts.size .link)) (.signal s)
        (.settleLink w.contexts.size) with ⟨-, hsub⟩ | ⟨r, -, hsub⟩
      · obtain rfl := (Prod.mk.inj (hsub.symm.trans heq)).2
        exact henter
      · cases hsub.symm.trans heq
    · rename_i r v heq
      rcases subscribe_cases (World.note _ (.joined w.contexts.size .link)) (.signal s)
        (.settleLink w.contexts.size) with ⟨-, hsub⟩ | ⟨r, -, hsub⟩
      · cases hsub.symm.trans heq
      · obtain rfl := (Prod.mk.inj (hsub.symm.trans heq)).2
        exact henter

/-- A link that has fired already is settled before the call returns. -/
theorem iterate_linked {u : World} {s : SignalNo} {r : Value} {c : ContextNo} {x : Context}
    {rest : List Frame}
    (hs : u.stack = .deliver (.signal s) true r [.settleLink c] [.settleLink c] ::
      .returning (.context c) [] :: rest)
    (hx : u.contexts[c]? = some x) (hmany : 1 < x.slots.count) :
    (advance^[4] u).stack = rest ∧ (advance^[4] u).reply = .ok (.context c) := by
  have hnotify : u.advance.stack = .giveUp c .link ::
      .deliver (.signal s) true r [] [.settleLink c] :: .returning (.context c) [] :: rest := by
    rw [stack_advance, shiftWork, hs]
    rfl
  have hcontexts : u.advance.contexts[c]? = some x := by
    unfold World.advance
    rw [hs]
    simp only [notify]
    split
    · show (World.log _ _ _).contexts[c]? = _
      rw [contexts_log]
      exact hx
    · exact hx
  have hgiveUp := advance_giveUp hnotify hcontexts hmany
  have hdeliver : u.advance.advance.advance.stack = .returning (.context c) [] :: rest := by
    rw [stack_advance, shiftWork, hgiveUp]
  exact advance_returning_eq hdeliver

/-- A root that is made from good arguments, under an id that is free, is handed out. -/
theorem turn_createRoot {spec : RootSpec} {g : Registry}
    (hallows : w.allows (.call (.createRoot spec)) = true) (hf : spec.fault? = none)
    (hg : w.registry.register? w.isLive spec.id w.contexts.size = some g) :
    ∃ v, w.Turn (.call (.createRoot spec)) v ∧ v.stack = w.stack ∧
      v.reply = .ok (.context w.contexts.size) := by
  have hstack := stack_createRoot (w := w) spec
  simp only [callFrames, hf, hg, Option.isNone_none, Option.isSome_some, Bool.and_self, if_true] at hstack
  have plain : (w.createRoot spec).stack = .returning (.context w.contexts.size) [] :: w.stack →
      ∃ v, w.Turn (.call (.createRoot spec)) v ∧ v.stack = w.stack ∧
        v.reply = .ok (.context w.contexts.size) := fun hs => by
    obtain ⟨hdone, hreply⟩ := advance_returning_eq hs
    exact ⟨_, turn_of_iterate hallows (n := 1) hdone, hdone, hreply⟩
  cases hlink : spec.link with
  | none =>
    rw [hlink] at hstack
    exact plain hstack
  | some s =>
    rw [hlink] at hstack
    cases hv : w.value? (.signal s) with
    | none =>
      simp only [Option.elim_some, replayFrames, hv] at hstack
      exact plain hstack
    | some r =>
      simp only [Option.elim_some, replayFrames, hv] at hstack
      have htwo : 1 < (spec.build w.contexts.size w.trees.size).slots.count := by
        simp only [RootSpec.build, hlink, Option.isSome_some, if_true]
        decide
      obtain ⟨hdone, hreply⟩ := iterate_linked hstack (getElem?_createRoot hf hg) htwo
      exact ⟨_, turn_of_iterate hallows (n := 4) hdone, hdone, hreply⟩

/-- A call that is refused at once has changed nothing. -/
theorem untouched_refused (w : World) (f : Failure) : w.Untouched (w.refused f) [] w.trees :=
  ⟨rfl, rfl, rfl, rfl, rfl, rfl, (List.append_nil _).symm, rfl⟩

/-- A root that is refused. -/
theorem rootCreation_of_refused {spec : RootSpec} {f : Failure} (hf : f.isInvalidArgument = true)
    (hwhy : spec.Lacks ∨ (w.find? spec.id).isSome = true) : w.RootCreation spec (w.refused f) where
  fails := ⟨fun _ => hwhy, fun _ => ⟨f, rfl⟩⟩
  failed := by
    intro g hg
    obtain rfl : f = g := Except.error.inj hg
    exact ⟨hf, untouched_refused w f⟩
  created := fun h => absurd rfl (h f)

/-- **A root is created, or nothing has changed.** -/
theorem rootCreation {spec : RootSpec} (hallows : w.allows (.call (.createRoot spec)) = true) :
    ∃ v, w.Turn (.call (.createRoot spec)) v ∧ w.RootCreation spec v := by
  have refused : ∀ f : Failure, w.createRoot spec = w.refused f →
      w.Turn (.call (.createRoot spec)) (w.refused f) := fun f h => by
    have hstack : (w.createRoot spec).stack = w.stack := by rw [h]; rfl
    exact h ▸ turn_of_iterate hallows (n := 0) hstack
  cases hf : spec.fault? with
  | some f =>
    obtain ⟨hlacks, hkind⟩ := RootSpec.fault?_eq_some hf
    exact ⟨_, refused f (by simp only [createRoot_eq, hf]), rootCreation_of_refused hkind (.inl hlacks)⟩
  | none =>
    cases hg : w.registry.register? w.isLive spec.id w.contexts.size with
    | none =>
      exact ⟨_, refused (.idInUse spec.id) (by simp only [createRoot_eq, hf, hg]),
        rootCreation_of_refused rfl (.inr (register?_eq_none_iff.1 hg))⟩
    | some g =>
      obtain ⟨v, hturn, hstack, hreply⟩ := turn_createRoot hallows hf hg
      have hfree : ¬(w.find? spec.id).isSome = true := fun h => by
        rw [register?_eq_none_iff.2 h] at hg
        cases hg
      have hok : ∀ f, v.reply ≠ .error f := fun f h => by
        rw [hreply] at h
        cases h
      refine ⟨v, hturn, ⟨?_, ?_⟩, fun f h => absurd h (hok f), fun _ => ⟨hreply, hstack⟩⟩
      · rintro ⟨f, h⟩
        exact absurd h (hok f)
      · rintro (hlacks | htaken)
        · exact absurd hlacks (RootSpec.not_lacks hf)
        · exact absurd htaken hfree

/-! ## Children -/

/-- A slot is taken and given up again, and nothing else has changed than that it is said. -/
theorem untouched_rejected {c : ContextNo} {x : Context} {share : Share} {slots : Counter} {f : Failure}
    {t : Array Tree} {e : Event} {u : World}
    (hx : w.contexts[c]? = some x) (hroom : x.slots.count < 2 ^ 31 - 1)
    (hadd : x.slots.tryAdd = some slots) (hc : Clients w.stack)
    (hu : u = World.push (World.note { ((w.modifyContext c fun x => { x with slots := slots }).point).note
      (.joined c share) with trees := t } e) [.giveUp c share, .throwing f]) :
    (advance^[2] u).reply = .error f ∧
      w.Untouched (advance^[2] u) [.joined c share, e, .left c share] t := by
  have hget : u.contexts[c]? = some { x with slots := slots } := by
    rw [hu]
    show (w.modifyContext c fun x => { x with slots := slots }).contexts[c]? = _
    rw [getElem?_modifyContext, if_pos rfl, hx]
    rfl
  have hstack : u.stack = .giveUp c share :: .throwing f :: w.stack := by rw [hu]; rfl
  have hdone : advance^[2] u = World.refused { ((u.modifyContext c fun y => { y with slots := x.slots }).point).note
      (.left c share) with stack := w.stack } f := by
    show u.advance.advance = _
    rw [advance_giveUp_eq hstack hget (Counter.release_tryAdd hadd hroom), advance_throwing rfl hc]
  have hback : (u.modifyContext c fun y => { y with slots := x.slots }).contexts = w.contexts := by
    rw [hu]
    show ((w.modifyContext c fun y => { y with slots := slots }).modifyContext c fun y =>
      { y with slots := x.slots }).contexts = _
    rw [modifyContext_modifyContext, modifyContext_eq_self]
    intro y hy
    obtain rfl := Option.some.inj (hx.symm.trans hy)
    rfl
  rw [hdone, hu]
  refine ⟨rfl, hu ▸ hback, rfl, rfl, rfl, rfl, rfl, ?_, rfl⟩
  simp [refused, note, push, point, modifyContext]

/-- A slot that is taken leaves the ids as they are. -/
theorem find?_takeSlot {c : ContextNo} {share : Share} {u : World} (h : w.takeSlot c share = some u)
    (tree : Nat) (id : String) : (u.nextDescendant tree).2.find? id = w.find? id := by
  obtain ⟨x, slots, -, -, rfl⟩ := takeSlot_eq_some h
  have hlive : (w.modifyContext c fun y => { y with slots := slots }).isLive = w.isLive :=
    funext (isLive_modifyContext (f := fun y => { y with slots := slots }) fun _ _ => rfl)
  show w.registry.find? (w.modifyContext c fun y => { y with slots := slots }).isLive id = _
  rw [hlive]
  rfl

theorem nextId_takeSlot {c : ContextNo} {share : Share} {u : World} (h : w.takeSlot c share = some u)
    (x : Context) : (u.nextDescendant x.tree).1 = w.nextId x := by
  obtain ⟨y, slots, -, -, rfl⟩ := takeSlot_eq_some h
  rfl

/-- A number is given out. -/
theorem trees_nextDescendant (tree : Nat) : (w.nextDescendant tree).2.trees =
    w.trees.modify tree fun t => { t with numbered := t.numbered + 1 } := by
  apply Array.ext_getElem?
  intro i
  simp only [nextDescendant, Array.getElem?_modify]
  split
  · rename_i hi
    subst hi
    cases w.trees[tree]? <;> rfl
  · rfl

/-- The parent takes nobody any more. -/
theorem childCreation_of_closed {parent : ContextNo} {x : Context} (hx : w.contexts[parent]? = some x)
    (hzero : x.slots.count = 0) (location : Location) :
    w.ChildCreation parent x (some location) (w.refuseSlot parent) := by
  have hid : w.idOf parent = x.id := by simp [idOf, hx]
  have huntouched : w.Untouched (w.refuseSlot parent)
      (if Log.Level.warning.passes w.threshold then [.logged .warning (Text.visible (refusal x.id))] else [])
      w.trees := by
    unfold refuseSlot log
    rw [hid]
    split
    · exact ⟨rfl, rfl, rfl, rfl, rfl, rfl, Array.toList_push, rfl⟩
    · exact untouched_refused w _
  refine ⟨?_, huntouched.stack, fun hnone => ?_, fun _ _ => huntouched, fun _ hne => absurd hzero hne⟩
  · rw [reply_refuseSlot, hid]
    simp [hzero]
  · cases hnone

/-- A slot has been taken: the child is created, or the slot is given up again. -/
theorem childCreation_of_open {parent : ContextNo} {x : Context} {u : World} {location : Location}
    {handler : Option Nat} {correlation : Option String}
    (hallows : w.allows (.call (.createChild parent (some location) handler correlation)) = true)
    (hx : w.contexts[parent]? = some x) (hroom : x.slots.count < 2 ^ 31 - 1)
    (hslot : w.takeSlot parent (.child w.contexts.size) = some u) :
    ∃ v, w.Turn (.call (.createChild parent (some location) handler correlation)) v ∧
      w.ChildCreation parent x (some location) v := by
  obtain ⟨y, slots, hy, hadd, heq⟩ := takeSlot_eq_some hslot
  obtain rfl := Option.some.inj (hx.symm.trans hy)
  have hpos : x.slots.count ≠ 0 := Int.ne_of_gt (Counter.count_tryAdd hadd).1
  have hid := nextId_takeSlot hslot x
  have hfind := find?_takeSlot hslot x.tree (w.nextId x)
  cases hg : (u.nextDescendant x.tree).2.registry.register? (u.nextDescendant x.tree).2.isLive
    (u.nextDescendant x.tree).1 w.contexts.size with
  | none =>
    have htaken : (w.find? (w.nextId x)).isSome = true := by
      rw [← hfind, ← hid]
      exact register?_eq_none_iff.1 hg
    have hreject : w.call (.createChild parent (some location) handler correlation) =
        ((u.nextDescendant x.tree).2.note (.rejected parent (w.nextId x))).push
          [.giveUp parent (.child w.contexts.size), .throwing (.idInUse (w.nextId x))] := by
      show w.createChild parent (some location) handler correlation = _
      rw [← hid]
      simp only [createChild_eq, hx, hslot, hg]
    obtain ⟨hreply, huntouched⟩ := untouched_rejected hx hroom hadd (clients_of_turn (turn_of_call hallows))
      (t := (w.nextDescendant x.tree).2.trees) (hreject.trans (by rw [heq]; rfl))
    rw [trees_nextDescendant] at huntouched
    refine ⟨_, turn_of_iterate hallows huntouched.stack,
      ⟨?_, huntouched.stack, fun hnone => ?_, fun _ hzero => absurd hzero hpos, fun _ _ _ => huntouched⟩⟩
    · rw [hreply]
      simp [hpos, htaken]
    · cases hnone
  | some g =>
    have hfree : (w.find? (w.nextId x)).isSome = false := by
      rw [← Bool.not_eq_true, ← hfind, ← hid, ← register?_eq_none_iff, hg]
      exact Option.some_ne_none g
    have hstack : (w.call (.createChild parent (some location) handler correlation)).stack =
        .returning (.context w.contexts.size) [] :: w.stack := by
      show (w.createChild parent (some location) handler correlation).stack = _
      simp only [createChild_eq, hx, hslot, hg, stack_push, stack_enter]
      rw [heq]
      rfl
    obtain ⟨hdone, hreply⟩ := advance_returning_eq hstack
    refine ⟨_, turn_of_iterate hallows (n := 1) hdone,
      ⟨?_, hdone, fun hnone => ?_, fun _ hzero => absurd hzero hpos, ?_⟩⟩
    · refine hreply.trans ?_
      simp [hpos, hfree]
    · cases hnone
    · intro _ _ htaken
      rw [hfree] at htaken
      cases htaken

/-- **A child is created, or nothing has changed** but for a number that is used up if its id is in use. -/
theorem childCreation {parent : ContextNo} {x : Context} {location : Option Location}
    {handler : Option Nat} {correlation : Option String}
    (hallows : w.allows (.call (.createChild parent location handler correlation)) = true)
    (hx : w.contexts[parent]? = some x)
    (hrange : location.isSome = true → 0 ≤ x.slots.count ∧ x.slots.count < 2 ^ 31 - 1) :
    ∃ v, w.Turn (.call (.createChild parent location handler correlation)) v ∧
      w.ChildCreation parent x location v := by
  cases location with
  | none =>
    refine ⟨_, turn_of_iterate hallows (n := 0) rfl,
      ⟨rfl, rfl, fun _ => untouched_refused w .needsLocation, fun hsome => ?_, fun hsome => ?_⟩⟩
    · cases hsome
    · cases hsome
  | some location =>
    obtain ⟨hnonneg, hroom⟩ := hrange rfl
    cases hslot : w.takeSlot parent (.child w.contexts.size) with
    | none =>
      have hrefuse : w.createChild parent (some location) handler correlation = w.refuseSlot parent := by
        simp only [createChild_eq, hx, hslot]
      have hclosed := (takeSlot_eq_none hx _).1 hslot
      refine ⟨w.refuseSlot parent, ?_, childCreation_of_closed hx (by omega) location⟩
      have hstack : (w.createChild parent (some location) handler correlation).stack = w.stack := by
        rw [hrefuse, stack_refuseSlot]
      exact hrefuse ▸ turn_of_iterate hallows (n := 0) hstack
    | some u => exact childCreation_of_open hallows hx hroom hslot

/-- **A creation that fails leaves no trace.** A root is created unless something is missing from its
arguments or its id is in use; a child is created if it is given a place, its parent takes it, and its id is
not in use. Otherwise nothing has changed, except that a number was used up for a child whose id is in use.
The context that was made for such an id is destroyed again without a word. The counter of the parent has
not overflowed, and counts one more without overflowing. -/
theorem created_or_untouched (w : World) :
    (∀ spec, w.allows (.call (.createRoot spec)) = true →
      ∃ v, w.Turn (.call (.createRoot spec)) v ∧ w.RootCreation spec v) ∧
    ∀ parent location handler correlation,
      w.allows (.call (.createChild parent location handler correlation)) = true →
      ∃ x, w.contexts[parent]? = some x ∧
        ((location.isSome = true → 0 ≤ x.slots.count ∧ x.slots.count < 2 ^ 31 - 1) →
          ∃ v, w.Turn (.call (.createChild parent location handler correlation)) v ∧
            w.ChildCreation parent x location v) := by
  refine ⟨fun spec hallows => rootCreation hallows, ?_⟩
  intro parent location handler correlation hallows
  have hheld : 0 < w.holders (.context parent) := held_of_call hallows (by simp [Call.uses])
  obtain ⟨x, hx⟩ : ∃ x, w.contexts[parent]? = some x := by
    cases hx : w.contexts[parent]? with
    | none => simp [holders, hx] at hheld
    | some x => exact ⟨x, rfl⟩
  exact ⟨x, hx, childCreation hallows hx⟩

/-- What stands for work that came in under an id. -/
def arrival (id : String) : RootSpec :=
  { origin := .bridge id "" (some 0), location := some ⟨"container", "component"⟩ }

/-- A root, and another one under the id that the first child of the first is to get. -/
def occupyingMoves : List Move :=
  [.call (.createRoot (arrival "root")), .advance, .call (.createRoot (arrival "root_1")), .advance]

theorem created_or_untouched_occupied :
    let w := machine.run start occupyingMoves
    w.allows (.call (.createRoot (arrival "root"))) = true ∧
    w.allows (.call (.createChild 0 (some ⟨"container", "component"⟩) none none)) = true ∧
    (∃ v, w.Turn (.call (.createRoot (arrival "root"))) v ∧ w.RootCreation (arrival "root") v) ∧
    (∃ x v, w.contexts[0]? = some x ∧
      w.Turn (.call (.createChild 0 (some ⟨"container", "component"⟩) none none)) v ∧
      w.ChildCreation 0 x (some ⟨"container", "component"⟩) v) ∧
    w.find? "root_1" = some 1 := by
  intro w
  have hroot : w.allows (.call (.createRoot (arrival "root"))) = true := by decide +kernel
  have hchild : w.allows (.call (.createChild 0 (some ⟨"container", "component"⟩) none none)) = true := by
    decide +kernel
  have one : (w.contexts[0]?).map (fun x => x.slots.count) = some 1 := by decide +kernel
  obtain ⟨x, hx, hcreation⟩ := (created_or_untouched w).2 _ _ _ _ hchild
  have hcount : x.slots.count = 1 := by simpa [hx] using one
  obtain ⟨v, hturn, hv⟩ := hcreation fun _ => by omega
  exact ⟨hroot, hchild, (created_or_untouched w).1 _ hroot, ⟨x, v, hx, hturn, hv⟩, by decide +kernel⟩

/-- The counter must not have overflowed. If it has, a child is refused, although the counter is not at
zero. -/
theorem overrun_takes_no_child : ¬ ∀ (w : World) (parent : ContextNo) (location : Location) (x : Context),
    w.Reachable { matched := true, bounded := false } →
    w.allows (.call (.createChild parent (some location) none none)) = true →
    w.contexts[parent]? = some x →
      (w.Refuses (.createChild parent (some location) none none) ↔ x.slots.count = 0) := by
  intro hclaim
  obtain ⟨x, hx, hcount⟩ := count_overrun
  have hrefuses := (answers_createChild hx (by decide +kernel) ⟨"box", "b"⟩ none none).1 (by omega)
  have hzero := (hclaim _ 0 ⟨"box", "b"⟩ x reachable_overrun (by decide +kernel) hx).1 ⟨_, hrefuses⟩
  omega

end World

end FanIn
