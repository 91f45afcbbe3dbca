import FanIn.Proofs.Tree.Creation

/-!
# What is on record

Who a context is, how far its outcome is decided and whether it exists is on *record*, and so are the
registry and what there is of each tree. All else about contexts, their counters, their channels and who
holds them, changes with almost every move; the record changes with few. A move that creates nothing does
no more to it than what `World.marked` says, which is nothing for most, and to destroy contexts that
nothing refers to.

Main statement: `Endures.move`. What is said of contexts as they are on record goes back to it.
-/

namespace FanIn

/-- What a context has from its creation. -/
@[ext]
structure Pedigree where
  id : String
  serverId : String
  correlation : Correlation
  location : Location
  handler : Nat
  settings : Settings
  received : Nat
  parent : Option ContextNo
  link : Option SignalNo
  tree : Nat

def Context.pedigree (x : Context) : Pedigree where
  id := x.id
  serverId := x.serverId
  correlation := x.correlation
  location := x.location
  handler := x.handler
  settings := x.settings
  received := x.received
  parent := x.parent
  link := x.link
  tree := x.tree

/-- What is on record of a context. -/
structure Standing where
  pedigree : Pedigree
  state : State
  isLive : Bool

def Context.standing (x : Context) : Standing := ⟨x.pedigree, x.state, x.isLive⟩

/-- The registry, and what is on record of all contexts ever made and of their trees. -/
@[ext]
structure Record where
  registry : Registry
  contexts : Array Standing
  trees : Array Tree

/-- Whether a move leaves the registry to creation and destruction. -/
def Move.sparesRegistry : Move → Bool
  | .call (.register ..) => false
  | .call (.unregister ..) => false
  | _ => true

/-- Whether a call is one that creates a context. -/
def Call.enters : Call → Bool
  | createRoot _ => true
  | createChild .. => true
  | _ => false

/-- A move creates a context, perhaps, or it is none of those that do. -/
theorem Move.enters_cases (m : Move) : (∃ call, m = .call call ∧ call.enters = true) ∨
    ∀ call, m = .call call → call.enters = false := by
  by_cases h : ∃ call, m = .call call ∧ call.enters = true
  · exact .inl h
  · exact .inr fun call hm => Bool.eq_false_iff.2 fun hc => h ⟨call, hm, hc⟩

namespace World

def record (w : World) : Record := ⟨w.registry, w.contexts.map Context.standing, w.trees⟩

variable {w w' : World}

/-- A change of one member, seen through a projection. -/
theorem map_modify_comm {α β : Type} {xs : Array α} {i : Nat} {f : α → α} {g : α → β} {h : β → β}
    (hf : ∀ x, g (f x) = h (g x)) : (xs.modify i f).map g = (xs.map g).modify i h := by
  apply Array.ext_getElem?
  intro j
  rw [Array.getElem?_map, Array.getElem?_modify, Array.getElem?_modify, Array.getElem?_map]
  split
  · rw [Option.map_map, Option.map_map, show g ∘ f = h ∘ g from funext hf]
  · rfl

theorem map_modify_same {α β : Type} {xs : Array α} {i : Nat} {f : α → α} {g : α → β}
    (hf : ∀ x, g (f x) = g x) : (xs.modify i f).map g = xs.map g :=
  (map_modify_comm (h := id) hf).trans (modify_eq_self fun _ _ => rfl)

theorem getElem?_record (c : ContextNo) :
    w.record.contexts[c]? = (w.contexts[c]?).map Context.standing := Array.getElem?_map

@[simp] theorem size_record : w.record.contexts.size = w.contexts.size := Array.size_map

/-- Who exists is on record. -/
theorem isLive_of_record (h : w'.record.contexts = w.record.contexts) : w'.isLive = w.isLive := by
  have hrecord : ∀ (v : World) (c : ContextNo),
      v.isLive c = (v.record.contexts[c]?).any Standing.isLive := fun v c => by
    rw [getElem?_record, isLive]
    cases v.contexts[c]? <;> rfl
  funext c
  rw [hrecord, h, hrecord]

/-! ## What leaves the record alone -/

theorem record_modifyContext {c : ContextNo} {f : Context → Context}
    (hf : ∀ x, (f x).standing = x.standing) : (w.modifyContext c f).record = w.record :=
  Record.ext rfl (map_modify_same hf) rfl

@[simp] theorem record_note (e : Event) : (w.note e).record = w.record := rfl

@[simp] theorem record_log (l : Log.Level) (m : String) : (w.log l m).record = w.record := by
  unfold log
  split <;> rfl

@[simp] theorem record_point : w.point.record = w.record := rfl

@[simp] theorem record_push (fs : List Frame) : (w.push fs).record = w.record := rfl

@[simp] theorem record_answered (r : Reply) : (w.answered r).record = w.record := rfl

@[simp] theorem record_refused (f : Failure) : (w.refused f).record = w.record := rfl

@[simp] theorem record_restack (fs : List Frame) : World.record { w with stack := fs } = w.record := rfl

@[simp] theorem record_requeue (q : Option (List ContextNo)) :
    World.record { w with queue := q } = w.record := rfl

@[simp] theorem record_deliver (ch : ChannelRef) (v : Value) (os : List Observer) :
    (w.deliver ch v os).record = w.record := rfl

@[simp] theorem record_replay (ch : ChannelRef) (v : Value) (o : Observer) :
    (w.replay ch v o).record = w.record := rfl

@[simp] theorem record_recount (c : ContextNo) (slots : Counter) :
    (w.modifyContext c fun x => { x with slots := slots }).record = w.record :=
  record_modifyContext fun _ => rfl

@[simp] theorem record_modifyChannel (ch : ChannelRef)
    (f : {α : Type} → Channel α Observer → Channel α Observer) :
    (w.modifyChannel ch f).record = w.record := by
  cases ch with
  | signal s => rfl
  | before c => exact record_modifyContext (f := fun x => { x with before := f x.before }) fun _ => rfl
  | response c =>
    exact record_modifyContext (f := fun x => { x with response := f x.response }) fun _ => rfl
  | completion c =>
    exact record_modifyContext (f := fun x => { x with completion := f x.completion }) fun _ => rfl

theorem record_of_subscribe {ch : ChannelRef} {o : Observer} {r : Channel.Subscribed Value}
    (h : w.subscribe ch o = (r, w')) : w'.record = w.record := by
  rcases subscribe_cases w ch o with ⟨-, heq⟩ | ⟨v, -, heq⟩
  · rw [h] at heq
    rw [(Prod.mk.inj heq).2, record_modifyChannel]
  · rw [h] at heq
    rw [(Prod.mk.inj heq).2]

@[simp] theorem record_makeSignal (r : Option Resolution) : (w.makeSignal r).2.record = w.record := by
  cases r <;> rfl

@[simp] theorem record_hold (r : Ref) : (w.hold r).record = w.record := by
  cases r with
  | context c => exact record_modifyContext fun _ => rfl
  | signal s => rfl

@[simp] theorem record_fireBefore (c : ContextNo) (r : Response) :
    (w.fireBefore c r).record = w.record := by
  unfold fireBefore
  split
  · rfl
  · exact (record_deliver _ _ _).trans (record_modifyContext fun _ => rfl)

@[simp] theorem record_fireResponse (c : ContextNo) (r : Response) :
    (w.fireResponse c r).record = w.record := by
  unfold fireResponse
  split
  · rfl
  · exact (record_deliver _ _ _).trans (record_modifyContext fun _ => rfl)

@[simp] theorem record_fireCompletion (c : ContextNo) : (w.fireCompletion c).record = w.record := by
  unfold fireCompletion
  split
  · rfl
  · exact (record_deliver _ _ _).trans (record_modifyContext fun _ => rfl)

@[simp] theorem record_fireSignal (s : SignalNo) (r : Resolution) :
    (w.fireSignal s r).record = w.record := by
  unfold fireSignal
  split <;> rfl

@[simp] theorem record_notify (ch : ChannelRef) (replay : Bool) (v : Value) (o : Observer) :
    (w.notify ch replay v o).record = w.record := by
  unfold notify
  split
  · rfl
  · rfl
  · split <;> simp
  · split <;> simp

@[simp] theorem record_giveUpSlot (c : ContextNo) (share : Share) :
    (w.giveUpSlot c share).record = w.record := by
  unfold giveUpSlot
  split
  · rfl
  · rename_i slots _
    have hleft := record_recount (w := w) c slots
    dsimp only
    split
    · split <;> exact hleft
    · exact hleft

@[simp] theorem record_completeNext : w.completeNext.record = w.record := by
  unfold completeNext
  split
  · rfl
  · rfl
  · dsimp only
    rw [record_fireCompletion, record_push, record_modifyContext (by intro x; rfl), record_log,
      record_requeue]

@[simp] theorem record_resolveError (c : ContextNo) (e : Failure) (failed : Option (Option Failure))
    (result : SignalNo) : (w.resolveError c e failed result).record = w.record := by
  unfold resolveError
  split <;> simp

@[simp] theorem record_finish (thrown : Option Failure) : (w.finish thrown).record = w.record := by
  unfold finish
  split
  · dsimp only
    split <;> simp
  · rfl

@[simp] theorem record_settleBy (s : SignalNo) (c : ContextNo) (e : Failure) (result : SignalNo) :
    (w.settleBy s c e result).record = w.record := by
  unfold settleBy
  dsimp only
  split
  · rename_i heq
    exact (record_of_subscribe heq).trans (record_push _)
  · rename_i heq
    exact (record_replay _ _ _).trans ((record_of_subscribe heq).trans (record_push _))

@[simp] theorem record_handled (a : Handled) : (w.handled a).record = w.record := by
  unfold handled
  split
  · dsimp only
    split
    · rfl
    · rw [record_settleBy, record_makeSignal, record_restack]
    · rw [record_settleBy]
      rfl
  · rfl

theorem record_firing {ch : ChannelRef} {fire : World → World}
    (h : ∀ v : World, (fire v).record = v.record) : (w.firing ch fire).record = w.record := by
  unfold firing
  split
  · rfl
  · exact h _

theorem record_takeSlot {c : ContextNo} {share : Share} (h : w.takeSlot c share = some w') :
    w'.record = w.record := by
  obtain ⟨x, slots, _, _, rfl⟩ := takeSlot_eq_some h
  exact record_recount (w := w) c slots

@[simp] theorem record_refuseSlot (c : ContextNo) : (w.refuseSlot c).record = w.record := by
  simp [refuseSlot]

/-! ## Terminal calls and reports -/

/-- The outcome that a move decides. -/
def decision? (w : World) (m : Move) : Option (ContextNo × Response) :=
  m.verdict?.filter fun v => (w.contexts[v.1]?).any fun x => !x.isTerminated

/-- The same world, with the outcome of a context decided. -/
def judge (w : World) (c : ContextNo) (r : Response) : World :=
  w.modifyContext c fun x => { x with state := r.state }

/-- What a move is about to mark on record: the outcome that it decides, or the branch that reports. -/
def marked (w : World) : Move → World
  | .advance =>
    match w.stack with
    | .respond c _ :: _ => w.reportBranch c
    | _ => w
  | m => (w.decision? m).elim w fun v => w.judge v.1 v.2

/-- Whatever a move is about to mark, it is one of three things. -/
theorem marked_induction {P : World → Prop} (same : P w) (report : ∀ c, P (w.reportBranch c))
    (judge : ∀ c r, P (w.judge c r)) (m : Move) : P (w.marked m) := by
  cases m with
  | advance =>
    simp only [marked]
    split
    · exact report _
    · exact same
  | _ =>
    simp only [marked]
    cases w.decision? _ with
    | none => exact same
    | some v => exact judge v.1 v.2

theorem record_success (c : ContextNo) (result : Option Int) :
    (w.success c result).record = (w.marked (.call (.success c result))).record := by
  have hsame : w.point.contexts[c]? = w.contexts[c]? := rfl
  simp only [marked, decision?, Move.verdict?, success, hsame]
  cases hx : w.contexts[c]? with
  | none => simp [Option.filter, hx]
  | some x =>
    cases ht : x.isTerminated with
    | true => simp [Option.filter, hx, ht]
    | false =>
      simp [Option.filter, hx, ht, judge]
      rfl

theorem record_error (c : ContextNo) (failure : Option Failure) :
    (w.error c failure).record = (w.marked (.call (.error c failure))).record := by
  cases failure with
  | none => rfl
  | some e =>
    have hsame : w.point.contexts[c]? = w.contexts[c]? := rfl
    simp only [marked, decision?, Move.verdict?, error, hsame]
    cases hx : w.contexts[c]? with
    | none => simp [Option.filter, hx]
    | some x =>
      cases ht : x.isTerminated with
      | true => simp [Option.filter, hx, ht]
      | false =>
        simp [Option.filter, hx, ht, judge]
        rfl

/-! ## Moves that create nothing -/

/-- A property that depends on the record alone, and that destruction keeps. -/
structure Endures (P : World → Prop) : Prop where
  congr : ∀ {w w' : World}, P w → w'.record = w.record → P w'
  destroy : ∀ {w : World} {r : Ref}, P w → w.isLiveRef r = true → P (w.destroy r)

namespace Endures

variable {P : World → Prop} (hP : Endures P)
include hP

theorem releaseAll (h : P w) (refs : List Ref) : P (w.releaseAll refs) :=
  releaseAll_induction (P := P) (fun _ _ h hl _ => hP.destroy h hl) h refs

theorem restack (h : P w) (fs : List Frame) : P { w with stack := fs } := hP.congr h rfl

theorem tellParent (h : P w) (c : ContextNo) (parent : Option ContextNo) :
    P (w.tellParent c parent) := by
  unfold World.tellParent
  split
  · exact hP.releaseAll h _
  · rename_i p
    split
    · exact hP.congr (hP.releaseAll h _) rfl
    · rename_i slots _
      have hleft := record_recount (w := w) p slots
      dsimp only
      split
      · refine hP.releaseAll ?_ _
        exact hP.congr h hleft
      · refine hP.releaseAll ?_ _
        exact hP.congr h hleft

theorem returnCall (h : P w) (r : Reply) (kept : List Ref) : P (w.returnCall r kept) := by
  unfold World.returnCall
  refine hP.releaseAll (hP.congr h ?_) kept
  cases r with
  | context c => exact record_hold (w := w) (.context c)
  | _ => rfl

theorem unwind (h : P w) (f : Failure) (fs : List Frame) : P (w.unwind f fs) := by
  unfold World.unwind
  split
  · exact hP.congr h rfl
  · exact hP.congr h rfl
  · exact hP.congr h rfl
  · exact hP.congr h (record_log _ _)
  · unfold World.abandonQueue
    refine hP.releaseAll ?_ _
    exact hP.congr h rfl
  · exact hP.releaseAll (hP.restack h _) _
  · exact hP.releaseAll (hP.restack h _) _
  · exact hP.congr h rfl

/-- A step of the library keeps the property, once the branch that reports with it has done so. -/
theorem advance (h : P (w.marked .advance)) : P w.advance := by
  unfold World.advance
  split <;> rename_i hs <;> simp only [marked, hs] at h
  · exact h
  · exact h
  · exact h
  · exact hP.releaseAll (hP.restack h _) _
  · exact hP.congr h (record_notify _ _ _ _)
  · rename_i c r rest
    refine hP.congr h ((record_fireBefore _ _).trans ?_)
    unfold reportBranch
    dsimp only [World.note]
    split <;> rfl
  · exact hP.congr h (record_fireResponse _ _)
  · exact hP.congr h (record_giveUpSlot _ _)
  · exact hP.congr h record_completeNext
  · exact hP.tellParent (hP.restack h _) _ _
  · exact hP.congr h (record_resolveError _ _ _ _)
  · exact hP.returnCall (hP.restack h _) _ _
  · exact hP.unwind (hP.restack h _) _ _

/-- A call that enters no context keeps the property, once the outcome that it decides is decided, unless
clients write into the registry and the property depends on that. -/
theorem call {call : Call} (h : P (w.marked (.call call))) (hc : call.enters = false)
    (hs : (Move.call call).sparesRegistry = true ∨
      ∀ (v : World) (g : Registry), P v → P { v with registry := g }) : P (w.call call) := by
  cases call with
  | createRoot spec => cases hc
  | createChild parent location handler correlation => cases hc
  | success c result => exact hP.congr h (record_success c result)
  | error c failure => exact hP.congr h (record_error c failure)
  | addChild c =>
    simp only [World.call]
    split
    · rename_i w' hw'
      have hslot : P w' := hP.congr h (record_takeSlot hw')
      exact hP.congr hslot rfl
    · exact hP.congr h (record_refuseSlot c)
  | childCompleted c => exact hP.congr h rfl
  | subscribe ch label keeps =>
    simp only [World.call]
    split
    · rename_i heq
      have hsame := record_of_subscribe heq
      exact hP.congr h hsame
    · rename_i heq
      have hsame := record_of_subscribe heq
      exact hP.congr h hsame
  | unsubscribe ch n =>
    have hmid := hP.congr h (record_modifyChannel ch fun c => c.unsubscribe n)
    exact hP.congr (hP.releaseAll hmid _) rfl
  | fireBefore c r => exact hP.congr h (record_firing fun v => record_fireBefore (w := v) c r)
  | fireResponse c r => exact hP.congr h (record_firing fun v => record_fireResponse (w := v) c r)
  | fireCompletion c => exact hP.congr h (record_firing fun v => record_fireCompletion (w := v) c)
  | fireSignal s r => exact hP.congr h (record_firing fun v => record_fireSignal (w := v) s r)
  | wait ch => exact hP.congr h (record_modifyChannel ch fun c => c.takeNumber)
  | makeSignal r => exact hP.congr h (record_makeSignal r)
  | hold r => exact hP.congr h (record_hold r)
  | drop r =>
    simp only [World.call, World.drop]
    refine hP.congr (hP.releaseAll (hP.congr h ?_) [r]) rfl
    cases r with
    | context c => exact record_modifyContext fun _ => rfl
    | signal s => rfl
  | register id c =>
    rcases hs with hs | hany
    · cases hs
    · simp only [World.call]
      split
      · exact hP.congr h rfl
      · rename_i g _
        exact hP.congr (hany w g h) rfl
  | unregister id c =>
    rcases hs with hs | hany
    · cases hs
    · exact hP.congr (hany w (w.registry.unregister id c) h) rfl
  | setThreshold level => exact hP.congr h rfl
  | addProcessor c path =>
    exact hP.congr h (record_modifyContext (w := w) (c := c)
      (f := fun x => { x with trail := x.trail.add path }) fun _ => rfl)

/-- **What endures.** What holds of a world as a move has marked its record, and depends on the record
alone, holds after the move, if destruction keeps it and the move creates nothing. -/
theorem move {m : Move} (h : P (w.marked m)) (hc : ∀ call, m = .call call → call.enters = false)
    (hs : m.sparesRegistry = true ∨ ∀ (v : World) (g : Registry), P v → P { v with registry := g }) :
    P (w.move m) := by
  cases m with
  | advance => exact hP.advance h
  | call call => exact hP.call h (hc call rfl) hs
  | finish thrown => exact hP.congr h (record_finish thrown)
  | handled a => exact hP.congr h (record_handled a)

end Endures

/-! ## Calls that create something -/

/-- The context below which a call creates a child, if the context still takes one. -/
def attempt? (w : World) : Move → Option ContextNo
  | .call (.createChild parent (some _) _ _) =>
    if (w.takeSlot parent (.child w.contexts.size)).isSome then some parent else none
  | _ => none

/-- What a call that creates a context makes of the record. -/
inductive Enters (w : World) : Call → Record → Prop
  | refused {call : Call} (quiet : w.attempt? (.call call) = none) : Enters w call w.record
  | root {spec : RootSpec} {g : Registry} (valid : spec.fault? = none)
      (free : w.registry.register? w.isLive spec.id w.contexts.size = some g) :
      Enters w (.createRoot spec)
        { registry := g
          contexts := w.record.contexts.push (spec.build w.contexts.size w.trees.size).standing
          trees := w.trees.push spec.tree }
  | child {parent : ContextNo} {x : Context} {location : Location} {handler : Option Nat}
      {correlation : Option String} {g : Registry} (hx : w.contexts[parent]? = some x)
      (taken : w.attempt? (.call (.createChild parent (some location) handler correlation)) = some parent)
      (free : w.registry.register? w.isLive (w.nextId x) w.contexts.size = some g) :
      Enters w (.createChild parent (some location) handler correlation)
        { registry := g
          contexts := w.record.contexts.push
            (Context.child parent x (w.nextId x) location handler correlation).standing
          trees := w.trees.modify x.tree fun t => { t with numbered := t.numbered + 1 } }
  /-- The id is in use, and its number is used up. -/
  | rejected {parent : ContextNo} {x : Context} {location : Location} {handler : Option Nat}
      {correlation : Option String} (hx : w.contexts[parent]? = some x)
      (taken : w.attempt? (.call (.createChild parent (some location) handler correlation)) = some parent)
      (used : (w.find? (w.nextId x)).isSome = true) :
      Enters w (.createChild parent (some location) handler correlation)
        { registry := w.registry
          contexts := w.record.contexts
          trees := w.trees.modify x.tree fun t => { t with numbered := t.numbered + 1 } }

theorem Enters.of_eq {call : Call} {R : Record} (h : R = w.record) (quiet : w.attempt? (.call call) = none) :
    w.Enters call R := h ▸ .refused quiet

/-- A context that is entered is the youngest. -/
theorem record_enter (x : Context) (g : Registry) : (w.enter x g).record =
    { registry := g, contexts := w.record.contexts.push x.standing, trees := w.trees } := by
  unfold enter
  dsimp only
  rw [record_log]
  exact Record.ext rfl Array.map_push rfl

theorem enters_createRoot (spec : RootSpec) :
    w.Enters (.createRoot spec) (w.createRoot spec).record := by
  cases hvalid : spec.fault? with
  | some f => exact .of_eq (by simp only [createRoot_eq, hvalid, record_refused]) rfl
  | none =>
    cases hg : w.registry.register? w.isLive spec.id w.contexts.size with
    | none => exact .of_eq (by simp only [createRoot_eq, hvalid, hg, record_refused]) rfl
    | some g =>
      have henter := record_enter (w := { w with trees := w.trees.push spec.tree })
        (spec.build w.contexts.size w.trees.size) g
      have hcreate : (w.createRoot spec).record = (World.enter { w with trees := w.trees.push spec.tree }
          (spec.build w.contexts.size w.trees.size) g).record := by
        -- the link of a root is not on record
        rw [World.createRoot_eq]
        simp only [hvalid, hg]
        split
        · rfl
        · split
          all_goals
            rename_i heq
            have hsame := record_of_subscribe heq
            exact hsame
      rw [hcreate, henter]
      exact .root hvalid hg

theorem enters_createChild (parent : ContextNo) (location : Option Location) (handler : Option Nat)
    (correlation : Option String) :
    w.Enters (.createChild parent location handler correlation)
      (w.createChild parent location handler correlation).record := by
  cases location with
  | none => exact .of_eq rfl rfl
  | some location =>
    cases hslot : w.takeSlot parent (.child w.contexts.size) with
    | none =>
      refine .of_eq ?_ (by simp [attempt?, hslot])
      rw [World.createChild_eq]
      dsimp only
      split
      · rfl
      · rfl
      · simp [hslot]
    | some u =>
      obtain ⟨x, slots, hx, -, -⟩ := takeSlot_eq_some hslot
      have taken : w.attempt? (.call (.createChild parent (some location) handler correlation)) =
          some parent := by
        simp [attempt?, hslot]
      -- the slot that is taken is not on record, the number that is used up is
      have hsame := record_takeSlot hslot
      have hreg : (u.nextDescendant x.tree).2.registry = w.registry := congrArg Record.registry hsame
      have hcontexts : (u.nextDescendant x.tree).2.record.contexts = w.record.contexts := by
        rw [← hsame]
        rfl
      have htrees : (u.nextDescendant x.tree).2.trees =
          w.trees.modify x.tree fun t => { t with numbered := t.numbered + 1 } := by
        rw [trees_nextDescendant, show u.trees = w.trees from congrArg Record.trees hsame]
      have hu : (u.nextDescendant x.tree).2.record = Record.mk w.registry w.record.contexts
          (w.trees.modify x.tree fun t => { t with numbered := t.numbered + 1 }) :=
        Record.ext hreg hcontexts htrees
      have hid := nextId_takeSlot hslot x
      have hlive := isLive_of_record hcontexts
      rw [World.createChild_eq]
      simp only [hx, hslot]
      split
      · rename_i hg
        rw [hid, hlive, hreg] at hg
        rw [record_push, record_note, hu]
        exact .rejected hx taken (register?_eq_none_iff.1 hg)
      · rename_i g hg
        rw [hid, hlive, hreg] at hg
        rw [record_push, record_enter, hcontexts, htrees, hid]
        exact .child hx taken hg

/-- **What a call that creates a context makes of the record.** -/
theorem enters_call {call : Call} (hc : call.enters = true) : w.Enters call (w.call call).record := by
  cases call with
  | createRoot spec => exact enters_createRoot spec
  | createChild parent location handler correlation =>
    exact enters_createChild parent location handler correlation
  | _ => cases hc

end World

end FanIn
