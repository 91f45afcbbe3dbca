import FanIn.Proofs.Tree.Chronicle
import FanIn.Proofs.Tree.Completion

/-!
# The queue of contexts to complete

A context whose counter reaches zero enters the queue at its end, and contexts complete from the front
of the queue. Which contexts a move completes and which counters it brings to zero is what it notes.

Main statement: `serves_move`.
-/

namespace FanIn

/-- The context whose completion fires. -/
def Event.completes? : Event → Option ContextNo
  | fired (.completion c) _ => some c
  | _ => none

/-- The context whose counter reaches zero. -/
def Event.drains? : Event → Option ContextNo
  | drained c => some c
  | _ => none

/-- What calls note on terms: contexts that are created or refused, slots that are taken, handlers that
are called and signals that fire. -/
def Event.isOfCall : Event → Bool
  | created _ => true
  | rejected .. => true
  | joined .. => true
  | handling .. => true
  | fired (.signal _) _ => true
  | _ => false

namespace World

open Stack

variable {t : Terms} {w w' : World}

/-- The contexts that have completed, in the order in which they did. -/
def completions (w : World) : List ContextNo := w.history.toList.filterMap Event.completes?

/-- The contexts whose counters have reached zero, in the order in which they did. -/
def drains (w : World) : List ContextNo := w.history.toList.filterMap Event.drains?

theorem completions_eq (w : World) : w.completions = w.chronicle.filterMap Event.completes? := by
  unfold completions chronicle
  rw [List.filterMap_filter]
  apply List.filterMap_congr
  intro e _
  cases e <;> rfl

theorem drains_eq (w : World) : w.drains = w.chronicle.filterMap Event.drains? := by
  unfold drains chronicle
  rw [List.filterMap_filter]
  apply List.filterMap_congr
  intro e _
  cases e <;> rfl

theorem completions_move (m : Move) :
    (w.move m).completions = w.completions ++ (w.notes m).filterMap Event.completes? := by
  rw [completions_eq, completions_eq, chronicle_move, List.filterMap_append]

theorem drains_move (m : Move) :
    (w.move m).drains = w.drains ++ (w.notes m).filterMap Event.drains? := by
  rw [drains_eq, drains_eq, chronicle_move, List.filterMap_append]

/-! ## The queue -/

/-- What a move does to the queue: contexts enter it at its end as their counters reach zero, and leave
it at its front as they complete; or it is given up. -/
def Serves (t : Terms) (w w' : World) (es : List Event) : Prop :=
  es.filterMap Event.completes? ++ w'.queue.getD [] = w.queue.getD [] ++ es.filterMap Event.drains? ∨
    t.strict = false ∧ es = [] ∧ w'.queue = none

theorem Serves.of_same {es : List Event} (hq : w'.queue = w.queue)
    (hc : es.filterMap Event.completes? = []) (hd : es.filterMap Event.drains? = []) :
    w.Serves t w' es := by
  left
  rw [hq, hc, hd, List.nil_append, List.append_nil]

theorem Serves.congr {es : List Event} {v : World} (h : v.Serves t w' es) (hq : v.queue = w.queue) :
    w.Serves t w' es := by
  unfold Serves at h ⊢
  rwa [← hq]

theorem queue_fireBefore (c : ContextNo) (r : Response) : (w.fireBefore c r).queue = w.queue := by
  rcases w.fireBefore_cases c r with ⟨_, heq⟩ | ⟨x, _, _, heq⟩
  · rw [heq]
  · exact (congrArg World.queue heq).trans rfl

theorem queue_fireResponse (c : ContextNo) (r : Response) :
    (w.fireResponse c r).queue = w.queue := by
  rcases w.fireResponse_cases c r with ⟨_, heq⟩ | ⟨x, _, _, heq⟩
  · rw [heq]
  · exact (congrArg World.queue heq).trans rfl

theorem queue_fireCompletion (c : ContextNo) : (w.fireCompletion c).queue = w.queue := by
  rcases w.fireCompletion_cases c with ⟨_, heq⟩ | ⟨x, _, _, heq⟩
  · rw [heq]
  · exact (congrArg World.queue heq).trans rfl

theorem queue_fireSignal (s : SignalNo) (r : Resolution) : (w.fireSignal s r).queue = w.queue := by
  rcases w.fireSignal_cases s r with ⟨_, heq⟩ | ⟨x, _, _, heq⟩
  · rw [heq]
  · exact (congrArg World.queue heq).trans rfl

theorem queue_notify (ch : ChannelRef) (replay : Bool) (v : Value) (o : Observer) :
    (w.notify ch replay v o).queue = w.queue := by
  cases o with
  | client label keeps => rfl
  | empty => rfl
  | settleLink c =>
    simp only [World.notify]
    split <;> simp
  | settleError c e result =>
    simp only [World.notify]
    split <;> rfl

theorem queue_returnCall (r : Reply) (kept : List Ref) : (w.returnCall r kept).queue = w.queue := by
  unfold returnCall
  rw [queue_releaseAll]
  cases r <;> rfl

theorem queue_resolveError (c : ContextNo) (e : Failure) (failed : Option (Option Failure))
    (result : SignalNo) : (w.resolveError c e failed result).queue = w.queue := by
  unfold resolveError
  split
  · exact queue_fireSignal _ _
  · exact (queue_fireSignal _ _).trans (queue_log _ _ _)

/-- Only a channel of a context tells that a context completes. -/
theorem completes?_firingNotes (ch : ChannelRef) (hch : ∀ c, ch ≠ .completion c) (v : Value) :
    (w.firingNotes ch v).filterMap Event.completes? = [] := by
  unfold firingNotes
  split
  · cases ch with
    | completion c => exact absurd rfl (hch c)
    | _ => rfl
  · rfl

theorem drains?_firingNotes (ch : ChannelRef) (v : Value) :
    (w.firingNotes ch v).filterMap Event.drains? = [] := by
  unfold firingNotes
  split <;> rfl

theorem serves_firing (ch : ChannelRef) (hch : ∀ c, ch ≠ .completion c) (v : Value)
    (hq : w'.queue = w.queue) : w.Serves t w' (w.firingNotes ch v) :=
  .of_same hq (completes?_firingNotes ch hch v) (drains?_firingNotes ch v)

/-- A slot is given up. -/
theorem serves_giveUpSlot (c : ContextNo) (share : Share) :
    w.Serves t (w.giveUpSlot c share) (w.leavingNotes c share) := by
  unfold giveUpSlot
  split
  · rename_i hrel
    rw [leavingNotes_of_none hrel]
    exact .of_same rfl rfl rfl
  · rename_i last slots hrel
    rw [leavingNotes_of_some hrel]
    cases last with
    | false => exact .of_same rfl rfl rfl
    | true =>
      left
      simp only [if_true, queue_note, queue_point, queue_modifyContext]
      cases hq : w.queue <;> rfl

/-- A parent is told; the queue is active. -/
theorem serves_tellParent {q : List ContextNo} (hq : w.queue = some q) (c p : ContextNo) :
    w.Serves t (w.tellParent c (some p)) (w.leavingNotes p (.child c)) := by
  simp only [tellParent]
  split
  · rename_i hrel
    rw [leavingNotes_of_none hrel]
    exact .of_same (by simp) rfl rfl
  · rename_i last slots hrel
    rw [leavingNotes_of_some hrel]
    cases last with
    | false => exact .of_same (by simp) rfl rfl
    | true =>
      left
      simp only [if_true, queue_releaseAll, queue_note, queue_point, queue_modifyContext, hq]
      rfl

/-- The first context of the queue, which is there and not complete, completes. -/
theorem serves_completeNext
    (hhead : ∀ c q, w.queue = some (c :: q) → w.Waits (.completion c)) :
    w.Serves t w.completeNext (match w.queue with
      | some (c :: _) => w.firingNotes (.completion c) .done
      | _ => []) := by
  cases hq : w.queue with
  | none =>
    unfold World.completeNext
    rw [hq]
    exact .of_same rfl rfl rfl
  | some l =>
    cases l with
    | nil =>
      left
      unfold World.completeNext
      rw [hq]
      rfl
    | cons c q =>
      left
      dsimp only
      rw [firingNotes_eq (hhead c q hq), hq]
      have hqueue : w.completeNext.queue = some q := by
        unfold World.completeNext
        rw [hq]
        dsimp only
        rw [queue_fireCompletion, queue_push, queue_modifyContext, queue_log]
      rw [hqueue]
      exact (List.append_nil (c :: q)).symm

/-- What is unwound gives the queue up only where slots may fail to be given up. -/
theorem serves_unwind {f : Failure} {rest : List Frame} (h : Fits t (.throwing f) rest) :
    w.Serves t (w.unwind f rest) [] := by
  cases rest with
  | nil => exact .of_same rfl rfl rfl
  | cons g below =>
    cases g with
    | climb =>
      rcases h with h | ⟨hloose, _⟩
      · cases h
      · right
        refine ⟨hloose, rfl, ?_⟩
        simp [World.unwind, World.abandonQueue]
    | deliver ch replay v todo spent => exact .of_same (by simp [World.unwind]) rfl rfl
    | told c p => exact .of_same (by simp [World.unwind]) rfl rfl
    | returning r kept => exact .of_same (by simp [World.unwind]) rfl rfl
    | _ => exact .of_same rfl rfl rfl

/-- The first context of the queue waits for its completion to fire. -/
theorem Orderly.head_waits (h : w.Orderly t) {c : ContextNo} {q : List ContextNo}
    (hq : w.queue = some (c :: q)) : w.Waits (.completion c) := by
  have hmem : c ∈ w.ledger.queue := by
    show c ∈ w.queue.getD []
    rw [hq]
    exact List.mem_cons_self
  obtain ⟨a, ha, _⟩ := h.sound.sane.queued c hmem
  rw [accounts_ledger] at ha
  obtain ⟨x, hx, _⟩ := Option.map_eq_some_iff.1 ha
  refine ⟨lt_of_getElem?_eq_some hx, ?_⟩
  by_contra hv
  have hfired : w.isFired (.completion c) = true := Option.isSome_iff_ne_none.2 hv
  obtain ⟨y, hy, hcomp⟩ := isFired_completion.1 hfired
  rw [h.head_open hq hy] at hcomp
  cases hcomp

/-- While a parent is to be told the queue is active. -/
theorem Ordered.queue_of_told (h : w.Ordered t) {c : ContextNo} {p : Option ContextNo}
    {rest : List Frame} (hs : w.stack = .told c p :: rest) : ∃ q, w.queue = some q := by
  obtain ⟨below, rfl⟩ := h.fits hs rfl
  rcases h with h | ⟨_, _, _, hs', _⟩
  · exact h.queue_of_climb (by rw [hs]; simp)
  · cases hs.symm.trans hs'

theorem serves_advance (h : w.Orderly t) : w.Serves t w.advance w.workNotes := by
  unfold World.advance workNotes
  split <;> rename_i hs <;> rw [hs]
  · exact .of_same rfl rfl rfl
  · exact .of_same rfl rfl rfl
  · exact .of_same rfl rfl rfl
  · exact .of_same (queue_releaseAll _ _) rfl rfl
  · rename_i ch replay v o todo spent rest
    have hq := queue_notify (w := { w with stack := .deliver ch replay v todo spent :: rest })
      ch replay v o
    cases o with
    | client label keeps => cases replay <;> exact .of_same hq rfl rfl
    | _ => exact .of_same hq rfl rfl
  · rename_i c r rest
    refine .of_same ?_ (completes?_firingNotes (.before c) nofun _) (drains?_firingNotes _ _)
    exact (queue_fireBefore c r).trans (queue_reportBranch _ c)
  · exact serves_firing (.response _) nofun _ (queue_fireResponse _ _)
  · rename_i c share rest
    exact (serves_giveUpSlot (w := { w with stack := rest }) c share).congr rfl
  · rename_i rest
    exact (serves_completeNext (w := { w with stack := rest }) fun c q hq => h.head_waits hq).congr rfl
  · rename_i c parent rest
    cases parent with
    | none => exact .of_same (queue_releaseAll _ _) rfl rfl
    | some p =>
      obtain ⟨q, hq⟩ := h.order.queue_of_told hs
      exact (serves_tellParent (w := { w with stack := rest }) hq c p).congr rfl
  · exact serves_firing (.signal _) nofun _ (queue_resolveError _ _ _ _)
  · exact .of_same (queue_returnCall _ _) rfl rfl
  · rename_i f rest
    exact (serves_unwind (w := { w with stack := rest }) (h.order.fits hs rfl)).congr rfl

theorem queue_createRoot (spec : RootSpec) : (w.createRoot spec).queue = w.queue := by
  rw [World.createRoot_eq]
  split
  · rfl
  · dsimp only
    split
    · rfl
    · rename_i g _
      have henter := queue_enter { w with trees := w.trees.push spec.tree }
        (spec.build w.contexts.size w.trees.size) g
      split
      · exact henter
      · rename_i s _
        rcases subscribe_cases (World.note _ (.joined w.contexts.size .link)) (.signal s)
          (.settleLink w.contexts.size) with ⟨_, heq⟩ | ⟨v, _, heq⟩
        · rw [heq]
          exact (queue_modifyChannel _ _ _).trans henter
        · rw [heq]
          exact henter

theorem queue_takeSlot {c : ContextNo} {share : Share} (h : w.takeSlot c share = some w') :
    w'.queue = w.queue := by
  obtain ⟨x, slots, _, _, rfl⟩ := takeSlot_eq_some h
  rfl

theorem queue_createChild (parent : ContextNo) (location : Option Location) (handler : Option Nat)
    (correlation : Option String) :
    (w.createChild parent location handler correlation).queue = w.queue := by
  rw [World.createChild_eq]
  split
  · rfl
  · rfl
  · dsimp only
    split
    · exact queue_refuseSlot _ _
    · rename_i w' hw'
      have hslot := queue_takeSlot hw'
      split
      · exact hslot
      · exact (queue_enter _ _ _).trans hslot

theorem queue_settleBy (s : SignalNo) (c : ContextNo) (e : Failure) (result : SignalNo) :
    (w.settleBy s c e result).queue = w.queue := by
  unfold settleBy
  dsimp only
  rcases subscribe_cases (w.push [.returning (.signal result) [.signal s, .context c]]) (.signal s)
    (.settleError c e result) with ⟨_, heq⟩ | ⟨v, _, heq⟩
  · rw [heq]
    exact queue_modifyChannel _ _ _
  · rw [heq]
    rfl

theorem queue_firing {ch : ChannelRef} {fire : World → World}
    (h : ∀ w : World, (fire w).queue = w.queue) : (w.firing ch fire).queue = w.queue := by
  unfold World.firing
  split
  · rfl
  · exact h _

/-- A call leaves the queue to the library. -/
theorem queue_call (call : Call) : (w.call call).queue = w.queue := by
  cases call with
  | createRoot spec => exact queue_createRoot spec
  | createChild parent location handler correlation => exact queue_createChild _ _ _ _
  | success c result =>
    simp only [World.call, World.success]
    split
    · rfl
    · split
      · exact queue_log _ _ _
      · rfl
  | error c failure =>
    simp only [World.call, World.error]
    split
    · rfl
    · split
      · rfl
      · split
        · exact (queue_makeSignal _ _).trans (queue_log _ _ _)
        · rfl
  | addChild c =>
    simp only [World.call]
    split
    · rename_i w' hw'
      exact (queue_answered w' .done).trans (queue_takeSlot hw')
    · exact queue_refuseSlot _ _
  | childCompleted c => rfl
  | subscribe ch label keeps =>
    simp only [World.call]
    rcases subscribe_cases w ch (label.elim .empty fun label => .client label keeps) with
      ⟨_, heq⟩ | ⟨v, _, heq⟩
    · rw [heq]
      exact queue_modifyChannel _ _ _
    · rw [heq]
      rfl
  | unsubscribe ch n => exact (queue_releaseAll _ _).trans (queue_modifyChannel _ _ _)
  | fireBefore c r => exact queue_firing fun _ => queue_fireBefore c r
  | fireResponse c r => exact queue_firing fun _ => queue_fireResponse c r
  | fireCompletion c => exact queue_firing fun _ => queue_fireCompletion c
  | fireSignal s r => exact queue_firing fun _ => queue_fireSignal s r
  | wait ch => exact queue_modifyChannel _ _ _
  | makeSignal r => exact queue_makeSignal _ _
  | hold r => cases r <;> rfl
  | drop r =>
    refine (queue_releaseAll _ _).trans ?_
    cases r <;> rfl
  | register id c =>
    simp only [World.call]
    split <;> rfl
  | unregister id c => rfl
  | setThreshold level => rfl
  | addProcessor c path => rfl

theorem queue_finish (thrown : Option Failure) : (w.finish thrown).queue = w.queue := by
  unfold finish
  split
  · dsimp only
    split
    · rfl
    · exact queue_log _ _ _
  · rfl

theorem queue_handled (a : Handled) : (w.handled a).queue = w.queue := by
  unfold handled
  split
  · dsimp only
    split
    · rfl
    · exact (queue_settleBy _ _ _ _).trans (queue_makeSignal _ _)
    · exact queue_settleBy _ _ _ _
  · rfl

theorem isOfCall_of_mem {call : Call} (hk : w.keepsTo t (.call call) = true) :
    ∀ e ∈ w.callNotes call, e.isOfCall = true := by
  rw [← List.all_eq_true]
  cases call with
  | createRoot spec =>
    simp only [callNotes]
    split
    · cases spec.link <;> rfl
    · rfl
  | createChild parent location handler correlation =>
    simp only [callNotes, birthNotes]
    split
    · split
      · rfl
      · split
        · rfl
        · split <;> rfl
    · rfl
  | error c failure =>
    cases failure with
    | none => rfl
    | some e =>
      simp only [callNotes]
      split
      · split <;> rfl
      · rfl
  | addChild c =>
    simp only [callNotes]
    split <;> rfl
  | fireSignal s r =>
    simp only [callNotes, firingNotes]
    split <;> rfl
  | fireBefore c r => cases hk
  | fireResponse c r => cases hk
  | fireCompletion c => cases hk
  | _ => rfl

/-- On terms, no call says that a context completes or that a counter reaches zero. -/
theorem silent_callNotes {call : Call} (hk : w.keepsTo t (.call call) = true) :
    (w.callNotes call).filterMap Event.completes? = [] ∧
      (w.callNotes call).filterMap Event.drains? = [] := by
  constructor <;>
  · rw [List.filterMap_eq_nil_iff]
    intro e he
    have hof := isOfCall_of_mem hk e he
    cases e with
    | fired ch v => cases ch <;> first | rfl | cases hof
    | _ => first | rfl | cases hof

/-- Every legal move serves the queue. -/
theorem serves_move (h : w.Orderly t) {m : Move} (hm : (within t).allows w m = true) :
    w.Serves t (w.move m) (w.notes m) := by
  cases m with
  | advance => exact serves_advance h
  | call call =>
    obtain ⟨hcomp, hdrain⟩ := silent_callNotes (Bool.and_eq_true_iff.1 hm).2
    exact .of_same (queue_call call) hcomp hdrain
  | finish thrown => exact .of_same (queue_finish thrown) rfl rfl
  | handled a => exact .of_same (queue_handled a) rfl rfl

end World

end FanIn
