import FanIn.Proofs.Tree.Queue
import FanIn.Proofs.Tree.Shift
import FanIn.Proofs.Tree.Tellings

/-!
# Who is told of a completion

A completion that fires is told by a frame to those who had registered for it. That frame lies on the
one that climbs, of which there is one at most. So at most one completion is being told, and it is the
one that fired last.

Main statement: `Reachable.announcing`.
-/

namespace FanIn

/-- The context whose completion a frame tells to those who were registered when it fired. -/
def Frame.announces? : Frame → Option ContextNo
  | deliver (.completion c) false _ _ _ => some c
  | _ => none

/-- As many completions are told as frames climb, at most; fewer if the top of the stack climbs or is
to tell a parent. -/
theorem Stack.Framed.announcing_le {t : Terms} {stack : List Frame} (h : Framed t stack) :
    (stack.filterMap Frame.announces?).length ≤ stack.countP Frame.isClimb ∧
    ∀ f rest, stack = f :: rest → (f = .climb ∨ ∃ c p, f = .told c p) →
      (stack.filterMap Frame.announces?).length < stack.countP Frame.isClimb := by
  induction stack with
  | nil => exact ⟨Nat.le_refl _, nofun⟩
  | cons f rest ih =>
    obtain ⟨hfits, hrest⟩ := h
    obtain ⟨hle, hless⟩ := ih hrest
    cases f with
    | climb =>
      have hboth : ((Frame.climb :: rest).filterMap Frame.announces?).length <
          (Frame.climb :: rest).countP Frame.isClimb := by
        rw [List.countP_cons_of_pos rfl, List.filterMap_cons_none rfl]
        omega
      exact ⟨Nat.le_of_lt hboth, fun _ _ _ _ => hboth⟩
    | told c p =>
      obtain ⟨below, rfl⟩ := hfits
      have hclimb := hless .climb below rfl (.inl rfl)
      have hboth : ((Frame.told c p :: .climb :: below).filterMap Frame.announces?).length <
          (Frame.told c p :: .climb :: below).countP Frame.isClimb := by
        rw [List.countP_cons_of_neg (by simp [Frame.isClimb]), List.filterMap_cons_none rfl]
        exact hclimb
      exact ⟨Nat.le_of_lt hboth, fun _ _ _ _ => hboth⟩
    | deliver ch replay v todo spent =>
      refine ⟨?_, ?_⟩
      · rw [List.countP_cons_of_neg (by simp [Frame.isClimb])]
        cases hann : (Frame.deliver ch replay v todo spent).announces? with
        | none => rwa [List.filterMap_cons_none hann]
        | some c =>
          rw [List.filterMap_cons_some hann]
          cases ch with
          | completion d =>
            cases replay with
            | false =>
              obtain ⟨_, p, below, rfl⟩ := hfits
              exact hless _ below rfl (.inr ⟨d, p, rfl⟩)
            | true => cases hann
          | _ => cases hann
      · rintro f below heq (rfl | ⟨c, p, rfl⟩) <;> cases heq
    | _ =>
      refine ⟨?_, ?_⟩
      · rw [List.countP_cons_of_neg (by simp [Frame.isClimb]), List.filterMap_cons_none rfl]
        exact hle
      · rintro f below heq (rfl | ⟨c, p, rfl⟩) <;> cases heq

namespace World

open Stack

variable {t : Terms} {w w' : World}

/-- The contexts whose completion is being told to those who were registered when it fired. -/
def announcing (w : World) : List ContextNo := w.stack.filterMap Frame.announces?

/-- A channel that fires is told by a frame, and noted, exactly if it waits for that. -/
theorem announces_firingFrames (ch : ChannelRef) (v : Value) :
    (w.firingFrames ch v).filterMap Frame.announces? =
      (w.firingNotes ch v).filterMap Event.completes? := by
  unfold firingFrames firingNotes
  split
  · cases ch <;> rfl
  · rfl

theorem announces_replayFrames (ch : ChannelRef) (o : Observer) :
    (w.replayFrames ch o).filterMap Frame.announces? = [] := by
  unfold replayFrames
  split
  · cases ch <;> rfl
  · rfl

theorem announces_work (ch : ChannelRef) (v : Value) (o : Observer) :
    (o.work ch v).filterMap Frame.announces? = [] := by cases o <;> rfl

theorem announces_leavingFrames (c : ContextNo) :
    (w.leavingFrames c).filterMap Frame.announces? = [] := by
  unfold leavingFrames
  split
  · rfl
  · split <;> rfl

theorem announces_tellingFrames (p : ContextNo) :
    (w.tellingFrames p).filterMap Frame.announces? = [] := by
  unfold tellingFrames
  split <;> rfl

/-- What is unwound tells nothing more. -/
theorem announces_caught (f : Failure) (rest : List Frame) :
    ((caught f rest).filterMap Frame.announces?).Sublist (rest.filterMap Frame.announces?) := by
  cases rest with
  | nil => exact .refl _
  | cons g below =>
    cases g with
    | observer ch l v => exact .refl _
    | handler n c e s => exact .refl _
    | deliver ch replay v todo spent => exact .refl _
    | _ => exact (List.sublist_cons_self _ below).filterMap _

/-- A step of the library makes no completion be told but the one that fires. -/
theorem announces_shiftWork : (w.shiftWork.filterMap Frame.announces?).Sublist
    (w.workNotes.filterMap Event.completes? ++ w.announcing) := by
  unfold shiftWork workNotes announcing
  cases hs : w.stack with
  | nil => exact .refl _
  | cons f rest =>
    -- the frame on top is done with, and what comes in its place tells no completion
    have quiet : ∀ (fs : List Frame) (es : List Event), fs.filterMap Frame.announces? = [] →
        ((fs ++ rest).filterMap Frame.announces?).Sublist
          (es.filterMap Event.completes? ++ (f :: rest).filterMap Frame.announces?) := by
      intro fs es hfs
      rw [List.filterMap_append, hfs, List.nil_append]
      exact ((List.sublist_cons_self f rest).filterMap _).trans (List.sublist_append_right _ _)
    have fires : ∀ (ch : ChannelRef) (v : Value) (fs : List Frame),
        fs.filterMap Frame.announces? = [] →
          ((w.firingFrames ch v ++ (fs ++ rest)).filterMap Frame.announces?).Sublist
            ((w.firingNotes ch v).filterMap Event.completes? ++
              (f :: rest).filterMap Frame.announces?) := by
      intro ch v fs hfs
      rw [List.filterMap_append, announces_firingFrames]
      exact (quiet fs [] hfs).append_left _
    cases f with
    | observer ch l v => exact .refl _
    | handler n c e s => exact .refl _
    | deliver ch replay v todo spent =>
      cases todo with
      | nil => exact quiet [] _ rfl
      | cons o todo =>
        have hwork := announces_work ch v o
        dsimp only
        rw [List.filterMap_append, hwork, List.nil_append]
        refine List.Sublist.trans ?_ (List.sublist_append_right _ _)
        cases ch <;> cases replay <;> exact .refl _
    | respond c r => exact fires (.before c) _ [.answer c r] rfl
    | answer c r => exact fires (.response c) _ [.giveUp c .own] rfl
    | giveUp c share => exact quiet _ _ (announces_leavingFrames c)
    | climb =>
      unfold climbingFrames
      cases w.queue with
      | none => exact quiet [] _ rfl
      | some q =>
        cases q with
        | nil => exact quiet [] _ rfl
        | cons c q =>
          dsimp only
          rw [List.append_assoc]
          exact fires (.completion c) _ [.told c _, .climb] rfl
    | told c p =>
      cases p with
      | none => exact quiet [] _ rfl
      | some p => exact quiet _ _ (announces_tellingFrames p)
    | conclude c e failed result => exact fires (.signal result) _ [] rfl
    | returning r kept => exact quiet [] _ rfl
    | throwing f =>
      exact (announces_caught f rest).trans
        (((List.sublist_cons_self _ rest).filterMap _).trans (List.sublist_append_right _ _))

theorem announces_birthFrames (parent : ContextNo) :
    (w.birthFrames parent).filterMap Frame.announces? = [] := by
  unfold birthFrames
  split
  · rfl
  · split
    · rfl
    · dsimp only
      split <;> rfl

theorem announces_callFiring (ch : ChannelRef) (v : Value) :
    ((w.callFiring ch v).filterMap Frame.announces?).Sublist
      ((w.firingNotes ch v).filterMap Event.completes?) := by
  unfold callFiring
  split
  · exact List.nil_sublist _
  · rw [List.filterMap_append, announces_firingFrames]
    exact (List.append_nil _).symm ▸ .refl _

/-- Nor does a call. -/
theorem announces_callFrames (call : Call) : ((w.callFrames call).filterMap Frame.announces?).Sublist
    ((w.callNotes call).filterMap Event.completes?) := by
  have quiet : ∀ {fs : List Frame} {es : List Event}, fs.filterMap Frame.announces? = [] →
      (fs.filterMap Frame.announces?).Sublist (es.filterMap Event.completes?) := by
    intro fs es hfs
    rw [hfs]
    exact List.nil_sublist _
  cases call with
  | createRoot spec =>
    refine quiet ?_
    simp only [callFrames]
    split
    · cases spec.link with
      | none => rfl
      | some s =>
        rw [Option.elim_some, List.filterMap_append, announces_replayFrames]
        rfl
    · rfl
  | createChild parent location handler correlation =>
    refine quiet ?_
    simp only [callFrames]
    split
    · exact announces_birthFrames parent
    · rfl
  | success c result =>
    refine quiet ?_
    simp only [callFrames]
    split
    · split <;> rfl
    · rfl
  | error c failure =>
    refine quiet ?_
    cases failure with
    | none => rfl
    | some e =>
      simp only [callFrames]
      split
      · split <;> rfl
      · rfl
  | subscribe ch label keeps =>
    refine quiet ?_
    simp only [callFrames]
    split
    · cases ch <;> rfl
    · rfl
  | fireBefore c r => exact announces_callFiring (.before c) _
  | fireResponse c r => exact announces_callFiring (.response c) _
  | fireCompletion c => exact announces_callFiring (.completion c) _
  | fireSignal s r => exact announces_callFiring (.signal s) _
  | _ => exact quiet rfl

/-- Nor does the return of a handler. -/
theorem announces_shiftHandled (a : Handled) :
    ((w.shiftHandled a).filterMap Frame.announces?).Sublist w.announcing := by
  unfold shiftHandled announcing
  cases hs : w.stack with
  | nil => exact .refl _
  | cons f rest =>
    cases f with
    | handler n c e result =>
      cases a with
      | nothing => exact .refl _
      | threw f => exact .refl _
      | signal s =>
        dsimp only
        rw [List.filterMap_append, announces_replayFrames]
        exact .refl _
    | _ => exact .refl _

/-- A move makes no completion be told but the one that fires. -/
theorem announcing_move (m : Move) : (w.move m).announcing.Sublist
    ((w.notes m).filterMap Event.completes? ++ w.announcing) := by
  unfold announcing
  rw [stack_move]
  cases m with
  | advance => exact announces_shiftWork
  | call call =>
    show ((w.callFrames call ++ w.stack).filterMap _).Sublist _
    rw [List.filterMap_append]
    exact (announces_callFrames call).append_right _
  | finish thrown =>
    show (w.shiftFinish.filterMap Frame.announces?).Sublist _
    unfold shiftFinish
    split
    · rename_i hs
      rw [hs]
      exact ((List.sublist_cons_self _ _).filterMap _).trans (List.sublist_append_right _ _)
    · exact List.sublist_append_right _ _
  | handled a => exact (announces_shiftHandled a).trans (List.sublist_append_right _ _)

/-! ## One at a time -/

/-- A completion fires when the frame that climbs is on top, and it is one at a time. -/
theorem completes_notes {m : Move} (hm : (within t).allows w m = true) :
    (w.notes m).filterMap Event.completes? = [] ∨
    ∃ c rest, w.stack = .climb :: rest ∧ (w.notes m).filterMap Event.completes? = [c] := by
  cases m with
  | advance =>
    show w.workNotes.filterMap _ = _ ∨ _
    unfold workNotes
    split
    · rename_i replay v label keeps todo spent rest _
      cases replay <;> exact .inl rfl
    · rename_i c r rest _
      exact .inl (completes?_firingNotes (.before c) (fun _ h => by cases h) _)
    · rename_i c r rest _
      exact .inl (completes?_firingNotes (.response c) (fun _ h => by cases h) _)
    · rename_i c share rest _
      left
      unfold leavingNotes
      split
      · rfl
      · split <;> rfl
    · rename_i rest hs
      split
      · rename_i c q hq
        by_cases hwaits : w.Waits (.completion c)
        · rw [firingNotes_eq hwaits]
          exact .inr ⟨c, rest, hs, by simp [World.notes, workNotes, hs, hq, firingNotes_eq hwaits,
            Event.completes?]⟩
        · rw [firingNotes_eq_nil hwaits]
          exact .inl rfl
      · exact .inl rfl
    · left
      unfold leavingNotes
      split
      · rfl
      · split <;> rfl
    · rename_i s rest _
      exact .inl (completes?_firingNotes (.signal s) (fun _ h => by cases h) _)
    · exact .inl rfl
  | call call => exact .inl (silent_callNotes (Bool.and_eq_true_iff.1 hm).2).1
  | finish thrown => exact .inl rfl
  | handled a => exact .inl rfl

/-- At most one completion is told, and none while the next is about to fire. -/
theorem Ordered.announcing_le (h : w.Ordered t) : w.announcing.length ≤ 1 ∧
    ∀ rest, w.stack = .climb :: rest → w.announcing = [] := by
  rcases h with h | ⟨c, share, rest, hs, _, _, h⟩
  · have hclimbs := h.climbs
    obtain ⟨hle, hless⟩ := h.framed.announcing_le
    constructor
    · unfold announcing
      split at hclimbs <;> omega
    · intro rest hs
      have hnone := hless .climb rest hs (.inl rfl)
      apply List.eq_nil_of_length_eq_zero
      unfold announcing
      split at hclimbs <;> omega
  · have hclimbs := h.climbs
    obtain ⟨hle, _⟩ := h.framed.announcing_le
    constructor
    · unfold announcing
      rw [hs, List.filterMap_cons_none rfl]
      dsimp only at hle hclimbs
      split at hclimbs <;> omega
    · intro below hs'
      cases hs.symm.trans hs'

/-- At most one completion is told, and it is the one that fired last. -/
theorem Reachable.announcing (h : w.Reachable t) :
    ∀ c ∈ w.announcing, w.announcing = [c] ∧ w.completions.getLast? = some c := by
  have hlast : ∀ c ∈ w.announcing, w.completions.getLast? = some c := by
    refine h.keeps (P := fun w => ∀ c ∈ w.announcing, w.completions.getLast? = some c)
      (fun _ => nofun) ?_
    intro v m hv hm ih c hc
    have hmem := (announcing_move m).subset hc
    rw [completions_move]
    rcases completes_notes hm with hnil | ⟨d, rest, hs, hone⟩
    · rw [hnil, List.nil_append] at hmem
      rw [hnil, List.append_nil]
      exact ih c hmem
    · rw [hone, (hv.order.announcing_le).2 rest hs, List.append_nil] at hmem
      obtain rfl := List.mem_singleton.1 hmem
      rw [hone]
      simp
  intro c hc
  refine ⟨?_, hlast c hc⟩
  have hle := h.orderly.order.announcing_le.1
  match hann : w.announcing, hc, hle with
  | [d], hc, _ => rw [List.mem_singleton.1 hc]

theorem completions_tellings (w : World) : w.completions = w.tellings.filterMap Event.completes? := by
  unfold completions tellings
  rw [List.filterMap_filter]
  apply List.filterMap_congr
  intro e _
  cases e <;> rfl

/-- Whoever had registered for a completion is told of it before the next completion fires. -/
theorem Reachable.observed_last (h : w.Reachable t) :
    ∀ before c l v after, w.tellings = before ++ .observed (.completion c) l v :: after →
      (before.filterMap Event.completes?).getLast? = some c := by
  refine h.induction (P := fun w => ∀ before c l v after,
    w.tellings = before ++ .observed (.completion c) l v :: after →
      (before.filterMap Event.completes?).getLast? = some c) ?_ ?_
  · intro threshold before c l v after hsplit
    cases before <;> cases hsplit
  · intro v m hv hm ih before c l u after hsplit
    rcases tellings_move (w := v) m with heq | ⟨e, he, heq⟩
    · exact ih before c l u after (heq.symm.trans hsplit)
    · rw [heq] at hsplit
      rcases List.eq_nil_or_concat after with rfl | ⟨after, e', rfl⟩
      · -- the observer is called by the frame that tells the completion
        obtain ⟨rfl, rfl⟩ := List.append_singleton_inj.1 hsplit
        obtain ⟨keeps, todo, spent, rest, hs⟩ := he
        have hmem : c ∈ v.announcing := by
          unfold World.announcing
          rw [hs]
          exact List.mem_cons_self
        rw [← completions_tellings]
        exact (hv.announcing c hmem).2
      · have hlast : v.tellings ++ [e] = (before ++ .observed (.completion c) l u :: after) ++ [e'] := by
          simpa using hsplit
        exact ih before c l u after (List.append_inj' hlast rfl).1

end World

end FanIn
