import FanIn.Proofs.Tree.Failing
import FanIn.Proofs.Tree.Serial

/-!
# Completions that are lost

A context whose counter has reached zero waits in the queue until its completion is told. If more
participants have left some other context than have joined it, there may be no slot left for a child of
that context to give up when the completion of the child has been told. The failure then reaches whoever
climbs, and all who wait in the queue lose their place in it: they are *stranded*. No one else fails to
complete.

Main statement: `completes_unless_stranded`.
-/

namespace FanIn.World

open Ledger Stack

variable {t : Terms} {w : World} {m : Move}

/-! ## Failures that reach whoever climbs -/

/-- Only the telling of a parent, or a failure, may lie on a frame that climbs. -/
theorem fits_on_climb {f : Frame} {below : List Frame} (h : Fits t f (.climb :: below))
    (hf : f.isGiveUp = false) : (∃ c p, f = .told c p) ∨ ∃ g, f = .throwing g := by
  cases f with
  | told c p => exact .inl ⟨c, p, rfl⟩
  | throwing g => exact .inr ⟨g, rfl⟩
  | giveUp c share => cases hf
  | observer ch l v =>
    obtain ⟨_, _, _, _, hrest⟩ := h
    cases hrest
  | deliver ch replay v todo spent =>
    cases replay with
    | true => cases h.2.2
    | false =>
      cases ch with
      | before c =>
        obtain ⟨_, _, hrest⟩ := h.2
        cases hrest
      | response c =>
        obtain ⟨_, hrest⟩ := h.2
        cases hrest
      | completion c =>
        obtain ⟨_, _, hrest⟩ := h.2
        cases hrest
      | signal s => cases h.2
  | respond c r => cases h.1
  | answer c r => cases h.1
  | conclude c e failed s => cases h.1
  | handler n c e s => cases h
  | returning r kept => cases h
  | climb => cases h

theorem Ordered.calm_of_giveUp (h : w.Ordered t) {c : ContextNo} {share : Share} {rest : List Frame}
    (hs : w.stack = .giveUp c share :: rest) : Calm rest := by
  rcases h with h | ⟨_, _, _, hs', hcalm, _⟩
  · have hframed := h.framed
    rw [hs] at hframed
    exact hframed.1.2.1
  · rw [(List.cons.inj (hs.symm.trans hs')).2]
    exact hcalm

/-- A failure that is under way does not go through anything to whoever climbs. -/
theorem Orderly.not_caught (h : w.Orderly t) {g f : Failure} {rest below : List Frame}
    (hs : w.stack = .throwing g :: rest) (hrest : Leaned rest) :
    caught g rest ≠ .throwing f :: .climb :: below := by
  intro hcaught
  cases rest with
  | nil => cases hcaught
  | cons k rest =>
    by_cases hstop : caught g (k :: rest) = k :: rest
    · obtain ⟨rfl, rfl⟩ := List.cons.inj (hstop.symm.trans hcaught)
      cases hrest.1
    · have hover : caught g (k :: rest) = .throwing g :: rest := by
        cases k <;> first | rfl | exact absurd rfl hstop
      obtain rfl := (List.cons.inj (hover.symm.trans hcaught)).2
      -- what is passed over is calm, and so does not lie on a frame that climbs
      have hfits : Calm (k :: .climb :: below) ∨ t.strict = false ∧
          ∃ below', k :: .climb :: below = .climb :: below' := h.order.fits hs rfl
      have hgive : k.isGiveUp = false := by
        rcases hfits with hcalm | ⟨_, _, heq⟩
        · cases k <;> first | rfl | cases hcalm
        · rw [(List.cons.inj heq).1]
          rfl
      have hover : w.stack = [.throwing g] ++ k :: .climb :: below := hs
      rcases fits_on_climb (h.order.fits_of_mem hover hgive) hgive with
        ⟨c, p, rfl⟩ | ⟨g', rfl⟩
      · rcases hfits with hcalm | ⟨_, _, heq⟩
        · cases hcalm
        · cases heq
      · cases hrest.1

/-- A failure comes to be about to reach whoever climbs because a parent cannot be told. -/
theorem Reachable.told_of_throwing (h : w.Reachable t) (hm : (within t).allows w m = true) {f : Failure}
    {below : List Frame} (hs : (w.move m).stack = .throwing f :: .climb :: below) :
    m = .advance ∧ w.fails = true ∧ ∃ c p, w.stack = .told c (some p) :: .climb :: below := by
  by_cases hsure : Footed true w.stack
  · -- unless a slot cannot be given up, the failure lies on a client's code
    have hfails : w.fails = true := by
      by_contra hfails
      rcases braced_move hsure (Bool.and_eq_true_iff.1 hm).1 (fun _ => Bool.eq_false_iff.2 hfails) with
        (hleaned | ⟨_, _, hfalse, _⟩) | ⟨_, _, _, _, _, hgive, _⟩
      · rw [hs] at hleaned
        cases hleaned.1
      · cases hfalse
      · cases hs.symm.trans hgive
    rcases of_fails hfails with ⟨c, share, rest, hw, hnone⟩ | ⟨c, p, rest, hw, hnone⟩
    · obtain rfl := eq_advance hm hw rfl
      simp only [stack_move, shift, shiftWork, hw, leavingFrames, hnone] at hs
      obtain rfl : rest = .climb :: below := (List.cons.inj hs).2
      cases h.orderly.order.calm_of_giveUp hw
    · obtain rfl := eq_advance hm hw rfl
      simp only [stack_move, shift, shiftWork, hw, tellingFrames, hnone] at hs
      obtain rfl : rest = .climb :: below := (List.cons.inj hs).2
      exact ⟨rfl, hfails, c, p, hw⟩
  · rcases h.footed with hleaned | ⟨g, rest, hw, hhasty, hrest⟩
    · exact absurd (.inl hleaned) hsure
    · cases g with
      | giveUp c share => exact absurd (.inr ⟨_, rest, hw, rfl, hrest⟩) hsure
      | throwing g =>
        obtain rfl := eq_advance hm hw rfl
        rw [stack_move] at hs
        simp only [shift, shiftWork, hw] at hs
        exact absurd hs (h.orderly.not_caught hw hrest)
      | _ => cases hhasty

/-! ## Who loses its place -/

/-- The contexts that lose their place in the queue with a move: a completion has been told, and the parent
that is to be told of it has no slot left. -/
def strands (w : World) : Move → List ContextNo
  | .advance =>
    match w.stack with
    | .told _ (some _) :: _ => if w.fails then w.queue.getD [] else []
    | _ => []
  | _ => []

/-- The contexts that lose their place in the course of some moves. -/
def stranded (w : World) : List Move → List ContextNo
  | [] => []
  | m :: moves => w.strands m ++ (w.move m).stranded moves

/-- The contexts that are to complete: those in the queue, unless a failure is about to reach whoever
climbs. -/
def awaiting (w : World) : List ContextNo :=
  match w.stack with
  | .throwing _ :: .climb :: _ => []
  | _ => w.queue.getD []

theorem stranded_append (w : World) (moves later : List Move) :
    w.stranded (moves ++ later) = w.stranded moves ++ (machine.run w moves).stranded later := by
  induction moves generalizing w with
  | nil => rfl
  | cons x moves ih => simp [stranded, ih, machine]

theorem stranded_concat (w : World) (moves : List Move) (m : Move) :
    w.stranded (moves ++ [m]) = w.stranded moves ++ (machine.run w moves).strands m := by
  rw [stranded_append]
  simp [stranded]

theorem awaiting_of_throwing {f : Failure} {rest : List Frame}
    (hs : w.stack = .throwing f :: .climb :: rest) : w.awaiting = [] := by
  simp only [awaiting, hs]

theorem awaiting_of_ne (hs : ∀ f rest, w.stack ≠ .throwing f :: .climb :: rest) :
    w.awaiting = w.queue.getD [] := by
  unfold awaiting
  split
  · rename_i f rest hw
    exact absurd hw (hs f rest)
  · rfl

theorem strands_of_told {c p : ContextNo} {rest : List Frame} (hs : w.stack = .told c (some p) :: rest)
    (hfails : w.fails = true) : w.strands .advance = w.queue.getD [] := by
  simp only [strands, hs, hfails, if_true]

/-- Nobody loses its place unless a slot of a parent cannot be given up. -/
theorem of_mem_strands {c : ContextNo} (h : c ∈ w.strands m) : m = .advance ∧ w.fails = true ∧
    (∃ d p rest, w.stack = .told d (some p) :: rest) ∧ c ∈ w.queue.getD [] := by
  unfold strands at h
  split at h
  · split at h
    · rename_i d p rest hs
      split at h
      · rename_i hfails
        exact ⟨rfl, hfails, ⟨d, p, rest, hs⟩, h⟩
      · cases h
    · cases h
  · cases h

/-- A parent that cannot be told leaves a failure in the place of the telling. -/
theorem stack_of_untold {c p : ContextNo} {rest : List Frame} (hs : w.stack = .told c (some p) :: rest)
    (hfails : w.fails = true) : (w.move .advance).stack = .throwing Counter.overReleased :: rest := by
  have hnone : ((w.contexts[p]?).bind fun x => x.slots.release) = none := by
    simpa [fails, hs] using hfails
  rw [stack_move]
  simp only [shift, shiftWork, hs, tellingFrames, hnone]
  rfl

/-- A context leaves the queue by completing, unless a failure is about to reach whoever climbs. -/
theorem Orderly.serves_queue (h : w.Orderly t) (hm : (within t).allows w m = true)
    (hs : ∀ f rest, w.stack ≠ .throwing f :: .climb :: rest) :
    (w.notes m).filterMap Event.completes? ++ (w.move m).queue.getD [] =
      w.queue.getD [] ++ (w.notes m).filterMap Event.drains? := by
  rcases serves_move h hm with hserves | ⟨_, hnil, hnone⟩
  · exact hserves
  · -- the queue that is given up was empty
    have hempty : w.queue.getD [] = [] := by
      rw [queue_move] at hnone
      cases m with
      | advance =>
        have hnone : w.queueWork = none := hnone
        unfold queueWork at hnone
        split at hnone
        · split at hnone
          · cases hnone
          · rw [hnone]
            rfl
        · split at hnone
          · cases hnone
          · rename_i hne
            cases hq : w.queue with
            | none => rfl
            | some l =>
              cases l with
              | nil => rfl
              | cons c q => exact absurd hq (hne c q)
        · split at hnone
          · rw [Option.map_eq_none_iff.1 hnone]
            rfl
          · rw [hnone]
            rfl
        · rename_i hw
          exact absurd hw (hs _ _)
        · rw [hnone]
          rfl
      | _ =>
        have hnone : w.queue = none := hnone
        rw [hnone]
        rfl
    rw [hnil, hnone, hempty]
    rfl

/-- With a move, a context that is to complete completes, loses its place, or goes on to be so. -/
theorem Reachable.awaiting_move (h : w.Reachable t) (hm : (within t).allows w m = true) :
    ((w.notes m).filterMap Event.completes? ++ ((w.move m).awaiting ++ w.strands m)).Perm
      (w.awaiting ++ (w.notes m).filterMap Event.drains?) := by
  by_cases hdoomed : ∃ f rest, w.stack = .throwing f :: .climb :: rest
  · -- the failure reaches whoever climbs, and nobody is to complete any more
    obtain ⟨f, rest, hs⟩ := hdoomed
    obtain rfl := eq_advance hm hs rfl
    have hstack : (w.move .advance).stack = .throwing f :: rest := by
      rw [stack_move]
      simp only [shift, shiftWork, hs, caught]
    have hqueue : (w.move .advance).queue = none := by
      rw [queue_move]
      simp only [queueAfter, queueWork, hs]
    have hnone : (w.move .advance).awaiting = [] := by
      unfold awaiting
      rw [hqueue]
      split <;> rfl
    have hnotes : w.notes .advance = [] := by simp only [notes, workNotes, hs]
    have hstrands : w.strands .advance = [] := by simp only [strands, hs]
    rw [hnotes, hnone, hstrands, awaiting_of_throwing hs]
    exact .refl _
  · have hne : ∀ f rest, w.stack ≠ .throwing f :: .climb :: rest := fun f rest hs => hdoomed ⟨f, rest, hs⟩
    rw [awaiting_of_ne hne]
    by_cases hafter : ∃ f rest, (w.move m).stack = .throwing f :: .climb :: rest
    · obtain ⟨f, rest, hs⟩ := hafter
      obtain ⟨rfl, hfails, c, p, hw⟩ := h.told_of_throwing hm hs
      have hnotes : w.notes .advance = [] := by
        have hnone : ((w.contexts[p]?).bind fun x => x.slots.release) = none := by
          simpa [fails, hw] using hfails
        simp only [notes, workNotes, hw]
        exact leavingNotes_of_none hnone
      rw [awaiting_of_throwing hs, strands_of_told hw hfails, hnotes]
      simp
    · have hnil : w.strands m = [] := by
        refine List.eq_nil_iff_forall_not_mem.2 fun c hc => ?_
        obtain ⟨rfl, hfails, ⟨d, p, rest, hw⟩, _⟩ := of_mem_strands hc
        obtain ⟨below, rfl⟩ := h.orderly.order.fits hw rfl
        exact hafter ⟨_, below, stack_of_untold hw hfails⟩
      rw [awaiting_of_ne (fun f rest hs => hafter ⟨f, rest, hs⟩), hnil, List.append_nil,
        h.orderly.serves_queue hm hne]

/-- Whose counter has reached zero has completed, is to complete, or has lost its place; a move that makes
some of them lose it keeps it so. -/
theorem Reachable.placed_move (h : w.Reachable t) (hm : (within t).allows w m = true)
    {lost : List ContextNo} (hplaced : (w.completions ++ (w.awaiting ++ lost)).Perm w.drains) :
    ((w.move m).completions ++ ((w.move m).awaiting ++ (lost ++ w.strands m))).Perm (w.move m).drains := by
  rw [List.perm_iff_count] at hplaced ⊢
  intro c
  have hbefore := hplaced c
  have hmove := (h.awaiting_move hm).count_eq c
  rw [completions_move, drains_move]
  simp only [List.count_append] at hbefore hmove ⊢
  omega

/-! ## Runs -/

theorem placed_run {threshold : Log.Level} {moves : List Move}
    (h : (within t).legal (start threshold) moves = true) :
    ((machine.run (start threshold) moves).completions ++ ((machine.run (start threshold) moves).awaiting ++
      (start threshold).stranded moves)).Perm (machine.run (start threshold) moves).drains := by
  -- by induction on the moves, the last of which is made in a world that a legal run leads to
  refine ((within t).run_induction (s := start threshold) (P := fun moves w => w.Reachable t ∧
    (w.completions ++ (w.awaiting ++ (start threshold).stranded moves)).Perm w.drains)
    ⟨⟨threshold, [], rfl, rfl⟩, .refl _⟩ ?_ h).2
  rintro moves m ⟨hreach, hplaced⟩ hm
  rw [stranded_concat]
  exact ⟨hreach.move hm, hreach.placed_move hm hplaced⟩

/-- Whoever has lost its place does not complete. -/
theorem completes_not_of_stranded {threshold : Log.Level} {moves : List Move}
    (h : (within t).legal (start threshold) moves = true) {c : ContextNo}
    (hlost : c ∈ (start threshold).stranded moves) :
    (machine.run (start threshold) moves).isFired (.completion c) = false := by
  have hreach : (machine.run (start threshold) moves).Reachable t := ⟨threshold, moves, h, rfl⟩
  have hnodup := (placed_run h).nodup_iff.2 hreach.drains_once.1
  rw [← Bool.not_eq_true, ← hreach.mem_completions]
  exact fun hc => (List.nodup_append.1 hnodup).2.2 c hc c (List.mem_append_right _ hlost) rfl

/-- On strict terms every parent can be told. -/
theorem stranded_of_strict {threshold : Log.Level} {moves : List Move}
    (h : (within t).legal (start threshold) moves = true) (ht : t.strict = true) :
    (start threshold).stranded moves = [] := by
  refine ((within t).run_induction (s := start threshold) (P := fun moves w => w.Orderly t ∧
    (start threshold).stranded moves = []) ⟨orderly_start threshold, rfl⟩ ?_ h).2
  rintro moves m ⟨horder, hnil⟩ hm
  refine ⟨horder.move hm, ?_⟩
  rw [stranded_concat, hnil, List.nil_append]
  refine List.eq_nil_iff_forall_not_mem.2 fun c hc => ?_
  cases (horder.sure ht).symm.trans (of_mem_strands hc).2.1

/-- **Completions are lost only where a parent has been left too often.** In a run that respects the channels
of contexts, but may have more participants leave a context than have joined it:
* at every moment, whose counter has reached zero has completed, is to complete, or is stranded, and it is
  one of these only;
* whenever no call is in progress, a context whose counter is at zero has completed exactly if it is not
  stranded;
* a stranded context is one whose counter is at zero, and it does not complete however the run goes on;
* nobody is stranded if no more participants leave a context than have joined it, unless a counter has been
  asked to count more than it can. -/
theorem completes_unless_stranded {threshold : Log.Level} {moves : List Move}
    (h : (within t).legal (start threshold) moves = true)
    (hw : machine.run (start threshold) moves = w) :
    ((w.completions ++ (w.awaiting ++ (start threshold).stranded moves)).Perm w.drains ∧ w.drains.Nodup ∧
      ∀ c, c ∈ w.drains ↔ ∃ x, w.contexts[c]? = some x ∧ x.slots.pending = 0) ∧
    (w.stack = [] → ∀ c x, w.contexts[c]? = some x → x.slots.pending = 0 →
      (w.isFired (.completion c) = true ↔ c ∉ (start threshold).stranded moves)) ∧
    (∀ c ∈ (start threshold).stranded moves, (∃ x, w.contexts[c]? = some x ∧ x.slots.pending = 0) ∧
      ∀ more, (within t).legal w more = true → (machine.run w more).isFired (.completion c) = false) ∧
    (t.matched = true → w.inRange = true → (start threshold).stranded moves = []) := by
  have hreach : w.Reachable t := ⟨threshold, moves, h, hw⟩
  have hplaced := placed_run h
  rw [hw] at hplaced
  have hzero : ∀ c, c ∈ w.drains ↔ ∃ x, w.contexts[c]? = some x ∧ x.slots.pending = 0 := fun c => by
    rw [hreach.mem_drains]
    exact exists_congr fun x => and_congr_right fun _ => pending_eq_zero.symm
  have hnodup := hplaced.nodup_iff.2 hreach.drains_once.1
  refine ⟨⟨hplaced, hreach.drains_once.1, hzero⟩, ?_, ?_, ?_⟩
  · intro idle c x hx hpending
    have hnone : w.awaiting = [] := by
      unfold awaiting
      rw [idle, hreach.orderly.queue_none idle]
      rfl
    rw [hnone, List.nil_append] at hplaced hnodup
    rw [← hreach.mem_completions]
    constructor
    · exact fun hc hlost => (List.nodup_append.1 hnodup).2.2 c hc c hlost rfl
    · intro hlost
      have hmem := hplaced.mem_iff.2 ((hzero c).2 ⟨x, hx, hpending⟩)
      exact (List.mem_append.1 hmem).resolve_right hlost
  · intro c hlost
    refine ⟨(hzero c).1 (hplaced.subset (List.mem_append_right _ (List.mem_append_right _ hlost))), ?_⟩
    intro more hmore
    have hlegal : (within t).legal (start threshold) (moves ++ more) = true := by
      rw [Machine.legal_append, Bool.and_eq_true]
      exact ⟨h, hw ▸ hmore⟩
    have hrun : machine.run (start threshold) (moves ++ more) = machine.run w more := by
      rw [Machine.run_append, hw]
    rw [← hrun]
    refine completes_not_of_stranded hlegal ?_
    rw [stranded_append]
    exact List.mem_append_left _ hlost
  · intro hmatched hrange
    refine stranded_of_strict (legal_of_inRange h (hw ▸ hrange)) ?_
    simp [Terms.strict, hmatched]

/-- A parent with a child, which is then left twice, and another root. An observer of the child's completion
finishes the other root. -/
def overdrawnMoves : List Move :=
  [Move.call (.createRoot { origin := .bridge "p" "" (some 0), location := some ⟨"box", "p"⟩ }), .advance,
    .call (.createChild 0 (some ⟨"box", "c"⟩) none none), .advance,
    .call (.createRoot { origin := .bridge "d" "" (some 0), location := some ⟨"box", "d"⟩ }), .advance,
    .call (.childCompleted 0), .advance, .advance, .call (.childCompleted 0)] ++
    List.replicate 6 Move.advance ++
  [Move.call (.subscribe (.completion 1) (some 7) []), .call (.success 1 none)] ++
    List.replicate 7 Move.advance ++ [Move.call (.success 2 none)] ++ List.replicate 6 Move.advance ++
  [Move.finish none] ++ List.replicate 5 Move.advance

/-- The other root, whose outcome has been told, does not complete any more. -/
theorem completes_unless_stranded_overdrawn : ∃ w : World,
    machine.run start overdrawnMoves = w ∧ w.stack = [] ∧ w.isLive 2 = true ∧
      w.isFired (.response 2) = true ∧ start.stranded overdrawnMoves = [2] ∧
        (∃ x, w.contexts[2]? = some x ∧ x.slots.pending = 0) ∧
          ∀ more, (within { matched := false, bounded := true }).legal w more = true →
            (machine.run w more).isFired (.completion 2) = false := by
  have legal : (within { matched := false, bounded := true }).legal start overdrawnMoves = true := by
    decide +kernel
  have idle : (machine.run start overdrawnMoves).stack = [] := List.isEmpty_iff.1 (by decide +kernel)
  have lost : start.stranded overdrawnMoves = [2] := by decide +kernel
  obtain ⟨-, -, hstranded, -⟩ := completes_unless_stranded legal rfl
  exact ⟨_, rfl, idle, by decide +kernel, by decide +kernel, lost,
    hstranded 2 (lost ▸ List.mem_singleton_self 2)⟩

/-- It is not so that, when no call is in progress, whoever has no slot left has completed: the misuse of one
context may cost another its completion. -/
theorem completion_lost : ¬ ∀ w : World, w.Reachable { matched := false, bounded := true } →
    w.stack = [] → ∀ c x, w.contexts[c]? = some x → x.isLive = true → x.slots.pending = 0 →
      w.isFired (.completion c) = true := by
  intro hclaim
  have reachable : (machine.run start overdrawnMoves).Reachable { matched := false, bounded := true } :=
    ⟨_, overdrawnMoves, by decide +kernel, rfl⟩
  have idle : (machine.run start overdrawnMoves).stack = [] := List.isEmpty_iff.1 (by decide +kernel)
  have spent : ((machine.run start overdrawnMoves).contexts[2]?).map
      (fun x => (x.isLive, x.slots.pending)) = some (true, 0) := by decide +kernel
  have unfired : (machine.run start overdrawnMoves).isFired (.completion 2) = false := by decide +kernel
  obtain ⟨x, hx, hspent⟩ := Option.map_eq_some_iff.1 spent
  obtain ⟨hlive, hpending⟩ := Prod.mk.inj hspent
  cases unfired.symm.trans (hclaim _ reachable idle 2 x hx hlive hpending)

end FanIn.World
