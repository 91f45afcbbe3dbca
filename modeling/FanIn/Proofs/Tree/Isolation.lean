import FanIn.Proofs.Tree.Footing
import FanIn.Proofs.Tree.Retelling

/-!
# Observers that throw

An observer that throws instead of returning is stopped by the delivery that called it. Everything goes on
as if it had returned, but for a message in the log. What a move does, and what it adds to the history, can
be read off the world without its history; so two runs that differ in what observers throw stay alike in
all but their histories, and these differ in the messages.

Main statement: `throwing_isolated`.
-/

namespace FanIn

/-- The same move, or one in which the observer that returns throws. -/
inductive Louder : Move → Move → Prop
  | same (m : Move) : Louder m m
  | throws (f : Failure) : Louder (.finish none) (.finish (some f))

namespace World

open Stack

variable {w w' : World} {m m' : Move}

/-! ## Worlds but for their histories -/

theorem afresh_move (w : World) (m : Move) : (w.move m).afresh = (w.afresh.move m).afresh := by
  rw [move_eq_retold]
  rfl

/-- Two worlds are alike if they differ in their histories only. -/
def Alike (w w' : World) : Prop := w'.afresh = w.afresh

theorem Alike.eq (h : w.Alike w') : w' = { w with history := w'.history } := by
  have hw : w' = { w'.afresh with history := w'.history } := rfl
  rw [hw, show w'.afresh = w.afresh from h]
  rfl

/-- The same move keeps worlds alike, and adds the same to their histories. -/
theorem Alike.move (h : w.Alike w') (m : Move) :
    (w.move m).Alike (w'.move m) ∧ w'.adds m = w.adds m := by
  have hsame : w'.afresh = w.afresh := h
  refine ⟨?_, ?_⟩
  · show (w'.move m).afresh = (w.move m).afresh
    rw [afresh_move, afresh_move w, hsame]
  · show (w'.afresh.move m).history = (w.afresh.move m).history
    rw [hsame]

theorem Alike.allows (h : w.Alike w') (m : Move) : w'.allows m = w.allows m := by
  have hsame : w'.afresh = w.afresh := h
  have hw := allows_retold (.after w.history) w.afresh m
  have hw' := allows_retold (.after w'.history) w'.afresh m
  rw [retold_afresh] at hw hw'
  rw [hw, hw', hsame]

/-! ## What an observer that throws leaves behind -/

/-- What is logged because an observer throws instead of returning. -/
def outcry (w : World) : Move → Move → Array Event
  | .finish none, .finish (some f) =>
    if Log.Level.error.passes w.threshold then
      #[.logged .error (Text.visible f.observerReport)]
    else #[]
  | _, _ => #[]

/-- An observer that throws leaves a message in the log, and nothing else. -/
theorem finish_thrown {f : Failure} (h : w.allows (.finish none) = true) :
    (w.finish none).Alike (w.finish (some f)) ∧
      (w.finish (some f)).history =
        (w.finish none).history ++ w.outcry (.finish none) (.finish (some f)) := by
  obtain ⟨ch, l, v, rest, hs⟩ := observer_of_finish h
  have hnone : w.finish none = { w with stack := rest } := by
    unfold World.finish
    rw [hs]
  have hsome : w.finish (some f) = World.log { w with stack := rest } .error f.observerReport := by
    unfold World.finish
    rw [hs]
  rw [hnone, hsome]
  by_cases hpass : Log.Level.error.passes w.threshold = true
  · have hlog : World.log { w with stack := rest } .error f.observerReport =
        World.note { w with stack := rest } (.logged .error (Text.visible f.observerReport)) :=
      if_pos hpass
    have hcry : w.outcry (.finish none) (.finish (some f)) =
        #[.logged .error (Text.visible f.observerReport)] := if_pos hpass
    rw [hlog, hcry]
    exact ⟨rfl, Array.push_eq_append⟩
  · have hlog : World.log { w with stack := rest } .error f.observerReport =
        { w with stack := rest } := if_neg hpass
    have hcry : w.outcry (.finish none) (.finish (some f)) = #[] := if_neg hpass
    rw [hlog, hcry]
    exact ⟨rfl, Array.append_empty.symm⟩

/-- The exception is stopped by the delivery that called the observer: it is as if it were on its way to
that delivery. -/
theorem finish_eq_unwind {ch ch' : ChannelRef} {l : Nat} {v v' : Value} {replay : Bool}
    {todo spent : List Observer} {below : List Frame}
    (h : w.stack = .observer ch l v :: .deliver ch' replay v' todo spent :: below) (f : Failure) :
    w.finish (some f) =
      World.advance { w with stack := .throwing f :: .deliver ch' replay v' todo spent :: below } := by
  unfold World.finish World.advance
  rw [h]
  rfl

/-- Whether an observer throws as well makes no difference but for the message. -/
theorem Alike.louder (h : w.Alike w') (hm : Louder m m') (hallows : w.allows m = true) :
    w'.allows m' = true ∧ (w.move m).Alike (w'.move m') ∧
      (w'.move m').history = w'.history ++ w.adds m ++ w.outcry m m' := by
  obtain ⟨halike, hadds⟩ := h.move m
  have hhistory := history_move w' m
  rw [hadds] at hhistory
  cases hm with
  | same m =>
    have hquiet : w.outcry m m = #[] := by
      cases m with
      | finish thrown => cases thrown <;> rfl
      | _ => rfl
    refine ⟨(h.allows m).trans hallows, halike, ?_⟩
    rw [hquiet, Array.append_empty]
    exact hhistory
  | throws f =>
    have hallows' : w'.allows (.finish none) = true := (h.allows _).trans hallows
    have hthreshold : w'.threshold = w.threshold := by rw [h.eq]
    obtain ⟨hthrown, hcry⟩ := finish_thrown (f := f) hallows'
    refine ⟨hallows', ?_, ?_⟩
    · show (w'.finish (some f)).afresh = _
      exact hthrown.trans halike
    · show (w'.finish (some f)).history = _
      have hsame : w'.outcry (.finish none) (.finish (some f)) =
          w.outcry (.finish none) (.finish (some f)) := by
        simp only [outcry, hthreshold]
      rw [hcry, hsame]
      exact congrArg (· ++ _) hhistory

/-! ## Two runs -/

/-- What has happened, without the messages in the log. -/
def deeds (w : World) : List Event := w.history.toList.filter fun e => !e.isMessage

/-- What is logged because an observer throws is a message and nothing else. -/
theorem filter_outcry (m m' : Move) : (w.outcry m m').toList.filter (fun e => !e.isMessage) = [] := by
  rw [List.filter_eq_nil_iff]
  intro e he
  unfold outcry at he
  split at he
  · split at he
    · simp only [List.mem_singleton] at he
      rw [he]
      exact Bool.false_ne_true
    · cases he
  · cases he

theorem Alike.deeds (h : w.Alike w') (hd : w'.deeds = w.deeds) (hm : Louder m m')
    (hallows : w.allows m = true) : (w'.move m').deeds = (w.move m).deeds := by
  have hsame : w'.history.toList.filter (fun e => !e.isMessage) =
      w.history.toList.filter fun e => !e.isMessage := hd
  unfold World.deeds
  rw [(h.louder hm hallows).2.2, history_move w m]
  simp only [Array.toList_append, List.filter_append, filter_outcry, List.append_nil, hsame]

/-- Two runs that differ in what observers throw are both legal, stay alike after every move, and add the
same to their histories, but for the messages. -/
theorem Alike.run {louder moves : List Move} (hl : List.Forall₂ Louder moves louder) (h : w.Alike w')
    (hd : w'.deeds = w.deeds) (hlegal : machine.legal w moves = true) :
    machine.legal w' louder = true ∧
      ∀ n, (machine.run w (moves.take n)).Alike (machine.run w' (louder.take n)) ∧
        (machine.run w' (louder.take n)).deeds = (machine.run w (moves.take n)).deeds := by
  induction hl generalizing w w' with
  | nil => exact ⟨rfl, fun n => by simpa using ⟨h, hd⟩⟩
  | @cons m m' moves louder hm hl ih =>
    obtain ⟨hallows, hlegal⟩ := Bool.and_eq_true_iff.1 hlegal
    obtain ⟨hallows', halike, -⟩ := h.louder hm hallows
    obtain ⟨hlegal', hrun⟩ := ih halike (h.deeds hd hm hallows) hlegal
    refine ⟨Bool.and_eq_true_iff.2 ⟨hallows', hlegal'⟩, fun n => ?_⟩
    cases n with
    | zero => exact ⟨h, hd⟩
    | succ n => exact hrun n

theorem allows_of_legal {moves : List Move} (h : machine.legal w moves = true) {n : Nat} {m : Move}
    (hm : moves[n]? = some m) : (machine.run w (moves.take n)).allows m = true := by
  obtain ⟨hn, rfl⟩ := List.getElem?_eq_some_iff.1 hm
  rw [← List.take_append_drop n moves, machine.legal_append, List.drop_eq_getElem_cons hn] at h
  exact (Bool.and_eq_true_iff.1 (Bool.and_eq_true_iff.1 h).2).1

/-- An observer that throws changes nothing for anyone else. Take a run, and the same with observers that
throw instead of returning. The second is a run as well, and after every move its world is that of the
first but for the history. What a move adds to the one history it adds to the other, and after that, where
an observer has thrown, the message that says so. Each exception is stopped by the delivery that called
the observer: it is as if it were thrown on top of that. -/
theorem throwing_isolated {threshold : Log.Level} {moves louder : List Move}
    (h : machine.legal (start threshold) moves = true) (hl : List.Forall₂ Louder moves louder) :
    machine.legal (start threshold) louder = true ∧
    (∀ n, let w := machine.run (start threshold) (moves.take n)
      let w' := machine.run (start threshold) (louder.take n)
      w' = { w with history := w'.history } ∧ w'.deeds = w.deeds) ∧
    (∀ n m m', moves[n]? = some m → louder[n]? = some m' →
      let w := machine.run (start threshold) (moves.take n)
      let w' := machine.run (start threshold) (louder.take n)
      ∃ added, (w.move m).history = w.history ++ added ∧
        (w'.move m').history = w'.history ++ added ++ w.outcry m m') ∧
    ∀ n f, louder[n]? = some (.finish (some f)) →
      let w' := machine.run (start threshold) (louder.take n)
      ∃ ch l v replay todo spent below,
        w'.stack = .observer ch l v :: .deliver ch replay v todo spent :: below ∧
        w'.move (.finish (some f)) =
          World.advance { w' with stack := .throwing f :: .deliver ch replay v todo spent :: below } := by
  have hstart : (start threshold).Alike (start threshold) := rfl
  obtain ⟨hlegal', halike⟩ := hstart.run hl rfl h
  refine ⟨hlegal', fun n => ⟨(halike n).1.eq, (halike n).2⟩, fun n m m' hm hm' => ?_, fun n f hf => ?_⟩
  · obtain ⟨hn, rfl⟩ := List.getElem?_eq_some_iff.1 hm
    obtain ⟨hn', rfl⟩ := List.getElem?_eq_some_iff.1 hm'
    have hlouder : Louder moves[n] louder[n] := hl.get hn hn'
    exact ⟨_, history_move _ _, ((halike n).1.louder hlouder (allows_of_legal h hm)).2.2⟩
  · have hallows := allows_of_legal hlegal' hf
    obtain ⟨ch, l, v, rest, hs⟩ := observer_of_finish hallows
    have hfooted := footed_of_legal (machine.legal_take hlegal' n)
    rw [hs] at hfooted
    obtain ⟨replay, todo, spent, below, rfl⟩ := hfooted.leans rfl
    exact ⟨ch, l, v, replay, todo, spent, below, hs, finish_eq_unwind hs f⟩

/-- A root with an observer that adds a participant while the outcome is told, and another that is told
the completion and asks for a participant in vain. Each of them returns or throws. -/
def quarrelMoves (first second : Option Failure) : List Move :=
  [Move.call (.createRoot { origin := .bridge "a" "" (some 0), location := some ⟨"box", "a"⟩ }), .advance,
      .call (.subscribe (.before 0) (some 1) []), .call (.subscribe (.completion 0) (some 2) []),
      .call (.success 0 none), .advance, .advance, .call (.addChild 0)] ++
    [Move.finish first] ++
    (List.replicate 5 Move.advance ++ [Move.call (.childCompleted 0), .advance, .advance, .advance,
      .call (.addChild 0)]) ++
    [Move.finish second] ++ List.replicate 4 Move.advance

theorem throwing_isolated_quarrel : ∃ w w' : World,
    machine.run start (quarrelMoves none none) = w ∧
      machine.run start (quarrelMoves (some .outOfMemory) (some .foreign)) = w' ∧
        w.stack = [] ∧ w.completions = [0] ∧ w' = { w with history := w'.history } ∧
          w'.deeds = w.deeds ∧ w'.history.size = w.history.size + 2 := by
  have legal : machine.legal start (quarrelMoves none none) = true := by decide +kernel
  have same : ∀ moves : List Move, List.Forall₂ Louder moves moves := fun _ =>
    List.forall₂_same.2 fun m _ => .same m
  have thrown : ∀ f : Failure, List.Forall₂ Louder [.finish none] [.finish (some f)] := fun f =>
    .cons (.throws f) .nil
  have louder : List.Forall₂ Louder (quarrelMoves none none)
      (quarrelMoves (some .outOfMemory) (some .foreign)) :=
    List.rel_append (List.rel_append (List.rel_append (List.rel_append (same _) (thrown _)) (same _))
      (thrown _)) (same _)
  have alike := (throwing_isolated legal louder).2.1 (quarrelMoves none none).length
  have idle : (machine.run start (quarrelMoves none none)).stack = [] := by
    have hnone : (machine.run start (quarrelMoves none none)).stack.isEmpty = true := by decide +kernel
    exact List.isEmpty_iff.1 hnone
  exact ⟨_, _, rfl, rfl, idle, by decide +kernel, alike.1, alike.2, by decide +kernel⟩

end World

end FanIn
