import FanIn.Proofs.Tree.Ascent
import FanIn.Proofs.Tree.Overrun

/-!
# One stretch of the ancestors

A success that is the first terminal call on a context, or a participant that leaves it, touches one stretch
of the path from the context up to its root: the contexts that have one slot left complete, one after the
other, up to the first that has more, which has one less. Nothing else is touched, whatever the height of
the tree.

Main statement: `completes_stretch`. The observers of the contexts that complete may do what they like except
make requests of the library; they may take references and give them back, and throw.
-/

namespace FanIn.World

open Stack

/-- The calls that give up a slot of a context, and what they tell of its outcome: a success that is the
first terminal call, and a participant that leaves. -/
inductive Releases (w : World) (c : ContextNo) : Call → Option Response → Prop
  | success {result : Option Int} (undecided : w.stateOf c = .pending) :
      Releases w c (.success c result) (some ⟨result, none⟩)
  | childCompleted : Releases w c (.childCompleted c) none

/-- What a call that gives up a slot of context `c` makes of context `d`, which was `x` and is `y`. -/
structure Altered (w : World) (c : ContextNo) (r? : Option Response) (d : ContextNo) (x y : Context) :
    Prop where
  /-- The contexts of the stretch give up a slot, and so does the next one above. -/
  count : y.slots.count = x.slots.count - if d ∈ w.stretch c ∨ w.limit? c = some d then 1 else 0
  completion : y.completion = if d ∈ w.stretch c then .fired () else x.completion
  /-- The outcome is told of no other context. -/
  outcome : ∀ r, r? = some r → d = c → y.state = r.state ∧ y.before = .fired r ∧ y.response = .fired r
  others : r? = none ∨ d ≠ c → y.state = x.state ∧ y.before = x.before ∧ y.response = x.response

variable {w v : World} {m : Move} {t : Terms} {c d : ContextNo} {k : Change} {r? : Option Response}
  {back : Frame} {involved : List ContextNo} {moves : List Move} {call : Call}

/-! ## The call -/

theorem completions_call (hm : (within t).allows w (.call call) = true) :
    (w.call call).completions = w.completions := by
  have hsilent := (silent_callNotes (Bool.and_eq_true_iff.1 hm).2).1
  have hmove := completions_move (w := w) (.call call)
  rwa [show (w.notes (.call call)) = w.callNotes call from rfl, hsilent, List.append_nil] at hmove

/-- The call begins: an outcome is about to be told, or a slot to be given up. -/
theorem Releases.ascends (h : w.Releases c call r?) (hw : w.Orderly t) (idle : w.stack = [])
    (hm : (within t).allows w (.call call) = true) :
    ∃ back, (∃ reply kept, back = .returning reply kept) ∧ w.Ascends c r? back (w.call call) := by
  have hqueue : (w.call call).queue = none := (queue_call call).trans (hw.queue_none idle)
  have hstack := stack_move (w := w) (.call call)
  have hcompletions := completions_call hm
  cases h with
  | @success result undecided =>
    have hheld := held_of_call (Bool.and_eq_true_iff.1 hm).1 (r := .context c) (List.mem_singleton_self _)
    obtain ⟨x, hx, -⟩ := holders_context_pos.1 hheld
    have hopen : x.isTerminated = false := by
      have hstate : x.state = .pending := by simpa [stateOf, hx] using undecided
      simp [Context.isTerminated, hstate]
    simp only [shift, callFrames, hx, hopen, idle] at hstack
    refine ⟨.returning (.flag true) [.context c], ⟨_, _, rfl⟩, [],
      [.respond c ⟨result, none⟩, .returning (.flag true) [.context c]], _, .nobody, hstack,
      (w.shows_self c).decide .succeeded (fun d => ?_) hcompletions, ?_⟩
    · have hpoint : w.point.contexts[c]? = some x := hx
      show (w.success c result).face? d = _
      simp only [World.success, hpoint, hopen, Bool.false_eq_true, if_false, face?_push]
      exact face?_modifyContext (fun _ => rfl) d
    · rw [hqueue]
      exact .publishes rfl
  | childCompleted =>
    simp only [shift, callFrames, idle] at hstack
    refine ⟨.returning .done [], ⟨_, _, rfl⟩, [], [.giveUp c .participant, .returning .done []], _, .nobody,
      hstack, (w.shows_self c).same (fun d => rfl) hcompletions, ?_⟩
    rw [hqueue]
    exact .leaves

/-! ## Until it returns -/

/-- A client has a reference more, or one less. -/
theorem toil_rehold (r : Ref) (n : Nat → Nat) :
    World.toil (match r with
      | .context b => v.modifyContext b fun x => { x with holders := n x.holders }
      | .signal s => v.modifySignal s fun x => { x with holders := n x.holders }) = v.toil := by
  cases r with
  | context b => exact toil_modifyContext (f := fun x => { x with holders := n x.holders }) fun _ => rfl
  | signal s => exact toil_modifySignal (f := fun x => { x with holders := n x.holders }) fun _ => rfl

/-- References are nothing to do. -/
theorem toil_reference {call : Call} (h : (Move.call call).isRequest = false) :
    (v.move (.call call)).toil = v.toil := by
  cases call with
  | hold r =>
    show ((v.hold r).answered .done).toil = v.toil
    exact (toil_answered _).trans (toil_rehold r (· + 1))
  | drop r =>
    show ((v.drop r).answered .done).toil = v.toil
    exact (toil_answered _).trans ((toil_releaseAll _).trans (toil_rehold r (· - 1)))
  | _ => cases h

/-- A run without requests, from one stage of a call to a later one: it takes no more steps than there is
left to do. -/
theorem Ascends.run (h : w.Ascends c r? back v) (hv : v.Reachable t) (ht : t.matched = true) (hw : w.Aged)
    (hback : ∃ reply kept, back = .returning reply kept) (hopen : r? ≠ none → w.isFired (.before c) = false)
    (hrange : ∀ d ∈ w.stretch c, 0 ≤ w.pendingOf d)
    (hlegal : (machine.restrict (hushes (c :: w.stretch c))).legal v moves = true) :
    w.Ascends c r? back (machine.run v moves) ∧
      (moves.filter fun m => !m.isCall).length + (machine.run v moves).toil ≤ v.toil := by
  induction moves generalizing v with
  | nil => exact ⟨h, Nat.le_of_eq (Nat.zero_add _)⟩
  | cons m moves ih =>
    obtain ⟨hm, hlegal⟩ := Bool.and_eq_true_iff.1 hlegal
    obtain ⟨hquiet, hnext⟩ := h.move hv.orderly ht hw hback hopen hrange hm
    have hterms : (within t).allows v m = true :=
      within_of_not_request (Bool.and_eq_true_iff.1 hm).1 hquiet
    obtain ⟨hend, hlength⟩ := ih hnext (hv.move hterms) hlegal
    refine ⟨hend, ?_⟩
    rw [Machine.run_cons]
    have hlength : (moves.filter fun m => !m.isCall).length + (machine.run (v.move m) moves).toil ≤
      (v.move m).toil := hlength
    cases hcall : m.isCall with
    | false =>
      have hless := toil_move hv.orderly hterms hcall
      rw [List.filter_cons_of_pos (by simp [hcall]), List.length_cons]
      show _ + (machine.run (v.move m) moves).toil ≤ _
      omega
    | true =>
      rw [List.filter_cons_of_neg (by simp [hcall])]
      cases m with
      | call call => exact hlength.trans (toil_reference hquiet).le
      | _ => cases hcall

/-- The context at which the climb ends has more than one slot left. -/
theorem lt_of_limit (h : w.limit? c = some d) : 1 < w.pendingOf d := by
  have hsplit := List.takeWhile_append_dropWhile (l := w.lineage c)
    (p := fun a => decide (w.pendingOf a ≤ 1))
  rw [limit?, ← hsplit, ← stretch, List.getElem?_append_right (Nat.le_refl _), Nat.sub_self] at h
  have hhead := List.head?_dropWhile_not (fun a => decide (w.pendingOf a ≤ 1)) (w.lineage c)
  rw [List.head?_eq_getElem?, h] at hhead
  simpa using hhead

/-- What is seen when the call has returned. -/
theorem Shows.altered (h : w.Shows c (w.climbed c r?) v) (hrange : ∀ d ∈ w.stretch c, 0 ≤ w.pendingOf d)
    {x y : Context} (hx : w.contexts[d]? = some x) (hy : v.contexts[d]? = some y) :
    Altered w c r? d x y := by
  obtain ⟨x', hx', hface⟩ := h.exists_face hy
  obtain rfl := Option.some.inj (hx'.symm.trans hx)
  have hreleased : d ∈ (w.climbed c r?).released ↔ d ∈ w.stretch c ∨ w.limit? c = some d := by
    simp [climbed]
  have hslots : y.slots = if d ∈ (w.climbed c r?).released then ⟨x'.slots.pending - 1⟩ else x'.slots :=
    congrArg Face.slots hface
  have hstate : y.state = if d = c then (r?.map Response.state).getD x'.state else x'.state :=
    congrArg Face.state hface
  have hbefore : y.before = if d = c then (r?.map Channel.fired).getD x'.before else x'.before :=
    congrArg Face.before hface
  have hresponse : y.response = if d = c then (r?.map Channel.fired).getD x'.response else x'.response :=
    congrArg Face.response hface
  constructor
  case count =>
    rw [hslots]
    by_cases hd : d ∈ (w.climbed c r?).released
    · rw [if_pos hd, if_pos (hreleased.1 hd)]
      refine Counter.count_pred ?_
      rw [← pendingOf_of hx]
      rcases hreleased.1 hd with hd | hd
      · exact hrange d hd
      · exact (lt_of_limit hd).le.trans' Int.one_nonneg
    · rw [if_neg hd, if_neg (mt hreleased.2 hd), Int.sub_zero]
  case completion => exact congrArg Face.completion hface
  case outcome =>
    rintro r rfl rfl
    exact ⟨hstate.trans (if_pos rfl), hbefore.trans (if_pos rfl), hresponse.trans (if_pos rfl)⟩
  case others =>
    rintro (rfl | hd)
    · exact ⟨hstate.trans (ite_self _), hbefore.trans (ite_self _), hresponse.trans (ite_self _)⟩
    · exact ⟨hstate.trans (if_neg hd), hbefore.trans (if_neg hd), hresponse.trans (if_neg hd)⟩

/-- The contexts are the same. -/
theorem Shows.size_eq (h : w.Shows c k v) : v.contexts.size = w.contexts.size := by
  have hnone : ∀ d, v.contexts[d]? = none ↔ w.contexts[d]? = none := fun d => by
    have hface : v.face? d = none ↔ w.face? d = none := by
      rw [h.faces d]
      exact Option.map_eq_none_iff
    simpa only [face?, Option.map_eq_none_iff] using hface
  have hle := Array.getElem?_eq_none_iff.1 ((hnone w.contexts.size).2 (by simp))
  have hge := Array.getElem?_eq_none_iff.1 ((hnone v.contexts.size).1 (by simp))
  exact Nat.le_antisymm hle hge

theorem Reachable.aged (h : w.Reachable t) : w.Aged := by
  obtain ⟨threshold, moves, -, rfl⟩ := h
  exact parents_older threshold moves

/-- **A call that gives up a slot touches one stretch of the ancestors.** Let it be a success that is the
first terminal call on a context, or a participant that leaves, with nothing else under way, and let no
counter of the stretch have overflowed, which would have left it below zero. While no observer of the
context, or of one of the stretch, makes a request, the call takes a bounded number of steps, and goes on
until it has returned. By then just the contexts of the stretch have completed, in their order; they and
the next one above have one slot less; a success has told its outcome; and nothing else has changed in any
context. -/
theorem completes_stretch (h : w.Reachable { matched := true, bounded := false }) (idle : w.stack = [])
    (hcall : w.Releases c call r?)
    (hm : (within { matched := true, bounded := false }).allows w (.call call) = true)
    (hrange : ∀ d ∈ w.stretch c, 0 ≤ w.pendingOf d)
    (hlegal : (machine.restrict (hushes (c :: w.stretch c))).legal (w.call call) moves = true) :
    let v := machine.run (w.call call) moves
    (moves.filter fun m => !m.isCall).length ≤ (w.call call).toil ∧
    (v.stack ≠ [] → ∃ m, m.isCall = false ∧
      (machine.restrict (hushes (c :: w.stretch c))).allows v m = true) ∧
    (v.stack = [] → v.completions = w.completions ++ w.stretch c ∧ v.contexts.size = w.contexts.size ∧
      ∀ d x y, w.contexts[d]? = some x → v.contexts[d]? = some y → Altered w c r? d x y) := by
  intro v
  have hopen : r? ≠ none → w.isFired (.before c) = false := by
    intro hr
    cases hcall with
    | success undecided => exact Bool.eq_false_iff.2 fun hfired => h.decided_of_before hfired undecided
    | childCompleted => exact absurd rfl hr
  obtain ⟨back, hback, hstart⟩ := hcall.ascends h.orderly idle hm
  obtain ⟨hend, hlength⟩ := hstart.run (h.move hm) rfl h.aged hback hopen hrange hlegal
  refine ⟨by omega, fun busy => ?_, fun hidle => ?_⟩
  · obtain ⟨m, hquiet, hmove⟩ := exists_move (t := { matched := true, bounded := true }) busy
    refine ⟨m, hquiet, Bool.and_eq_true_iff.2 ⟨(Bool.and_eq_true_iff.1 hmove).1, ?_⟩⟩
    cases m with
    | call call => cases hquiet
    | _ => rfl
  · obtain ⟨above, rest, k, -, hs, hshows, hrising⟩ := hend
    obtain ⟨rfl, rfl⟩ := List.append_eq_nil_iff.1 (hs.symm.trans hidle)
    obtain rfl : k = w.climbed c r? := by
      generalize (machine.run (w.call call) moves).queue = queue at hrising
      cases hrising
      rfl
    exact ⟨hshows.completions, hshows.size_eq, fun d x y hx hy => hshows.altered hrange hx hy⟩

/-- A root, its child, which has been successful, and a child of that, which has not. Someone waits for the
completion of the one in the middle. -/
def rowMoves : List Move :=
  [.call (.createRoot { origin := .bridge "a" "" (some 0), location := some ⟨"box", "a"⟩ }), .advance,
    .call (.createChild 0 (some ⟨"box", "b"⟩) none none), .advance,
    .call (.createChild 1 (some ⟨"box", "c"⟩) none none), .advance,
    .call (.subscribe (.completion 1) (some 7) []),
    .call (.success 1 none)] ++ List.replicate 6 .advance

/-- The last one tells its outcome and completes, and so does the one in the middle, whose observer takes a
reference and throws. -/
def risingMoves : List Move :=
  List.replicate 10 .advance ++ [.call (.hold (.context 1)), .finish (some (.invalidArgument "late"))] ++
    List.replicate 4 .advance

theorem completes_stretch_rising : ∃ w : World, w.Reachable { matched := true, bounded := false } ∧
    w.lineage 2 = [2, 1, 0] ∧ w.stretch 2 = [2, 1] ∧ w.limit? 2 = some 0 ∧
    let v := machine.run (w.call (.success 2 (some 5))) risingMoves
    v.stack = [] ∧ v.completions = [2, 1] ∧ ∃ x, v.contexts[0]? = some x ∧ x.slots.count = 1 := by
  have legal : (within { matched := true, bounded := false }).legal start rowMoves = true := by
    decide +kernel
  have reachable : (machine.run start rowMoves).Reachable { matched := true, bounded := false } :=
    ⟨_, _, legal, rfl⟩
  have idle : (machine.run start rowMoves).stack = [] := List.isEmpty_iff.1 (by decide +kernel)
  have stretch : (machine.run start rowMoves).stretch 2 = [2, 1] := by decide +kernel
  have limit : (machine.run start rowMoves).limit? 2 = some 0 := by decide +kernel
  have nothing : (machine.run start rowMoves).completions = [] := by decide +kernel
  have allowed : (within { matched := true, bounded := false }).allows (machine.run start rowMoves)
      (.call (.success 2 (some 5))) = true := by decide +kernel
  have rising : (machine.restrict (hushes (2 :: (machine.run start rowMoves).stretch 2))).legal
      ((machine.run start rowMoves).call (.success 2 (some 5))) risingMoves = true := by decide +kernel
  have returned : (machine.run ((machine.run start rowMoves).call (.success 2 (some 5))) risingMoves).stack =
      [] := List.isEmpty_iff.1 (by decide +kernel)
  obtain ⟨-, -, hend⟩ := completes_stretch reachable idle (.success (by decide +kernel)) allowed
    (by rw [stretch]; decide +kernel) rising
  obtain ⟨hcompletions, hsize, haltered⟩ := hend returned
  have two : ((machine.run start rowMoves).contexts[0]?).map (fun x => x.slots.count) = some 2 := by
    decide +kernel
  obtain ⟨x, hx, hcount⟩ := Option.map_eq_some_iff.1 two
  have hlt := lt_of_getElem?_eq_some hx
  rw [← hsize] at hlt
  refine ⟨_, reachable, by decide +kernel, stretch, limit, returned, ?_, _, Array.getElem?_eq_getElem hlt, ?_⟩
  · rw [hcompletions, nothing, stretch]
    rfl
  · rw [(haltered 0 x _ hx (Array.getElem?_eq_getElem hlt)).count, hcount, if_pos (.inr limit)]
    rfl

/-- The counter must not have overflowed. If it has, the slot cannot be given up, and nothing completes. -/
theorem overrun_breaks_stretch :
    ¬ ∀ (w : World) (c : ContextNo) (call : Call) (r? : Option Response) (moves : List Move),
      w.Reachable { matched := true, bounded := false } → w.stack = [] → w.Releases c call r? →
      (within { matched := true, bounded := false }).allows w (.call call) = true →
      (machine.restrict (hushes (c :: w.stretch c))).legal (w.call call) moves = true →
      (machine.run (w.call call) moves).stack = [] →
        ∀ d ∈ w.stretch c, (machine.run (w.call call) moves).isFired (.completion d) = true := by
  intro hclaim
  have stretch : (lone.joinedBy 0 ⟨.minValue⟩ (2 ^ 31 - 1)).stretch 0 = [0] := by decide +kernel
  have fired := hclaim (lone.joinedBy 0 ⟨.minValue⟩ (2 ^ 31 - 1)) 0 (.success 0 none) _
    (List.replicate 7 .advance) reachable_overrun (List.isEmpty_iff.1 (by decide +kernel))
    (.success (by decide +kernel)) (by decide +kernel) (by decide +kernel)
    (List.isEmpty_iff.1 (by decide +kernel)) 0 (stretch ▸ List.mem_singleton_self 0)
  exact absurd fired (by decide +kernel)

end FanIn.World
