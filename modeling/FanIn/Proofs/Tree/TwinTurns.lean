import FanIn.Proofs.Tree.Turns
import FanIn.Proofs.Tree.TwinCalls

/-!
# Turns of twins

What a client may do in the first of two twins it may do in the second, and there is something that it
does. The library comes to a client's turn in both worlds, though by different numbers of steps, and then
they are twins again.

Main statements: `Twin.allows`, `Twin.exists_move` and `Twin.turn`.
-/

namespace FanIn.World

open List Stack

variable {t : Terms} {ν : Ties} {old old' : Except Failure Reply} {w v w' v' : World} {m m' : Move}

/-! ## What clients may do -/

theorem Twin.clientsTurn (h : Twin ν old old' w v) (hw : w.isClientsTurn = true) :
    v.isClientsTurn = true := by
  have hst := h.stack
  unfold isClientsTurn at hw ⊢
  generalize w.stack = stack at hst hw
  generalize v.stack = stack' at hst
  cases hst with
  | nil => rfl
  | cons hg _ => exact hg.isClients.symm.trans hw
  | failed => cases hw

theorem Twin.areHeld (h : Twin ν old old' w v) {refs refs' : List Ref}
    (hrefs : Forall₂ (Ref.Twin ν.shared) refs refs') (hw : w.areHeld refs = true) :
    v.areHeld refs' = true := by
  refine List.all_eq_true.2 fun r' hr' => ?_
  obtain ⟨r, hr, htwin⟩ := exists_twin_of_mem_right hrefs hr'
  have hpos := List.all_eq_true.1 hw r hr
  rwa [h.holders htwin] at hpos

/-- A call for which it is enough to hold what it uses. -/
theorem allows_of_held {call : Call} (hturn : w.isClientsTurn = true)
    (hheld : w.areHeld call.uses = true) (hhold : ∀ r, call ≠ .hold r)
    (hleave : ∀ ch n, call ≠ .unsubscribe ch n) : w.allows (.call call) = true := by
  cases call with
  | hold r => exact absurd rfl (hhold r)
  | unsubscribe ch n => exact absurd rfl (hleave ch n)
  | _ => exact Bool.and_eq_true_iff.2 ⟨hturn, hheld⟩

theorem areHeld_of_allows {call : Call} (h : w.allows (.call call) = true) :
    w.areHeld call.uses = true :=
  List.all_eq_true.2 fun _ hr => decide_eq_true (held_of_call h hr)

/-- What is legal in the first world is so in the second. -/
theorem Twin.allowsCall (h : Twin ν old old' w v) {call call' : Call}
    (hcall : call.Twin ν.shared call') (hw : w.allows (.call call) = true) :
    v.allows (.call call') = true := by
  have hturn := h.clientsTurn (turn_of_call hw)
  have hheld {refs' : List Ref} (huses : Forall₂ (Ref.Twin ν.shared) call.uses refs') :
      v.areHeld refs' = true := h.areHeld huses (areHeld_of_allows hw)
  cases hcall with
  | plain hplain =>
    refine allows_of_held hturn (hheld (Call.uses_of_plain _ hplain)) ?_ ?_
    · rintro r rfl
      cases hplain
    · rintro ch n rfl
      cases hplain
  | createRoot spec hlink =>
    refine allows_of_held hturn (hheld ?_) nofun nofun
    cases hlink with
    | none => exact .nil
    | some hab => exact .cons (.signal hab) .nil
  | subscribe hch label hkeeps => exact allows_of_held hturn (hheld (.cons hch.owner hkeeps)) nofun nofun
  | unsubscribe hch n =>
    refine Bool.and_eq_true_iff.2 ⟨hturn, ?_⟩
    have hclients := clients_of_unsubscribe hw
    have ho := h.observer? hch n
    generalize w.observer? _ n = o at ho hclients
    generalize v.observer? _ n = o' at ho
    cases ho with
    | none => rfl
    | some ho => exact ho.isClients.symm.trans hclients
  | @unknown a b ha hb n =>
    refine Bool.and_eq_true_iff.2 ⟨hturn, ?_⟩
    rw [observer?_of_nobody (h.observers_eq_nil hb)]
    rfl
  | fireSignal hab r r' => exact allows_of_held hturn (hheld (.cons (.signal hab) .nil)) nofun nofun
  | wait hch => exact allows_of_held hturn (hheld (.cons hch.owner .nil)) nofun nofun
  | waiting => exact allows_of_held hturn rfl nofun nofun
  | resolved r r' => exact allows_of_held hturn rfl nofun nofun
  | hold hr => exact Bool.and_eq_true_iff.2 ⟨hturn, h.isLiveRef hr (live_of_hold hw)⟩
  | drop hr => exact allows_of_held hturn (hheld (.cons hr .nil)) nofun nofun

theorem Twin.handler? (h : Twin ν old old' w v) {n : Nat} {c : ContextNo} {e : Failure}
    {s : SignalNo} {rest : List Frame} (hs : w.stack = .handler n c e s :: rest) :
    ∃ s' rest', v.stack = .handler n c e s' :: rest' := by
  have hst := h.stack
  rw [hs] at hst
  generalize v.stack = stack' at hst
  cases hst with
  | cons hg _ =>
    cases hg with
    | handler n c e hab => exact ⟨_, _, rfl⟩

theorem allows_handled {n : Nat} {c : ContextNo} {e : Failure} {s : SignalNo} {rest : List Frame}
    (hs : w.stack = .handler n c e s :: rest) (a : Handled) :
    w.allows (.handled a) = w.areHeld a.uses := by
  unfold World.allows
  rw [hs]

theorem Twin.allows (h : Twin ν old old' w v) (hm : m.Twin ν.shared m') (hw : w.allows m = true) :
    v.allows m' = true := by
  have hhandled {a a' : Handled} (ha : w.allows (.handled a) = true)
      (huses : Forall₂ (Ref.Twin ν.shared) a.uses a'.uses) : v.allows (.handled a') = true := by
    obtain ⟨⟨n, c, e, s, rest, hs⟩, -⟩ := handler_of_handled ha
    obtain ⟨s', rest', hs'⟩ := h.handler? hs
    rw [allows_handled hs] at ha
    rw [allows_handled hs']
    exact h.areHeld huses ha
  cases hm with
  | call hcall => exact h.allowsCall hcall hw
  | finish thrown =>
    obtain ⟨ch, l, u, rest, hs⟩ := observer_of_finish hw
    have hst := h.stack
    unfold World.allows
    rw [hs] at hst
    generalize v.stack = stack' at hst
    cases hst with
    | cons hg _ =>
      cases hg with
      | observer => rfl
  | nothing => exact hhandled hw .nil
  | threw f => exact hhandled hw .nil
  | signal hab => exact hhandled hw (.cons (.signal hab) .nil)

/-! ## What a client's move corresponds to -/

theorem Twin.exists_ref (h : Twin ν old old' w v) {r : Ref} (hr : 0 < w.holders r) :
    ∃ r', r.Twin ν.shared r' := by
  cases r with
  | context c => exact ⟨_, .context c⟩
  | signal a =>
    obtain ⟨x, hx, -⟩ := holders_signal_pos.1 hr
    obtain ⟨b, hab⟩ := h.exists_name hx
    exact ⟨_, .signal hab⟩

theorem Twin.exists_refs (h : Twin ν old old' w v) {refs : List Ref}
    (hrefs : ∀ r ∈ refs, 0 < w.holders r) : ∃ refs', Forall₂ (Ref.Twin ν.shared) refs refs' := by
  induction refs with
  | nil => exact ⟨[], .nil⟩
  | cons r refs ih =>
    obtain ⟨r', hr⟩ := h.exists_ref (hrefs r mem_cons_self)
    obtain ⟨refs', hrest⟩ := ih fun r hr => hrefs r (mem_cons_of_mem _ hr)
    exact ⟨r' :: refs', .cons hr hrest⟩

theorem exists_channelRef {σ : List SignalNo} {ch : ChannelRef} {r : Ref} (h : ch.owner.Twin σ r) :
    ∃ ch', ch.Twin σ ch' := by
  cases ch with
  | before c => exact ⟨_, .before c⟩
  | response c => exact ⟨_, .response c⟩
  | completion c => exact ⟨_, .completion c⟩
  | signal s =>
    cases h with
    | signal hab => exact ⟨_, .signal hab⟩

/-- Whatever a client calls in the first world, it can call in the second. -/
theorem Twin.exists_call (h : Twin ν old old' w v) {call : Call} (hw : w.allows (.call call) = true) :
    ∃ call', call.Twin ν.shared call' := by
  have hheld : ∀ r ∈ call.uses, 0 < w.holders r := fun r hr => held_of_call hw hr
  cases call with
  | createRoot spec =>
    obtain ⟨link', hlink⟩ : ∃ link', Option.Rel (fun a b => ν.shared[a]? = some b) spec.link link' := by
      cases hlink : spec.link with
      | none => exact ⟨none, .none⟩
      | some a =>
        obtain ⟨r', hr⟩ := h.exists_ref (hheld (.signal a) (by
          show Ref.signal a ∈ spec.link.toList.map Ref.signal
          rw [hlink]
          exact mem_cons_self))
        cases hr with
        | signal hab => exact ⟨_, .some hab⟩
    exact ⟨.createRoot { spec with link := link' }, .createRoot spec hlink⟩
  | subscribe ch label keeps =>
    obtain ⟨r', hr⟩ := h.exists_ref (hheld ch.owner mem_cons_self)
    obtain ⟨ch', hch⟩ := exists_channelRef hr
    obtain ⟨keeps', hkeeps⟩ := h.exists_refs fun r hr => hheld r (mem_cons_of_mem _ hr)
    exact ⟨_, .subscribe hch label hkeeps⟩
  | unsubscribe ch n =>
    cases ch with
    | before c => exact ⟨_, .unsubscribe (.before c) n⟩
    | response c => exact ⟨_, .unsubscribe (.response c) n⟩
    | completion c => exact ⟨_, .unsubscribe (.completion c) n⟩
    | signal a =>
      cases hab : ν.shared[a]? with
      | some b => exact ⟨_, .unsubscribe (.signal hab) n⟩
      | none =>
        refine ⟨_, .unknown (b := v.signals.size) hab (fun hmem => ?_) n⟩
        exact (h.bound _ (mem_append_left _ hmem)).false
  | fireSignal a r =>
    obtain ⟨r', hr⟩ := h.exists_ref (hheld (.signal a) mem_cons_self)
    cases hr with
    | signal hab => exact ⟨_, .fireSignal hab r r⟩
  | wait ch =>
    obtain ⟨r', hr⟩ := h.exists_ref (hheld ch.owner mem_cons_self)
    obtain ⟨ch', hch⟩ := exists_channelRef hr
    exact ⟨_, .wait hch⟩
  | makeSignal r =>
    cases r with
    | none => exact ⟨_, .waiting⟩
    | some r => exact ⟨_, .resolved r r⟩
  | hold r =>
    have hlive := live_of_hold hw
    cases r with
    | context c => exact ⟨_, .hold (.context c)⟩
    | signal a =>
      obtain ⟨x, hx, -⟩ := exists_of_isLiveSignal hlive
      obtain ⟨b, hab⟩ := h.exists_name hx
      exact ⟨_, .hold (.signal hab)⟩
  | drop r =>
    obtain ⟨r', hr⟩ := h.exists_ref (hheld r mem_cons_self)
    exact ⟨_, .drop hr⟩
  | _ => exact ⟨_, .plain rfl⟩

/-- Whatever a client does on its turn in the first world, it can do in the second. -/
theorem Twin.exists_move (h : Twin ν old old' w v) (hw : w.allows m = true) (hm : m ≠ .advance) :
    ∃ m', m.Twin ν.shared m' := by
  cases m with
  | advance => exact absurd rfl hm
  | call call =>
    obtain ⟨call', hcall⟩ := h.exists_call hw
    exact ⟨_, .call hcall⟩
  | finish thrown => exact ⟨_, .finish thrown⟩
  | handled a =>
    cases a with
    | nothing => exact ⟨_, .nothing⟩
    | threw f => exact ⟨_, .threw f⟩
    | signal a =>
      obtain ⟨r', hr⟩ := h.exists_ref ((handler_of_handled hw).2 (.signal a) mem_cons_self)
      cases hr with
      | signal hab => exact ⟨_, .signal hab⟩

/-! ## Turns -/

theorem Reachable.iterate (h : w.Reachable t) (n : Nat) : (advance^[n] w).Reachable t := by
  induction n with
  | zero => exact h
  | succ n ih =>
    rw [Function.iterate_succ_apply']
    by_cases hturn : (advance^[n] w).isClientsTurn = true
    · rwa [advance_eq_self hturn]
    · refine ih.move (m := .advance) (Bool.and_eq_true_iff.2 ⟨?_, rfl⟩)
      show (!(advance^[n] w).isClientsTurn) = true
      rw [Bool.eq_false_iff.2 hturn]
      rfl

/-- As far as the first world goes, or a step further, the second goes with it. -/
theorem Twin.iterate (h : Twin ν old old' w v) (hr : w.Reachable t) (k : Nat) :
    ∃ i n, k ≤ i ∧ Twin ν old old' (World.advance^[i] w) (World.advance^[n] v) := by
  induction k with
  | zero => exact ⟨0, 0, le_rfl, h⟩
  | succ k ih =>
    obtain ⟨i, n, hki, htwin⟩ := ih
    obtain ⟨d, e, hd, hnext⟩ := htwin.advance (hr.iterate i).kept
    refine ⟨d + i, e + n, by omega, ?_⟩
    rwa [Function.iterate_add_apply, Function.iterate_add_apply]

/-- When it is a client's turn in the first world, it comes to be one in the second. -/
theorem Twin.reach (h : Twin ν old old' w v) (hr : w.Reachable t) {k : Nat}
    (hturn : (World.advance^[k] w).isClientsTurn = true) :
    ∃ n, (World.advance^[n] v).isClientsTurn = true ∧
      Twin ν old old' (World.advance^[k] w) (World.advance^[n] v) := by
  obtain ⟨i, n, hki, htwin⟩ := h.iterate hr k
  rw [iterate_le hturn hki] at htwin
  exact ⟨n, htwin.clientsTurn hturn, htwin⟩

theorem Twin.rebase (h : Twin ν old old' w v) (reply : Except Failure Reply) :
    Twin ν w.reply reply w { v with reply := reply } := { h with reply := .unchanged }

theorem Turn.reachable (h : w.Turn m w') (hr : w.Reachable t) (hkeeps : w.keepsTo t m = true) :
    w'.Reachable t := by
  obtain ⟨-, hm, -, n, rfl⟩ := h
  exact (hr.move (Bool.and_eq_true_iff.2 ⟨hm, hkeeps⟩)).iterate n

/-- The numbers that the signals of a turn have in the second world. -/
def named (σ : List SignalNo) (w v w' : World) : List SignalNo :=
  σ ++ List.range' v.signals.size (w'.signals.size - w.signals.size)

/-- The same is done in both worlds. -/
theorem Twin.turn (h : Twin ν old old' w v) (hr : w.Reachable t) (hkeeps : w.keepsTo t m = true)
    (hm : m.Twin ν.shared m') (hturn : w.Turn m w') :
    ∃ v' μ, v.Turn m' v' ∧ μ.shared = named ν.shared w v w' ∧ Twin μ w.reply v.reply w' v' := by
  obtain ⟨hw, hallows, hw', k, rfl⟩ := hturn
  have hmoved := hr.move (Bool.and_eq_true_iff.2 ⟨hallows, hkeeps⟩)
  have hreach {μ : Ties} (hfollow : Twin μ w.reply v.reply (w.move m) (v.move m')) :
      ∃ v', v.Turn m' v' ∧ Twin μ w.reply v.reply (World.advance^[k] (w.move m)) v' := by
    obtain ⟨n, hv', htwin⟩ := hfollow.reach hmoved hw'
    exact ⟨_, ⟨h.clientsTurn hw, h.allows hm hallows, hv', n, rfl⟩, htwin⟩
  rcases (h.rebase v.reply).move hm with hfollow | hfollow
  · obtain ⟨v', hv, htwin⟩ := hreach hfollow
    refine ⟨v', ν, hv, ?_, htwin⟩
    have hsize : (World.advance^[k] (w.move m)).signals.size = w.signals.size :=
      htwin.known.symm.trans h.known
    unfold named
    rw [hsize, Nat.sub_self]
    exact (List.append_nil _).symm
  · obtain ⟨v', hv, htwin⟩ := hreach hfollow
    refine ⟨v', ν.meet v.signals.size, hv, ?_, htwin⟩
    have hsize : (World.advance^[k] (w.move m)).signals.size = w.signals.size + 1 := by
      rw [← htwin.known, ← h.known]
      exact length_append
    unfold named
    rw [hsize, Nat.add_sub_cancel_left]
    rfl

end FanIn.World
