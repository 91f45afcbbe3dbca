import FanIn.Proofs.Tree.Footing
import FanIn.Proofs.Tree.Overflow
import FanIn.Proofs.Tree.Shares

/-!
# Books that do not go by the channels

A client that fires a channel of a context itself makes the context say what is not so: that its outcome
is published, or that it is complete. The books of such a world are not sound. What they say of slots does
not depend on that, so besides them other books can be kept, in which a context is complete when the
library has told its completion. The two differ in nothing but what they say of the channels of contexts,
and the other ones are sound.

So all that holds of the slots of contexts where clients leave the channels of contexts alone holds where
they do not, too: `World.Reckoned` is what is kept, whatever clients fire, as long as nobody leaves a
context who has not joined it and no counter is asked to count more than it can.

Main statements: `Deals.follow` and `Reckoned.move`.
-/

namespace FanIn

/-- The terms of clients that leave no context which they have not joined, and join none that cannot count
them. -/
def Terms.both : Terms := { matched := true, bounded := true }

/-- An account without what the channels of its context say. -/
def Account.bare (a : Account) : Account :=
  { a with before := none, response := none, isComplete := false }

theorem Account.slots_of_bare {a b : Account} (h : b.bare = a.bare) : b.slots = a.slots := by
  show b.bare.slots = a.bare.slots
  rw [h]

theorem Account.state_of_bare {a b : Account} (h : b.bare = a.bare) : b.state = a.state := by
  show b.bare.state = a.bare.state
  rw [h]

theorem Account.parent_of_bare {a b : Account} (h : b.bare = a.bare) : b.parent = a.parent := by
  show b.bare.parent = a.bare.parent
  rw [h]

theorem Account.link_of_bare {a b : Account} (h : b.bare = a.bare) : b.link = a.link := by
  show b.bare.link = a.bare.link
  rw [h]

namespace Ledger

variable {t : Terms} {verdict : Option (ContextNo × Response)} {L M M' : Ledger}

/-- The books without what the channels of contexts say. -/
def bare (L : Ledger) : Ledger := { L with accounts := L.accounts.map Account.bare }

/-- The contexts that are complete by the books. -/
def told (L : Ledger) (c : ContextNo) : Bool := (L.accounts[c]?).any Account.isComplete

/-! ## What is left of changes -/

@[simp] theorem bare_owe (L : Ledger) (d : Due) : (L.owe d).bare = L.bare.owe d := rfl

@[simp] theorem bare_requeue (L : Ledger) (q : List ContextNo) : (L.requeue q).bare = L.bare.requeue q := rfl

@[simp] theorem bare_enqueue (L : Ledger) (c : ContextNo) : (L.enqueue c).bare = L.bare.enqueue c := rfl

@[simp] theorem bare_attend (L : Ledger) (c : ContextNo) (n : Int) :
    (L.attend c n).bare = L.bare.attend c n := rfl

@[simp] theorem bare_resolve (L : Ledger) (s : SignalNo) : (L.resolve s).bare = L.bare.resolve s := rfl

@[simp] theorem bare_enter (L : Ledger) (a : Account) : (L.enter a).bare = L.bare.enter a.bare := by
  simp [bare, enter]

@[simp] theorem bare_entrust (L : Ledger) (s : SignalNo) (d : Due) :
    (L.entrust s d).bare = L.bare.entrust s d := by
  unfold entrust
  split
  · rename_i hfired
    exact (if_pos hfired).symm
  · rename_i hopen
    exact (if_neg hopen).symm

theorem bare_change {c : ContextNo} {f g : Account → Account} (h : ∀ a, (f a).bare = g a.bare) :
    (L.change c f).bare = L.bare.change c g := by
  refine Ledger.ext ?_ rfl rfl rfl rfl
  apply List.ext_getElem?
  intro d
  show ((L.accounts.modify c f).map Account.bare)[d]? = ((L.accounts.map Account.bare).modify c g)[d]?
  rw [List.getElem?_map, List.getElem?_modify, List.getElem?_modify, List.getElem?_map]
  by_cases hcd : c = d
  · cases L.accounts[d]? with
    | none => simp [hcd]
    | some a => simp [hcd, h a]
  · simp [hcd]

/-- What an account says of channels is left out. -/
theorem bare_change_same {c : ContextNo} {f : Account → Account} (h : ∀ a, (f a).bare = a.bare) :
    (L.change c f).bare = L.bare := by
  rw [bare_change (g := id) h]
  refine Ledger.ext ?_ rfl rfl rfl rfl
  exact List.modify_id c _

@[simp] theorem bare_recount (L : Ledger) (c : ContextNo) (slots : Counter) :
    (L.recount c slots).bare = L.bare.recount c slots := bare_change fun _ => rfl

@[simp] theorem bare_release (L : Ledger) (c : ContextNo) (share : Share) (slots : Counter) (last : Bool) :
    (L.release c share slots last).bare = L.bare.release c share slots last := by
  have hmid : (if share = .participant then (L.recount c slots).attend c (-1)
      else L.recount c slots).bare = if share = .participant then (L.bare.recount c slots).attend c (-1)
        else L.bare.recount c slots := by split <;> simp
  unfold release
  cases last with
  | false => exact hmid
  | true => exact (bare_enqueue _ c).trans (congrArg (fun N => N.enqueue c) hmid)

@[simp] theorem bare_complete (L : Ledger) (c : ContextNo) (q : List ContextNo) (p : Option ContextNo) :
    (L.complete c q p).bare =
      p.elim (L.bare.requeue q) fun p => (L.bare.requeue q).owe (.slot p (.child c)) := by
  have hmid : ((L.change c fun a => { a with isComplete := true }).requeue q).bare = L.bare.requeue q := by
    rw [bare_requeue, bare_change_same]
    exact fun _ => rfl
  cases p with
  | none => exact hmid
  | some p =>
    show (Ledger.owe _ _).bare = _
    rw [bare_owe, hmid]
    rfl

/-! ## Who is complete -/

theorem told_of_getElem? {c : ContextNo} {a : Account} (h : L.accounts[c]? = some a) :
    L.told c = a.isComplete := by
  unfold told
  rw [h]
  rfl

theorem told_congr (h : M.accounts = L.accounts) : M.told = L.told := by
  unfold told
  rw [h]

theorem told_enter {a : Account} (ha : a.isComplete = false) : (L.enter a).told = L.told := by
  funext c
  unfold told
  rw [accounts_enter]
  split
  · rename_i hc
    rw [List.getElem?_eq_none (Nat.le_of_eq hc.symm)]
    exact ha
  · rfl

theorem told_change {c : ContextNo} {f : Account → Account} (hf : ∀ a, (f a).isComplete = a.isComplete) :
    (L.change c f).told = L.told := by
  funext d
  unfold told
  rw [accounts_change]
  split
  · cases L.accounts[d]? with
    | none => rfl
    | some a => exact hf a
  · rfl

theorem told_recount (L : Ledger) (c : ContextNo) (slots : Counter) : (L.recount c slots).told = L.told :=
  told_change fun _ => rfl

theorem told_complete {c : ContextNo} {a : Account} (hc : L.accounts[c]? = some a) (q : List ContextNo)
    (p : Option ContextNo) : (L.complete c q p).told = Function.update L.told c true := by
  have hacc := accounts_complete L c q p
  funext d
  unfold told
  rw [hacc, accounts_change, Function.update_apply]
  by_cases hcd : c = d
  · subst hcd
    rw [if_pos rfl, if_pos rfl, hc]
    rfl
  · rw [if_neg hcd, if_neg (Ne.symm hcd)]

/-! ## Books that agree but for the channels -/

/-- The account of a context in books that agree with others. -/
theorem account_of_bare (h : L.bare = M.bare) {c : ContextNo} {a : Account} (ha : M.accounts[c]? = some a) :
    ∃ b, L.accounts[c]? = some b ∧ b.bare = a.bare := by
  have hacc : (L.accounts.map Account.bare)[c]? = (M.accounts.map Account.bare)[c]? :=
    congrArg (fun N : Ledger => N.accounts[c]?) h
  rw [List.getElem?_map, List.getElem?_map, ha] at hacc
  exact Option.map_eq_some_iff.1 hacc

theorem length_of_bare (h : L.bare = M.bare) : L.accounts.length = M.accounts.length := by
  have hlen : (L.accounts.map Account.bare).length = (M.accounts.map Account.bare).length :=
    congrArg (fun N : Ledger => N.accounts.length) h
  simpa using hlen

theorem pledges_of_bare (h : L.bare = M.bare) : L.pledges = M.pledges := by
  show L.bare.pledges = M.bare.pledges
  rw [h]

theorem work_of_bare (h : L.bare = M.bare) : L.work = M.work := by
  show L.bare.work = M.bare.work
  rw [h]

theorem queue_of_bare (h : L.bare = M.bare) : L.queue = M.queue := by
  show L.bare.queue = M.bare.queue
  rw [h]

theorem guests_of_bare (h : L.bare = M.bare) : L.guests = M.guests := by
  show L.bare.guests = M.bare.guests
  rw [h]

theorem dues_of_bare (h : L.bare = M.bare) : L.dues = M.dues := by
  show L.bare.dues = M.bare.dues
  rw [h]

/-- What is due by books is due by those that agree with them. -/
theorem owe_of_bare {d : Due} (h : L.bare = (M.owe d).bare) : ∃ K : Ledger, L = K.owe d ∧ K.bare = M.bare := by
  have hwork : L.work = d ::ₘ M.work := work_of_bare h
  refine ⟨{ L with work := M.work }, ?_, ?_⟩
  · exact Ledger.ext rfl rfl hwork rfl rfl
  · have hacc : L.bare.accounts = (M.owe d).bare.accounts := congrArg Ledger.accounts h
    have hpledges : L.pledges = M.pledges := pledges_of_bare (M := M.owe d) h
    have hqueue : L.queue = M.queue := queue_of_bare (M := M.owe d) h
    have hguests : L.guests = M.guests := guests_of_bare (M := M.owe d) h
    exact Ledger.ext hacc hpledges rfl hqueue hguests

/-- Books can be brought in line with others that have changed, and no context becomes complete. -/
def Follows (t : Terms) (verdict : Option (ContextNo × Response)) (L M : Ledger) : Prop :=
  ∃ L', Steps t verdict L L' ∧ L'.bare = M.bare ∧ L'.told = L.told

theorem Follows.of_step {L' : Ledger} (h : Step t verdict L L') (hb : L'.bare = M.bare)
    (ht : L'.told = L.told) : Follows t verdict L M := ⟨L', .single h, hb, ht⟩

theorem Follows.refl (h : L.bare = M.bare) : Follows t verdict L M := ⟨L, .refl, h, rfl⟩

/-- Nothing that can happen to books, but that a context is completed, goes by what they say of the
channels. -/
theorem Deal.follow (h : Deal t verdict M M') (hb : L.bare = M.bare) : Follows t verdict L M' := by
  have hqueue := h.queue
  cases h.step with
  | root => exact .of_step (.root L) (by simp [hb]) (told_enter rfl)
  | @linked _ s hlt =>
    have hlt' : s < L.pledges.length := pledges_of_bare hb ▸ hlt
    refine .of_step (.linked hlt') ?_ ?_
    · rw [bare_entrust, bare_entrust, bare_enter, bare_enter, hb, length_of_bare hb]
    · exact (told_congr (accounts_entrust _ _ _)).trans (told_enter rfl)
  | @child _ p a slots hp hadd hroom =>
    obtain ⟨b, hp', hab⟩ := account_of_bare hb hp
    have hslots := Account.slots_of_bare hab
    refine .of_step (.child hp' (hslots ▸ hadd) (hslots ▸ hroom)) (by simp [hb]) ?_
    exact (told_enter rfl).trans (told_recount _ _ _)
  | @rejected _ p d a slots hp hadd hroom =>
    obtain ⟨b, hp', hab⟩ := account_of_bare hb hp
    have hslots := Account.slots_of_bare hab
    exact .of_step (.rejected (d := d) hp' (hslots ▸ hadd) (hslots ▸ hroom)) (by simp [hb])
      (told_recount _ _ _)
  | @join _ c a slots hc hadd hroom =>
    obtain ⟨b, hc', hab⟩ := account_of_bare hb hc
    have hslots := Account.slots_of_bare hab
    exact .of_step (.join hc' (hslots ▸ hadd) (hslots ▸ hroom)) (by simp [hb]) (told_recount _ _ _)
  | @leave _ c a hc hlt =>
    obtain ⟨b, hc', -⟩ := account_of_bare hb hc
    refine .of_step (.leave hc' fun hm => ?_) (by simp [hb]) rfl
    unfold leaving
    rw [dues_of_bare hb, guests_of_bare hb]
    exact hlt hm
  | @decide _ c a r hc ha hv =>
    obtain ⟨b, hc', hab⟩ := account_of_bare hb hc
    have hstate := Account.state_of_bare hab
    refine .of_step (.decide hc' (hstate.trans ha) hv) ?_ (told_change fun _ => rfl)
    have hf : ∀ N : Ledger, (N.change c fun a => { a with state := r.state }).bare =
        N.bare.change c fun a => { a with state := r.state } := fun _ => bare_change fun _ => rfl
    rw [bare_owe, bare_owe, hf, hf, hb]
  | signal =>
    rename_i fired
    refine .of_step (.signal L fired) ?_ rfl
    show Ledger.bare _ = { M.bare with pledges := M.pledges ++ [{ isFired := fired }] }
    rw [← hb, ← pledges_of_bare hb]
    rfl
  | @settle M s c r hlt =>
    obtain ⟨K, rfl, hK⟩ := owe_of_bare hb
    refine .of_step (.settle (pledges_of_bare hK ▸ hlt)) (by simp [hK]) ?_
    exact told_congr (accounts_entrust _ _ _)
  | @resolve _ s p hs hp => exact .of_step (.resolve (pledges_of_bare hb ▸ hs) hp) (by simp [hb]) rfl
  | @before _ c r hmem =>
    have hsame : ∀ N : Ledger, (N.change c fun a => { a with before := a.before.or (some r) }).bare = N.bare :=
      fun _ => bare_change_same fun _ => rfl
    refine .of_step (.before (work_of_bare hb ▸ hmem)) ?_ (told_change fun _ => rfl)
    rw [hsame, hsame, hb]
  | @answer M c r =>
    obtain ⟨K, rfl, hK⟩ := owe_of_bare hb
    have hsame : ∀ N : Ledger,
        (N.change c fun a => { a with response := a.response.or (some r) }).bare = N.bare :=
      fun _ => bare_change_same fun _ => rfl
    refine .of_step .answer ?_ (told_change fun _ => rfl)
    rw [bare_owe, bare_owe, hsame, hsame, hK]
  | @release M c share a last slots hc hr =>
    obtain ⟨K, rfl, hK⟩ := owe_of_bare hb
    obtain ⟨b, hc', hab⟩ := account_of_bare hK hc
    have hslots := Account.slots_of_bare hab
    refine .of_step (.release (L := K) hc' (hslots ▸ hr)) (by simp [hK]) ?_
    exact (told_congr (accounts_release _ _ _ _ _)).trans (told_recount K c slots)
  | @refuse M c share a hc hr =>
    obtain ⟨K, rfl, hK⟩ := owe_of_bare hb
    obtain ⟨b, hc', hab⟩ := account_of_bare hK hc
    have hslots := Account.slots_of_bare hab
    exact .of_step (.refuse hc' (hslots ▸ hr)) hK rfl
  | @complete _ c queue a hq hc =>
    -- the queue has become shorter
    rw [queue_complete, hq] at hqueue
    exact absurd hqueue.length_le (Nat.not_le.2 (Nat.lt_succ_self _))
  | abandon =>
    have hnil : M.queue = [] := List.prefix_nil.1 hqueue
    refine .refl (hb.trans ?_)
    exact Ledger.ext rfl rfl rfl hnil rfl

theorem Deals.follow (h : Deals t verdict M M') (hb : L.bare = M.bare) : Follows t verdict L M' := by
  induction h with
  | refl => exact .refl hb
  | tail _ hdeal ih =>
    obtain ⟨L', hsteps, hb', ht⟩ := ih
    obtain ⟨L'', hsteps', hb'', ht'⟩ := hdeal.follow hb'
    exact ⟨L'', hsteps.trans hsteps', hb'', ht'.trans ht⟩

theorem Steps.linksOnce (h : Steps t verdict L M) (hs : L.Sane) (hl : L.LinksOnce) :
    M.Sane ∧ M.LinksOnce := by
  induction h with
  | refl => exact ⟨hs, hl⟩
  | tail _ hstep ih => exact ⟨hstep.sane ih.1, hstep.linksOnce ih.1 ih.2⟩

end Ledger

namespace World

open Ledger Stack

variable {L : Ledger} {w : World} {told : ContextNo → Bool}

/-! ## What clients may do -/

/-- Whether a move keeps the balance of participants: nobody leaves a context who has not joined it, and
nobody joins whom its counter cannot count. Clients may fire whatever channels they like. -/
def paces (w : World) : Move → Bool
  | .call (.childCompleted c) => w.leaves c < w.joins c
  | .call (.addChild c) => w.hasRoom c
  | .call (.createChild c location _ _) => location.isNone || w.hasRoom c
  | _ => true

/-- A world whose clients keep the balance of participants, as a machine. -/
def paced : Machine World Move := machine.restrict paces

/-- A client keeps the balance, and fires a channel of a context or keeps to all terms. -/
theorem keepsTo_of_paces {call : Call} (h : w.paces (.call call) = true) :
    (∃ c r, call = .fireBefore c r ∨ call = .fireResponse c r ∨ call = .fireCompletion c) ∨
      w.keepsTo .both (.call call) = true := by
  cases call with
  | fireBefore c r => exact .inl ⟨c, r, .inl rfl⟩
  | fireResponse c r => exact .inl ⟨c, r, .inr (.inl rfl)⟩
  | fireCompletion c => exact .inl ⟨c, {}, .inr (.inr rfl)⟩
  | _ => exact .inr h

/-! ## Firing a channel of a context -/

theorem ledger_fireCompletion (h : w.Tidy told) (c : ContextNo) :
    (w.fireCompletion c).ledger = w.ledger.change c fun a => { a with isComplete := true } := by
  rcases w.fireCompletion_cases c with ⟨hnot, heq⟩ | ⟨x, hx, _, heq⟩
  · rw [heq]
    refine (change_eq_self ?_).symm
    intro x hx
    obtain ⟨v, hv⟩ := Option.ne_none_iff_exists'.1 ((waits_completion hx).not.1 hnot)
    simp [Context.account, Context.isComplete, Channel.isFired, hv]
  · rw [heq, ledger_deliver, dues_clients fun e he => (h.contexts c x hx).clients e
      (List.mem_append_right _ he), zero_add]
    exact ledger_modifyContext fun _ _ => rfl

/-- Who fires a channel of a context says something of the channel, and nothing else. -/
theorem bare_fires (h : w.Tidy told) {call : Call} {c : ContextNo} {r : Response}
    (hcall : call = .fireBefore c r ∨ call = .fireResponse c r ∨ call = .fireCompletion c) :
    (w.call call).ledger.bare = w.ledger.bare := by
  have hpush : (w.push [.returning (.flag true) []]).Tidy told := h.pushPlain rfl trivial
  have hled : (w.push [.returning (.flag true) []]).ledger = w.ledger := ledger_returning _ _
  rcases hcall with rfl | rfl | rfl <;> simp only [World.call, World.firing] <;> split
  · rfl
  · rw [ledger_fireBefore hpush, hled]
    exact bare_change_same fun _ => rfl
  · rfl
  · rw [ledger_fireResponse hpush, hled]
    exact bare_change_same fun _ => rfl
  · rfl
  · rw [ledger_fireCompletion hpush, hled]
    exact bare_change_same fun _ => rfl

/-- The completion of a context is told by the library, perhaps after a client has fired it. -/
theorem bare_completeNext (h : w.Tidy told) {c : ContextNo} {q : List ContextNo} {x : Context}
    (hq : w.queue = some (c :: q)) (hx : w.contexts[c]? = some x) (htold : told c = false) :
    w.completeNext.ledger.bare = (w.ledger.complete c q x.parent).bare := by
  obtain ⟨-, hhold⟩ := h.hold_of_queued hq hx htold
  have hrequeue : World.ledger { w with queue := some q } = w.ledger.requeue q := rfl
  have hlog : (World.log { w with queue := some q } .debug (completionNote x)).ledger =
      w.ledger.requeue q := (ledger_log _ _).trans hrequeue
  have hpush : ∀ v : World, v.ledger.bare = (w.ledger.requeue q).bare →
      (v.push [.told c x.hold, .climb]).ledger.bare = (w.ledger.complete c q x.parent).bare := by
    intro v hv
    rw [bare_complete, hhold]
    cases x.parent with
    | none =>
      rw [ledger_push_idle (by simp [Frame.dues])]
      exact hv
    | some p =>
      rw [ledger_push_owe (d := .slot p (.child c)) (by simp [Frame.dues]), bare_owe, hv]
      rfl
  cases hcomp : x.isComplete with
  | true =>
    rw [completeNext_eq_of_complete hq hx hcomp]
    refine hpush _ ?_
    rw [ledger_modifyContext_same (f := fun x => { x with hold := none }) fun _ _ => rfl, hlog]
  | false =>
    rw [completeNext_eq hq hx hcomp, ledger_deliver, dues_clients fun e he =>
      (h.contexts c x hx).clients e (List.mem_append_right _ he), zero_add]
    refine hpush _ ?_
    rw [ledger_modifyContext (f := fun x => { x with hold := none, completion := .fired () })
      (g := fun a => { a with isComplete := true }) fun _ _ => rfl,
      bare_change_same (f := fun a => { a with isComplete := true }) fun _ => rfl, hlog]

/-! ## Creating children -/

/-- Creating a child destroys nothing. -/
theorem isLive_createChild {c : ContextNo} (hl : w.isLive c = true) (parent : ContextNo)
    (location : Option Location) (handler : Option Nat) (correlation : Option String) :
    (w.createChild parent location handler correlation).isLive c = true := by
  rw [World.createChild_eq]
  split
  · exact hl
  · exact hl
  · dsimp only
    split
    · exact (isLiveRef_log w _ _ (.context c)).trans hl
    · rename_i v hv
      have hlive : v.isLive c = true := (isLive_takeSlot hv c).trans hl
      split
      · exact hlive
      · rename_i g _
        exact isLiveRef_enter (w := (v.nextDescendant _).2) (r := .context c) rfl g (.inr hlive)

/-! ## What is kept -/

/-- Books are kept besides those of a world: they differ from them in what the channels of contexts say,
and they are sound. -/
structure Reckoned (L : Ledger) (w : World) : Prop where
  books : L.bare = w.ledger.bare
  sound : L.Sound .both
  pledged : L.Pledged
  links : L.LinksOnce
  own : ∀ c, L.ownKept c ≤ 1
  tidy : w.Tidy L.told
  footed : Footed true w.stack
  climbs : w.Climbs
  /-- A slot is given up of a context that exists. -/
  poised : ∀ c share rest, w.stack = .giveUp c share :: rest → w.isLive c = true
  /-- What is being told is told by the books. -/
  announced : ∀ c p, .told c p ∈ w.stack → L.told c = true

namespace Reckoned

theorem account (h : Reckoned L w) {c : ContextNo} {x : Context} (hx : w.contexts[c]? = some x) :
    ∃ a, L.accounts[c]? = some a ∧ a.bare = x.account.bare :=
  account_of_bare h.books (account_of hx)

theorem length (h : Reckoned L w) : L.accounts.length = w.contexts.size :=
  (length_of_bare h.books).trans length_ledger

theorem queue (h : Reckoned L w) : L.queue = w.queue.getD [] := queue_of_bare h.books

/-- The first context of the queue has not been told. -/
theorem head_untold (h : Reckoned L w) {c : ContextNo} {q : List ContextNo} (hq : w.queue = some (c :: q)) :
    L.told c = false := by
  have hmem : c ∈ L.queue := by
    rw [h.queue, hq]
    exact List.mem_cons_self
  obtain ⟨a, ha, -, hopen⟩ := h.sound.sane.queued c hmem
  exact (told_of_getElem? ha).trans hopen

/-- What is due is due to a context that there is. -/
theorem exists_of_due (h : Reckoned L w) {d : Due} {f : Frame} (hf : f ∈ w.stack) (hd : d ∈ f.dues) :
    ∃ x, w.contexts[d.owner]? = some x := by
  have hdue : d ∈ w.ledger.dues := Multiset.mem_add.2 (.inr (mem_sum_map.2 ⟨f, hf, hd⟩))
  rw [← dues_of_bare h.books] at hdue
  have hlt := h.sound.sane.owners d hdue
  rw [h.length] at hlt
  exact ⟨_, Array.getElem?_eq_getElem hlt⟩

/-- A slot that is due can be given up. -/
theorem release_ne_none (h : Reckoned L w) {f : Frame} {rest : List Frame} (hs : w.stack = f :: rest)
    {c : ContextNo} {share : Share} (hf : f.dues = {.slot c share}) :
    ((w.contexts[c]?).bind fun x => x.slots.release) ≠ none := by
  obtain ⟨x, hx⟩ := h.exists_of_due (d := .slot c share) (hs ▸ List.mem_cons_self)
    (hf ▸ Multiset.mem_singleton_self _)
  have hx : w.contexts[c]? = some x := hx
  have hbooks := h.books
  rw [ledger_pop_owe hs hf] at hbooks
  obtain ⟨K, rfl, -⟩ := owe_of_bare hbooks
  obtain ⟨a, ha, hab⟩ := h.account hx
  have hslots := Account.slots_of_bare hab
  have hopen := (h.sound.unstuck rfl).release_ne_none (h.sound.balanced rfl) (c := c) ha
  rw [hx]
  show x.slots.release ≠ none
  rwa [hslots] at hopen

/-- No slot fails to be given up. -/
theorem sure (h : Reckoned L w) : w.fails = false := by
  refine Bool.eq_false_iff.2 fun hfails => ?_
  rcases of_fails hfails with ⟨c, share, rest, hs, hnone⟩ | ⟨c, p, rest, hs, hnone⟩
  · exact h.release_ne_none hs rfl hnone
  · exact h.release_ne_none hs rfl hnone

/-- What a frame is about to be done with exists. -/
theorem subjects_live (h : Reckoned L w) {f : Frame} {rest : List Frame} (hs : w.stack = f :: rest) {r : Ref}
    (hr : r ∈ f.subjects) : w.isLiveRef r = true := by
  have hfooted := h.footed
  rw [hs] at hfooted
  have hkept : Keeps rest r → w.isLiveRef r = true := fun hk => by
    apply h.tidy.keeps_live
    rw [hs]
    exact hk.cons f
  cases f with
  | respond c v =>
    obtain rfl := List.mem_singleton.1 hr
    exact hkept (hfooted.leans (f := .respond c v) rfl)
  | answer c v =>
    obtain rfl := List.mem_singleton.1 hr
    exact hkept (hfooted.leans (f := .answer c v) rfl)
  | giveUp c share =>
    obtain rfl := List.mem_singleton.1 hr
    exact h.poised c share rest hs
  | conclude c e failed result =>
    have hleans : Keeps rest (.signal result) ∧ Keeps rest (.context c) :=
      hfooted.leans (f := .conclude c e failed result) rfl
    simp only [Frame.subjects, List.mem_cons, List.not_mem_nil, or_false] at hr
    rcases hr with rfl | rfl
    · exact hkept hleans.1
    · exact hkept hleans.2
  | _ => cases hr

/-- On the client's turn no participant is about to leave. -/
theorem leaving (h : Reckoned L w) (hc : Clients w.stack) (c : ContextNo) : w.ledger.leaving c = 0 := by
  refine leaving_eq_zero (fun d share hmem => ?_) c
  obtain ⟨above, below, hs⟩ := List.append_of_mem hmem
  have hleaned := h.footed.of_clients hc
  rw [hs] at hleaned
  exact hleaned.of_append.1.1

/-! ## Moves -/

/-- What the frame that climbs does to the books. -/
theorem climb (h : Reckoned L w) {rest : List Frame} (hs : w.stack = .climb :: rest) :
    ∃ L', Steps .both none L L' ∧ L'.bare = w.advance.ledger.bare ∧ L'.told = w.tellNext L.told := by
  have hadvance : w.advance = World.completeNext { w with stack := rest } := by
    unfold World.advance
    rw [hs]
  have hbooks : L.bare = (World.ledger { w with stack := rest }).bare := by
    rw [h.books, ledger_pop_idle (f := .climb) hs rfl]
  have hcases : (w.queue = none ∨ w.queue = some []) ∨ ∃ c q, w.queue = some (c :: q) := by
    rcases w.queue with _ | _ | ⟨c, q⟩
    · exact .inl (.inl rfl)
    · exact .inl (.inr rfl)
    · exact .inr ⟨c, q, rfl⟩
  unfold tellNext
  rw [hadvance]
  rcases hcases with (hq | hq) | ⟨c, q, hq⟩
  · refine ⟨L, .refl, hbooks.trans ?_, by rw [hq]⟩
    unfold World.completeNext
    simp only [hq]
  · refine ⟨L, .refl, hbooks.trans ?_, by rw [hq]⟩
    unfold World.completeNext
    simp only [hq]
    exact Ledger.ext rfl rfl rfl (by simp [Ledger.bare, World.ledger]) rfl
  · have hqueue : L.queue = c :: q := by rw [h.queue, hq]; rfl
    have huntold := h.head_untold hq
    obtain ⟨b, hb, -⟩ := h.sound.sane.queued c (by rw [hqueue]; exact List.mem_cons_self)
    have hlt : c < w.contexts.size := h.length ▸ (List.getElem?_eq_some_iff.1 hb).1
    have hx : w.contexts[c]? = some w.contexts[c] := Array.getElem?_eq_getElem hlt
    obtain ⟨a, ha, hab⟩ := h.account hx
    refine ⟨L.complete c q a.parent, .single (.complete hqueue ha), ?_, ?_⟩
    · rw [bare_completeNext (w := { w with stack := rest }) (h.tidy.pop hs) hq hx huntold, bare_complete,
        bare_complete, hbooks, Account.parent_of_bare hab]
      rfl
    · rw [told_complete ha, hq]

/-- What a step of the library does to the books. -/
theorem advance (h : Reckoned L w) :
    ∃ L', Steps .both none L L' ∧ L'.bare = w.advance.ledger.bare ∧ L'.told = w.toldAfter L.told .advance := by
  by_cases hclimb : ∃ rest, w.stack = .climb :: rest
  · obtain ⟨rest, hs⟩ := hclimb
    have htold : w.toldAfter L.told .advance = w.tellNext L.told := by
      simp only [toldAfter, hs]
    rw [htold]
    exact h.climb hs
  · have htold : w.toldAfter L.told .advance = L.told := by
      simp only [toldAfter]
      split
      · rename_i rest hs
        exact absurd ⟨rest, hs⟩ hclimb
      · rfl
    have hdeals : Deals .both none w.ledger w.advance.ledger := by
      refine deals_advance h.tidy (fun rest hs => hclimb ⟨rest, hs⟩) ?_ ?_ ?_
      · intro c share rest hs
        exact h.exists_of_due (d := .slot c share) (hs ▸ List.mem_cons_self) (Multiset.mem_singleton_self _)
      · intro c p rest hs
        exact ⟨h.exists_of_due (d := .slot p (.child c)) (hs ▸ List.mem_cons_self)
          (Multiset.mem_singleton_self _), h.climbs.queue_of_told h.footed hs⟩
      · intro f rest hs
        have hfooted := h.footed
        rw [hs] at hfooted
        have hclients : Clients rest := hfooted.leans (f := .throwing f) rfl
        exact hclients.calm
    rw [htold]
    exact hdeals.follow h.books

/-- What a move does to the books. -/
theorem steps (h : Reckoned L w) {m : Move} (hm : paced.allows w m = true) :
    ∃ L', Steps .both m.verdict? L L' ∧ L'.bare = (w.move m).ledger.bare ∧
      L'.told = w.toldAfter L.told m := by
  obtain ⟨hallows, hpaces⟩ := Bool.and_eq_true_iff.1 hm
  cases m with
  | advance => exact h.advance
  | call call =>
    rcases keepsTo_of_paces hpaces with ⟨c, r, hcall⟩ | hkeeps
    · exact ⟨L, .refl, h.books.trans (bare_fires h.tidy hcall).symm, rfl⟩
    · have hturn := clients_of_turn (turn_of_call hallows)
      refine (deals_call (h.leaving hturn) call
        (fun r hr => h.tidy.held_live (held_of_call hallows hr)) ?_ hkeeps).follow h.books
      rintro ch n rfl
      exact clients_of_unsubscribe hallows
  | finish thrown =>
    refine ⟨L, .refl, h.books.trans ?_, rfl⟩
    show _ = (w.finish thrown).ledger.bare
    rw [ledger_finish]
  | handled a =>
    exact (deals_handled h.tidy fun r hr =>
      h.tidy.held_live ((handler_of_handled hallows).2 r hr)).follow h.books

/-- Whoever is to give up a slot next is about to do so of a context that exists. -/
theorem poised_move (h : Reckoned L w) {m : Move} (hm : w.allows m = true) (htidy : (w.move m).Tidy told)
    {c : ContextNo} {share : Share} {rest : List Frame} (hs : (w.move m).stack = .giveUp c share :: rest) :
    (w.move m).isLive c = true := by
  rcases braced_move h.footed hm (fun _ => h.sure) with
    (hleaned | ⟨_, _, hsure, _⟩) | ⟨call, d, share', f, rfl, hs', -, hcall⟩
  · rw [hs] at hleaned
    apply htidy.keeps_live (r := .context c)
    rw [hs]
    exact hleaned.1.2.cons _
  · cases hsure
  · obtain ⟨heq, -⟩ := List.cons.inj (hs.symm.trans hs')
    obtain ⟨rfl, rfl⟩ := Frame.giveUp.inj heq
    rcases hcall with rfl | ⟨l, n, k, rfl⟩
    · exact h.tidy.held_live (r := .context c) (held_of_call hm (by simp [Call.uses]))
    · refine isLive_createChild ?_ c l n k
      exact h.tidy.held_live (r := .context c) (held_of_call hm (by simp [Call.uses]))

/-- Whatever clients fire, a move keeps the books sound that are kept besides. -/
theorem move (h : Reckoned L w) {m : Move} (hm : paced.allows w m = true) :
    ∃ L', Reckoned L' (w.move m) ∧ Steps .both m.verdict? L L' ∧ L'.told = w.toldAfter L.told m := by
  obtain ⟨L', hsteps, hbooks, htold⟩ := h.steps hm
  have hallows : w.allows m = true := (Bool.and_eq_true_iff.1 hm).1
  have hnew : L.told w.contexts.size = false := by
    unfold Ledger.told
    rw [List.getElem?_eq_none (Nat.le_of_eq h.length)]
    rfl
  have htidy : (w.move m).Tidy L'.told := by
    rw [htold]
    exact tidy_move h.tidy hnew (fun _ _ hs _ hr => h.subjects_live hs hr) (fun _ _ hq => h.head_untold hq)
      hallows
  refine ⟨L', ?_, hsteps, htold⟩
  constructor
  case books => exact hbooks
  case sound => exact hsteps.sound h.sound
  case pledged => exact hsteps.pledged h.pledged
  case links => exact (hsteps.linksOnce h.sound.sane h.links).2
  case own => exact fun c => Nat.le_trans (hsteps.ownKept_le c) (h.own c)
  case tidy => exact htidy
  case footed => exact footed_move h.footed hallows fun _ => h.sure
  case climbs => exact climbs_move h.climbs m
  case poised => exact fun c share rest hs => h.poised_move hallows htidy hs
  case announced =>
    intro c p hmem
    rw [htold, toldAfter_eq_true]
    rcases arises_of_mem hmem with hold | hclimb
    · exact .inl (h.announced c p hold)
    · exact .inr hclimb

end Reckoned

/-- Nothing has happened yet. -/
theorem reckoned_start (threshold : Log.Level) : Reckoned {} (start threshold) where
  books := rfl
  sound := sound_empty
  pledged := pledged_empty
  links := by intro c a ha; cases ha
  own := fun _ => Nat.le_refl 1
  tidy := (orderly_start (t := .both) threshold).tidy
  footed := .inl trivial
  climbs := rfl
  poised := by intro c share rest hs; cases hs
  announced := by intro c p hmem; cases hmem

/-- Books are kept besides those of every world that clients who keep the balance lead to. -/
theorem exists_reckoned {threshold : Log.Level} {moves : List Move}
    (h : paced.legal (start threshold) moves = true) : ∃ L, Reckoned L (paced.run (start threshold) moves) :=
  paced.invariant (P := fun w => ∃ L, Reckoned L w)
    (fun _ _ hw hm => by
      obtain ⟨L, hL⟩ := hw
      obtain ⟨L', hL', -⟩ := hL.move hm
      exact ⟨L', hL'⟩)
    ⟨{}, reckoned_start threshold⟩ h

end World

end FanIn
