import FanIn.Proofs.Tree.Ledger

/-!
# The laws of the books

What every step keeps, whatever the terms (`Sane`), what holds as long as nobody leaves who did not
join (`Balanced`), and what holds if counters do not overflow either (`Unstuck`).

The central one is `Balanced`: the counter of a context is exactly what the books say it has to
wait for. So a counter is zero only when nothing is left to wait for, and `Unstuck` adds that a
context with that counter is complete or waits in the queue.
-/

namespace FanIn.Ledger

variable {t : Terms} {verdict : Option (ContextNo × Response)} {L L' : Ledger}

/-! ## Counting what is due -/

theorem untold_owe (L : Ledger) (d : Due) (c : ContextNo) :
    (L.owe d).untold c = L.untold c + if d.isOutcomeOf c then 1 else 0 := by
  unfold untold
  rw [dues_owe, Multiset.countP_cons]

theorem leaving_owe (L : Ledger) (d : Due) (c : ContextNo) :
    (L.owe d).leaving c = L.leaving c + if d.isLeaveOf c then 1 else 0 := by
  unfold leaving
  rw [dues_owe, Multiset.countP_cons]

theorem owed_owe (L : Ledger) (d : Due) (c : ContextNo) :
    (L.owe d).owed c = L.owed c + if d.isOwedTo c then 1 else 0 := by
  unfold owed
  rw [dues_owe, Multiset.countP_cons]

theorem untold_eq_zero {c : ContextNo} (h : ∀ d ∈ L.dues, d.owner ≠ c) : L.untold c = 0 :=
  Multiset.countP_eq_zero.2 fun d hd hc => h d hd (Due.owner_of_isOutcomeOf hc)

theorem owed_eq_zero {c : ContextNo} (h : ∀ d ∈ L.dues, d.owner ≠ c) : L.owed c = 0 :=
  Multiset.countP_eq_zero.2 fun d hd hc => h d hd (Due.owner_of_isOwedTo hc)

/-! ## Counting children -/

theorem openChildren_enter (L : Ledger) (a : Account) (c : ContextNo) :
    (L.enter a).openChildren c = L.openChildren c + if isOpenChild c a then 1 else 0 := by
  simp [openChildren, enter]

/-- A change that neither completes a context nor gives it another parent. -/
theorem openChildren_change (L : Ledger) (d : ContextNo) {f : Account → Account}
    (hp : ∀ a, (f a).parent = a.parent) (hc : ∀ a, (f a).isComplete = a.isComplete)
    (c : ContextNo) : (L.change d f).openChildren c = L.openChildren c := by
  have hf : ∀ a, isOpenChild c (f a) = isOpenChild c a := by
    intro a
    rw [isOpenChild, isOpenChild, hp, hc]
  cases hd : L.accounts[d]? with
  | none =>
    have hlen : L.accounts.length ≤ d := List.getElem?_eq_none_iff.1 hd
    simp [openChildren, change, List.modify_eq_self hlen]
  | some a =>
    have hsum := sum_map_modify_add (fun a => if isOpenChild c a then 1 else 0) f hd
    rw [hf] at hsum
    exact Nat.add_right_cancel hsum

/-- A context that completes is no longer an open child of its parent. -/
theorem openChildren_complete {d : ContextNo} {a : Account} (hd : L.accounts[d]? = some a)
    (ha : a.isComplete = false) (c : ContextNo) :
    (L.change d fun a => { a with isComplete := true }).openChildren c +
      (if a.parent = some c then 1 else 0) = L.openChildren c := by
  have hsum := sum_map_modify_add (fun a => if isOpenChild c a then 1 else 0)
    (fun a : Account => { a with isComplete := true }) hd
  simpa [isOpenChild, ha, openChildren, change] using hsum

/-! ## What always holds -/

/-- What holds of the books on any terms. -/
structure Sane (L : Ledger) : Prop where
  /-- What is due is due to a context that there is. -/
  owners : ∀ d ∈ L.dues, d.owner < L.accounts.length
  /-- A parent is older than its children. -/
  parents : ∀ (c : ContextNo) (a : Account) (p : ContextNo), L.accounts[c]? = some a →
    a.parent = some p → p < c
  /-- A context waits for its completion to be told at most once, and with a counter of zero. -/
  nodup : L.queue.Nodup
  queued : ∀ c ∈ L.queue, ∃ a, L.accounts[c]? = some a ∧ a.slots.count = 0 ∧ a.isComplete = false
  complete : ∀ (c : ContextNo) (a : Account), L.accounts[c]? = some a → a.isComplete = true →
    a.slots.count = 0
  /-- The outcome is undecided, due, or told: one of the three, and once. -/
  outcome : ∀ (c : ContextNo) (a : Account), L.accounts[c]? = some a →
    (if a.state = .pending then 1 else 0) + L.untold c + (if a.response.isSome then 1 else 0) = 1

/-- Only what is due, who is in the queue and what the accounts say of it matters. -/
theorem Sane.congr (h : L.Sane) (hd : L'.dues = L.dues) (hq : L'.queue = L.queue)
    (ha : L'.accounts = L.accounts) : L'.Sane where
  owners := by rw [hd, ha]; exact h.owners
  parents := by rw [ha]; exact h.parents
  nodup := by rw [hq]; exact h.nodup
  queued := by rw [hq, ha]; exact h.queued
  complete := by rw [ha]; exact h.complete
  outcome := by
    have hu : ∀ c, L'.untold c = L.untold c := fun c => by unfold untold; rw [hd]
    rw [ha]
    simpa only [hu] using h.outcome

theorem Sane.slots_owe (h : L.Sane) {c : ContextNo} (hc : c < L.accounts.length) (share : Share) :
    (L.owe (.slot c share)).Sane where
  owners := by
    intro d hd
    rw [dues_owe] at hd
    rcases Multiset.mem_cons.1 hd with rfl | hd
    · exact hc
    · exact h.owners d hd
  parents := h.parents
  nodup := h.nodup
  queued := h.queued
  complete := h.complete
  outcome := by
    intro e a he
    rw [untold_owe]
    exact h.outcome e a he

theorem Sane.of_owe_slot {c : ContextNo} {share : Share} (h : (L.owe (.slot c share)).Sane) :
    L.Sane where
  owners := fun d hd => h.owners d (by rw [dues_owe]; exact Multiset.mem_cons_of_mem hd)
  parents := h.parents
  nodup := h.nodup
  queued := h.queued
  complete := h.complete
  outcome := by
    intro e a he
    have hu := h.outcome e a he
    rwa [untold_owe] at hu

/-- A new context has published nothing, and nothing is due to it. -/
theorem Sane.enter (h : L.Sane) {a : Account} (hs : a.state = .pending) (hr : a.response = none)
    (hc : a.isComplete = false) (hp : ∀ p, a.parent = some p → p < L.accounts.length) :
    (L.enter a).Sane where
  owners := by
    intro d hd
    rw [length_enter]
    exact Nat.lt_succ_of_lt (h.owners d hd)
  parents := by
    intro c b p hb hpb
    rw [accounts_enter] at hb
    split at hb
    · rename_i heq
      obtain rfl := Option.some.inj hb
      rw [heq]
      exact hp p hpb
    · exact h.parents c b p hb hpb
  nodup := h.nodup
  queued := by
    intro c hq
    obtain ⟨b, hb, hrest⟩ := h.queued c hq
    have hlt : c < L.accounts.length := (List.getElem?_eq_some_iff.1 hb).1
    refine ⟨b, ?_, hrest⟩
    rw [accounts_enter, if_neg (Nat.ne_of_lt hlt)]
    exact hb
  complete := by
    intro c b hb hcomp
    rw [accounts_enter] at hb
    split at hb
    · obtain rfl := Option.some.inj hb
      rw [hc] at hcomp
      cases hcomp
    · exact h.complete c b hb hcomp
  outcome := by
    intro c b hb
    rw [accounts_enter] at hb
    split at hb
    · rename_i heq
      obtain rfl := Option.some.inj hb
      have hu : L.untold c = 0 := untold_eq_zero fun d hd => by
        rw [heq]
        exact Nat.ne_of_lt (h.owners d hd)
      have hu' : (L.enter a).untold c = 0 := hu
      simp [hs, hr, hu']
    · exact h.outcome c b hb

/-- One account changes, in what it says of its outcome, or in its counter while that is open. -/
theorem Sane.update (h : L.Sane) {c : ContextNo} {a : Account} {f : Account → Account}
    (hc : L.accounts[c]? = some a) (ha : L'.accounts = (L.change c f).accounts)
    (hq : L'.queue = L.queue) (hd : ∀ d ∈ L'.dues, d ∈ L.dues ∨ d.owner = c)
    (hp : (f a).parent = a.parent) (hf : (f a).isComplete = a.isComplete)
    (hs : (f a).slots = a.slots ∨ 0 < a.slots.count)
    (hu : ∀ e, e ≠ c → L'.untold e = L.untold e)
    (ho : (if (f a).state = .pending then 1 else 0) + L'.untold c +
      (if (f a).response.isSome then 1 else 0) = 1) : L'.Sane := by
  have hlt : c < L.accounts.length := (List.getElem?_eq_some_iff.1 hc).1
  -- what an account is now: the changed one, or what it was
  have hcases : ∀ e b, L'.accounts[e]? = some b →
      (e = c ∧ b = f a) ∨ (e ≠ c ∧ L.accounts[e]? = some b) := by
    intro e b hb
    rw [ha, accounts_change] at hb
    by_cases he : c = e
    · subst he
      rw [if_pos rfl, hc] at hb
      exact .inl ⟨rfl, (Option.some.inj hb).symm⟩
    · rw [if_neg he] at hb
      exact .inr ⟨fun h => he h.symm, hb⟩
  constructor
  case owners =>
    intro d hd'
    rw [ha, length_change]
    rcases hd d hd' with hd' | rfl
    · exact h.owners d hd'
    · exact hlt
  case parents =>
    intro e b p hb hbp
    rcases hcases e b hb with ⟨rfl, rfl⟩ | ⟨_, hb⟩
    · exact h.parents e a p hc (hp ▸ hbp)
    · exact h.parents e b p hb hbp
  case nodup => rw [hq]; exact h.nodup
  case queued =>
    intro e he
    rw [hq] at he
    obtain ⟨b, hb, h0, hb'⟩ := h.queued e he
    rw [ha, accounts_change]
    by_cases hec : c = e
    · subst hec
      obtain rfl := Option.some.inj (hb.symm.trans hc)
      refine ⟨f b, by simp [hc], ?_, hf.trans hb'⟩
      rcases hs with hs | hs
      · rw [hs]; exact h0
      · rw [h0] at hs; exact absurd hs (lt_irrefl 0)
    · rw [if_neg hec]
      exact ⟨b, hb, h0, hb'⟩
  case complete =>
    intro e b hb hcomp
    rcases hcases e b hb with ⟨rfl, rfl⟩ | ⟨_, hb⟩
    · have h0 := h.complete e a hc (hf ▸ hcomp)
      rcases hs with hs | hs
      · rw [hs]; exact h0
      · rw [h0] at hs; exact absurd hs (lt_irrefl 0)
    · exact h.complete e b hb hcomp
  case outcome =>
    intro e b hb
    rcases hcases e b hb with ⟨rfl, rfl⟩ | ⟨hne, hb⟩
    · exact ho
    · rw [hu e hne]
      exact h.outcome e b hb

theorem Sane.recount (h : L.Sane) {c : ContextNo} {a : Account} (hc : L.accounts[c]? = some a)
    (ho : 0 < a.slots.count) (slots : Counter) : (L.recount c slots).Sane :=
  h.update hc rfl rfl (fun _ hd => .inl hd) rfl rfl (.inr ho) (fun _ _ => rfl)
    (h.outcome c a hc)

theorem Sane.decide (h : L.Sane) {c : ContextNo} {a : Account} (hc : L.accounts[c]? = some a)
    (ha : a.state = .pending) (r : Response) :
    ((L.change c fun a => { a with state := r.state }).owe (.outcome c r)).Sane := by
  have ho := h.outcome c a hc
  rw [if_pos ha] at ho
  refine h.update hc rfl rfl ?_ rfl rfl (.inl rfl) ?_ ?_
  · intro d hd
    rw [dues_owe] at hd
    rcases Multiset.mem_cons.1 hd with rfl | hd
    · exact .inr rfl
    · exact .inl hd
  · intro e he
    have : (c == e) = false := by simpa using fun h => he h.symm
    rw [untold_owe]
    simp [this, untold]
  · rw [untold_owe, if_neg r.state_ne_pending]
    simp only [Due.isOutcomeOf_outcome, beq_self_eq_true, if_true]
    have : (L.change c fun a => { a with state := r.state }).untold c = L.untold c := rfl
    omega

theorem Sane.before (h : L.Sane) {c : ContextNo} {a : Account} (hc : L.accounts[c]? = some a)
    (r : Response) : (L.change c fun a => { a with before := a.before.or (some r) }).Sane :=
  h.update hc rfl rfl (fun _ hd => .inl hd) rfl rfl (.inl rfl) (fun _ _ => rfl)
    (h.outcome c a hc)

theorem Sane.answer {c : ContextNo} {r : Response} (h : (L.owe (.outcome c r)).Sane)
    {a : Account} (hc : L.accounts[c]? = some a) :
    ((L.change c fun a => { a with response := a.response.or (some r) }).owe
      (.slot c .own)).Sane := by
  have ho := h.outcome c a hc
  rw [untold_owe] at ho
  simp only [Due.isOutcomeOf_outcome, beq_self_eq_true, if_true] at ho
  refine h.update hc rfl rfl ?_ rfl rfl (.inl rfl) ?_ ?_
  · intro d hd
    rw [dues_owe] at hd ⊢
    rcases Multiset.mem_cons.1 hd with rfl | hd
    · exact .inr rfl
    · exact .inl (Multiset.mem_cons_of_mem hd)
  · intro e he
    have : (c == e) = false := by simpa using fun h => he h.symm
    rw [untold_owe, untold_owe]
    simp [this, untold]
  · rw [untold_owe]
    have hu : (L.change c fun a => { a with response := a.response.or (some r) }).untold c =
      L.untold c := rfl
    -- an outcome that is due has not been published
    have hr : a.response.isSome = false := by
      cases hr : a.response.isSome
      · rfl
      · simp only [hr, if_true] at ho; omega
    rw [Option.isSome_eq_false_iff, Option.isNone_iff_eq_none] at hr
    simp only [hr, Option.isSome_none, Bool.false_eq_true, if_false] at ho
    simp only [hr, Option.none_or, Option.isSome_some, if_true, hu,
      Due.isOutcomeOf_slot, Bool.false_eq_true, if_false]
    omega

theorem Sane.enqueue (h : L.Sane) {c : ContextNo} {a : Account} (hc : L.accounts[c]? = some a)
    (h0 : a.slots.count = 0) (ha : a.isComplete = false) (hq : c ∉ L.queue) :
    (L.enqueue c).Sane where
  owners := h.owners
  parents := h.parents
  nodup := by
    show (L.queue ++ [c]).Nodup
    rw [List.nodup_append]
    refine ⟨h.nodup, List.nodup_singleton c, ?_⟩
    rintro x hx y hy rfl
    exact hq (List.mem_singleton.1 hy ▸ hx)
  queued := by
    intro e he
    rcases List.mem_append.1 he with he | he
    · exact h.queued e he
    · obtain rfl := List.mem_singleton.1 he
      exact ⟨a, hc, h0, ha⟩
  complete := h.complete
  outcome := h.outcome

/-- What a slot that could be given up says about the context. -/
theorem Sane.of_release (h : L.Sane) {c : ContextNo} {a : Account} {last : Bool} {slots : Counter}
    (hc : L.accounts[c]? = some a) (hr : a.slots.release = some (last, slots)) :
    a.isComplete = false ∧ c ∉ L.queue := by
  obtain ⟨hpos, -, -⟩ := Counter.count_release hr
  constructor
  · cases hcomp : a.isComplete with
    | false => rfl
    | true => exact absurd (h.complete c a hc hcomp) (ne_of_gt hpos)
  · intro hq
    obtain ⟨b, hb, h0, -⟩ := h.queued c hq
    obtain rfl := Option.some.inj (hb.symm.trans hc)
    exact absurd h0 (ne_of_gt hpos)

theorem Sane.release (h : L.Sane) {c : ContextNo} {a : Account} {share : Share} {last : Bool}
    {slots : Counter} (hc : L.accounts[c]? = some a)
    (hr : a.slots.release = some (last, slots)) : (L.release c share slots last).Sane := by
  obtain ⟨hpos, -, hlast⟩ := Counter.count_release hr
  obtain ⟨hcomp, hq⟩ := h.of_release hc hr
  have h1 := h.recount hc hpos slots
  have h2 : (if share = .participant then (L.recount c slots).attend c (-1)
      else L.recount c slots).Sane := by
    split
    · exact h1.congr rfl rfl rfl
    · exact h1
  have hacc : (if share = .participant then (L.recount c slots).attend c (-1)
      else L.recount c slots).accounts[c]? = some { a with slots := slots } := by
    have : (L.recount c slots).accounts[c]? = some { a with slots := slots } := by
      simp [Ledger.recount, accounts_change, hc]
    split <;> exact this
  unfold Ledger.release
  cases last with
  | false => exact h2
  | true =>
    apply h2.enqueue hacc (hlast.1 rfl) hcomp
    split <;> exact hq

theorem Sane.tell (h : L.Sane) {c : ContextNo} {a : Account} {queue : List ContextNo}
    (hq : L.queue = c :: queue) (hc : L.accounts[c]? = some a) :
    (L.complete c queue a.parent).Sane := by
  have hnodup := h.nodup
  rw [hq, List.nodup_cons] at hnodup
  obtain ⟨hnot, hnodup⟩ := hnodup
  obtain ⟨b, hb, h0, -⟩ := h.queued c (by rw [hq]; exact List.mem_cons_self)
  obtain rfl := Option.some.inj (hb.symm.trans hc)
  have hacc : ∀ e x, (L.change c fun a => { a with isComplete := true }).accounts[e]? = some x →
      ∃ y, L.accounts[e]? = some y ∧ x = if e = c then { y with isComplete := true } else y := by
    intro e x hx
    rw [accounts_change] at hx
    by_cases he : c = e
    · subst he
      rw [if_pos rfl, hc] at hx
      exact ⟨b, hc, by simpa using (Option.some.inj hx).symm⟩
    · rw [if_neg he] at hx
      exact ⟨x, hx, by simp [Ne.symm he]⟩
  have hmid : ((L.change c fun a => { a with isComplete := true }).requeue queue).Sane := by
    constructor
    case owners => simpa using h.owners
    case parents =>
      intro e x p hx hp
      obtain ⟨y, hy, rfl⟩ := hacc e x hx
      apply h.parents e y p hy
      split at hp <;> exact hp
    case nodup => exact hnodup
    case queued =>
      intro e he
      have hne : c ≠ e := fun heq => hnot (heq ▸ he)
      obtain ⟨y, hy, hrest⟩ := h.queued e (by rw [hq]; exact List.mem_cons_of_mem _ he)
      refine ⟨y, ?_, hrest⟩
      exact (accounts_change L c e _).trans (by rw [if_neg hne]; exact hy)
    case complete =>
      intro e x hx hcomp
      obtain ⟨y, hy, rfl⟩ := hacc e x hx
      by_cases he : e = c
      · subst he
        obtain rfl := Option.some.inj (hy.symm.trans hc)
        simpa using h0
      · simp only [he, if_false] at hcomp ⊢
        exact h.complete e y hy hcomp
    case outcome =>
      intro e x hx
      obtain ⟨y, hy, rfl⟩ := hacc e x hx
      have ho := h.outcome e y hy
      split <;> exact ho
  cases hp : b.parent with
  | none => exact hmid
  | some p =>
    have hlt : p < L.accounts.length :=
      Nat.lt_trans (h.parents c b p hc hp) (List.getElem?_eq_some_iff.1 hc).1
    exact hmid.slots_owe (by simpa using hlt) (.child c)

/-- Whatever happens, the books stay sane. -/
theorem Step.sane (h : Step t verdict L L') (hs : L.Sane) : L'.Sane := by
  cases h with
  | root => exact hs.enter rfl rfl rfl (fun _ h => by cases h)
  | @linked _ s hlt =>
    have h1 := hs.enter (a := { link := some s, slots := .start 2 }) rfl rfl rfl (fun _ h => by cases h)
    have h2 := h1.slots_owe (c := L.accounts.length) (by simp) .link
    have hd := dues_entrust (L := L.enter { link := some s, slots := .start 2 }) hlt
      (.slot L.accounts.length .link)
    exact h2.congr (hd.trans (dues_owe _ _).symm) (by simp [owe]) (by simp)
  | child hp hadd _ =>
    have hlt := (List.getElem?_eq_some_iff.1 hp).1
    apply (hs.recount hp (Counter.count_tryAdd hadd).1 _).enter rfl rfl rfl
    rintro q ⟨⟩
    simpa [recount] using hlt
  | rejected hp hadd _ =>
    have hlt := (List.getElem?_eq_some_iff.1 hp).1
    exact (hs.recount hp (Counter.count_tryAdd hadd).1 _).slots_owe (by simpa [recount] using hlt) _
  | join hc hadd _ =>
    exact (hs.recount hc (Counter.count_tryAdd hadd).1 _).congr rfl rfl rfl
  | leave hc _ => exact hs.slots_owe (List.getElem?_eq_some_iff.1 hc).1 _
  | decide hc ha _ => exact hs.decide hc ha _
  | signal => exact hs.congr (by simp [dues]) rfl rfl
  | settle hlt => exact hs.congr (by rw [dues_entrust hlt, dues_owe]) (by simp [owe]) (by simp)
  | resolve => exact hs.congr (dues_resolve _ _) rfl rfl
  | @before _ c r hmem =>
    have hlt := hs.owners (.outcome c r) (Multiset.mem_add.2 (.inr hmem))
    exact hs.before (List.getElem?_eq_getElem hlt) _
  | @answer L c r =>
    have hlt := hs.owners (.outcome c r) (by rw [dues_owe]; exact Multiset.mem_cons_self _ _)
    exact hs.answer (List.getElem?_eq_getElem hlt)
  | release hc hr => exact hs.of_owe_slot.release hc hr
  | refuse => exact hs.of_owe_slot
  | complete hq hc => exact hs.tell hq hc
  | abandon _ =>
    exact ⟨hs.owners, hs.parents, List.nodup_nil, List.forall_mem_nil _, hs.complete, hs.outcome⟩

/-! ## What holds as long as nobody leaves who did not join -/

/-- What a context has to wait for once its outcome is decided. -/
def weight (L : Ledger) (c : ContextNo) : Int := L.owed c + L.openChildren c + L.guests c

/-- A counter counts a number of participants, and the outcome as long as it is undecided; unless
it has overflowed, after which it is closed for good. -/
def Tallies (a : Account) (n : Int) : Prop :=
  a.slots.count < 0 ∨ a.slots.count = (if a.state = .pending then 1 else 0) + n

/-- Counters count what there is to wait for. -/
structure Balanced (L : Ledger) : Prop where
  count : ∀ (c : ContextNo) (a : Account), L.accounts[c]? = some a → Tallies a (L.weight c)
  /-- Only participants leave. -/
  leaving : ∀ c, (L.leaving c : Int) ≤ L.guests c
  strangers : ∀ c, L.accounts.length ≤ c → L.guests c = 0

theorem weight_change (L : Ledger) (d : ContextNo) {f : Account → Account}
    (hp : ∀ a, (f a).parent = a.parent) (hc : ∀ a, (f a).isComplete = a.isComplete)
    (c : ContextNo) : (L.change d f).weight c = L.weight c := by
  have hopen := openChildren_change L d hp hc c
  unfold weight
  rw [hopen]
  rfl

@[simp] theorem weight_recount (L : Ledger) (d : ContextNo) (slots : Counter) (c : ContextNo) :
    (L.recount d slots).weight c = L.weight c :=
  weight_change L d (f := fun a => { a with slots := slots }) (fun _ => rfl) (fun _ => rfl) c

@[simp] theorem weight_owe (L : Ledger) (d : Due) (c : ContextNo) :
    (L.owe d).weight c = L.weight c + if d.isOwedTo c then 1 else 0 := by
  have hopen : (L.owe d).openChildren c = L.openChildren c := rfl
  have hguests : (L.owe d).guests c = L.guests c := rfl
  unfold weight
  rw [owed_owe, hopen, hguests]
  split <;> push_cast <;> omega

@[simp] theorem weight_enter (L : Ledger) (a : Account) (c : ContextNo) :
    (L.enter a).weight c = L.weight c + if isOpenChild c a then 1 else 0 := by
  have howed : (L.enter a).owed c = L.owed c := rfl
  have hguests : (L.enter a).guests c = L.guests c := rfl
  unfold weight
  rw [openChildren_enter, howed, hguests]
  split <;> push_cast <;> omega

@[simp] theorem weight_attend (L : Ledger) (d : ContextNo) (n : Int) (c : ContextNo) :
    (L.attend d n).weight c = L.weight c + if c = d then n else 0 := by
  have howed : (L.attend d n).owed c = L.owed c := rfl
  have hopen : (L.attend d n).openChildren c = L.openChildren c := rfl
  unfold weight
  rw [howed, hopen, guests_attend]
  omega

@[simp] theorem weight_requeue (L : Ledger) (q : List ContextNo) (c : ContextNo) :
    (L.requeue q).weight c = L.weight c := rfl

/-- A context that nothing is due to has no weight. -/
theorem Balanced.weight_stranger (h : L.Balanced) (hs : L.Sane) {c : ContextNo}
    (hc : L.accounts.length ≤ c) : L.weight c = 0 := by
  have howed : L.owed c = 0 := by
    apply owed_eq_zero
    intro d hd heq
    exact absurd (heq ▸ hs.owners d hd) (Nat.not_lt.2 hc)
  have hopen : L.openChildren c = 0 := by
    unfold openChildren
    rw [List.sum_eq_zero]
    intro n hn
    obtain ⟨a, ha, rfl⟩ := List.mem_map.1 hn
    obtain ⟨i, hi, rfl⟩ := List.getElem_of_mem ha
    -- a child is younger than its parent, so a context yet to be is nobody's parent
    rw [if_neg]
    intro hopen
    simp only [isOpenChild, Bool.and_eq_true, beq_iff_eq] at hopen
    have hlt := hs.parents i _ c (List.getElem?_eq_getElem hi) hopen.1
    exact absurd (Nat.lt_trans hlt hi) (Nat.not_lt.2 hc)
  unfold weight
  rw [howed, hopen, h.strangers c hc]
  rfl

/-- What is entrusted to a signal is due like anything else. -/
theorem entrust_eq {s : SignalNo} (h : s < L.pledges.length) (d : Due) (c : ContextNo) :
    (L.entrust s d).weight c = (L.owe d).weight c ∧
      (L.entrust s d).leaving c = (L.owe d).leaving c := by
  have hd : (L.entrust s d).dues = (L.owe d).dues := (dues_entrust h d).trans (dues_owe L d).symm
  have hopen : (L.entrust s d).openChildren c = (L.owe d).openChildren c := by
    unfold openChildren
    rw [accounts_entrust, accounts_owe]
  have hguests : (L.entrust s d).guests = (L.owe d).guests := guests_entrust L s d
  unfold weight owed leaving
  rw [hd, hopen, hguests]
  exact ⟨rfl, rfl⟩

theorem Tallies.tryAdd {a : Account} {n : Int} (h : Tallies a n) {slots : Counter}
    (ha : a.slots.tryAdd = some slots) : Tallies { a with slots := slots } (n + 1) := by
  obtain ⟨hpos, hadd | ⟨-, hneg⟩⟩ := Counter.count_tryAdd ha
  · rcases h with h | h
    · omega
    · right
      simp only [hadd, h]
      omega
  · exact .inl hneg

theorem Tallies.release {a : Account} {n : Int} (h : Tallies a n) {slots : Counter} {last : Bool}
    (hr : a.slots.release = some (last, slots)) : Tallies { a with slots := slots } (n - 1) := by
  obtain ⟨hpos, hsub, -⟩ := Counter.count_release hr
  rcases h with h | h
  · omega
  · right
    simp only [hsub, h]
    omega

/-- One account changes. -/
theorem Balanced.update (h : L.Balanced) {c : ContextNo} {a : Account} {f : Account → Account}
    (hc : L.accounts[c]? = some a) (ha : L'.accounts = (L.change c f).accounts)
    (hw : ∀ e, e ≠ c → L'.weight e = L.weight e) (hown : Tallies (f a) (L'.weight c))
    (hl : ∀ e, (L'.leaving e : Int) ≤ L'.guests e)
    (hg : ∀ e, e ≠ c → L'.guests e = L.guests e) : L'.Balanced where
  count := by
    intro e x hx
    rw [ha, accounts_change] at hx
    by_cases he : c = e
    · subst he
      rw [if_pos rfl, hc] at hx
      obtain rfl := Option.some.inj hx
      exact hown
    · rw [if_neg he] at hx
      rw [hw e (Ne.symm he)]
      exact h.count e x hx
  leaving := hl
  strangers := by
    intro e he
    rw [ha, length_change] at he
    have hlt : c < L.accounts.length := (List.getElem?_eq_some_iff.1 hc).1
    rw [hg e (Nat.ne_of_gt (Nat.lt_of_lt_of_le hlt he))]
    exact h.strangers e he

/-- An account is added. -/
theorem Balanced.extend (h : L.Balanced) {a : Account} (ha : L'.accounts = L.accounts ++ [a])
    (hw : ∀ e, e < L.accounts.length → L'.weight e = L.weight e)
    (hnew : Tallies a (L'.weight L.accounts.length)) (hl : ∀ e, L'.leaving e = L.leaving e)
    (hg : L'.guests = L.guests) : L'.Balanced where
  count := by
    intro e x hx
    have hx' : (L.enter a).accounts[e]? = some x := by rwa [ha] at hx
    rw [accounts_enter] at hx'
    split at hx'
    · rename_i heq
      obtain rfl := Option.some.inj hx'
      rw [heq]
      exact hnew
    · rw [hw e (List.getElem?_eq_some_iff.1 hx').1]
      exact h.count e x hx'
  leaving := by
    intro e
    rw [hl, hg]
    exact h.leaving e
  strangers := by
    intro e he
    rw [hg]
    refine h.strangers e (Nat.le_trans ?_ he)
    rw [ha, List.length_append]
    exact Nat.le_add_right _ _

/-- Only what is due, what the accounts say and how many participants there are matters. -/
theorem Balanced.congr (h : L.Balanced) (hd : L'.dues = L.dues) (hg : L'.guests = L.guests)
    (ha : L'.accounts = L.accounts) : L'.Balanced := by
  have hw : ∀ c, L'.weight c = L.weight c := by
    intro c
    unfold weight owed openChildren
    rw [hd, hg, ha]
  constructor
  · intro c a hc
    rw [hw]
    exact h.count c a (ha ▸ hc)
  · intro c
    unfold Ledger.leaving
    rw [hd, hg]
    exact h.leaving c
  · rw [ha, hg]
    exact h.strangers

@[simp] theorem leaving_change (L : Ledger) (c : ContextNo) (f : Account → Account)
    (e : ContextNo) : (L.change c f).leaving e = L.leaving e := rfl

@[simp] theorem leaving_enter (L : Ledger) (a : Account) (e : ContextNo) :
    (L.enter a).leaving e = L.leaving e := rfl

@[simp] theorem leaving_attend (L : Ledger) (c : ContextNo) (n : Int) (e : ContextNo) :
    (L.attend c n).leaving e = L.leaving e := rfl

@[simp] theorem leaving_recount (L : Ledger) (c : ContextNo) (slots : Counter) (e : ContextNo) :
    (L.recount c slots).leaving e = L.leaving e := rfl

/-- A slot is taken, for a child that is not there yet. -/
theorem Balanced.take (h : L.Balanced) {c : ContextNo} {a : Account} {slots : Counter}
    (hc : L.accounts[c]? = some a) (hadd : a.slots.tryAdd = some slots) (d : ContextNo) :
    ((L.recount c slots).owe (.slot c (.child d))).Balanced := by
  refine h.update hc rfl ?_ ?_ ?_ (fun _ _ => rfl)
  · intro e he
    simp [Ne.symm he]
  · simpa using (h.count c a hc).tryAdd hadd
  · intro e
    rw [leaving_owe]
    simpa using h.leaving e

/-- A participant joins. -/
theorem Balanced.join (h : L.Balanced) {c : ContextNo} {a : Account} {slots : Counter}
    (hc : L.accounts[c]? = some a) (hadd : a.slots.tryAdd = some slots) :
    ((L.recount c slots).attend c 1).Balanced := by
  refine h.update hc rfl ?_ ?_ ?_ ?_
  · intro e he
    simp [he]
  · simpa using (h.count c a hc).tryAdd hadd
  · intro e
    have hl := h.leaving e
    rw [leaving_attend, leaving_recount, guests_attend, guests_recount]
    split <;> omega
  · intro e he
    simp [guests_attend, he]

/-- The outcome of a context, which it waited for, is due. -/
theorem Balanced.decide (h : L.Balanced) {c : ContextNo} {a : Account}
    (hc : L.accounts[c]? = some a) (ha : a.state = .pending) (r : Response) :
    ((L.change c fun a => { a with state := r.state }).owe (.outcome c r)).Balanced := by
  have hw := weight_change L c (f := fun a => { a with state := r.state }) (fun _ => rfl)
    fun _ => rfl
  refine h.update hc rfl ?_ ?_ ?_ fun _ _ => rfl
  · intro e he
    simp [hw, Ne.symm he]
  · rcases h.count c a hc with hneg | hcount
    · exact .inl hneg
    · right
      rw [if_pos ha] at hcount
      simp only [weight_owe, hw, Due.isOwedTo_outcome, beq_self_eq_true, if_true,
        r.state_ne_pending, if_false]
      omega
  · intro e
    rw [leaving_owe]
    simpa using h.leaving e

/-- An account changes in nothing that counts. -/
theorem Balanced.note (h : L.Balanced) (c : ContextNo) {f : Account → Account}
    (hp : ∀ a, (f a).parent = a.parent) (hf : ∀ a, (f a).isComplete = a.isComplete)
    (hs : ∀ a, (f a).slots = a.slots) (ht : ∀ a, (f a).state = a.state) :
    (L.change c f).Balanced where
  count := by
    intro e x hx
    rw [weight_change L c hp hf]
    rw [accounts_change] at hx
    split at hx
    · obtain ⟨y, hy, rfl⟩ := Option.map_eq_some_iff.1 hx
      simpa only [Tallies, hs, ht] using h.count e y hy
    · exact h.count e x hx
  leaving := h.leaving
  strangers := by
    rw [length_change]
    exact h.strangers

/-- An outcome is published: instead of it, the giving up of the context's own slot is due. -/
theorem Balanced.answer {c : ContextNo} {r : Response} (h : (L.owe (.outcome c r)).Balanced) :
    (L.owe (.slot c .own)).Balanced where
  count := by
    intro e x hx
    simpa using h.count e x hx
  leaving := by
    intro e
    have hl := h.leaving e
    rw [leaving_owe] at hl ⊢
    simpa using hl
  strangers := h.strangers

/-- A slot is given up. -/
theorem Balanced.release {c : ContextNo} {share : Share} (h : (L.owe (.slot c share)).Balanced)
    {a : Account} {slots : Counter} {last : Bool} (hc : L.accounts[c]? = some a)
    (hr : a.slots.release = some (last, slots)) : (L.release c share slots last).Balanced := by
  suffices hmid : (if share = .participant then (L.recount c slots).attend c (-1)
      else L.recount c slots).Balanced by
    unfold Ledger.release
    cases last with
    | false => exact hmid
    | true => exact hmid.congr rfl rfl rfl
  -- the slot of a participant goes off the guests, any other off what is owed
  have hown := (h.count c a hc).release hr
  by_cases hs : share = .participant
  · subst hs
    rw [if_pos rfl]
    refine h.update hc rfl ?_ ?_ ?_ ?_
    · intro e he
      simp [he]
    · simpa [sub_eq_add_neg] using hown
    · intro e
      have hl := h.leaving e
      rw [leaving_owe, guests_owe] at hl
      rw [leaving_attend, leaving_recount, guests_attend, guests_recount]
      by_cases he : e = c
      · subst he
        simp only [Due.isLeaveOf_slot, beq_self_eq_true, Bool.and_self, if_true] at hl ⊢
        omega
      · simpa [he, Ne.symm he] using hl
    · intro e he
      simp [guests_attend, he]
  · rw [if_neg hs]
    refine h.update hc rfl ?_ ?_ ?_ fun _ _ => rfl
    · intro e he
      simp [Ne.symm he]
    · simpa [hs] using hown
    · intro e
      have hl := h.leaving e
      rw [leaving_owe] at hl
      simpa [hs] using hl

/-- A counter that has a slot coming off is open, unless it has overflowed. -/
theorem Balanced.open_or_closed {c : ContextNo} {share : Share}
    (h : (L.owe (.slot c share)).Balanced) {a : Account} (hc : L.accounts[c]? = some a) :
    a.slots.count < 0 ∨ 0 < a.slots.count := by
  rcases h.count c a hc with hneg | hcount
  · exact .inl hneg
  · right
    have hl := h.leaving c
    rw [leaving_owe, guests_owe] at hl
    -- what is coming off is still counted, as a guest or as owed
    have hweight : (L.owe (.slot c share)).weight c ≥ 1 := by
      rw [weight_owe]
      unfold weight
      by_cases hs : share = .participant
      · subst hs
        simp only [Due.isLeaveOf_slot, beq_self_eq_true, Bool.and_self, if_true] at hl
        split <;> omega
      · have howed : (Due.slot c share).isOwedTo c = true := by simp [hs]
        rw [if_pos howed]
        split at hl <;> omega
    split at hcount <;> omega

/-- A slot cannot be given up, because the counter has overflowed. -/
theorem Balanced.refuse {c : ContextNo} {share : Share} (h : (L.owe (.slot c share)).Balanced)
    {a : Account} (hc : L.accounts[c]? = some a) (hr : a.slots.release = none) : L.Balanced where
  count := by
    intro e x hx
    by_cases he : e = c
    · subst he
      obtain rfl := Option.some.inj (hx.symm.trans hc)
      -- a counter at zero would have nothing coming off
      have hle := Counter.release_eq_none.1 hr
      exact .inl ((h.open_or_closed hc).resolve_right (Int.not_lt.2 hle))
    · have hcount := h.count e x hx
      rw [weight_owe] at hcount
      have hd : ¬ (Due.slot c share).isOwedTo e = true := fun hd =>
        he (Due.owner_of_isOwedTo hd).symm
      simpa [hd] using hcount
  leaving := by
    intro e
    have hl := h.leaving e
    rw [leaving_owe, guests_owe] at hl
    split at hl <;> omega
  strangers := h.strangers

/-- A participant is about to leave. -/
theorem Balanced.leave (h : L.Balanced) {c : ContextNo} (hl : (L.leaving c : Int) < L.guests c) :
    (L.owe (.slot c .participant)).Balanced where
  count := by
    intro e x hx
    simpa using h.count e x hx
  leaving := by
    intro e
    have hle := h.leaving e
    rw [leaving_owe, guests_owe]
    by_cases he : c = e
    · subst he
      simp only [Due.isLeaveOf_slot, beq_self_eq_true, Bool.and_self, if_true]
      omega
    · simpa [he] using hle
  strangers := h.strangers

/-- A context is complete: it is no longer an open child, but its parent is to be told. -/
theorem Balanced.tell (h : L.Balanced) {c : ContextNo} {a : Account} (queue : List ContextNo)
    (hc : L.accounts[c]? = some a) (ha : a.isComplete = false) :
    (L.complete c queue a.parent).Balanced := by
  have hopen := openChildren_complete hc ha
  have hw : ∀ e, (L.complete c queue a.parent).weight e = L.weight e := by
    intro e
    -- the parent has one open child less, and is owed one slot more
    have hmid : (L.change c fun a => { a with isComplete := true }).weight e +
        (if a.parent = some e then 1 else 0) = L.weight e := by
      unfold weight owed
      rw [dues_change, guests_change, ← hopen e]
      split <;> push_cast <;> omega
    rw [← hmid]
    unfold Ledger.complete
    cases hp : a.parent with
    | none => simp
    | some p => by_cases he : p = e <;> simp [he]
  apply h.update hc (accounts_complete L c queue a.parent) (fun e _ => hw e)
  · rw [hw]
    exact h.count c a hc
  · intro e
    have hleaving : (L.complete c queue a.parent).leaving e = L.leaving e := by
      unfold Ledger.complete
      cases a.parent with
      | none => rfl
      | some p => simp only [Option.elim_some, leaving_owe]; rfl
    rw [hleaving, guests_complete]
    exact h.leaving e
  · intro e _
    rw [guests_complete]

theorem Balanced.child (h : L.Balanced) (hs : L.Sane) {p : ContextNo} {a : Account}
    {slots : Counter} (hp : L.accounts[p]? = some a) (hadd : a.slots.tryAdd = some slots) :
    ((L.recount p slots).enter { parent := some p, slots := .start 1 }).Balanced := by
  have hlt : p < L.accounts.length := (List.getElem?_eq_some_iff.1 hp).1
  -- the slot that is taken for the child counts as owed until there is the child to count
  refine (h.take hp hadd L.accounts.length).extend rfl ?_ ?_ ?_ rfl
  · intro e he
    by_cases hpe : p = e <;> simp [isOpenChild, hpe]
  · right
    have hlen : (L.recount p slots).accounts.length = L.accounts.length := by
      simp [Ledger.recount]
    have hne : p ≠ L.accounts.length := Nat.ne_of_lt hlt
    simp [isOpenChild, hlen, hne, h.weight_stranger hs (Nat.le_refl _), Counter.count_start]
  · intro e
    simp [leaving_owe]

theorem Balanced.root (h : L.Balanced) (hs : L.Sane) :
    (L.enter { slots := .start 1 }).Balanced := by
  refine h.extend rfl ?_ ?_ (fun _ => rfl) rfl
  · intro e _
    simp [isOpenChild]
  · right
    simp [isOpenChild, h.weight_stranger hs (Nat.le_refl _), Counter.count_start]

theorem Balanced.linked (h : L.Balanced) (hs : L.Sane) {s : SignalNo}
    (hlt : s < L.pledges.length) :
    ((L.enter { link := some s, slots := .start 2 }).entrust s
      (.slot L.accounts.length .link)).Balanced := by
  have heq := entrust_eq (L := L.enter { link := some s, slots := .start 2 }) hlt
    (.slot L.accounts.length .link)
  refine h.extend (a := { link := some s, slots := .start 2 }) (by simp [enter]) ?_ ?_ ?_ (by simp)
  · intro e he
    rw [(heq e).1]
    simp [isOpenChild, Nat.ne_of_gt he]
  · right
    rw [(heq _).1]
    simp [isOpenChild, h.weight_stranger hs (Nat.le_refl _), Counter.count_start]
  · intro e
    simp [(heq e).2, leaving_owe]

/-- As long as nobody leaves who did not join, counters count what there is to wait for. -/
theorem Step.balanced (ht : t.matched) (h : Step t verdict L L') (hs : L.Sane)
    (hb : L.Balanced) : L'.Balanced := by
  cases h with
  | root => exact hb.root hs
  | linked hlt => exact hb.linked hs hlt
  | child hp hadd _ => exact hb.child hs hp hadd
  | rejected hp hadd _ => exact hb.take hp hadd _
  | join hc hadd _ => exact hb.join hc hadd
  | leave _ hl => exact hb.leave (hl ht)
  | decide hc ha _ => exact hb.decide hc ha _
  | signal => exact hb.congr (by simp [dues]) rfl rfl
  | settle hlt =>
    exact hb.congr ((dues_entrust hlt _).trans (dues_owe _ _).symm) (by simp) (by simp)
  | resolve => exact hb.congr (dues_resolve _ _) rfl rfl
  | before => exact hb.note _ (fun _ => rfl) (fun _ => rfl) (fun _ => rfl) fun _ => rfl
  | answer => exact hb.answer.note _ (fun _ => rfl) (fun _ => rfl) (fun _ => rfl) fun _ => rfl
  | release hc hr => exact hb.release hc hr
  | refuse hc hr => exact hb.refuse hc hr
  | @complete _ c queue a hq hc =>
    obtain ⟨b, hb', -, hcomp⟩ := hs.queued c (by rw [hq]; exact List.mem_cons_self)
    obtain rfl := Option.some.inj (hb'.symm.trans hc)
    exact hb.tell queue hc hcomp
  | abandon _ => exact hb.congr rfl rfl rfl

/-! ## What holds if counters do not overflow either -/

/-- A context that has nothing left to wait for is complete or is about to be. -/
structure Unstuck (L : Ledger) : Prop where
  nonneg : ∀ (c : ContextNo) (a : Account), L.accounts[c]? = some a → 0 ≤ a.slots.count
  drained : ∀ (c : ContextNo) (a : Account), L.accounts[c]? = some a → a.slots.count = 0 →
    a.isComplete = true ∨ c ∈ L.queue

theorem Unstuck.enter (h : L.Unstuck) {a : Account} (ha : 0 < a.slots.count) :
    (L.enter a).Unstuck where
  nonneg := by
    intro e x hx
    rw [accounts_enter] at hx
    split at hx
    · obtain rfl := Option.some.inj hx
      exact Int.le_of_lt ha
    · exact h.nonneg e x hx
  drained := by
    intro e x hx h0
    rw [accounts_enter] at hx
    split at hx
    · obtain rfl := Option.some.inj hx
      exact absurd h0 (Int.ne_of_gt ha)
    · exact h.drained e x hx h0

theorem Unstuck.congr (h : L.Unstuck) (ha : L'.accounts = L.accounts) (hq : L'.queue = L.queue) :
    L'.Unstuck := by
  constructor
  · rw [ha]; exact h.nonneg
  · rw [ha, hq]; exact h.drained

/-- One account changes, and stays away from zero or is queued. -/
theorem Unstuck.update (h : L.Unstuck) {c : ContextNo} {f : Account → Account}
    (ha : L'.accounts = (L.change c f).accounts) (hq : ∀ e ∈ L.queue, e ≠ c → e ∈ L'.queue)
    (hf : ∀ a, L.accounts[c]? = some a → 0 ≤ (f a).slots.count ∧
      ((f a).slots.count = 0 → (f a).isComplete = true ∨ c ∈ L'.queue)) : L'.Unstuck where
  nonneg := by
    intro e x hx
    rw [ha, accounts_change] at hx
    split at hx
    · rename_i he
      subst he
      obtain ⟨a, hc, rfl⟩ := Option.map_eq_some_iff.1 hx
      exact (hf a hc).1
    · exact h.nonneg e x hx
  drained := by
    intro e x hx h0
    rw [ha, accounts_change] at hx
    by_cases he : c = e
    · subst he
      rw [if_pos rfl] at hx
      obtain ⟨a, hc, rfl⟩ := Option.map_eq_some_iff.1 hx
      exact (hf a hc).2 h0
    · rw [if_neg he] at hx
      rcases h.drained e x hx h0 with hcomp | hmem
      · exact .inl hcomp
      · exact .inr (hq e hmem (Ne.symm he))

/-- An account changes in nothing but what it says of the outcome. -/
theorem Unstuck.note (h : L.Unstuck) {c : ContextNo} {f : Account → Account}
    (ha : L'.accounts = (L.change c f).accounts) (hq : L'.queue = L.queue)
    (hs : ∀ a, (f a).slots = a.slots) (hf : ∀ a, (f a).isComplete = a.isComplete) :
    L'.Unstuck := by
  apply h.update ha (fun _ he _ => hq ▸ he)
  intro a hc
  rw [hs, hf, hq]
  exact ⟨h.nonneg c a hc, h.drained c a hc⟩

/-- A slot is taken, and there is room for it. -/
theorem Unstuck.recount (h : L.Unstuck) {c : ContextNo} {a : Account} {slots : Counter}
    (hadd : a.slots.tryAdd = some slots) (hroom : a.slots.count < 2 ^ 31 - 1) :
    (L.recount c slots).Unstuck := by
  obtain ⟨hpos, hone | ⟨hmax, -⟩⟩ := Counter.count_tryAdd hadd
  · apply h.update rfl (fun _ he _ => he)
    intro b _
    show 0 ≤ slots.count ∧ (slots.count = 0 → _)
    refine ⟨by omega, ?_⟩
    intro h0
    omega
  · omega

/-- If counters do not overflow either, no context is left behind. -/
theorem Step.unstuck (ht : t.strict) (h : Step t verdict L L') (hu : L.Unstuck) :
    L'.Unstuck := by
  have hb : t.bounded := (Bool.and_eq_true_iff.1 ht).2
  have hone : 0 < (Counter.start 1).count := by decide
  cases h with
  | root => exact hu.enter hone
  | @linked _ s _ =>
    have htwo : 0 < (Counter.start 2).count := by decide
    exact (hu.enter (a := { link := some s, slots := .start 2 }) htwo).congr (by simp) (by simp)
  | child _ hadd hroom => exact (hu.recount hadd (hroom hb)).enter hone
  | rejected _ hadd hroom => exact (hu.recount hadd (hroom hb)).congr rfl rfl
  | join _ hadd hroom => exact (hu.recount hadd (hroom hb)).congr rfl rfl
  | leave _ _ => exact hu.congr rfl rfl
  | decide _ _ _ => exact hu.note rfl rfl (fun _ => rfl) fun _ => rfl
  | signal _ => exact hu.congr rfl rfl
  | settle _ => exact hu.congr (by simp) (by simp [owe])
  | resolve _ _ => exact hu.congr rfl rfl
  | before _ => exact hu.note rfl rfl (fun _ => rfl) fun _ => rfl
  | answer => exact hu.note rfl rfl (fun _ => rfl) fun _ => rfl
  | @release L c share a last slots hc hr =>
    obtain ⟨hpos, hsub, hlast⟩ := Counter.count_release hr
    apply hu.update (accounts_release L c share slots last)
    · intro e he _
      rw [queue_release]
      split
      · exact List.mem_append_left _ he
      · exact he
    · intro b _
      show 0 ≤ slots.count ∧ (slots.count = 0 → _)
      -- the last slot puts the context into the queue
      refine ⟨by omega, fun h0 => .inr ?_⟩
      rw [queue_release, if_pos (hlast.2 h0)]
      exact List.mem_append_right _ (List.mem_singleton_self c)
  | refuse _ _ => exact hu.congr rfl rfl
  | @complete _ c queue a hq hc =>
    apply hu.update (accounts_complete L c queue a.parent)
    · intro e he hne
      rw [hq] at he
      rw [queue_complete]
      exact (List.mem_cons.1 he).resolve_left hne
    · intro b hb
      exact ⟨hu.nonneg c b hb, fun _ => .inl rfl⟩
  -- the queue is only dropped when a slot could not be given up
  | abandon hstrict => rw [ht] at hstrict; cases hstrict

/-- On those terms a slot that is due can be given up. -/
theorem Unstuck.release_ne_none {c : ContextNo} {share : Share}
    (h : (L.owe (.slot c share)).Unstuck) (hb : (L.owe (.slot c share)).Balanced) {a : Account}
    (hc : L.accounts[c]? = some a) : a.slots.release ≠ none := by
  intro hr
  have hle := Counter.release_eq_none.1 hr
  have hnonneg := h.nonneg c a hc
  rcases hb.open_or_closed hc with hneg | hpos <;> omega

/-! ## All of it -/

/-- What holds of the books on terms `t`. -/
structure Sound (t : Terms) (L : Ledger) : Prop where
  sane : L.Sane
  balanced : t.matched = true → L.Balanced
  unstuck : t.strict = true → L.Unstuck

theorem Step.sound (h : Step t verdict L L') (hs : L.Sound t) : L'.Sound t :=
  ⟨h.sane hs.sane, fun ht => h.balanced ht hs.sane (hs.balanced ht),
    fun ht => h.unstuck ht (hs.unstuck ht)⟩

/-- What holds of the books goes on to hold. -/
theorem Steps.sound (h : Steps t verdict L L') (hs : L.Sound t) : L'.Sound t := by
  induction h with
  | refl => exact hs
  | tail _ hstep ih => exact hstep.sound ih

/-- It holds of empty books. -/
theorem sound_empty : Sound t {} where
  sane := by
    constructor
    case owners => intro d hd; exact absurd hd (Multiset.notMem_zero d)
    case parents => intro c a p ha; cases ha
    case nodup => exact List.nodup_nil
    case queued => intro c hc; cases hc
    case complete => intro c a ha; cases ha
    case outcome => intro c a ha; cases ha
  balanced := by
    intro _
    constructor
    case count => intro c a ha; cases ha
    case leaving => intro c; exact Int.le_refl 0
    case strangers => intro c _; rfl
  unstuck := by
    intro _
    constructor
    case nonneg => intro c a ha; cases ha
    case drained => intro c a ha; cases ha

end FanIn.Ledger
